import CallAtlas.Script.Grammar.Parameter

/-! Types and the members of object types and interfaces. -/
namespace CallAtlas.Script.Grammar

open Reading

private def isPropertyStart (c : Char) : Bool :=
  isNameChar c || c == '[' || c == '#' || c == '"' || c == '\'' || c == '*'

/-- Words that can stand before the name of a member, as long as a name still follows. -/
def modifiers (grammar : Grammar) : Reading Unit := do
  let plain := ["static", "async", "get", "set"].map keyword
  let typed := ["readonly", "abstract", "declare", "accessor"].map keyword
  many do
    anyOf (if grammar.typed then accessibility :: overriding :: (plain ++ typed) else plain)
    require (spaced (char isPropertyStart))
  maybe (mark "*")

private def typedIndex (grammar : Grammar) : Reading Unit := do
  name
  grammar.annotated

private def mappedIndex (grammar : Grammar) : Reading Unit := do
  nameAs .typeIdentifier
  keyword "in"
  grammar.type
  maybe do
    keyword "as"
    grammar.type

/-- The type of whatever has a key of some type. -/
def indexSignature (grammar : Grammar) : Reading Unit := node .indexSignature do
  let sign := maybe (mark "+" <|> mark "-")
  maybe do
    maybe (keyword "static")
    sign
    keyword "readonly"
  inBrackets (grammar.typedIndex <|> grammar.mappedIndex)
  maybe do
    sign
    mark "?"
  maybe grammar.annotated

/-- The name of a member and what stands before it. -/
private def memberName (grammar : Grammar) : Reading Unit := do
  grammar.modifiers
  field .name grammar.propertyName
  maybe (mark "?")

private def typeMember (grammar : Grammar) : Reading Unit :=
  anyOf [
    grammar.indexSignature,
    nodeAs do
      let constructs ← given (keyword "new")
      grammar.callSignature
      return if constructs then .constructSignature else .callSignature,
    node .methodSignature do
      grammar.memberName
      grammar.callSignature,
    node .propertySignature do
      grammar.memberName
      maybe grammar.annotated]

/-- The members of an object type, with a mark or the end of a line after each. -/
def typeMembers (grammar : Grammar) : Reading Unit := inBraces do
  maybe (mark "," <|> mark ";")
  many do
    grammar.typeMember
    anyOf [comma, grammar.semicolon false]

private def functionType (grammar : Grammar) : Reading Unit := nodeAs do
  maybe (keyword "abstract")
  let constructs ← given (keyword "new")
  maybe grammar.typeParameters
  grammar.parameters
  mark "=>"
  field .returnType grammar.returned
  return if constructs then .constructorType else .functionType

private def tupleMember (grammar : Grammar) : Reading Unit := node .tupleMember do
  maybe (mark "...")
  maybe do
    field .name (anyNameAs .identifier)
    maybe (mark "?")
    mark ":"
  field .type grammar.type
  maybe (mark "?")

private def templateType (grammar : Grammar) : Reading Unit := node .templateLiteralType do
  exact "\x60"
  many (anyOf [
    run fun c => c != '\x60' && c != '\\' && c != '$',
    escape,
    nodeHere do
      sign "$\x7b"
      grammar.type
      mark "\x7d"
      return .templateType,
    do exact "$"; refuse (exact "\x7b")])
  exact "\x60"

/-- Parts of a name, each after a dot. -/
private def nested (form : Form) (part : Reading Unit) : Reading Unit :=
  many (wrap form do
    mark "."
    part)

private def importedType (grammar : Grammar) : Reading Unit := node .importType do
  keyword "import"
  inParentheses (scattered comma (grammar.expression false))
  many do
    mark "."
    anyNameAs .propertyIdentifier
  maybe grammar.typeArguments

/-- The type of a value, by its name. -/
private def queriedType (grammar : Grammar) : Reading Unit := node .typeQuery do
  keyword "typeof"
  anyOf [
    grammar.importedType,
    do name <|> node .constant (keyword "this")
       nested .memberExpression (anyNameAs .propertyIdentifier <|> hiddenName)
       maybe grammar.typeArguments]

private def typeWords : List String := ["this", "void", "null", "true", "false", "const"]

private def namedType (grammar : Grammar) : Reading Unit := do
  node .typeIdentifier do
    let first ← word
    check (!isReserved first || typeWords.any fun word => word.toList = first)
  nested .nestedTypeIdentifier (anyNameAs .typeIdentifier)
  maybe (wrap .genericType do
    refuse lineBreak
    grammar.typeArguments)

private def atomicType (grammar : Grammar) : Reading Unit :=
  anyOf [
    node .objectType grammar.typeMembers,
    node .tupleType (inBrackets (listed comma grammar.tupleMember)),
    node .parenthesizedType (inParentheses grammar.type),
    grammar.importedType,
    grammar.queriedType,
    grammar.namedType,
    node .literalType quoted,
    node .literalType do
      maybe (mark "-")
      number,
    grammar.templateType]

/-- A type with the brackets of its arrays and of its indexed parts. -/
private def arrayType (grammar : Grammar) : Reading Unit := do
  grammar.atomicType
  many (wrap .arrayType do
    refuse lineBreak
    inBrackets (maybe grammar.type))

private def typeOperator : Reading Unit := do
  anyOf [keyword "keyof", keyword "unique", keyword "readonly", keyword "infer"]
  refuse (spaced (char fun c => [',', ';', ')', '>', '=', '|', '&', ']', '\x7d', '.', '<'].contains c))

private def operatorType (grammar : Grammar) : Reading Unit :=
  anyOf [
    grammar.functionType,
    node .operatorType do
      typeOperator
      many typeOperator
      grammar.arrayType,
    grammar.arrayType]

/-- Types with a mark between them and perhaps one before. -/
private def joinedTypes (form : Form) (marked item : Reading Unit) : Reading Unit := do
  let join := do
    marked
    item
  node form join <|> item
  many (wrap form join)

private def unionType (grammar : Grammar) : Reading Unit :=
  joinedTypes .unionType (markAlone "|" ['|'])
    (joinedTypes .intersectionType (markAlone "&" ['&']) grammar.operatorType)

/-- A type, which may depend on whether it extends another. -/
def anyType (grammar : Grammar) : Reading Unit := do
  grammar.unionType
  maybe (wrapField .conditionalType .left do
    refuse lineBreak
    keyword "extends"
    field .right grammar.unionType
    mark "?"
    field .consequence grammar.type
    mark ":"
    field .alternative grammar.type)

end CallAtlas.Script.Grammar

import CallAtlas.Script.Grammar

/-! Bindings, parameter lists and decorators. -/
namespace CallAtlas.Script.Grammar

open Reading

/-- A colon and a type. -/
def annotated (grammar : Grammar) : Reading Unit := field .type (node .ascribedType do
  mark ":"
  grammar.type)

def maybeAnnotated (grammar : Grammar) : Reading Unit := do
  if grammar.typed then maybe grammar.annotated

/-- The type arguments of a call, a construction or a type. -/
def typeArguments (grammar : Grammar) : Reading Unit := field .typeArguments (node .typeArguments do
  mark "<"
  listed comma grammar.type
  mark ">")

def maybeTypeArguments (grammar : Grammar) : Reading Unit := do
  if grammar.typed then maybe grammar.typeArguments

private def typeParameter (grammar : Grammar) : Reading Unit := node .typeParameter do
  many do
    anyOf [keyword "const", keyword "in", keyword "out"]
    require name
  field .name (nameAs .typeIdentifier)
  maybe (node .constraint do
    keyword "extends"
    grammar.type)
  maybe (node .defaultType do
    equals
    grammar.type)

def typeParameters (grammar : Grammar) : Reading Unit := field .typeParameters (node .typeParameters do
  mark "<"
  listed comma grammar.typeParameter
  mark ">")

def maybeTypeParameters (grammar : Grammar) : Reading Unit := do
  if grammar.typed then maybe grammar.typeParameters

/-- What a function is said to return: a type, or what holds of an argument. -/
def returned (grammar : Grammar) : Reading Unit :=
  let subject := name <|> keyword "this"
  let holds := do
    keyword "is"
    grammar.type
  anyOf [
    node .asserts do
      keyword "asserts"
      refuse lineBreak
      subject
      maybe holds,
    node .typePredicate do
      subject
      refuse lineBreak
      holds,
    grammar.type]

def maybeReturnType (grammar : Grammar) : Reading Unit := do
  if grammar.typed then
    maybe (field .returnType (node .ascribedType do
      mark ":"
      grammar.returned))

private def rest (grammar : Grammar) : Reading Unit := node .restPattern do
  mark "..."
  grammar.binding

/-- A binding with an optional default value. -/
private def defaulted (grammar : Grammar) (form : Form) (binding : Reading Unit) : Reading Unit := do
  binding
  maybe (wrapField form .left (grammar.initialValue .right))

private def boundProperty (grammar : Grammar) : Reading Unit :=
  anyOf [
    grammar.rest,
    node .pairPattern do
      field .key grammar.propertyName
      mark ":"
      field .value (grammar.defaulted .assignmentPattern grammar.binding),
    grammar.defaulted .objectAssignmentPattern (nameAs .shorthandPropertyIdentifierPattern)]

def objectPattern (grammar : Grammar) : Reading Unit :=
  node .objectPattern (inBraces (scattered comma grammar.boundProperty))

def arrayPattern (grammar : Grammar) : Reading Unit :=
  node .arrayPattern
    (inBrackets (scattered comma (grammar.defaulted .assignmentPattern (grammar.rest <|> grammar.binding))))

/-- A name, or a pattern of names. -/
def bindingTarget (grammar : Grammar) : Reading Unit :=
  anyOf [name, grammar.objectPattern, grammar.arrayPattern]

def decorator (grammar : Grammar) : Reading Unit := node .decorator do
  mark "@"
  anyOf [path, node .parenthesizedExpression (inParentheses (grammar.expression false))]
  maybe (wrapField .callExpression .function do
    grammar.maybeTypeArguments
    field .arguments grammar.arguments)

private def isBindingStart (c : Char) : Bool :=
  isNameChar c || c == '\x7b' || c == '[' || c == '.'

/-- Who may use what follows. -/
def accessibility : Reading Unit :=
  node .accessibilityModifier (anyOf [keyword "public", keyword "private", keyword "protected"])

def overriding : Reading Unit := node .overrideModifier (keyword "override")

private def parameterModifier : Reading Unit := do
  anyOf [accessibility, keyword "readonly", overriding]
  require (spaced (char isBindingStart))

private def typedParameter (grammar : Grammar) : Reading Unit := nodeAs do
  many grammar.decorator
  many parameterModifier
  field .pattern (anyOf [grammar.rest, grammar.binding, node .constant (keyword "this")])
  let isOptional ← given (mark "?")
  grammar.maybeAnnotated
  maybe (grammar.initialValue .value)
  return if isOptional then .optionalParameter else .requiredParameter

private def parameter (grammar : Grammar) : Reading Unit :=
  if grammar.typed then grammar.typedParameter
  else grammar.defaulted .assignmentPattern (grammar.rest <|> grammar.binding)

/-- A parameter list in parentheses. -/
def parameters (grammar : Grammar) : Reading Unit :=
  field .parameters (node .formalParameters (inParentheses (listed comma grammar.parameter)))

/-- The head of a function from its type parameters to its return type. -/
def callSignature (grammar : Grammar) : Reading Unit := do
  grammar.maybeTypeParameters
  grammar.parameters
  grammar.maybeReturnType

end CallAtlas.Script.Grammar

import CallAtlas.Script.Grammar.Element
import CallAtlas.Script.Grammar.Expression

/-! Statements and declarations, imports and exports among them. -/
namespace CallAtlas.Script.Grammar

open Reading

/-- One declared variable or pattern. An exclamation mark stands before a type where the value comes later. -/
private def declarator (grammar : Grammar) : Reading Unit := node .variableDeclarator do
  field .name grammar.binding
  let isPromised ← given do check grammar.typed; mark "!"; grammar.annotated
  if !isPromised then
    grammar.maybeAnnotated
    maybe (grammar.initialValue .value)

private def variableWord : Reading Unit := field .kind (anyOf [keyword "const", keyword "let", keyword "var"])

private def variableStatement (grammar : Grammar) : Reading Unit := nodeAs do
  variableWord
  let form := if ← passed (.token "var") then .variableDeclaration else .lexicalDeclaration
  separated comma grammar.declarator
  grammar.semicolon (← lastHas .value)
  return form

private def condition (grammar : Grammar) : Reading Unit :=
  node .parenthesizedExpression (inParentheses grammar.sequence)

private def branch (grammar : Grammar) : Reading Unit := node .ifStatement do
  keyword "if"
  field .condition grammar.condition
  field .consequence grammar.statement
  maybe (field .alternative (node .elseClause do
    keyword "else"
    grammar.statement))

/-- The head of a loop over the parts of a value. -/
private def eachHead (grammar : Grammar) : Reading Unit := do
  anyOf [
    do variableWord
       field .left grammar.binding
       maybe (grammar.initialValue .value),
    field .left (grammar.operand false)]
  field .operator (keyword "of" <|> keyword "in")
  field .right grammar.sequence

private def countingHead (grammar : Grammar) : Reading Unit := do
  let clause := do
    maybe grammar.sequence
    mark ";"
  if ← ahead variableWord then grammar.variableStatement else clause
  clause
  maybe grammar.sequence

private def loop (grammar : Grammar) : Reading Unit := nodeAs do
  keyword "for"
  maybe (keyword "await")
  let form ← anyOf [
    do inParentheses grammar.eachHead
       return .forInStatement,
    do inParentheses grammar.countingHead
       return .forStatement]
  field .body grammar.statement
  return form

private def whileLoop (grammar : Grammar) : Reading Unit := node .whileStatement do
  keyword "while"
  field .condition grammar.condition
  field .body grammar.statement

private def doLoop (grammar : Grammar) : Reading Unit := node .doStatement do
  keyword "do"
  field .body grammar.statement
  keyword "while"
  field .condition grammar.condition
  maybe (grammar.semicolon false)

private def attempt (grammar : Grammar) : Reading Unit := node .tryStatement do
  keyword "try"
  field .body grammar.block
  maybe (field .handler (node .catchClause do
    keyword "catch"
    maybe (inParentheses do
      field .parameter grammar.binding
      grammar.maybeAnnotated)
    field .body grammar.block))
  maybe (field .finalizer (node .finallyClause do
    keyword "finally"
    field .body grammar.block))

private def switchCase (grammar : Grammar) : Reading Unit := nodeAs do
  let form ← anyOf [
    do keyword "case"
       field .value grammar.sequence
       return .switchCase,
    do keyword "default"
       return .switchDefault]
  mark ":"
  many (field .body grammar.statement)
  return form

private def selection (grammar : Grammar) : Reading Unit := node .switchStatement do
  keyword "switch"
  field .value grammar.condition
  field .body (node .switchBody (inBraces (many grammar.switchCase)))

/-- A statement of one word that may be followed by an expression on its line. -/
private def result (grammar : Grammar) (form : Form) (word : String) : Reading Unit := node form do
  keyword word
  anyOf [
    grammar.semicolon false,
    do grammar.sequence
       grammar.semicolon true]

private def jump (grammar : Grammar) (form : Form) (word : String) : Reading Unit := node form do
  keyword word
  maybe do
    refuse lineBreak
    field .label (nameAs .statementIdentifier)
  grammar.semicolon false

private def withStatement (grammar : Grammar) : Reading Unit := node .withStatement do
  keyword "with"
  field .object grammar.condition
  field .body grammar.statement

private def labelled (grammar : Grammar) : Reading Unit := node .labeledStatement do
  field .label (nameAs .statementIdentifier)
  mark ":"
  field .body grammar.statement

private def expressionStatement (grammar : Grammar) : Reading Unit := node .expressionStatement do
  grammar.sequence
  grammar.semicolon true

private def interfaceDeclaration (grammar : Grammar) : Reading Unit := node .interfaceDeclaration do
  keyword "interface"
  grammar.typeName
  grammar.maybeTypeParameters
  maybe (node .extendsTypeClause do
    keyword "extends"
    separated comma grammar.type)
  field .body (node .interfaceBody grammar.typeMembers)

private def typeAlias (grammar : Grammar) : Reading Unit := node .typeAliasDeclaration do
  keyword "type"
  grammar.typeName
  grammar.maybeTypeParameters
  equals
  field .value grammar.type
  grammar.semicolon false

private def enumeration (grammar : Grammar) : Reading Unit := node .enumDeclaration do
  maybe (keyword "const")
  keyword "enum"
  field .name name
  field .body (node .enumBody (inBraces (scattered comma do
    field .name grammar.propertyName
    maybe (wrap .enumAssignment (grammar.initialValue .value)))))

private def moduleDeclaration (grammar : Grammar) : Reading Unit := node .moduleDeclaration do
  keyword "namespace" <|> keyword "module"
  refuse lineBreak
  field .name (path <|> quoted)
  if !(← given (field .body grammar.block)) then grammar.semicolon false

private def globalBlock (grammar : Grammar) : Reading Unit := do
  keyword "global"
  grammar.block

private def isClassStart : Reading Unit := do
  maybe (keyword "abstract")
  keyword "class"

/-- What can be declared, exported or announced. -/
private def declaration (grammar : Grammar) : Reading Unit := do
  if ← ahead (do functionWords; name) then grammar.functionDeclaration
  else if ← ahead (mark "@") then grammar.classDeclaration
  else if ← ahead (do isClassStart; name) then grammar.classDeclaration
  else if ← ahead (do keyword "const"; keyword "enum") then
    check grammar.typed
    grammar.enumeration
  else if ← ahead (do keyword "let"; spaced (char fun c => isNameChar c || c == '[' || c == '\x7b')) then
    grammar.variableStatement
  else if ← ahead (keyword "const" <|> keyword "var") then grammar.variableStatement
  else
    check grammar.typed
    if ← ahead (do keyword "interface"; name) then grammar.interfaceDeclaration
    else if ← ahead (do keyword "type"; name) then grammar.typeAlias
    else if ← ahead (keyword "enum") then grammar.enumeration
    else if ← ahead (do keyword "declare"; refuse lineBreak; word) then
      node .ambientDeclaration do
        keyword "declare"
        grammar.globalBlock <|> grammar.statement
    else grammar.moduleDeclaration <|> node .ambientDeclaration grammar.globalBlock

private def fromSource : Reading Unit := do
  keyword "from"
  field .source quoted

/-- Conditions on how a module is loaded. -/
private def loadConditions (grammar : Grammar) : Reading Unit := maybe (node .importAttribute do
  keyword "with" <|> keyword "assert"
  grammar.object)

private def exportedName : Reading Unit := anyNameAs .identifier <|> quoted

private def specifier (form : Form) : Reading Unit := node form do
  maybe do
    keyword "type" <|> keyword "typeof"
    require exportedName
    refuse (keyword "as")
  exportedName
  maybe do
    keyword "as"
    exportedName

private def specifiers (form item : Form) : Reading Unit := node form (inBraces (listed comma (specifier item)))

private def namespaceImport : Reading Unit := node .namespaceImport do
  mark "*"
  keyword "as"
  name

private def importClause : Reading Unit := node .importClause do
  let listed := namespaceImport <|> specifiers .namedImports .importSpecifier
  listed <|> do
    name
    maybe do
      comma
      listed

/-- A name for a part of a namespace or for a required module. -/
private def importAlias (grammar : Grammar) : Reading Unit := do
  let named := do
    keyword "import"
    maybe (do keyword "type"; require name)
  let required := node .importRequireClause do
    name
    equals
    keyword "require"
    inParentheses (field .source quoted)
  anyOf [
    node .importStatement do
      named
      required
      grammar.semicolon true,
    node .importAlias do
      named
      name
      equals
      path
      grammar.semicolon true]

private def importing (grammar : Grammar) : Reading Unit :=
  anyOf [
    node .importStatement do
      keyword "import"
      field .source quoted
      grammar.loadConditions
      grammar.semicolon false,
    node .importStatement do
      keyword "import"
      maybe do
        check grammar.typed
        keyword "type" <|> keyword "typeof"
        refuse (keyword "from")
        require importClause
      importClause
      fromSource
      grammar.loadConditions
      grammar.semicolon false,
    do check grammar.typed
       grammar.importAlias]

/-- The names, or everything, of an export. -/
private def exportList (grammar : Grammar) : Reading Unit := do
  maybe do
    check grammar.typed
    keyword "type"
    require (mark "\x7b" <|> mark "*")
  let everything := anyOf [
    node .namespaceExport do
      mark "*"
      keyword "as"
      exportedName,
    mark "*"]
  anyOf [
    do everything
       fromSource,
    do specifiers .exportClause .exportSpecifier
       maybe fromSource]
  if ← lastIs .string then grammar.loadConditions
  grammar.semicolon false

private def exportedValue (grammar : Grammar) (value : Reading Unit) : Reading Unit := do
  value
  grammar.semicolon true

private def exporting (grammar : Grammar) : Reading Unit := node .exportStatement do
  many grammar.decorator
  keyword "export"
  let value := grammar.expression false
  let declared := field .declaration grammar.declaration
  if ← ahead (mark "*" <|> mark "\x7b") then grammar.exportList
  else if ← ahead (do keyword "type"; mark "*" <|> mark "\x7b") then grammar.exportList
  else if ← given (keyword "default") then
    if ← ahead (anyOf [do functionWords; name,
        do many grammar.decorator
           isClassStart
           refuse (keyword "extends")
           name,
        do check grammar.typed
           keyword "interface" <|> keyword "enum"
           name]) then declared
    else grammar.exportedValue (field .value value)
  else if grammar.typed && (← given equals) then grammar.exportedValue value
  else if grammar.typed && (← given (do keyword "as"; keyword "namespace")) then
    name
    grammar.semicolon false
  else if grammar.typed && (← ahead (keyword "import")) then grammar.importAlias
  else declared

/-- The statement that begins with a given word, if that word always begins the same one. -/
private def reservedStatement? (grammar : Grammar) (word : String) : Option (Reading Unit) :=
  match word with
  | "if" => some grammar.branch
  | "for" => some grammar.loop
  | "while" => some grammar.whileLoop
  | "do" => some grammar.doLoop
  | "try" => some grammar.attempt
  | "switch" => some grammar.selection
  | "return" => some (grammar.result .returnStatement word)
  | "throw" => some (grammar.result .throwStatement word)
  | "break" => some (grammar.jump .breakStatement word)
  | "continue" => some (grammar.jump .continueStatement word)
  | "debugger" => some (grammar.jump .debuggerStatement word)
  | "with" => some grammar.withStatement
  | "export" => some grammar.exporting
  | "const" | "var" | "function" | "class" => some grammar.declaration
  | _ => none

/-- Whether a declaration begins here, by words that could also be names. -/
private def startsDeclaration (grammar : Grammar) : Reading Unit :=
  anyOf [
    do keyword "async"
       refuse lineBreak
       keyword "function",
    do keyword "let"
       refuse (keyword "in" <|> keyword "instanceof")
       spaced (char fun c => isNameChar c || c == '[' || c == '\x7b'),
    do check grammar.typed
       anyOf [keyword "interface", keyword "type", keyword "enum", keyword "declare", keyword "namespace",
         keyword "module", keyword "abstract"]
       refuse lineBreak
       (do let _ ← word) <|> quoted,
    do check grammar.typed
       keyword "global"
       mark "\x7b"]

def anyStatement (grammar : Grammar) : Reading Unit := do
  if ← ahead (mark "\x7b") then grammar.block
  else if ← ahead (mark ";") then node .emptyStatement (mark ";")
  else if ← ahead (mark "@") then
    if ← ahead (do many grammar.decorator; keyword "export") then grammar.exporting
    else grammar.classDeclaration
  else
    match ← peek word with
    | none => grammar.expressionStatement
    | some found =>
      match grammar.reservedStatement? (String.ofList found) with
      | some statement => statement
      | none =>
        if found = "import".toList && !(← ahead (do keyword "import"; mark "(" <|> mark ".")) then
          grammar.importing
        else if ← ahead grammar.startsDeclaration then grammar.declaration
        else if ← ahead (do name; mark ":") then grammar.labelled
        else grammar.expressionStatement

end CallAtlas.Script.Grammar

import CallAtlas.Script.Grammar.Function

/-! Expressions. All operators bind alike, from left to right, since only the order of the operands and the form of a
single operand matter. -/
namespace CallAtlas.Script.Grammar

open Reading

/-- What may follow type arguments that belong to no call. -/
private def endsInstance : Reading Unit :=
  anyOf [finished, lineBreak, spaced (char [')', ']', '\x7d', ',', ';', ':', '.', '?', '='].contains)]

private def access : Reading Unit := wrapField .memberExpression .object do
  mark "."
  member

private def subscript (grammar : Grammar) : Reading Unit := wrapField .subscriptExpression .object do
  inBrackets (field .index grammar.sequence)

/-- A construction with `new`, up to its arguments. -/
private def construction (grammar : Grammar) (target : Reading Unit) : Reading Unit := node .newExpression do
  keyword "new"
  field .constructor do
    target
    many (access <|> grammar.subscript)
  maybe do
    check grammar.typed
    grammar.typeArguments
    require (mark "(" <|> endsInstance)
  maybe (field .arguments grammar.arguments)

private def constants : List String := ["this", "super", "null", "true", "false", "undefined"]

private def constant : Reading Unit := node .constant do
  let found ← word
  check (constants.any fun word => word.toList = found)

/-- Words that begin with `import` or `new` and a dot, and the callee of a dynamic import. -/
private def metaProperty : Reading Unit :=
  anyOf [
    node .metaProperty do
      keyword "new"
      mark "."
      keyword "target",
    node .metaProperty do
      keyword "import"
      mark "."
      anyNameAs .propertyIdentifier,
    do node .importFunction (keyword "import")
       require (mark "(")]

private def closedOperand (grammar : Grammar) : Reading Unit :=
  anyOf [
    metaProperty,
    constant,
    name,
    quoted,
    number,
    grammar.template,
    node .parenthesizedExpression (inParentheses do
      grammar.sequence
      grammar.maybeAnnotated),
    grammar.array,
    grammar.object,
    regularExpression]

/-- An operand by the way it starts. -/
private def startedOperand (grammar : Grammar) : Reading Unit := do
  if ← ahead functionWords then grammar.functionExpression
  else if ← ahead (keyword "class" <|> mark "@") then grammar.classExpression
  else if ← ahead (mark "<") then
    check grammar.dialect.hasMarkup
    grammar.element
  else if ← ahead (do keyword "new"; refuse (mark ".")) then
    grammar.construction (if ← ahead (do keyword "new"; keyword "new") then grammar.operand false
      else grammar.closedOperand <|> grammar.functionExpression <|> grammar.classExpression)
  else grammar.closedOperand

/-- What makes a call of an operand. -/
private def called (grammar : Grammar) : Reading Unit := field .arguments (grammar.arguments <|> grammar.template)

/-- What follows an operand that may be missing at run time. -/
private def chained (grammar : Grammar) : Reading Unit := do
  let chain := node .optionalChain do
    mark "?."
    refuse (char Text.isDigit)
  anyOf [
    wrapField .memberExpression .object (do chain; member),
    wrapField .subscriptExpression .object do
      chain
      inBrackets (field .index grammar.sequence),
    wrapField .callExpression .function do
      chain
      grammar.maybeTypeArguments
      grammar.called]

/-- What an operand goes on with: a property, an index, arguments or a template. -/
private def suffix (grammar : Grammar) : Reading Unit :=
  anyOf [
    access,
    grammar.chained,
    grammar.subscript,
    wrapField .callExpression .function grammar.called,
    wrap .nonNullExpression do
      check grammar.typed
      refuse lineBreak
      markAlone "!" ['='],
    wrapField .callExpression .function do
      check grammar.typed
      grammar.typeArguments
      grammar.called,
    wrapField .instantiationExpression .function do
      check grammar.typed
      grammar.typeArguments
      require endsInstance]

private def step : Reading Unit := field .operator (mark "++" <|> mark "--")

/-- An operand with what it goes on with. -/
private def followedOperand (grammar : Grammar) (beforeColon : Bool) : Reading Unit := do
  if ← given (grammar.arrowFunction beforeColon) then
    if ← lastHolds .body .statementBlock then many grammar.suffix
  else
    grammar.startedOperand
    many grammar.suffix
    maybe (wrapField .updateExpression .argument do
      refuse lineBreak
      step)

/-- A sign or a word before an operand. -/
private def leading (grammar : Grammar) (beforeColon : Bool) (form : Form) (operator : Reading Unit) : Reading Unit :=
  node form do
    operator
    field .argument (grammar.operand beforeColon)

private def unaryOperators : List (Reading Unit) :=
  ["!", "~", "+", "-"].map sign ++ ["typeof", "void", "delete"].map keyword

/-- A value handed out by a generator, which may be missing. -/
private def yielded (grammar : Grammar) (beforeColon : Bool) : Reading Unit := node .yieldExpression do
  keyword "yield"
  let delegated ← given (mark "*")
  let missing ← ahead (anyOf [lineBreak, finished, spaced (char [')', ']', '\x7d', ',', ';', ':'].contains)])
  if delegated || !missing then grammar.expression beforeColon

/-- An operand with the operators before it. -/
def anyOperand (grammar : Grammar) (beforeColon : Bool) : Reading Unit :=
  anyOf [
    grammar.yielded beforeColon,
    grammar.leading beforeColon .updateExpression step,
    grammar.leading beforeColon .awaitExpression (keyword "await"),
    grammar.leading beforeColon .unaryExpression (field .operator (anyOf unaryOperators)),
    grammar.followedOperand beforeColon,
    node .typeAssertion do
      check (grammar.dialect = .typed)
      grammar.typeArguments
      grammar.operand beforeColon]

private def augmentedOperators : List String :=
  [">>>=", "**=", "<<=", ">>=", "&&=", "||=", "??=", "+=", "-=", "*=", "/=", "%=", "&=", "|=", "^="]

private def binaryOperators : List String :=
  ["===", "!==", ">>>", "==", "!=", "<=", ">=", "&&", "||", "??", "**", "<<", ">>", "+", "-", "*", "%", "&", "|", "^",
   "<", ">"]

/-- A sign or a word between two operands, and what it makes of them. -/
private def operator : Reading Form := spaced do
  anyOf [
    do refuse step
       field .operator (anyOf (augmentedOperators.map sign))
       return .augmentedAssignmentExpression,
    do refuse step
       field .operator (anyOf (binaryOperators.map sign))
       return .binaryExpression,
    do field .operator (markAlone "/" ['/', '*'])
       return .binaryExpression,
    do equals
       return .assignmentExpression,
    do field .operator (keyword "instanceof" <|> keyword "in")
       return .binaryExpression]

/-- A type that an operand is said to have. -/
private def ascription (grammar : Grammar) : Reading Form := do
  check grammar.typed
  refuse lineBreak
  let form ← anyOf [
    do keyword "as"; return .asExpression,
    do keyword "satisfies"; return .satisfiesExpression]
  grammar.type
  return form

/-- The two branches after a question mark. -/
private def branches (grammar : Grammar) (beforeColon : Bool) : Reading Unit := do
  label .condition
  mark "?"
  refuse (char (· == '?'))
  refuse (do exact "."; refuse (char Text.isDigit))
  let branch (beforeColon : Bool) : Reading Unit := do
    field .consequence (grammar.expression beforeColon)
    mark ":"
  if grammar.typed then branch false <|> branch true else branch false
  field .alternative (grammar.expression beforeColon)

private def continuation (grammar : Grammar) (beforeColon : Bool) : Reading Unit :=
  anyOf [
    wrapAs grammar.ascription,
    wrap .ternaryExpression (grammar.branches beforeColon),
    wrapAs do
      label .left
      let form ← operator
      field .right (grammar.operand beforeColon)
      return form]

/-- An expression without commas on its own level. -/
def anyExpression (grammar : Grammar) (beforeColon : Bool) : Reading Unit := do
  grammar.operand beforeColon
  many (grammar.continuation beforeColon)

end CallAtlas.Script.Grammar

import CallAtlas.Script.Grammar.Types

/-! Functions, methods, classes and objects. -/
namespace CallAtlas.Script.Grammar

open Reading

/-- The words before the name of a function. -/
def functionWords : Reading Unit := do
  maybe (keyword "async")
  keyword "function"
  maybe (mark "*")

def functionExpression (grammar : Grammar) : Reading Unit := nodeAs do
  functionWords
  let form := if ← passed (.token "*") then .generatorFunction else .functionExpression
  maybe (field .name name)
  grammar.callSignature
  field .body grammar.block
  return form

/-- A function with a name. Without a body it only announces one. -/
def functionDeclaration (grammar : Grammar) : Reading Unit := nodeAs do
  functionWords
  let form := if ← passed (.token "*") then .generatorFunctionDeclaration else .functionDeclaration
  field .name name
  grammar.callSignature
  if ← given (field .body grammar.block) then
    maybe (grammar.ending true)
    return form
  else
    check grammar.typed
    grammar.semicolon false
    return .functionSignature

/-- What stands before the body of an arrow function. Before a colon no type is looked for that it would return. -/
private def arrowHead (grammar : Grammar) (beforeColon : Bool) : Reading Unit := do
  maybe do
    keyword "async"
    refuse (lineBreak <|> mark "=>")
  anyOf [
    field .parameter name,
    if beforeColon then do
      grammar.maybeTypeParameters
      grammar.parameters
    else grammar.callSignature]
  mark "=>"

def arrowFunction (grammar : Grammar) (beforeColon : Bool) : Reading Unit := node .arrowFunction do
  grammar.arrowHead beforeColon
  let braced ← ahead (mark "\x7b")
  field .body (if braced then grammar.block else grammar.expression beforeColon)

private def staticBlock (grammar : Grammar) : Reading Unit := node .classStaticBlock do
  keyword "static"
  field .body grammar.block

/-- A method from the words before its name to its body. -/
private def methodRest (grammar : Grammar) : Reading Unit := do
  grammar.modifiers
  field .name grammar.propertyName
  if grammar.typed then maybe (mark "?")
  grammar.callSignature
  field .body grammar.block

private def plainMember (grammar : Grammar) : Reading Unit :=
  anyOf [
    do node .methodDefinition do
         many grammar.decorator
         grammar.methodRest
       maybe (mark ";"),
    do node .fieldDefinition do
         many grammar.decorator
         grammar.modifiers
         field .property grammar.propertyName
         maybe (grammar.initialValue .value)
       grammar.semicolon (← lastHas .value)]

/-- A method, an announced method or a field. The decorators of a field are inside it, those of a method are not. -/
private def typedMember (grammar : Grammar) : Reading Unit :=
  anyOf [
    do many grammar.decorator
       node .methodDefinition grammar.methodRest
       maybe (mark ";"),
    do many grammar.decorator
       nodeAs do
         grammar.modifiers
         let form := if ← passed (.token "abstract") then .abstractMethodSignature else .methodSignature
         field .name grammar.propertyName
         maybe (mark "?")
         grammar.callSignature
         return form
       anyOf [comma, grammar.semicolon false],
    do node .publicFieldDefinition do
         many grammar.decorator
         grammar.modifiers
         field .name grammar.propertyName
         maybe (mark "!" <|> mark "?")
         maybe grammar.annotated
         maybe (grammar.initialValue .value)
       anyOf [comma, grammar.semicolon (← lastHas .value)]]

private def classPart (grammar : Grammar) : Reading Unit :=
  anyOf [
    mark ";",
    grammar.staticBlock,
    do check grammar.typed
       grammar.indexSignature
       anyOf [comma, grammar.semicolon false],
    if grammar.typed then grammar.typedMember else grammar.plainMember]

private def extending (grammar : Grammar) : Reading Unit := do
  keyword "extends"
  field .value (grammar.operand false)

private def implementing (grammar : Grammar) : Reading Unit := node .implementsClause do
  keyword "implements"
  separated comma grammar.type

private def classHeritage (grammar : Grammar) : Reading Unit := node .classHeritage do
  if grammar.typed then
    let extended ← given (node .extendsClause do
      grammar.extending
      grammar.maybeTypeArguments)
    if extended then maybe grammar.implementing else grammar.implementing
  else grammar.extending

/-- The name of a class or of a type. -/
def typeName (grammar : Grammar) : Reading Unit :=
  field .name (nameAs (if grammar.typed then .typeIdentifier else .identifier))

/-- A class from its keyword on. -/
private def classRest (grammar : Grammar) (named : Reading Unit) : Reading Unit := do
  keyword "class"
  named
  grammar.maybeTypeParameters
  maybe grammar.classHeritage
  field .body (node .classBody (inBraces (many grammar.classPart)))

def classExpression (grammar : Grammar) : Reading Unit := node .classExpression do
  many grammar.decorator
  grammar.classRest (maybe do
    refuse (keyword "implements")
    grammar.typeName)

/-- A class with a name, after the decorators that stand in front of it. -/
def classDeclaration (grammar : Grammar) : Reading Unit := nodeAs do
  many grammar.decorator
  let isAbstract ← given (do check grammar.typed; keyword "abstract")
  grammar.classRest do
    refuse (keyword "implements")
    grammar.typeName
  maybe (grammar.ending true)
  return if isAbstract then .abstractClassDeclaration else .classDeclaration

private def objectPart (grammar : Grammar) : Reading Unit :=
  anyOf [
    grammar.spread,
    node .pair do
      field .key grammar.propertyName
      mark ":"
      field .value (grammar.expression false),
    node .methodDefinition grammar.methodRest,
    do nameAs .shorthandPropertyIdentifier
       maybe (wrapField .objectAssignmentPattern .left (grammar.initialValue .right))]

def object (grammar : Grammar) : Reading Unit := node .object (inBraces (scattered comma grammar.objectPart))

def array (grammar : Grammar) : Reading Unit :=
  node .array (inBrackets (scattered comma (grammar.spread <|> grammar.expression false)))

end CallAtlas.Script.Grammar

import CallAtlas.Script.Grammar.Parameter

/-! Elements: opening and closing tags with attributes, text and expressions in braces between them. A closing tag
need not repeat the name of the opening one. -/
namespace CallAtlas.Script.Grammar

open Reading

private def isTagChar (c : Char) : Bool := isNameChar c || c == '-'

/-- The name of a tag or an attribute, possibly with hyphens and a namespace. -/
private def tagName (form : Form) : Reading Unit := do
  let part := node form do
    char fun c => isNameChar c && !Text.isDigit c
    move (Cursor.skipWhile isTagChar)
  part
  maybe (wrap .jsxNamespaceName do
    mark ":"
    part)

/-- The name of an element: that of a tag, or names with dots between them. -/
private def elementName : Reading Unit := field .name do
  tagName .identifier
  many (wrapField .memberExpression .object do
    mark "."
    field .property (anyNameAs .propertyIdentifier))

/-- A character by its name or number. -/
private def characterReference : Reading Unit := do
  exact "&"
  maybe (exact "#")
  run Text.isAlphanumeric
  exact ";"

private def attributeText (quote : Char) : Reading Unit := node .string do
  char (· == quote)
  many (anyOf [
    run (fun c => c != quote && c != '&'),
    characterReference,
    do exact "&"
       refuse (char fun c => c == '#' || Text.isLetter c)])
  char (· == quote)

/-- An expression in braces, which may be missing. -/
private def embedded (grammar : Grammar) : Reading Unit :=
  node .jsxExpression (inBraces (maybe (grammar.spread <|> grammar.sequence)))

private def elementAttribute (grammar : Grammar) : Reading Unit :=
  anyOf [
    grammar.embedded,
    node .jsxAttribute do
      tagName .propertyIdentifier
      maybe do
        mark "="
        anyOf [attributeText '"', attributeText '\'', grammar.embedded, grammar.element]]

/-- The name and the attributes of an element, after its angle bracket. -/
private def tagInside (grammar : Grammar) : Reading Unit := do
  elementName
  grammar.maybeTypeArguments
  many grammar.elementAttribute

/-- An opening tag, or that of an element which is closed at once. -/
private def openingTag (grammar : Grammar) : Reading Unit := nodeAs do
  mark "<"
  let named ← given grammar.tagInside
  if named && (← given (mark "/>")) then return .jsxSelfClosingElement
  mark ">"
  return .jsxOpeningElement

private def closingTag : Reading Unit := node .jsxClosingElement do
  mark "</"
  maybe elementName
  mark ">"

private def isText (c : Char) : Bool :=
  c != '<' && c != '>' && c != '\x7b' && c != '\x7d' && c != '&'

private def elementPart (grammar : Grammar) : Reading Unit :=
  anyOf [
    leafHere .jsxText (run isText <|> characterReference),
    do refuse (mark "</")
       grammar.element,
    grammar.embedded]

/-- An element with everything up to its closing tag. -/
def anyElement (grammar : Grammar) : Reading Unit := do
  grammar.openingTag
  if ← lastIs .jsxOpeningElement then
    wrapField .jsxElement .openTag do
      many grammar.elementPart
      field .closeTag closingTag

end CallAtlas.Script.Grammar

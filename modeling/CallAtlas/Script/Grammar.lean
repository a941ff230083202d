import CallAtlas.Language
import CallAtlas.Script.Clause
import CallAtlas.Script.Lexeme

/-! What the readings of a grammar share: the dialects, the parts of the grammar that can hold each other, and where
a statement may end without a semicolon. -/
namespace CallAtlas.Script

inductive Dialect where
  | plain
  | typed
  | typedMarkup
  deriving DecidableEq, Repr

namespace Dialect

def hasTypes : Dialect → Bool
  | plain => false
  | typed | typedMarkup => true

def hasMarkup : Dialect → Bool
  | typed => false
  | plain | typedMarkup => true

/-- The dialect of a script. Scripts with types may hold elements if they look as if they did. -/
def of? (language : Language) (text : List Char) : Option Dialect :=
  match language with
  | .javascript => some plain
  | .typescript => some (if Script.hasMarkup text then typedMarkup else typed)
  | .tsx => some typedMarkup
  | _ => none

end Dialect

/-- The parts of a grammar that can hold each other, to a bounded depth; each reads one node. An expression is told
whether it stands between a question mark and the colon that belongs to it. -/
structure Grammar where
  dialect : Dialect
  statement : Reading Unit
  expression : (beforeColon : Bool) → Reading Unit
  operand : (beforeColon : Bool) → Reading Unit
  binding : Reading Unit
  type : Reading Unit
  element : Reading Unit

namespace Grammar

open Reading

/-- The grammar of no depth, which reads nothing. -/
def empty (dialect : Dialect) : Grammar :=
  { dialect, statement := fail, expression := fun _ => fail, operand := fun _ => fail, binding := fail
    type := fail, element := fail }

def typed (grammar : Grammar) : Bool := grammar.dialect.hasTypes

private def isInlineSpace (c : Char) : Bool := isSpace c && c != '\n'

/-- Whether a text starts with a word that stands between two operands. -/
private def startsOperatorWord (text : List Char) : Bool :=
  ["in", "instanceof"].any fun word =>
    match Text.after? word text with
    | some (c :: _) => !Text.isLetter c
    | some [] => true
    | none => false

/-- Whether a line that begins like this goes on with the statement of the line before. -/
def continuesStatement (dialect : Dialect) (afterExpression : Bool) : List Char → Bool
  | [] => false
  | c :: rest =>
    if ['\x60', ',', ':', ';', '*', '%', '>', '<', '=', '?', '^', '|', '&', '/'].contains c then true
    else if c == '(' || c == '[' then afterExpression || !dialect.hasTypes
    else if c == '.' then dialect.hasTypes || !rest.head?.any Text.isDigit
    else if c == '+' || c == '-' then rest.head? != some c
    else if c == '!' then rest.head? == some '='
    else startsOperatorWord (c :: rest)

private def startsLine (dialect : Dialect) (afterExpression : Bool) : Reading Unit := do
  trivia
  check (!continuesStatement dialect afterExpression (← upcoming))

/-- Whether a statement may end before the block comments that stand here. -/
private def endsBeforeComments (dialect : Dialect) (afterExpression : Bool) : Reading Unit := do
  let line ← Reading.line
  many (run isInlineSpace <|> blockComment)
  let broken := line < (← Reading.line)
  let text ← upcoming
  match text with
  | [] | '\x7d' :: _ => pure ()
  | '\n' :: _ => startsLine dialect afterExpression
  | '/' :: '/' :: _ =>
    trivia
    let text ← upcoming
    check (text.head? == some '\x7d' ||
      (!afterExpression && !(text.head?.any fun c => c == ',' || c == '=')))
  | c :: _ => check (broken && !afterExpression && c != ',' && c != '=')

private def endsAfterComments (dialect : Dialect) (afterExpression : Bool) : Reading Unit := do
  move (Cursor.skipWhile isInlineSpace)
  match ← upcoming with
  | [] | '\x7d' :: _ => pure ()
  | '\n' :: _ => startsLine dialect afterExpression
  | _ => fail

private def endsHere (dialect : Dialect) (afterExpression : Bool) : Reading Unit :=
  if dialect.hasTypes then endsAfterComments dialect afterExpression
  else endsBeforeComments dialect afterExpression

/-- The end of a statement without a semicolon: at the end of a block or of the script, or before a line that
does not go on with it. Comments on the last line belong to the statement where it cannot end before them. -/
def ending (grammar : Grammar) (afterExpression : Bool) : Reading Unit := do
  let ends := endsHere grammar.dialect afterExpression
  many do
    refuse ends
    move (Cursor.skipWhile isInlineSpace)
    comment
  require ends

def semicolon (grammar : Grammar) (afterExpression : Bool) : Reading Unit :=
  mark ";" <|> grammar.ending afterExpression

def comma : Reading Unit := mark ","

def inParentheses (inside : Reading Unit) : Reading Unit := do
  mark "("
  inside
  mark ")"

def inBraces (inside : Reading Unit) : Reading Unit := do
  mark "\x7b"
  inside
  mark "\x7d"

def inBrackets (inside : Reading Unit) : Reading Unit := do
  mark "["
  inside
  mark "]"

def block (grammar : Grammar) : Reading Unit := node .statementBlock (inBraces (many grammar.statement))

/-- Expressions with commas between them. -/
def sequence (grammar : Grammar) : Reading Unit := do
  let expression := grammar.expression false
  expression
  maybe (wrap .sequenceExpression do
    comma
    separated comma expression)

def spread (grammar : Grammar) : Reading Unit := node .spreadElement do
  mark "..."
  grammar.expression false

/-- An equals sign and the value after it. -/
def initialValue (grammar : Grammar) (role : Field) : Reading Unit := do
  equals
  field role (grammar.expression false)

def template (grammar : Grammar) : Reading Unit := node .templateString do
  exact "\x60"
  many (anyOf [
    run (fun c => c != '\x60' && c != '\\' && c != '$'),
    escape,
    nodeHere do
      sign "$\x7b"
      grammar.sequence
      mark "\x7d"
      return .templateSubstitution,
    do exact "$"; refuse (exact "\x7b")])
  exact "\x60"

def arguments (grammar : Grammar) : Reading Unit :=
  node .arguments (inParentheses (scattered comma (grammar.spread <|> grammar.expression false)))

/-- The name of a property, which may be computed. -/
def propertyName (grammar : Grammar) : Reading Unit :=
  anyOf [
    anyNameAs .propertyIdentifier,
    hiddenName,
    quoted,
    number,
    node .computedPropertyName (inBrackets (grammar.expression false))]

/-- A property by its name, after the dot. -/
def member : Reading Unit := field .property (anyNameAs .propertyIdentifier <|> hiddenName)

/-- A name that a decorator or a module goes by, property by property. -/
def path : Reading Unit := do
  name
  many (wrapField .memberExpression .object do
    mark "."
    field .property (anyNameAs .propertyIdentifier))

end Grammar
end CallAtlas.Script

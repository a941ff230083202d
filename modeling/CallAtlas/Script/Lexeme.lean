import CallAtlas.Script.Reading
import CallAtlas.Text.Character
import CallAtlas.Text.Cut

/-! The words of scripts: names, marks, numbers, strings and regular expressions, with the blanks and comments
before them. -/
namespace CallAtlas.Script.Reading

/-- Spaces other than those of ASCII, and the invisible characters that count as blank. -/
private def isWideSpace (c : Char) : Bool :=
  let n := c.toNat
  n == 0xA0 || n == 0x1680 || (0x2000 ≤ n && n ≤ 0x200B) || n == 0x2028 || n == 0x2029 || n == 0x202F ||
    n == 0x205F || n == 0x2060 || n == 0x3000 || n == 0xFEFF

def isSpace (c : Char) : Bool := c == ' ' || ('\t' ≤ c && c ≤ '\r') || isWideSpace c

/-- Characters that mean something of their own and so end a name. -/
def isPunctuation (c : Char) : Bool :=
  [':', ';', '\x60', '"', '\'', '@', '#', '.', ',', '|', '^', '&', '<', '=', '>', '+', '-', '*', '/', '\\',
   '%', '?', '!', '~', '(', ')', '[', ']', '\x7b', '\x7d'].contains c

/-- Names are made of everything that is neither blank nor punctuation nor a control character. -/
def isNameChar (c : Char) : Bool := ' ' < c && !isPunctuation c && !isWideSpace c

def isHexDigit (c : Char) : Bool :=
  Text.isDigit c || ('a' ≤ c && c ≤ 'f') || ('A' ≤ c && c ≤ 'F')

def isOctalDigit (c : Char) : Bool := '0' ≤ c && c ≤ '7'

/-- The next character, if it is of a kind. -/
def char (passes : Char → Bool) : Reading Unit := do
  check ((← upcoming).head?.any passes)
  move Cursor.next

/-- The longest run of characters of a kind, at least one. -/
def run (passes : Char → Bool) : Reading Unit := do
  char passes
  move (Cursor.skipWhile passes)

/-- A given text, exactly here. -/
def exact (text : String) : Reading Unit := do
  check (Text.after? text (← upcoming)).isSome
  move (Cursor.skip text.length)

def lineComment : Reading Unit := do
  exact "//"
  move (Cursor.skipWhile (· != '\n'))

/-- How many characters a text has up to and with the end of a comment. -/
private def commentLength? (read : Nat) : List Char → Option Nat
  | '*' :: '/' :: _ => some (read + 2)
  | _ :: rest => commentLength? (read + 1) rest
  | [] => none

def blockComment : Reading Unit := do
  exact "/*"
  match commentLength? 0 (← upcoming) with
  | some length => move (Cursor.skip length)
  | none => fail

/-- A node without children. -/
def leafHere (form : Form) (text : Reading Unit) : Reading Unit := nodeHere do text; return form

def comment : Reading Unit := leafHere .comment (lineComment <|> blockComment)

/-- Blanks and comments, as many as there are. -/
def trivia : Reading Unit := many (run isSpace <|> comment)

def lineBreak : Reading Unit := do
  let line ← Reading.line
  trivia
  check (line < (← Reading.line))

/-- Something after blanks and comments. -/
def spaced {α : Type} (reading : Reading α) : Reading α := do
  trivia
  reading

/-- A node, after the blanks and comments before it; these belong to its parent. -/
def nodeAs (inside : Reading Form) : Reading Unit := spaced (nodeHere inside)

def node (form : Form) (inside : Reading Unit) : Reading Unit := nodeAs do inside; return form

def finished : Reading Unit := spaced do check (← upcoming).isEmpty

/-- A mark exactly here. -/
def sign (text : String) : Reading Unit := leafHere (.token text) (exact text)

def mark (text : String) : Reading Unit := spaced (sign text)

/-- A mark that is not the beginning of a longer one. -/
def markAlone (text : String) (following : List Char) : Reading Unit := do
  mark text
  refuse (char following.contains)

/-- The sign between a name and its value. -/
def equals : Reading Unit := markAlone "=" ['=', '>']

/-- The text of a name, also of one that the language reserves. -/
def word : Reading (List Char) := spaced do
  let start ← get
  char fun c => isNameChar c && !Text.isDigit c
  move (Cursor.skipWhile isNameChar)
  return Excerpt.text ⟨start.cursor, (← get).cursor⟩

def keyword (text : String) : Reading Unit := node (.token text) do
  let found ← word
  check (found = text.toList)

def reservedWords : List String :=
  ["break", "case", "catch", "class", "const", "continue", "debugger", "default", "delete", "do", "else", "enum",
   "export", "extends", "false", "finally", "for", "function", "if", "import", "in", "instanceof", "new",
   "null", "return", "super", "switch", "this", "throw", "true", "try", "typeof", "var", "void", "while", "with"]

def isReserved (name : List Char) : Bool := reservedWords.any fun word => word.toList = name

/-- A name that the language does not reserve. -/
def nameAs (form : Form) : Reading Unit := node form do
  let text ← word
  check (!isReserved text)

def name : Reading Unit := nameAs .identifier

/-- Any name, also one that the language reserves. -/
def anyNameAs (form : Form) : Reading Unit := node form do let _ ← word

/-- A name that begins with a number sign. -/
def hiddenName : Reading Unit := node .privatePropertyIdentifier do
  exact "#"
  char fun c => isNameChar c && !Text.isDigit c
  move (Cursor.skipWhile isNameChar)

private def digits (passes : Char → Bool) : Reading Unit := do
  run passes
  many do
    exact "_"
    run passes

private def exponent : Reading Unit := do
  char fun c => c == 'e' || c == 'E'
  maybe (char fun c => c == '+' || c == '-')
  digits Text.isDigit

private def radixNumber (marks : List Char) (passes : Char → Bool) : Reading Unit := do
  exact "0"
  char marks.contains
  digits passes

private def decimalNumber : Reading Unit :=
  (do digits Text.isDigit
      maybe do
        exact "."
        maybe (digits Text.isDigit)
      maybe exponent) <|>
  (do exact "."
      digits Text.isDigit
      maybe exponent)

def number : Reading Unit := node .number do
  anyOf [radixNumber ['x', 'X'] isHexDigit, radixNumber ['o', 'O'] isOctalDigit,
    radixNumber ['b', 'B'] (fun c => c == '0' || c == '1'), decimalNumber]
  maybe (exact "n")

/-- A backslash and what it stands before. -/
def escape : Reading Unit := do
  exact "\\"
  let hexDigit := char isHexDigit
  anyOf [
    char fun c => c != 'x' && c != 'u' && !isOctalDigit c,
    do char isOctalDigit; maybe (char isOctalDigit); maybe (char isOctalDigit),
    do exact "x"; hexDigit; hexDigit,
    do exact "u"; hexDigit; hexDigit; hexDigit; hexDigit,
    do exact "u\x7b"; run isHexDigit; exact "\x7d"]

private def quotedBy (quote : Char) : Reading Unit := do
  char (· == quote)
  many (run (fun c => c != quote && c != '\\' && c != '\n' && c != '\r') <|> escape)
  char (· == quote)

/-- A string on one line, with its quotes. -/
def quoted : Reading Unit := node .string (quotedBy '"' <|> quotedBy '\'')

private def escapedAny : Reading Unit := do
  exact "\\"
  char (· != '\n')

private def characterClass : Reading Unit := do
  exact "["
  many (run (fun c => c != ']' && c != '\\' && c != '\n') <|> escapedAny)
  exact "]"

def regularExpression : Reading Unit := node .regex do
  exact "/"
  refuse (char fun c => c == '*' || c == '/')
  many (anyOf [characterClass, escapedAny,
    run fun c => c != '/' && c != '\\' && c != '[' && c != '\n'])
  exact "/"
  move (Cursor.skipWhile Text.isLower)

end CallAtlas.Script.Reading

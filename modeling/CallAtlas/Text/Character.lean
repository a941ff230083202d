import CallAtlas.Text.CodePoints

/-! Character classes: blanks, word characters, letters and digits. ASCII is decided by comparison alone, so a
closed statement about ASCII text never opens the code point tables. -/
namespace CallAtlas.Text

/-- Blanks are the characters with the White_Space property. -/
def isBlank (c : Char) : Bool :=
  let n := c.toNat
  if n < 0x80 then n == 0x20 || (0x9 ≤ n && n ≤ 0xD)
  else n == 0x85 || n == 0xA0 || n == 0x1680 || (0x2000 ≤ n && n ≤ 0x200A) || n == 0x2028 ||
    n == 0x2029 || n == 0x202F || n == 0x205F || n == 0x3000

def isDigit (c : Char) : Bool := '0' ≤ c && c ≤ '9'

def isUpper (c : Char) : Bool := 'A' ≤ c && c ≤ 'Z'

def isLower (c : Char) : Bool := 'a' ≤ c && c ≤ 'z'

def isLetter (c : Char) : Bool := isUpper c || isLower c

/-- Letters and numbers of every script. -/
def isAlphanumeric (c : Char) : Bool :=
  if c.toNat < 0x80 then isLetter c || isDigit c
  else CodePoints.within CodePoints.alphabetic c.toNat || CodePoints.within CodePoints.numeric c.toNat

/-- Characters that a word is made of, in every script: letters, marks, decimal digits and connectors. -/
def isWord (c : Char) : Bool :=
  if c.toNat < 0x80 then isLetter c || isDigit c || c == '_'
  else CodePoints.within CodePoints.alphabetic c.toNat || CodePoints.within CodePoints.joining c.toNat

/-- The first character of an identifier: a letter of ASCII or an underscore. -/
def startsName (c : Char) : Bool := isLetter c || c == '_'

def isQuote (c : Char) : Bool := c == '"' || c == '\'' || c == '\x60'

/-- ASCII letters become lower case and every other character stays. -/
def lower (c : Char) : Char := if isUpper c then Char.ofNat (c.toNat + 32) else c

def lowercase (text : List Char) : List Char := text.map lower

end CallAtlas.Text

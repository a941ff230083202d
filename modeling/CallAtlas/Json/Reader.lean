import CallAtlas.Json.Value

/-! Reading JSON text. The text is cut into tokens by a machine that looks at one character at a time, and the
tokens are put together with a stack of open brackets; both run once over their input. -/
namespace CallAtlas.Json

inductive Token where
  | openArray
  | closeArray
  | openObject
  | closeObject
  | comma
  | colon
  | value (value : Json)
  deriving Repr

/-- What a character machine is in the middle of; texts are held last character first. -/
inductive Mode where
  | between
  | word (held : List Char)
  | string (held : List Char)
  | escaped (held : List Char)
  /-- Some digits of a code unit are read; `high` is a first surrogate that waits for its second. -/
  | unit (held : List Char) (high : Option Nat) (digits value : Nat)
  /-- After a first surrogate only the escape of a second may follow. -/
  | afterHigh (held : List Char) (high : Nat)
  | afterHighEscape (held : List Char) (high : Nat)

def isSpace (c : Char) : Bool := c == ' ' || c == '\n' || c == '\t' || c == '\r'

def punctuation? : Char → Option Token
  | '[' => some .openArray
  | ']' => some .closeArray
  | '{' => some .openObject
  | '}' => some .closeObject
  | ',' => some .comma
  | ':' => some .colon
  | _ => none

def isWordChar (c : Char) : Bool :=
  Text.isLetter c || Text.isDigit c || c == '-' || c == '+' || c == '.'

def skipDigits? (text : List Char) : Option (List Char) :=
  if text.head?.any Text.isDigit then some (text.dropWhile Text.isDigit) else none

def fraction? : List Char → Option (List Char)
  | '.' :: rest => skipDigits? rest
  | text => some text

def exponent? : List Char → Option (List Char)
  | 'e' :: rest | 'E' :: rest =>
    match rest with
    | '+' :: digits | '-' :: digits => skipDigits? digits
    | _ => skipDigits? rest
  | text => some text

def whole? : List Char → Option (List Char)
  | '0' :: rest => some rest
  | text => skipDigits? text

/-- Whether a text without its sign is a number: no leading zeros, digits around the point. -/
def isUnsigned (text : List Char) : Bool :=
  match (whole? text).bind fraction? |>.bind exponent? with
  | some [] => true
  | _ => false

/-- The value of a word outside of quotes. -/
def wordValue? (word : List Char) : Option Json :=
  if word = "null".toList then some .null
  else if word = "true".toList then some (.bool true)
  else if word = "false".toList then some (.bool false)
  else
    match word with
    | '-' :: digits => if isUnsigned digits then some (.number (String.ofList word)) else none
    | _ =>
      if isUnsigned word then
        if word.all Text.isDigit then
          some (.natural (word.foldl (fun value digit => value * 10 + (digit.toNat - '0'.toNat)) 0))
        else some (.number (String.ofList word))
      else none

def plainEscape? : Char → Option Char
  | '"' => some '"'
  | '\\' => some '\\'
  | '/' => some '/'
  | 'b' => some '\x08'
  | 'f' => some '\x0c'
  | 'n' => some '\n'
  | 'r' => some '\r'
  | 't' => some '\t'
  | _ => none

def hexValue? (c : Char) : Option Nat :=
  if Text.isDigit c then some (c.toNat - 48)
  else if 'a' ≤ c ∧ c ≤ 'f' then some (c.toNat - 87)
  else if 'A' ≤ c ∧ c ≤ 'F' then some (c.toNat - 55)
  else none

/-- The mode after a whole code unit. A first surrogate waits for its second, and neither stands alone. -/
def afterUnit? (held : List Char) (high : Option Nat) (value : Nat) : Option Mode :=
  match high with
  | some high =>
    if 0xDC00 ≤ value ∧ value ≤ 0xDFFF then
      some (.string (Char.ofNat (0x10000 + (high - 0xD800) * 0x400 + (value - 0xDC00)) :: held))
    else none
  | none =>
    if 0xD800 ≤ value ∧ value ≤ 0xDBFF then some (.afterHigh held value)
    else if 0xDC00 ≤ value ∧ value ≤ 0xDFFF then none
    else some (.string (Char.ofNat value :: held))

/-- A character between tokens. -/
def between? (done : List Token) (c : Char) : Option (Mode × List Token) :=
  if isSpace c then some (.between, done)
  else if c = '"' then some (.string [], done)
  else
    match punctuation? c with
    | some token => some (.between, token :: done)
    | none => if isWordChar c then some (.word [c], done) else none

def advance? (mode : Mode) (done : List Token) (c : Char) : Option (Mode × List Token) :=
  match mode with
  | .between => between? done c
  | .word held =>
    if isWordChar c then some (.word (c :: held), done)
    else (wordValue? held.reverse).bind fun value => between? (.value value :: done) c
  | .string held =>
    if c = '"' then some (.between, .value (.string (String.ofList held.reverse)) :: done)
    else if c = '\\' then some (.escaped held, done)
    else if c.toNat < 32 then none
    else some (.string (c :: held), done)
  | .escaped held =>
    if c = 'u' then some (.unit held none 0 0, done)
    else (plainEscape? c).map fun plain => (.string (plain :: held), done)
  | .unit held high digits value =>
    (hexValue? c).bind fun digit =>
      let value := value * 16 + digit
      if digits = 3 then (afterUnit? held high value).map fun mode => (mode, done)
      else some (.unit held high (digits + 1) value, done)
  | .afterHigh held high => if c = '\\' then some (.afterHighEscape held high, done) else none
  | .afterHighEscape held high => if c = 'u' then some (.unit held (some high) 0 0, done) else none

def tokensFrom (mode : Mode) (done : List Token) : List Char → Option (List Token)
  | [] =>
    match mode with
    | .between => some done.reverse
    | .word held => (wordValue? held.reverse).map fun value => (Token.value value :: done).reverse
    | _ => none
  | c :: rest =>
    match advance? mode done c with
    | some (mode, done) => tokensFrom mode done rest
    | none => none

/-- The tokens of a text. -/
def tokens? (text : List Char) : Option (List Token) := tokensFrom .between [] text

/-- An open bracket with what it holds so far, last part first. -/
inductive Frame where
  | array (items : List Json)
  | object (fields : List (String × Json))
  | field (fields : List (String × Json)) (name : String)

/-- What may come next. -/
inductive Expected where
  /-- A value; `closing` when the bracket may also be closed. -/
  | value (closing : Bool)
  /-- The name of a field; `closing` when the bracket may also be closed. -/
  | name (closing : Bool)
  | colon
  | next
  deriving DecidableEq

/-- Where the building stands: open brackets, or the finished value. -/
inductive Build where
  | building (expected : Expected) (frames : List Frame)
  | finished (value : Json)

/-- Hands a complete value to the innermost bracket. -/
def Build.give (value : Json) : List Frame → Option Build
  | [] => some (.finished value)
  | .array items :: outer => some (.building .next (.array (value :: items) :: outer))
  | .field fields name :: outer => some (.building .next (.object ((name, value) :: fields) :: outer))
  | .object _ :: _ => none

def Build.step (build : Build) (token : Token) : Option Build :=
  match build with
  | .finished _ => none
  | .building expected frames =>
    match expected, token with
    | .value _, .value value => give value frames
    | .value _, .openArray => some (.building (.value true) (.array [] :: frames))
    | .value _, .openObject => some (.building (.name true) (.object [] :: frames))
    | .value true, .closeArray =>
      match frames with
      | .array items :: outer => give (.array items.reverse) outer
      | _ => none
    | .name _, .value (.string name) =>
      match frames with
      | .object fields :: outer => some (.building .colon (.field fields name :: outer))
      | _ => none
    | .name true, .closeObject =>
      match frames with
      | .object fields :: outer => give (.object fields.reverse) outer
      | _ => none
    | .colon, .colon => some (.building (.value false) frames)
    | .next, .comma =>
      match frames with
      | .array _ :: _ => some (.building (.value false) frames)
      | .object _ :: _ => some (.building (.name false) frames)
      | _ => none
    | .next, .closeArray =>
      match frames with
      | .array items :: outer => give (.array items.reverse) outer
      | _ => none
    | .next, .closeObject =>
      match frames with
      | .object fields :: outer => give (.object fields.reverse) outer
      | _ => none
    | _, _ => none

def buildFrom (build : Build) : List Token → Option Json
  | [] =>
    match build with
    | .finished value => some value
    | .building .. => none
  | token :: rest =>
    match build.step token with
    | some build => buildFrom build rest
    | none => none

/-- Reads a text that holds exactly one value. -/
def parse? (text : String) : Option Json :=
  (tokens? text.toList).bind (buildFrom (.building (.value false) []))

end CallAtlas.Json

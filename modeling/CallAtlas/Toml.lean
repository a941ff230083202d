import CallAtlas.Json.Value
import CallAtlas.Text.Cut

/-! Reading TOML documents. A document becomes one value: tables are objects, and dates are numbers that no
setting accepts. -/
namespace CallAtlas.Toml

private def isSpace (c : Char) : Bool := c == ' ' || c == '\t'

private def skipSpaces (text : List Char) : List Char := text.dropWhile isSpace

/-- Characters that may stand in comments and quoted text on one line. -/
private def isPrintable (c : Char) : Bool := c == '\t' || (32 ≤ c.toNat && c.toNat != 127)

/-- What follows a line end. -/
private def lineEnd? : List Char → Option (List Char)
  | '\n' :: rest => some rest
  | '\r' :: '\n' :: rest => some rest
  | _ => none

/-- The text after an optional comment; the comment holds only printable characters. -/
private def skipComment? (text : List Char) : Option (List Char) :=
  match text with
  | '#' :: rest =>
    let left := rest.dropWhile isPrintable
    if left.isEmpty || (lineEnd? left).isSome then some left else none
  | _ => some text

/-- The rest of a line that holds nothing more than blanks and a comment. -/
private def finishLine? (text : List Char) : Option (List Char) :=
  match skipComment? (skipSpaces text) with
  | some [] => some []
  | some left => lineEnd? left
  | none => none

/-- Skips blanks, comments and line ends. -/
private def skipLines? : (bound : Nat) → List Char → Option (List Char)
  | 0, text => some text
  | bound + 1, text =>
    match skipComment? (skipSpaces text) with
    | none => none
    | some left =>
      match lineEnd? left with
      | some rest => skipLines? bound rest
      | none => some left

private def hexValue? (c : Char) : Option Nat :=
  if Text.isDigit c then some (c.toNat - 48)
  else if 'a' ≤ c ∧ c ≤ 'f' then some (c.toNat - 87)
  else if 'A' ≤ c ∧ c ≤ 'F' then some (c.toNat - 55)
  else none

private def hexNumber? (digits : List Char) : Option Nat :=
  (digits.mapM hexValue?).map fun values => values.foldl (fun value digit => value * 16 + digit) 0

/-- The character with a code point, if there is one. -/
private def scalar? (point : Nat) : Option Char :=
  if h : point.isValidChar then some (Char.ofNatAux point h) else none

/-- An escape after its backslash, and how many characters it takes. -/
private def escape? (text : List Char) : Option (Char × Nat) :=
  match text with
  | 'b' :: _ => some ('\x08', 1)
  | 't' :: _ => some ('\t', 1)
  | 'n' :: _ => some ('\n', 1)
  | 'f' :: _ => some ('\x0c', 1)
  | 'r' :: _ => some ('\r', 1)
  | '"' :: _ => some ('"', 1)
  | '\\' :: _ => some ('\\', 1)
  | 'u' :: rest =>
    if 4 ≤ rest.length then (hexNumber? (rest.take 4)).bind scalar? |>.map fun c => (c, 5) else none
  | 'U' :: rest =>
    if 8 ≤ rest.length then (hexNumber? (rest.take 8)).bind scalar? |>.map fun c => (c, 9) else none
  | _ => none

/-- The rest of a basic string; the next `skip` characters belong to an escape. -/
private def basicRest? (held : List Char) : (skip : Nat) → List Char → Option (List Char × List Char)
  | _, [] => none
  | skip + 1, _ :: rest => basicRest? held skip rest
  | 0, c :: rest =>
    if c = '"' then some (held.reverse, rest)
    else if c = '\\' then
      match escape? rest with
      | some (escaped, length) => basicRest? (escaped :: held) length rest
      | none => none
    else if isPrintable c then basicRest? (c :: held) 0 rest
    else none

private def literalRest? (held : List Char) : List Char → Option (List Char × List Char)
  | [] => none
  | c :: rest =>
    if c = '\'' then some (held.reverse, rest)
    else if isPrintable c then literalRest? (c :: held) rest
    else none

/-- After a backslash at the end of a line, all blanks and line ends are passed over. -/
private def foldLength? (text : List Char) : Option Nat :=
  let spaces := (text.takeWhile isSpace).length
  if (lineEnd? (text.drop spaces)).isSome then
    some (text.takeWhile fun c => isSpace c || c == '\n' || c == '\r').length
  else none

/-- Closing quotes of a string over several lines: up to two quotes may stand before the last three. -/
private def closing? (quote : Char) (text : List Char) : Option (List Char × List Char) :=
  let quotes := (text.takeWhile (· == quote)).length
  if 3 ≤ quotes then
    let kept := min (quotes - 3) 2
    some (List.replicate kept quote, text.drop (kept + 3))
  else none

private def multiBasicRest? (held : List Char) : (skip : Nat) → List Char → Option (List Char × List Char)
  | _, [] => none
  | skip + 1, _ :: rest => multiBasicRest? held skip rest
  | 0, c :: rest =>
    match closing? '"' (c :: rest) with
    | some (kept, left) => some (held.reverse ++ kept, left)
    | none =>
      if c = '\\' then
        match escape? rest with
        | some (escaped, length) => multiBasicRest? (escaped :: held) length rest
        | none =>
          match foldLength? rest with
          | some length => multiBasicRest? held length rest
          | none => none
      else if c = '\r' then
        if rest.head? = some '\n' then multiBasicRest? ('\n' :: held) 1 rest else none
      else if c = '\n' || isPrintable c then multiBasicRest? (c :: held) 0 rest
      else none

private def multiLiteralRest? (held : List Char) : List Char → Option (List Char × List Char)
  | [] => none
  | c :: rest =>
    match closing? '\'' (c :: rest) with
    | some (kept, left) => some (held.reverse ++ kept, left)
    | none =>
      if c = '\r' then if rest.head? = some '\n' then multiLiteralRest? held rest else none
      else if c = '\n' || isPrintable c then multiLiteralRest? (c :: held) rest
      else none

private def afterFirstLineEnd (text : List Char) : List Char := (lineEnd? text).getD text

private def singleString? : List Char → Option (List Char × List Char)
  | '"' :: rest => basicRest? [] 0 rest
  | '\'' :: rest => literalRest? [] rest
  | _ => none

/-- A string in any of its four forms. -/
private def string? : List Char → Option (List Char × List Char)
  | '"' :: '"' :: '"' :: rest => multiBasicRest? [] 0 (afterFirstLineEnd rest)
  | '\'' :: '\'' :: '\'' :: rest => multiLiteralRest? [] (afterFirstLineEnd rest)
  | text => singleString? text

private def isBare (c : Char) : Bool := Text.isLetter c || Text.isDigit c || c == '_' || c == '-'

private def simpleKey? (text : List Char) : Option (String × List Char) :=
  match text.takeWhile isBare with
  | [] => (singleString? text).map fun (name, rest) => (String.ofList name, rest)
  | name => some (String.ofList name, text.dropWhile isBare)

/-- A key, possibly of several parts with dots between them. -/
private def key? : (bound : Nat) → List Char → Option (List String × List Char)
  | 0, _ => none
  | bound + 1, text =>
    match simpleKey? (skipSpaces text) with
    | none => none
    | some (name, rest) =>
      match skipSpaces rest with
      | '.' :: more => (key? bound more).map fun (names, left) => (name :: names, left)
      | left => some ([name], left)

/-- Digits with single underscores between them, without the underscores. -/
private def spaced? (isDigit : Char → Bool) (text : List Char) : Option (List Char) :=
  let groups := text.splitOn '_'
  if groups.all fun group => !group.isEmpty && group.all isDigit then some groups.flatten else none

private def decimalValue (digits : List Char) : Nat :=
  digits.foldl (fun value digit => value * 10 + (digit.toNat - '0'.toNat)) 0

private def noLeadingZero (digits : List Char) : Bool := digits.length == 1 || digits.head? != some '0'

private def radixValue (radix : Nat) (digits : List Char) : Nat :=
  digits.foldl (fun value digit => value * radix + (hexValue? digit).getD 0) 0

private def isBelow (radix : Nat) (c : Char) : Bool := (hexValue? c).any fun value => value < radix

private def unsigned? (word : List Char) : Option Nat :=
  match word with
  | '0' :: 'x' :: digits => (spaced? (isBelow 16) digits).map (radixValue 16)
  | '0' :: 'o' :: digits => (spaced? (isBelow 8) digits).map (radixValue 8)
  | '0' :: 'b' :: digits => (spaced? (isBelow 2) digits).map (radixValue 2)
  | _ => none

private def decimal? (word : List Char) : Option Nat :=
  match spaced? Text.isDigit word with
  | some digits => if noLeadingZero digits then some (decimalValue digits) else none
  | none => none

private def withoutSign : List Char → List Char
  | '+' :: rest | '-' :: rest => rest
  | word => word

private def isExponent (word : List Char) : Bool := (spaced? Text.isDigit (withoutSign word)).isSome

private def isFraction (word : List Char) : Bool :=
  match Text.cutAtChars? ['e'] (Text.lowercase word) with
  | some (digits, exponent) => (spaced? Text.isDigit digits).isSome && isExponent exponent
  | none => (spaced? Text.isDigit word).isSome

private def isFloat (word : List Char) : Bool :=
  let word := withoutSign word
  if word = "inf".toList ∨ word = "nan".toList then true
  else
    match Text.cutAt? "." word with
    | some (whole, fraction) => (decimal? whole).isSome && isFraction fraction
    | none =>
      match Text.cutAtChars? ['e'] (Text.lowercase word) with
      | some (whole, exponent) => (decimal? whole).isSome && isExponent exponent
      | none => false

/-- Whether a text has the given shape, where `0` stands for any digit. -/
private def hasShape (shape : String) (text : List Char) : Bool :=
  shape.length == text.length &&
    (List.zip shape.toList text).all fun (wanted, c) => if wanted = '0' then Text.isDigit c else wanted == c

private def isTime (text : List Char) : Bool :=
  hasShape "00:00:00" (text.take 8) &&
    match text.drop 8 with
    | [] => true
    | '.' :: digits => !digits.isEmpty && digits.all Text.isDigit
    | _ => false

private def isOffsetTime (text : List Char) : Bool :=
  let offset := text.drop (text.length - 6)
  isTime text || ((text.getLast?.any fun c => c == 'Z' || c == 'z') && isTime text.dropLast) ||
    ((hasShape "+00:00" offset || hasShape "-00:00" offset) && isTime (text.take (text.length - 6)))

private def isDate (text : List Char) : Bool :=
  hasShape "0000-00-00" (text.take 10) &&
    match text.drop 10 with
    | [] => true
    | 'T' :: time | 't' :: time | ' ' :: time => isOffsetTime time
    | _ => false

/-- The value of a word outside of quotes. -/
private def wordValue? (word : List Char) : Option Json :=
  if word = "true".toList then some (.bool true)
  else if word = "false".toList then some (.bool false)
  else
    match (unsigned? word).or (decimal? (match word with | '+' :: rest => rest | _ => word)) with
    | some value => some (.natural value)
    | none =>
      if (word.head? = some '-' ∧ (decimal? word.tail).isSome) ∨ isFloat word ∨ isDate word ∨ isTime word then
        some (.number (String.ofList word))
      else none

private def isWordChar (c : Char) : Bool := isBare c || c == '+' || c == '.' || c == ':'

/-- A word outside of quotes. A date may be followed by a blank and a time. -/
private def word (text : List Char) : List Char × List Char :=
  let first := text.takeWhile isWordChar
  let rest := text.dropWhile isWordChar
  match rest with
  | ' ' :: c :: more =>
    if hasShape "0000-00-00" first && Text.isDigit c then
      (first ++ ' ' :: (c :: more).takeWhile isWordChar, (c :: more).dropWhile isWordChar)
    else (first, rest)
  | _ => (first, rest)

/-- How a table came about, which decides whether it may still grow: only named on the way to a deeper one, by a header
of its own, or by a key with dots. -/
inductive Origin where
  | implied
  | header
  | dotted
  deriving DecidableEq

inductive Node where
  | value (value : Json)
  | table (origin : Origin) (fields : List (String × Node))
  /-- Tables of one name, the latest first. -/
  | tables (items : List (List (String × Node)))

namespace Node

abbrev Fields := List (String × Node)

/-- Changes the node of a name; the change sees nothing when there is no such node. -/
def update? (name : String) (change : Option Node → Option Node) : Fields → Option Fields
  | [] => (change none).map fun node => [(name, node)]
  | (other, node) :: rest =>
    if other = name then (change (some node)).map fun node => (other, node) :: rest
    else (update? name change rest).map fun rest => (other, node) :: rest

/-- Works on the table that a path of names leads to, opening missing tables on the way. -/
def atTable? : (path : List String) → (work : Fields → Option Fields) → Fields → Option Fields
  | [], work, fields => work fields
  | name :: path, work, fields =>
    update? name
      (fun
        | none => (atTable? path work []).map (table .implied)
        | some (table origin inner) => (atTable? path work inner).map (table origin)
        | some (tables (latest :: earlier)) =>
          (atTable? path work latest).map fun latest => tables (latest :: earlier)
        | some _ => none)
      fields

/-- Opens a table by its header. -/
def openTable? (name : String) : Fields → Option Fields :=
  update? name fun
    | none => some (table .header [])
    | some (table .implied inner) => some (table .header inner)
    | some _ => none

/-- Opens one more table of a list of tables. -/
def openItem? (name : String) : Fields → Option Fields :=
  update? name fun
    | none => some (tables [[]])
    | some (tables items) => some (tables ([] :: items))
    | some _ => none

/-- Sets a value by a key of one or more parts. -/
def set? (value : Json) : (key : List String) → Fields → Option Fields
  | [], _ => none
  | [name], fields =>
    update? name (fun
      | none => some (Node.value value)
      | some _ => none) fields
  | name :: more, fields =>
    update? name
      (fun
        | none => (set? value more []).map (table .dotted)
        | some (table .dotted inner) => (set? value more inner).map (table .dotted)
        | some (table .implied inner) => (set? value more inner).map (table .implied)
        | some _ => none)
      fields

mutual

def toJson : Node → Json
  | value leaf => leaf
  | table _ fields => .object (fieldsJson fields)
  | tables items => .array (itemsJson items).reverse

def fieldsJson : List (String × Node) → List (String × Json)
  | [] => []
  | (name, node) :: rest => (name, toJson node) :: fieldsJson rest

def itemsJson : List (List (String × Node)) → List Json
  | [] => []
  | fields :: rest => .object (fieldsJson fields) :: itemsJson rest

end

end Node

/-- Items of an array from the first one or the closing bracket on. -/
private def items? (value? : List Char → Option (Json × List Char)) :
    (bound : Nat) → List Char → Option (List Json × List Char)
  | 0, _ => none
  | bound + 1, text => do
    match ← skipLines? text.length text with
    | ']' :: rest => return ([], rest)
    | text =>
      let (item, rest) ← value? text
      match ← skipLines? rest.length rest with
      | ']' :: rest => return ([item], rest)
      | ',' :: rest =>
        let (items, left) ← items? value? bound rest
        return (item :: items, left)
      | _ => none

/-- Fields of a table in braces, after the first brace or a comma. -/
private def fields? (value? : List Char → Option (Json × List Char)) (known : Node.Fields) :
    (bound : Nat) → List Char → Option (Node.Fields × List Char)
  | 0, _ => none
  | bound + 1, text => do
    let (key, rest) ← key? text.length text
    match rest with
    | '=' :: rest =>
      let (value, rest) ← value? (skipSpaces rest)
      let known ← Node.set? value key known
      match skipSpaces rest with
      | '}' :: rest => return (known, rest)
      | ',' :: rest => fields? value? known bound rest
      | _ => none
    | _ => none

/-- A value that nests at most `depth` brackets. -/
private def valueAt? : (depth : Nat) → List Char → Option (Json × List Char)
  | 0, _ => none
  | depth + 1, text =>
    match text with
    | '"' :: _ | '\'' :: _ => (string? text).map fun (value, rest) => (.string (String.ofList value), rest)
    | '[' :: rest => (items? (valueAt? depth) rest.length rest).map fun (items, left) => (.array items, left)
    | '{' :: rest =>
      match skipSpaces rest with
      | '}' :: left => some (.object [], left)
      | _ => (fields? (valueAt? depth) [] rest.length rest).map fun (fields, left) =>
        (.object (Node.fieldsJson fields), left)
    | _ =>
      let (first, rest) := word text
      (wordValue? first).map fun value => (value, rest)

/-- A value at the start of a text. -/
private def value? (text : List Char) : Option (Json × List Char) := valueAt? (text.length + 1) text

/-- What is read so far: all tables, and the path of the table that keys belong to. -/
private structure Document where
  root : Node.Fields := []
  current : List String := []

private def keyValue? (document : Document) (text : List Char) : Option (Document × List Char) := do
  let (key, rest) ← key? text.length text
  match rest with
  | '=' :: rest =>
    let (value, rest) ← value? (skipSpaces rest)
    let root ← Node.atTable? document.current (Node.set? value key) document.root
    return ({ document with root }, ← finishLine? rest)
  | _ => none

private def openAt? (path : List String) (opening : String → Node.Fields → Option Node.Fields)
    (root : Node.Fields) : Option Node.Fields :=
  match path.getLast? with
  | some name => Node.atTable? path.dropLast (opening name) root
  | none => none

private def header? (document : Document) (text : List Char) : Option (Document × List Char) :=
  match text with
  | '[' :: '[' :: rest => do
    let (path, rest) ← key? rest.length rest
    match rest with
    | ']' :: ']' :: rest =>
      return ({ root := ← openAt? path Node.openItem? document.root, current := path }, ← finishLine? rest)
    | _ => none
  | '[' :: rest => do
    let (path, rest) ← key? rest.length rest
    match rest with
    | ']' :: rest =>
      return ({ root := ← openAt? path Node.openTable? document.root, current := path }, ← finishLine? rest)
    | _ => none
  | _ => none

private def readFrom? : (bound : Nat) → Document → List Char → Option Document
  | 0, document, text => if text.isEmpty then some document else none
  | bound + 1, document, text => do
    match ← skipLines? text.length text with
    | [] => return document
    | '[' :: rest =>
      let (document, left) ← header? document ('[' :: rest)
      readFrom? bound document left
    | text =>
      let (document, left) ← keyValue? document text
      readFrom? bound document left

/-- Reads a document. -/
def parse? (text : String) : Option Json :=
  (readFrom? text.length {} text.toList).map fun document => .object (Node.fieldsJson document.root)

end CallAtlas.Toml

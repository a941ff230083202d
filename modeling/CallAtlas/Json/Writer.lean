import CallAtlas.Json.Value

/-! JSON text. The pretty form puts every item and field on a line of its own, two blanks deeper than its
bracket; empty brackets stay together. -/
namespace CallAtlas.Json

def hexDigit (n : Nat) : Char := if n < 10 then Char.ofNat (48 + n) else Char.ofNat (87 + n)

/-- A character as it stands between quotes. -/
def escape (c : Char) : List Char :=
  if c = '"' then ['\\', '"']
  else if c = '\\' then ['\\', '\\']
  else if c = '\n' then ['\\', 'n']
  else if c = '\r' then ['\\', 'r']
  else if c = '\t' then ['\\', 't']
  else if c = '\x08' then ['\\', 'b']
  else if c = '\x0c' then ['\\', 'f']
  else if c.toNat < 32 then ['\\', 'u', '0', '0', hexDigit (c.toNat / 16), hexDigit (c.toNat % 16)]
  else [c]

/-- A text between quotes. -/
def quote (text : String) : String := "\"" ++ String.ofList (text.toList.flatMap escape) ++ "\""

mutual

/-- A value on one line, without blanks. -/
def compact : Json → String
  | null => "null"
  | bool true => "true"
  | bool false => "false"
  | natural value => toString value
  | number lexeme => lexeme
  | string value => quote value
  | array items => "[" ++ compactItems items ++ "]"
  | object fields => "\x7b" ++ compactFields fields ++ "\x7d"

def compactItems : List Json → String
  | [] => ""
  | [item] => compact item
  | item :: rest => compact item ++ "," ++ compactItems rest

def compactFields : List (String × Json) → String
  | [] => ""
  | [(name, value)] => quote name ++ ":" ++ compact value
  | (name, value) :: rest => quote name ++ ":" ++ compact value ++ "," ++ compactFields rest

end

def newline (indent : Nat) : String := "\n" ++ String.ofList (List.replicate indent ' ')

mutual

/-- A value over several lines, inside brackets that stand `indent` blanks deep. -/
def prettyAt (indent : Nat) : Json → String
  | null => "null"
  | bool true => "true"
  | bool false => "false"
  | natural value => toString value
  | number lexeme => lexeme
  | string value => quote value
  | array [] => "[]"
  | array (item :: rest) => "[" ++ prettyItems (indent + 2) (item :: rest) ++ newline indent ++ "]"
  | object [] => "\x7b\x7d"
  | object (field :: rest) =>
    "\x7b" ++ prettyFields (indent + 2) (field :: rest) ++ newline indent ++ "\x7d"

def prettyItems (indent : Nat) : List Json → String
  | [] => ""
  | [item] => newline indent ++ prettyAt indent item
  | item :: rest => newline indent ++ prettyAt indent item ++ "," ++ prettyItems indent rest

def prettyFields (indent : Nat) : List (String × Json) → String
  | [] => ""
  | [(name, value)] => newline indent ++ quote name ++ ": " ++ prettyAt indent value
  | (name, value) :: rest =>
    newline indent ++ quote name ++ ": " ++ prettyAt indent value ++ "," ++ prettyFields indent rest

end

/-- A value over several lines. -/
def pretty (value : Json) : String := prettyAt 0 value

end CallAtlas.Json

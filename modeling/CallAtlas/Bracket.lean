import CallAtlas.Text.Bytes

/-! Brackets: how a line changes the nesting, and where the bracket that opens a text is closed. -/
namespace CallAtlas.Bracket

/-- What a character adds to the nesting of round, square and curly brackets. -/
def weight (c : Char) : Int :=
  if c ∈ ['{', '(', '['] then 1 else if c ∈ ['}', ')', ']'] then -1 else 0

def delta (text : List Char) : Int := text.foldr (fun c total => weight c + total) 0

def closing? : Char → Option Char
  | '(' => some ')'
  | '{' => some '}'
  | '[' => some ']'
  | '<' => some '>'
  | _ => none

/-- Reads on until `depth` brackets of one kind are closed: the text before the last of them, and the text
after it. -/
def close? (opener closer : Char) : (depth : Nat) → List Char → Option (List Char × List Char)
  | _, [] => none
  | depth, c :: rest =>
    if c = opener then
      (close? opener closer (depth + 1) rest).map fun (inside, after) => (c :: inside, after)
    else if c = closer then
      if depth ≤ 1 then some ([], rest)
      else (close? opener closer (depth - 1) rest).map fun (inside, after) => (c :: inside, after)
    else (close? opener closer depth rest).map fun (inside, after) => (c :: inside, after)

/-- What stands inside the bracket that opens a text, and what follows its closing bracket. Only brackets of
that one kind are counted. -/
def enclosed? : List Char → Option (List Char × List Char)
  | [] => none
  | c :: rest =>
    match closing? c with
    | some closer => close? c closer 1 rest
    | none => none

inductive OffsetFault where
  | outside
  deriving DecidableEq, Repr

/-- The byte offset of the bracket that closes the one at `offset`, if that one is closed. The offset has to
be in the text, or at its end, and between two characters. -/
def matching (text : List Char) (offset : Nat) : Except OffsetFault (Option Nat) :=
  match Text.dropBytes? offset text with
  | none => .error .outside
  | some rest =>
    .ok ((enclosed? rest).map fun (inside, _) => offset + 1 + Text.byteLength inside)

end CallAtlas.Bracket

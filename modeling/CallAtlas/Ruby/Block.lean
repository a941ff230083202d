import CallAtlas.Extraction
import CallAtlas.Ruby.Header
import CallAtlas.Text.Occurrences

/-! Blocks of Ruby code: how a line changes the nesting of blocks, and on which line a block is closed. All
lines here are cleaned. -/
namespace CallAtlas.Ruby

namespace Block

/-- Words that open a block at the start of a line. -/
def openers : List String :=
  ["class", "module", "if", "unless", "case", "while", "until", "for", "begin", "def"]

/-- Words that open a block after an assignment, a bracket or a logical operator. -/
def inlineOpeners : List String := ["if", "unless", "case", "begin", "while", "until"]

/-- Loops whose `do` belongs to the header. -/
def loops : List String := ["while", "until", "for"]

def wholeWord? (words : List String) (text : List Char) : Option (List Char) :=
  words.findSome? fun word =>
    match Text.after? word text with
    | some rest => if Text.atWordEnd rest then some rest else none
    | none => none

def startsWithOpener (line : List Char) : Bool :=
  (wholeWord? openers line).isSome ||
    match Header.visibilityWord? line with
    | some (_, rest) => (wholeWord? openers rest).isSome
    | none => false

def openerAfter? (rest : List Char) : Option (Unit × List Char) :=
  (wholeWord? inlineOpeners (Text.trimStart rest)).map fun left => ((), left)

def isComparison (c : Char) : Bool := c ∈ ['=', '!', '<', '>']

def afterAssignment? : List Char → Option (Unit × List Char)
  | c :: '=' :: rest => if isComparison c then none else openerAfter? rest
  | _ => none

def afterOperator? : List Char → Option (Unit × List Char)
  | '(' :: rest => openerAfter? rest
  | '|' :: '|' :: rest => openerAfter? rest
  | '&' :: '&' :: rest => openerAfter? rest
  | _ => none

/-- An opener whose value is used: it follows `=`, `(`, `||` or `&&`. -/
def inlineOpener : Text.Pattern Unit := fun _ text =>
  match afterAssignment? text with
  | some found => some found
  | none => afterOperator? text

/-- A whole word, with whether it is a keyword here: not called on something, no symbol, no label and no
predicate. -/
def keyword (word : String) : Text.Pattern Bool := fun before text =>
  match Text.after? word text with
  | some rest =>
    if Text.atWordStart before && Text.atWordEnd rest then
      let spoiledBefore := before.head?.any fun c => c ∈ ['.', ':', '@', '$']
      let spoiledAfter := rest.head?.any fun c => c ∈ ['?', '!', ':']
      some (!spoiledBefore && !spoiledAfter, rest)
    else none
  | none => none

def keywordCount (word : String) (line : List Char) : Nat :=
  (Text.occurrences (keyword word) line).countP id

def startsWithLoop (line : List Char) : Bool :=
  loops.any fun word =>
    match Text.after? word line with
    | some rest => !(rest.head?.any fun c => Text.isAlphanumeric c || c == '_')
    | none => false

/-- Blocks opened less blocks closed by a trimmed line. -/
def delta (line : List Char) : Int :=
  let opened := if startsWithOpener line && !((Header.read? line).any Header.isEndless) then 1 else 0
  let inline := (Text.occurrences inlineOpener line).length
  let done := if startsWithLoop line then 0 else keywordCount "do" line
  (opened + inline + done : Nat) - (keywordCount "end" line : Nat)

/-- How the search for the end of a block comes out, by the index of a line. It is interrupted where another method
starts, and capped where it stops with the block open. -/
inductive End where
  | closed (last : Nat)
  | interrupted (last : Nat)
  | capped (last : Nat)
  deriving DecidableEq, Repr

def End.last : End → Nat
  | closed last | interrupted last | capped last => last

/-- Follows an open block through the lines after its first, the next of which has the given index. -/
def follow (interruptible : Bool) (depth : Int) (index : Nat) : List (List Char) → End
  | [] => .capped (index - 1)
  | line :: rest =>
    let trimmed := Text.trim line
    if trimmed.isEmpty then follow interruptible depth (index + 1) rest
    else if interruptible && (Header.read? trimmed).isSome then .interrupted (index - 1)
    else
      let depth := depth + delta trimmed
      if depth ≤ 0 then .closed index else follow interruptible depth (index + 1) rest

/-- The end of the block that opens on `line`, which has the given index, looking at no more than `limit`
lines. -/
def findEnd (limit : UInt64) (index : Nat) (line : List Char) (rest : List (List Char)) : End :=
  let trimmed := Text.trim line
  let depth := delta trimmed
  if depth ≤ 0 then .closed index
  else follow (Header.read? trimmed).isSome depth (index + 1) (rest.take (Limits.window limit index - 1))

end Block
end CallAtlas.Ruby

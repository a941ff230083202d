import CallAtlas.Text.Character

/-! Cutting text: trimming blanks, taking a known head away, splitting at the first occurrence of a mark. Every
cut of a text gives back pieces of that same text, so no function here adds a character. -/
namespace CallAtlas.Text

def trimStart (text : List Char) : List Char := text.dropWhile isBlank

/-- Drops the longest run at the end whose characters all satisfy `drop`. -/
def dropEndWhile (drop : Char → Bool) (text : List Char) : List Char :=
  (text.reverse.dropWhile drop).reverse

def trimEnd (text : List Char) : List Char := dropEndWhile isBlank text

def trim (text : List Char) : List Char := trimEnd (trimStart text)

def trimWhile (drop : Char → Bool) (text : List Char) : List Char :=
  dropEndWhile drop (text.dropWhile drop)

/-- What follows `head` in a text that starts with it. -/
def afterChars? : (head text : List Char) → Option (List Char)
  | [], text => some text
  | _ :: _, [] => none
  | h :: head, c :: text => if h = c then afterChars? head text else none

def after? (head : String) (text : List Char) : Option (List Char) := afterChars? head.toList text

def startsWith (head : String) (text : List Char) : Bool := (after? head text).isSome

def endsWith (tail : String) (text : List Char) : Bool :=
  (afterChars? tail.toList.reverse text.reverse).isSome

/-- The text around the first occurrence of `mark`. -/
def cutAtChars? (mark : List Char) : (text : List Char) → Option (List Char × List Char)
  | [] => if mark.isEmpty then some ([], []) else none
  | c :: text =>
    match afterChars? mark (c :: text) with
    | some rest => some ([], rest)
    | none => (cutAtChars? mark text).map fun (before, rest) => (c :: before, rest)

def cutAt? (mark : String) (text : List Char) : Option (List Char × List Char) :=
  cutAtChars? mark.toList text

/-- The text after the last occurrence of `mark`, or the whole text without one. -/
def afterLast (mark : String) (text : List Char) : List Char :=
  match cutAtChars? mark.toList.reverse text.reverse with
  | some (last, _) => last.reverse
  | none => text

def contains (mark : String) (text : List Char) : Bool := (cutAt? mark text).isSome

/-- Takes `head` away from the start of a text for as long as it stands there. -/
def dropRepeated (head : String) (text : List Char) : List Char :=
  go text.length text
where
  go : Nat → List Char → List Char
    | 0, text => text
    | bound + 1, text =>
      match after? head text with
      | some rest => go bound rest
      | none => text

def afterBlank? : List Char → Option (List Char)
  | [] => none
  | c :: text => if isBlank c then some (trimStart text) else none

/-- The rest after the word `head` and at least one blank. -/
def afterSpacedWord? (head : String) (text : List Char) : Option (List Char) :=
  after? head text >>= afterBlank?

/-- The rest after an optional word with the blanks that must follow it. -/
def skipSpacedWord (head : String) (text : List Char) : List Char :=
  (afterSpacedWord? head text).getD text

/-- Whether a text starts at the end of a word: nothing follows, or no word character does. -/
def atWordEnd : List Char → Bool
  | [] => true
  | c :: _ => !isWord c

def lowered (text : String) : String := String.ofList (lowercase text.toList)

/-- A line cut to at most `limit` characters after trimming, with three dots where something was cut. -/
def snippet (limit : Nat) (line : List Char) : List Char :=
  let trimmed := trim line
  if trimmed.length ≤ limit then trimmed else trimmed.take limit ++ ['.', '.', '.']

end CallAtlas.Text

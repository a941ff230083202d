import CallAtlas.Text.Cut

/-! All occurrences of a pattern in a text, from left to right and without overlap. A pattern is a function that
reads at the start of a text, knowing the characters before it, and says what is left. -/
namespace CallAtlas.Text

/-- Reads at the start of `text`; `before` holds the characters in front of it, nearest first. -/
abbrev Pattern (α : Type) := (before text : List Char) → Option (α × List Char)

/-- What a pattern finds in a text, where the next `skip` characters belong to an earlier find. -/
def occurrencesFrom {α : Type} (pattern : Pattern α) : (before : List Char) → (skip : Nat) →
    List Char → List α
  | _, _, [] => []
  | before, skip + 1, c :: rest => occurrencesFrom pattern (c :: before) skip rest
  | before, 0, c :: rest =>
    match pattern before (c :: rest) with
    | some (found, left) =>
      found :: occurrencesFrom pattern (c :: before) (rest.length - left.length) rest
    | none => occurrencesFrom pattern (c :: before) 0 rest

def occurrences {α : Type} (pattern : Pattern α) (text : List Char) : List α :=
  occurrencesFrom pattern [] 0 text

/-- Whether a text starts at the beginning of a word: nothing stands before, or no word character does. -/
def atWordStart : (before : List Char) → Bool
  | [] => true
  | c :: _ => !isWord c

end CallAtlas.Text

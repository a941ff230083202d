import CallAtlas.Proofs.ScanSteps
import CallAtlas.Proofs.TextLines
import CallAtlas.Ruby.Definitions

/-! Lines of code alone. Nothing in them is quoted, commented or documentation, so cleaning leaves them as they are,
and a text that ends each of them has them as its lines. -/
namespace CallAtlas.Ruby

open Blanking

/-- Characters that start something else than code, and the one that ends a line. -/
def specials : List Char := ['"', '\'', '\x60', '#', '<', '\n']

/-- A line of code alone, no part of which belongs to a documentation block or to the line ending. -/
structure Code (line : List Char) : Prop where
  chars : ∀ c ∈ line, c ∉ specials
  head : line.head? ≠ some '='
  last : line.getLast? ≠ some '\r'

theorem scan_code (style : Style) {line : List Char} (plain : ∀ c ∈ line, c ∉ specials) :
    scan .ruby style {} line = (line, {}) := by
  have known : ∀ c ∈ startSigns .ruby, c ∈ specials := by decide
  exact scan_eq_self style fun c member sign => plain c member (known c sign)

theorem firstHeredoc?_eq_none {line : List Char} (plain : ∀ c ∈ line, c ∉ specials) : firstHeredoc? line = none := by
  induction line with
  | nil => rfl
  | cons c rest ih =>
    have other : '<' ≠ c := by
      rintro rfl
      exact plain '<' List.mem_cons_self (by decide)
    have none : heredocWord? (c :: rest) = none := by
      simp [heredocWord?, Text.after?, Text.afterChars?, other]
    rw [firstHeredoc?, none, ih fun other member => plain other (List.mem_cons_of_mem c member)]
    rfl

theorem Code.clean {line : List Char} (code : Code line) : Cleaner.clean .ruby {} line = (line, {}) := by
  have document : Text.startsWith "=begin" line = false := by
    have head := code.head
    cases line with
    | nil => rfl
    | cons c rest =>
      have other : '=' ≠ c := by
        rintro rfl
        exact head rfl
      simp [Text.startsWith, Text.after?, Text.afterChars?, other]
  have heredoc : openedHeredoc? line line = none := by
    rw [openedHeredoc?, firstHeredoc?_eq_none code.chars]
  simp [Cleaner.clean, scan_code _ code.chars, Language.isRubyLike, document, heredoc, State.atLineEnd]

/-- Lines of code are read as they stand. -/
theorem pairLines_code {lines : List (List Char)} (code : ∀ line ∈ lines, Code line) :
    pairLines .ruby lines = lines.map fun line => ⟨line, line⟩ :=
  pairLines_of_clean fun line member => (code line member).clean

theorem Code.withoutReturn {line : List Char} (code : Code line) : (Text.withoutReturn line.reverse).reverse = line := by
  have same : Text.withoutReturn line.reverse = line.reverse := by
    unfold Text.withoutReturn
    split
    · next more reversed =>
      exact absurd (by rw [← List.head?_reverse, reversed, List.head?_cons]) code.last
    · rfl
  rw [same, List.reverse_reverse]

/-- The lines of a text that ends each of them. -/
theorem lines_flatMap {lines : List (List Char)} (code : ∀ line ∈ lines, Code line) :
    Text.lines (lines.flatMap fun line => line ++ ['\n']) = lines := by
  rw [Text.lines]
  induction lines with
  | nil => rfl
  | cons line rest ih =>
    have own : Code line := code line List.mem_cons_self
    have plain : '\n' ∉ line := fun member => own.chars '\n' member (by decide)
    rw [List.flatMap_cons, List.append_assoc, List.singleton_append, Text.linesFrom_append [] _ plain, List.append_nil,
      own.withoutReturn, ih fun other member => code other (List.mem_cons_of_mem line member)]

end CallAtlas.Ruby

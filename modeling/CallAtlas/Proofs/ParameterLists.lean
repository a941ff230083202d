import CallAtlas.Bracket
import CallAtlas.Proofs.ListPieces

/-! Brackets and what is listed between them. A bracket is closed behind what stands inside, and a list is split into the
texts it was made of, if these are whole one behind the other. -/
namespace CallAtlas

namespace Bracket

theorem close?_eq_some {opener closer : Char} {depth : Nat} {text inside after : List Char}
    (found : close? opener closer depth text = some (inside, after)) :
    text = inside ++ closer :: after := by
  induction text generalizing depth inside with
  | nil => cases found
  | cons c text ih =>
    have later {depth : Nat} (found : (close? opener closer depth text).map
        (fun found => (c :: found.1, found.2)) = some (inside, after)) :
        c :: text = inside ++ closer :: after := by
      obtain ⟨⟨inner, last⟩, closes, same⟩ := Option.map_eq_some_iff.mp found
      cases same
      rw [ih closes, List.cons_append]
    rw [close?] at found
    split at found
    · exact later found
    · split at found
      · rename_i same
        split at found
        · cases found
          rw [same, List.nil_append]
        · exact later found
      · exact later found

theorem close?_append {opener closer : Char} (other : closer ≠ opener) {inside : List Char}
    (plain : ∀ c ∈ inside, c ≠ opener ∧ c ≠ closer) (rest : List Char) :
    close? opener closer 1 (inside ++ closer :: rest) = some (inside, rest) := by
  induction inside with
  | nil => simp [close?, other]
  | cons c inside ih =>
    obtain ⟨notOpener, notCloser⟩ := plain c List.mem_cons_self
    rw [List.cons_append, close?, if_neg notOpener, if_neg notCloser,
      ih fun other member => plain other (List.mem_cons_of_mem c member)]
    rfl

theorem delta_append (first second : List Char) : delta (first ++ second) = delta first + delta second := by
  induction first with
  | nil => simp [delta]
  | cons c first ih =>
    simp only [delta, List.cons_append, List.foldr_cons] at ih ⊢
    rw [ih, Int.add_assoc]

theorem delta_eq_zero {text : List Char} (plain : ∀ c ∈ text, weight c = 0) : delta text = 0 := by
  induction text with
  | nil => rfl
  | cons c text ih =>
    have own : delta (c :: text) = weight c + delta text := rfl
    rw [own, plain c List.mem_cons_self, ih fun other member => plain other (List.mem_cons_of_mem c member)]
    rfl

end Bracket

namespace Parameters

/-- The characters that change the nesting of a list. -/
def brackets : List Char := ['(', '{', '[', '<', ')', '}', ']', '>', '"', '\'', '\x60']

theorem Nesting.after_plain {nesting : Nesting} {text : List Char} (outside : nesting.quote = none)
    (plain : ∀ c ∈ text, c ∉ brackets) :
    (nesting.after text).depth = nesting.depth ∧ (nesting.after text).quote = none := by
  induction text generalizing nesting with
  | nil => exact ⟨rfl, outside⟩
  | cons c text ih =>
    obtain ⟨first, others⟩ := List.forall_mem_cons.mp plain
    simp only [brackets, List.mem_cons, List.not_mem_nil, or_false, not_or] at first
    have moved : nesting.next c = { nesting with previous := c } := by
      apply Nesting.next_plain outside <;> simp [Text.isQuote, first]
    rw [Nesting.after_cons, moved]
    exact ih outside others

/-- A text without brackets and quotes leaves nothing open. -/
theorem closed_plain {text : List Char} (plain : ∀ c ∈ text, c ∉ brackets) (whole : ',' ∉ text) : Closed text := by
  obtain ⟨depth, quote⟩ := Nesting.after_plain (rfl : ({} : Nesting).quote = none) plain
  exact ⟨whole_of_not_mem {} whole, depth, quote⟩

/-- Texts with a comma and a blank between neighbours. -/
def listed : List (List Char) → List Char
  | [] => []
  | [text] => text
  | text :: rest => text ++ ',' :: ' ' :: listed rest

theorem listed_cons_cons (text next : List Char) (rest : List (List Char)) :
    listed (text :: next :: rest) = text ++ ',' :: ' ' :: listed (next :: rest) := rfl

theorem mem_listed {texts : List (List Char)} {c : Char} (member : c ∈ listed texts) :
    (∃ text ∈ texts, c ∈ text) ∨ c ∈ [',', ' '] := by
  induction texts with
  | nil => cases member
  | cons text rest ih =>
    cases rest with
    | nil => exact .inl ⟨text, List.mem_cons_self, member⟩
    | cons next rest =>
      rw [listed_cons_cons, List.mem_append, List.mem_cons, List.mem_cons] at member
      rcases member with own | rfl | rfl | later
      · exact .inl ⟨text, List.mem_cons_self, own⟩
      · exact .inr (by decide)
      · exact .inr (by decide)
      · rcases ih later with ⟨other, present, inside⟩ | mark
        · exact .inl ⟨other, List.mem_cons_of_mem text present, inside⟩
        · exact .inr mark

/-- A list is balanced if its texts are. -/
theorem delta_listed {texts : List (List Char)} (balanced : ∀ text ∈ texts, Bracket.delta text = 0) :
    Bracket.delta (listed texts) = 0 := by
  induction texts with
  | nil => rfl
  | cons text rest ih =>
    have own := balanced text List.mem_cons_self
    have later := ih fun other member => balanced other (List.mem_cons_of_mem text member)
    cases rest with
    | nil => exact own
    | cons next rest =>
      have between : listed (text :: next :: rest) = text ++ ([',', ' '] ++ listed (next :: rest)) := rfl
      rw [between, Bracket.delta_append, Bracket.delta_append, own, later]
      decide

/-- A text that a list is made of: visible at both ends, and without commas, brackets and quotes. -/
structure Piece (text : List Char) : Prop where
  filled : text ≠ []
  first : ∀ c ∈ text.head?, Text.isBlank c = false
  last : Text.trimEnd text = text
  plain : ∀ c ∈ text, c ∉ brackets
  whole : ',' ∉ text

theorem Piece.identifier {starts joins : Char → Bool} (name : Text.Identifier starts joins)
    (visible : ∀ c ∈ name.text, Text.isBlank c = false) (others : ∀ mark ∈ ',' :: brackets, joins mark = false) :
    Piece name.text where
  filled := name.ne_nil
  first := fun c head => visible c (List.mem_of_mem_head? head)
  last := Text.dropEndWhile_eq_self visible
  plain := fun c member bracket => name.avoids (others c (List.mem_cons_of_mem _ bracket)) member
  whole := name.avoids (others ',' List.mem_cons_self)

theorem Piece.trim_blank {text blanks : List Char} (piece : Piece text) (blank : ∀ c ∈ blanks, c = ' ') :
    Text.trim (blanks ++ text) = text := by
  rw [Text.trim, Text.trimStart_append (fun c member => blank c member ▸ by decide) piece.first, piece.last]

theorem Piece.closed {text : List Char} (piece : Piece text) : Closed text := closed_plain piece.plain piece.whole

/-- The pieces of a list are its texts, with blanks in front of them. -/
theorem pieces_listed {nesting : Nesting} (fresh : nesting.Fresh) {blanks : List Char}
    (blank : ∀ c ∈ blanks, Text.isBlank c = true) {text : List Char} {rest : List (List Char)}
    (splits : Splits nesting (text :: rest)) (trimmed : ∀ member ∈ text :: rest, Text.trim member = member) :
    (pieces nesting (blanks ++ listed (text :: rest))).map Text.trim = text :: rest := by
  -- The blank after a comma belongs to the next piece, so the blanks in front vary along the list.
  induction rest generalizing nesting blanks text with
  | nil =>
    cases splits with
    | last whole =>
      rw [listed, (whole.blanks_append fresh blank).pieces_eq, List.map_singleton, Text.trim_blanks_append blank,
        trimmed text List.mem_cons_self]
  | cons next rest ih =>
    cases splits with
    | cons whole ends later =>
      have level := (fresh.level_blanks blank).after text
      have behind : nesting.after (blanks ++ text) = (nesting.after blanks).after text := Nesting.after_append _ _ _
      have ends' : (nesting.after (blanks ++ text)).separates ',' = true := by
        rw [behind, level.separates_eq]
        exact ends
      have line : blanks ++ listed (text :: next :: rest) =
          (blanks ++ text) ++ ',' :: ([' '] ++ listed (next :: rest)) := by
        rw [listed_cons_cons, List.append_assoc]
        rfl
      rw [line, (whole.blanks_append fresh blank).pieces_comma ends', List.map_cons, Text.trim_blanks_append blank,
        trimmed text List.mem_cons_self]
      rw [ih (Nesting.fresh_comma (Nesting.separates_comma.mp ends').1) (by decide) (later.level (behind ▸ level.next ','))]
      intro member present
      exact trimmed member (List.mem_cons_of_mem text present)

/-- A list is split into texts that are whole one behind the other. -/
theorem split_of_splits {texts : List (List Char)} (splits : Splits {} texts)
    (parts : ∀ text ∈ texts, text ≠ [] ∧ Text.trim text = text) : split (listed texts) = texts := by
  cases texts with
  | nil => rfl
  | cons text rest =>
    have found := pieces_listed Nesting.fresh_start (by simp : ∀ c ∈ [], Text.isBlank c = true) splits
      fun member present => (parts member present).2
    rw [List.nil_append] at found
    rw [split, found, List.filter_eq_self]
    intro member present
    simpa using (parts member present).1

/-- A list is split into the texts it was made of. -/
theorem split_listed {texts : List (List Char)} (all : ∀ text ∈ texts, Piece text) : split (listed texts) = texts := by
  apply split_of_splits (splits_of_closed (fun text member => (all text member).closed) Nesting.fresh_start rfl)
  intro text member
  have piece := all text member
  exact ⟨piece.filled, piece.trim_blank (by simp : ∀ c ∈ [], c = ' ')⟩

end Parameters
end CallAtlas

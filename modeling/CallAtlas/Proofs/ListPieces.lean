import CallAtlas.Parameters
import CallAtlas.Proofs.Words

/-! Pieces of a list. Whether a comma separates two pieces depends on the brackets and quotes that are open before it. A
text without such a comma stays whole where as many brackets are open, and texts that are whole one behind the other are
the pieces of the list that is made of them. -/
namespace CallAtlas

namespace Parameters

open Text (isBlank isQuote)

namespace Nesting

variable {nesting other : Nesting} {c quote : Char} {blanks : List Char}

theorem next_outside (outside : nesting.quote = none) :
    nesting.next c =
      { depth := nesting.depthAfter c, quote := if isQuote c then some c else none, previous := c } := by
  rw [next, outside]

theorem next_inside (inside : nesting.quote = some quote) (open_ : ¬ (c = quote ∧ nesting.previous ≠ '\\')) :
    nesting.next c = { nesting with previous := c } := by
  rw [next, inside]
  simp only [if_neg open_, ← inside]

theorem next_closes (inside : nesting.quote = some quote) (plain : nesting.previous ≠ '\\') :
    nesting.next quote = { nesting with quote := none, previous := quote } := by
  rw [next, inside]
  simp [plain]

theorem separates_inside (inside : nesting.quote = some quote) : nesting.separates c = false := by
  simp [separates, inside]

theorem separates_other (other : c ≠ ',') : nesting.separates c = false := by
  simp [separates, other]

theorem separates_comma : nesting.separates ',' = true ↔ nesting.quote = none ∧ nesting.depth ≤ 0 := by
  simp [separates]

/-- What changes neither brackets nor quotes only moves the splitter on. -/
theorem next_plain (outside : nesting.quote = none) (plain : c ∉ ['(', '{', '[', '<', ')', '}', ']', '>'])
    (unquoted : isQuote c = false) : nesting.next c = { nesting with previous := c } := by
  simp only [List.mem_cons, List.not_mem_nil, or_false, not_or] at plain
  simp [next_outside outside, depthAfter, plain, unquoted, outside]

theorem next_comma (outside : nesting.quote = none) : nesting.next ',' = { nesting with previous := ',' } :=
  next_plain outside (by decide) (by decide)

/-- The nesting behind a text. -/
def after (nesting : Nesting) (text : List Char) : Nesting := text.foldl next nesting

@[simp] theorem after_nil (nesting : Nesting) : nesting.after [] = nesting := rfl

@[simp] theorem after_cons (nesting : Nesting) (c : Char) (text : List Char) :
    nesting.after (c :: text) = (nesting.next c).after text := rfl

theorem after_append (nesting : Nesting) (front rest : List Char) :
    nesting.after (front ++ rest) = (nesting.after front).after rest := List.foldl_append

/-- A nesting that is in no string, or in one with a real quote. -/
def Sound (nesting : Nesting) : Prop := ∀ quote ∈ nesting.quote, isQuote quote = true

theorem Sound.next (sound : nesting.Sound) (c : Char) : (nesting.next c).Sound := by
  intro quote found
  cases open_ : nesting.quote with
  | none =>
    rw [next_outside open_, Option.mem_def] at found
    simp only [Option.ite_none_right_eq_some] at found
    exact Option.some.inj found.2 ▸ found.1
  | some mark =>
    by_cases closes : c = mark ∧ nesting.previous ≠ '\\'
    · obtain ⟨rfl, plain⟩ := closes
      rw [next_closes open_ plain] at found
      cases found
    · rw [next_inside open_ closes] at found
      exact sound quote found

theorem Sound.after (sound : nesting.Sound) (text : List Char) : (nesting.after text).Sound := by
  induction text generalizing nesting with
  | nil => exact sound
  | cons c text ih => exact ih (sound.next c)

theorem next_blank (sound : nesting.Sound) (blank : isBlank c = true) :
    nesting.next c = { nesting with previous := c } := by
  have visible : ∀ mark ∈ ['(', '{', '[', '<', ')', '}', ']', '>', '"', '\'', '\x60'], isBlank mark = false := by decide
  have unquoted : isQuote c = false := by
    by_contra quotes
    simp only [isQuote, Bool.not_eq_false, Bool.or_eq_true, beq_iff_eq] at quotes
    rw [visible c (by simp [or_assoc.mp quotes])] at blank
    cases blank
  cases open_ : nesting.quote with
  | none =>
    have plain : c ∉ ['(', '{', '[', '<', ')', '}', ']', '>'] := by
      intro member
      rw [visible c (List.mem_append_left ['"', '\'', '\x60'] member)] at blank
      cases blank
    rw [next_plain open_ plain unquoted, open_]
  | some quote =>
    rw [next_inside open_, open_]
    rintro ⟨rfl, _⟩
    rw [sound c open_] at unquoted
    cases unquoted

theorem Sound.after_blanks (sound : nesting.Sound) (blank : ∀ c ∈ blanks, isBlank c = true) :
    (nesting.after blanks).quote = nesting.quote ∧ (nesting.after blanks).depth = nesting.depth := by
  induction blanks generalizing nesting with
  | nil => exact ⟨rfl, rfl⟩
  | cons c blanks ih =>
    obtain ⟨first, others⟩ := List.forall_mem_cons.mp blank
    have later := ih (sound.next c) others
    rw [next_blank sound first] at later
    rw [after_cons, next_blank sound first]
    exact later

/-- Outside of quotes, and behind no character that the splitter looks back to. -/
structure Fresh (nesting : Nesting) : Prop where
  quote : nesting.quote = none
  arrow : nesting.previous ≠ '='
  escape : nesting.previous ≠ '\\'

theorem Fresh.sound (fresh : nesting.Fresh) : nesting.Sound := by
  intro quote found
  rw [fresh.quote] at found
  cases found

theorem fresh_start : Fresh {} := ⟨rfl, by decide, by decide⟩

theorem fresh_comma (outside : nesting.quote = none) : Fresh (nesting.next ',') := by
  rw [next_comma outside]
  exact ⟨outside, show ',' ≠ '=' by decide, show ',' ≠ '\\' by decide⟩

/-- Two nestings that differ in nothing that counts. -/
structure Level (nesting other : Nesting) : Prop where
  depth : other.depth = nesting.depth
  quote : other.quote = nesting.quote
  arrow : other.previous = '=' ↔ nesting.previous = '='
  escape : other.previous = '\\' ↔ nesting.previous = '\\'

theorem Fresh.level (fresh : nesting.Fresh) (otherFresh : other.Fresh) (depth : other.depth = nesting.depth) :
    nesting.Level other where
  depth := depth
  quote := otherFresh.quote.trans fresh.quote.symm
  arrow := iff_of_false otherFresh.arrow fresh.arrow
  escape := iff_of_false otherFresh.escape fresh.escape

namespace Level

theorem symm (level : nesting.Level other) : other.Level nesting :=
  ⟨level.depth.symm, level.quote.symm, level.arrow.symm, level.escape.symm⟩

theorem next (level : nesting.Level other) (c : Char) : (nesting.next c).Level (other.next c) := by
  have depth : other.depthAfter c = nesting.depthAfter c := by
    simp only [Nesting.depthAfter, level.depth, ne_eq, level.arrow]
  cases open_ : nesting.quote with
  | none =>
    rw [next_outside open_, next_outside (level.quote.trans open_)]
    exact ⟨depth, rfl, Iff.rfl, Iff.rfl⟩
  | some quote =>
    have inside := level.quote.trans open_
    simp only [Nesting.next, open_, inside, ne_eq, level.escape]
    exact ⟨level.depth, rfl, Iff.rfl, Iff.rfl⟩

theorem after (level : nesting.Level other) (text : List Char) : (nesting.after text).Level (other.after text) := by
  induction text generalizing nesting other with
  | nil => exact level
  | cons c text ih => exact ih (level.next c)

theorem separates_eq (level : nesting.Level other) (c : Char) : other.separates c = nesting.separates c := by
  rw [Nesting.separates, Nesting.separates, level.quote, level.depth]

end Level

theorem Fresh.after_blanks (fresh : nesting.Fresh) (blank : ∀ c ∈ blanks, isBlank c = true) :
    (nesting.after blanks).Fresh := by
  induction blanks generalizing nesting with
  | nil => exact fresh
  | cons c blanks ih =>
    obtain ⟨first, others⟩ := List.forall_mem_cons.mp blank
    apply ih _ others
    rw [next_blank fresh.sound first]
    refine ⟨fresh.quote, ?_, ?_⟩ <;>
    · rintro rfl
      cases first

/-- Blanks change nothing that counts. -/
theorem Fresh.level_blanks (fresh : nesting.Fresh) (blank : ∀ c ∈ blanks, isBlank c = true) :
    nesting.Level (nesting.after blanks) :=
  fresh.level (fresh.after_blanks blank) (fresh.sound.after_blanks blank).2

end Nesting

theorem pieces_ne_nil (nesting : Nesting) (text : List Char) : pieces nesting text ≠ [] := by
  cases text with
  | nil => simp [pieces]
  | cons c rest =>
    rw [pieces]
    split <;> simp

theorem pieces_eq (nesting : Nesting) (text : List Char) :
    pieces nesting text = (pieces nesting text).headD [] :: (pieces nesting text).tail := by
  obtain ⟨piece, more, split⟩ := List.exists_cons_of_ne_nil (pieces_ne_nil nesting text)
  rw [split]
  rfl

theorem pieces_of_separates {nesting : Nesting} {c : Char} (separates : nesting.separates c = true) (rest : List Char) :
    pieces nesting (c :: rest) = [] :: pieces (nesting.next c) rest := by
  rw [pieces, separates]

theorem pieces_of_inside {nesting : Nesting} {c : Char} (inside : nesting.separates c = false) (rest : List Char) :
    pieces nesting (c :: rest) =
      (c :: (pieces (nesting.next c) rest).headD []) :: (pieces (nesting.next c) rest).tail := by
  rw [pieces, inside]
  rw [pieces_eq (nesting.next c) rest]
  rfl

/-- No comma of a text separates, when the text is read from a nesting on. -/
def Whole (nesting : Nesting) (text : List Char) : Prop :=
  ∀ front rest, text = front ++ ',' :: rest → (nesting.after front).separates ',' = false

variable {nesting other : Nesting} {text front rest : List Char}

theorem whole_nil (nesting : Nesting) : Whole nesting [] := by
  intro front rest split
  simp at split

theorem whole_cons {c : Char} :
    Whole nesting (c :: text) ↔ nesting.separates c = false ∧ Whole (nesting.next c) text := by
  constructor
  · intro whole
    constructor
    · by_cases comma : c = ','
      · subst comma
        exact whole [] text rfl
      · exact Nesting.separates_other comma
    · intro front rest split
      exact whole (c :: front) rest (congrArg (c :: ·) split)
  · rintro ⟨first, whole⟩ front rest split
    cases front with
    | nil =>
      cases split
      exact first
    | cons d front =>
      cases split
      exact whole front rest rfl

theorem whole_append : Whole nesting (front ++ rest) ↔ Whole nesting front ∧ Whole (nesting.after front) rest := by
  induction front generalizing nesting with
  | nil => simp [whole_nil]
  | cons c front ih => rw [List.cons_append, whole_cons, whole_cons, ih, Nesting.after_cons, and_assoc]

theorem Whole.level (whole : Whole nesting text) (level : nesting.Level other) : Whole other text := by
  intro front rest split
  rw [(level.after front).separates_eq]
  exact whole front rest split

theorem whole_of_not_mem (nesting : Nesting) (whole : ',' ∉ text) : Whole nesting text := by
  intro front rest split
  exact absurd (split ▸ List.mem_append_right front List.mem_cons_self) whole

theorem Whole.blanks_append {blanks : List Char} (whole : Whole nesting text) (fresh : nesting.Fresh)
    (blank : ∀ c ∈ blanks, isBlank c = true) : Whole nesting (blanks ++ text) := by
  have commaless : ',' ∉ blanks := by
    intro comma
    cases blank ',' comma
  exact whole_append.mpr
    ⟨whole_of_not_mem nesting commaless, whole.level (fresh.level_blanks blank)⟩

/-- A whole text is the start of a piece. -/
theorem Whole.pieces_append (whole : Whole nesting text) (rest : List Char) :
    pieces nesting (text ++ rest) =
      (text ++ (pieces (nesting.after text) rest).headD []) :: (pieces (nesting.after text) rest).tail := by
  induction text generalizing nesting with
  | nil => exact pieces_eq nesting rest
  | cons c text ih =>
    obtain ⟨inside, later⟩ := whole_cons.mp whole
    rw [List.cons_append, pieces_of_inside inside, ih later]
    rfl

theorem Whole.pieces_eq (whole : Whole nesting text) : pieces nesting text = [text] := by
  have same := whole.pieces_append []
  simpa [pieces] using same

theorem Whole.pieces_comma (whole : Whole nesting text) (ends : (nesting.after text).separates ',' = true)
    (rest : List Char) :
    pieces nesting (text ++ ',' :: rest) = text :: pieces ((nesting.after text).next ',') rest := by
  rw [whole.pieces_append, pieces_of_separates ends]
  simp

/-- A text is whole, or it is whole up to the first comma that separates. -/
theorem exists_whole (nesting : Nesting) (text : List Char) :
    Whole nesting text ∨
      ∃ front rest, text = front ++ ',' :: rest ∧ Whole nesting front ∧ (nesting.after front).separates ',' = true := by
  induction text generalizing nesting with
  | nil => exact .inl (whole_nil nesting)
  | cons c text ih =>
    cases separates : nesting.separates c with
    | true =>
      have comma : c = ',' := by
        by_contra other
        rw [Nesting.separates_other other] at separates
        cases separates
      subst comma
      exact .inr ⟨[], text, rfl, whole_nil nesting, separates⟩
    | false =>
      rcases ih (nesting.next c) with whole | ⟨front, rest, rfl, whole, ends⟩
      · exact .inl (whole_cons.mpr ⟨separates, whole⟩)
      · exact .inr ⟨c :: front, rest, rfl, whole_cons.mpr ⟨separates, whole⟩, ends⟩

theorem trim_of_mem_split {list piece : List Char} (member : piece ∈ split list) : Text.trim piece = piece := by
  obtain ⟨untrimmed, _, rfl⟩ := List.mem_map.mp (List.mem_filter.mp member).1
  exact Text.trim_trim untrimmed

/-- Texts that are read as pieces one behind the other, from a nesting on. -/
inductive Splits : Nesting → List (List Char) → Prop
  | nil {nesting : Nesting} : Splits nesting []
  | last {nesting : Nesting} {text : List Char} (whole : Whole nesting text) : Splits nesting [text]
  | cons {nesting : Nesting} {text next : List Char} {more : List (List Char)} (whole : Whole nesting text)
      (ends : (nesting.after text).separates ',' = true) (rest : Splits ((nesting.after text).next ',') (next :: more)) :
      Splits nesting (text :: next :: more)

theorem Splits.level {texts : List (List Char)} (splits : Splits nesting texts)
    (level : nesting.Level other) : Splits other texts := by
  induction splits generalizing other with
  | nil => exact .nil
  | last whole => exact .last (whole.level level)
  | @cons _ text _ _ whole ends _ ih =>
    have behind := level.after text
    refine .cons (whole.level level) ?_ (ih (behind.next ','))
    rw [behind.separates_eq]
    exact ends

/-- A text that is whole and leaves nothing open. -/
structure Closed (text : List Char) : Prop where
  whole : Whole {} text
  depth : (Nesting.after {} text).depth = 0
  quote : (Nesting.after {} text).quote = none

theorem splits_of_closed {texts : List (List Char)} (closed : ∀ text ∈ texts, Closed text) (fresh : nesting.Fresh)
    (depth : nesting.depth = 0) : Splits nesting texts := by
  induction texts generalizing nesting with
  | nil => exact .nil
  | cons text rest ih =>
    obtain ⟨own, others⟩ := List.forall_mem_cons.mp closed
    have level : Nesting.Level {} nesting := Nesting.fresh_start.level fresh depth
    have whole : Whole nesting text := own.whole.level level
    have outside : (nesting.after text).quote = none := (level.after text).quote.trans own.quote
    have flat : (nesting.after text).depth = 0 := by rw [(level.after text).depth, own.depth]
    cases rest with
    | nil => exact .last whole
    | cons next more =>
      refine .cons whole (Nesting.separates_comma.mpr ⟨outside, by rw [flat]; decide⟩) ?_
      apply ih others (Nesting.fresh_comma outside)
      rw [Nesting.next_comma outside]
      exact flat

end Parameters
end CallAtlas

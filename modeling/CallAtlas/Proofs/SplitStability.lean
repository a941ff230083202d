import CallAtlas.Proofs.ParameterLists
import Mathlib.Algebra.GroupWithZero.Nat

/-! Splitting is stable. Brackets may be closed that were never opened and quotes may stay open, but where a comma
separates there is no open quote and no open bracket: what follows is read as from the start, with at most as many
brackets open. So the parts are found again in the list that is made of them, and a part stays in one piece when it is
split on its own, as long as no count of brackets leaves its 32 bits. A count that does starts over, and a list is known
that is just long enough for it. -/
namespace CallAtlas.Parameters

open Text (isBlank)

variable {nesting : Nesting} {text front rest part : List Char} {parts : List (List Char)}

/-- The parts of a text that is read from a nesting on. -/
def partsFrom (nesting : Nesting) (text : List Char) : List (List Char) :=
  ((pieces nesting text).map Text.trim).filter fun piece => !piece.isEmpty

/-- A piece as a part, unless it is blank. -/
def kept (piece : List Char) : List (List Char) := [Text.trim piece].filter fun piece => !piece.isEmpty

theorem kept_cases (piece : List Char) :
    (Text.trim piece = [] ∧ kept piece = []) ∨ (Text.trim piece ≠ [] ∧ kept piece = [Text.trim piece]) := by
  by_cases blank : Text.trim piece = []
  · exact .inl ⟨blank, by simp [kept, blank]⟩
  · exact .inr ⟨blank, by simp [kept, blank]⟩

theorem partsFrom_whole (whole : Whole nesting text) : partsFrom nesting text = kept text := by
  rw [partsFrom, whole.pieces_eq, List.map_singleton, kept]

theorem partsFrom_comma (whole : Whole nesting front) (ends : (nesting.after front).separates ',' = true)
    (rest : List Char) :
    partsFrom nesting (front ++ ',' :: rest) = kept front ++ partsFrom ((nesting.after front).next ',') rest := by
  rw [partsFrom, whole.pieces_comma ends, List.map_cons, ← List.singleton_append, List.filter_append, kept, partsFrom]

/-- Along a text from one comma that separates to the next. -/
theorem pieces_induction {motive : Nesting → List Char → Prop}
    (last : ∀ nesting text, Whole nesting text → motive nesting text)
    (comma : ∀ nesting front rest, Whole nesting front → (nesting.after front).separates ',' = true →
      motive ((nesting.after front).next ',') rest → motive nesting (front ++ ',' :: rest))
    (nesting : Nesting) (text : List Char) : motive nesting text := by
  induction size : text.length using Nat.strong_induction_on generalizing nesting text with
  | _ size ih =>
    rcases exists_whole nesting text with whole | ⟨front, rest, rfl, whole, ends⟩
    · exact last nesting text whole
    · apply comma nesting front rest whole ends
      apply ih rest.length _ _ rest rfl
      rw [← size, List.length_append, List.length_cons]
      omega

/-- Texts that stand in a list one behind the other, with nothing but blanks and commas around them. -/
inductive Scattered : List (List Char) → List Char → Prop
  | nil {gap : List Char} (empty : ∀ c ∈ gap, isBlank c = true ∨ c = ',') : Scattered [] gap
  | cons {gap part rest : List Char} {parts : List (List Char)} (empty : ∀ c ∈ gap, isBlank c = true ∨ c = ',')
      (later : Scattered parts rest) : Scattered (part :: parts) (gap ++ (part ++ rest))

namespace Scattered

theorem gap_append {gap : List Char} (empty : ∀ c ∈ gap, isBlank c = true ∨ c = ',') (scattered : Scattered parts rest) :
    Scattered parts (gap ++ rest) := by
  cases scattered with
  | nil more => exact .nil (List.forall_mem_append.mpr ⟨empty, more⟩)
  | cons more later =>
    rw [← List.append_assoc]
    exact .cons (List.forall_mem_append.mpr ⟨empty, more⟩) later

theorem kept_append (piece : List Char) (scattered : Scattered parts rest) :
    Scattered (kept piece ++ parts) (piece ++ rest) := by
  obtain ⟨blanks, after, split, before, behind⟩ := Text.exists_trim_append piece
  have gap {blanks : List Char} (blank : ∀ c ∈ blanks, isBlank c = true) : ∀ c ∈ blanks, isBlank c = true ∨ c = ',' :=
    fun c member => .inl (blank c member)
  have later : Scattered parts (after ++ rest) := scattered.gap_append (gap behind)
  rcases kept_cases piece with ⟨blank, none⟩ | ⟨_, one⟩
  · rw [none, split, blank, List.nil_append, List.append_assoc]
    exact later.gap_append (gap before)
  · have line : piece ++ rest = blanks ++ (Text.trim piece ++ (after ++ rest)) := by
      rw [← List.append_assoc _ after, ← List.append_assoc blanks, ← split]
    rw [one, line]
    exact .cons (gap before) later

end Scattered

theorem scattered_partsFrom (nesting : Nesting) (text : List Char) : Scattered (partsFrom nesting text) text := by
  induction nesting, text using pieces_induction with
  | last nesting text whole =>
    have alone := Scattered.kept_append text (.nil (by simp : ∀ c ∈ [], isBlank c = true ∨ c = ','))
    rw [List.append_nil, List.append_nil] at alone
    rwa [partsFrom_whole whole]
  | comma nesting front rest whole ends later =>
    rw [partsFrom_comma whole ends]
    exact .kept_append front (later.gap_append (by simp : ∀ c ∈ [','], isBlank c = true ∨ c = ','))

theorem Whole.trim (whole : Whole nesting text) (fresh : nesting.Fresh) : Whole nesting (Text.trim text) := by
  obtain ⟨blanks, after, split, before, _⟩ := Text.exists_trim_append text
  rw [split, whole_append, whole_append] at whole
  exact whole.2.1.level (fresh.level_blanks before).symm

/-- Blanks around a text neither open nor close anything. -/
theorem Nesting.Fresh.after_trim (fresh : nesting.Fresh) (text : List Char) :
    (nesting.after text).quote = (nesting.after (Text.trim text)).quote ∧
      (nesting.after text).depth = (nesting.after (Text.trim text)).depth := by
  obtain ⟨blanks, after, split, before, behind⟩ := Text.exists_trim_append text
  have level := (fresh.level_blanks before).after (Text.trim text)
  have last := ((fresh.sound.after blanks).after (Text.trim text)).after_blanks behind
  rw [← after_append, ← after_append, ← split] at last
  exact ⟨last.1.trans level.quote, last.2.trans level.depth⟩

theorem splits_partsFrom (nesting : Nesting) (text : List Char) :
    nesting.Fresh → Splits nesting (partsFrom nesting text) := by
  induction nesting, text using pieces_induction with
  | last nesting text whole =>
    intro fresh
    rw [partsFrom_whole whole]
    rcases kept_cases text with ⟨_, none⟩ | ⟨_, one⟩
    · rw [none]
      exact .nil
    · rw [one]
      exact .last (whole.trim fresh)
  | comma nesting front rest whole ends ih =>
    intro fresh
    obtain ⟨outside, low⟩ := Nesting.separates_comma.mp ends
    have later := ih (Nesting.fresh_comma outside)
    obtain ⟨quote, depth⟩ := fresh.after_trim front
    have outside' := quote.symm.trans outside
    rw [partsFrom_comma whole ends]
    rcases kept_cases front with ⟨blank, none⟩ | ⟨_, one⟩
    · -- A blank piece leaves the nesting as it was.
      rw [none, List.nil_append]
      apply later.level ((Nesting.fresh_comma outside).level fresh _)
      rw [Nesting.next_comma outside, depth, blank, Nesting.after_nil]
    · have level : ((nesting.after front).next ',').Level ((nesting.after (Text.trim front)).next ',') := by
        apply (Nesting.fresh_comma outside).level (Nesting.fresh_comma outside')
        rw [Nesting.next_comma outside, Nesting.next_comma outside', depth]
      have splits := later.level level
      rw [one, List.singleton_append]
      cases found : partsFrom ((nesting.after front).next ',') rest with
      | nil => exact .last (whole.trim fresh)
      | cons next more =>
        rw [found] at splits
        exact .cons (whole.trim fresh) (Nesting.separates_comma.mpr ⟨outside', depth ▸ low⟩) splits

theorem splits_split (list : List Char) : Splits {} (split list) := splits_partsFrom {} list Nesting.fresh_start

namespace Nesting

variable {higher : Nesting} {height : Int32} {c : Char}

/-- Two nestings that differ in how many brackets are open, and in nothing else that counts. -/
structure Raised (height : Int32) (nesting higher : Nesting) : Prop where
  depth : higher.depth = nesting.depth + height
  quote : higher.quote = nesting.quote
  arrow : higher.previous = '=' ↔ nesting.previous = '='
  escape : higher.previous = '\\' ↔ nesting.previous = '\\'

/-- What a character adds to the depth. -/
def change (nesting : Nesting) (c : Char) : Int32 :=
  if c ∈ ['(', '{', '[', '<'] then 1
  else if c ∈ [')', '}', ']'] ∨ c = '>' ∧ nesting.previous ≠ '=' then -1
  else 0

theorem depthAfter_eq (nesting : Nesting) (c : Char) : nesting.depthAfter c = nesting.depth + nesting.change c := by
  unfold depthAfter change
  split_ifs <;> grind

theorem natAbs_change_le (nesting : Nesting) (c : Char) : (nesting.change c).toInt.natAbs ≤ 1 := by
  unfold change
  split_ifs <;> decide

theorem Raised.next (above : Raised height nesting higher) (c : Char) :
    Raised height (nesting.next c) (higher.next c) := by
  cases open_ : nesting.quote with
  | none =>
    have same : higher.change c = nesting.change c := by simp only [change, ne_eq, above.arrow]
    rw [next_outside open_, next_outside (above.quote.trans open_)]
    refine ⟨?_, rfl, Iff.rfl, Iff.rfl⟩
    rw [depthAfter_eq, depthAfter_eq, same, above.depth]
    grind
  | some quote =>
    simp only [Nesting.next, open_, above.quote.trans open_, ne_eq, above.escape]
    exact ⟨above.depth, rfl, Iff.rfl, Iff.rfl⟩

theorem Raised.after (above : Raised height nesting higher) (text : List Char) :
    Raised height (nesting.after text) (higher.after text) := by
  induction text generalizing nesting higher with
  | nil => exact above
  | cons c text ih => exact ih (above.next c)

/-- A count that starts over at the limits of its 32 bits is no further from zero than one that does not. -/
theorem natAbs_toInt_add_le (depth change : Int32) :
    (depth + change).toInt.natAbs ≤ depth.toInt.natAbs + change.toInt.natAbs := by
  rw [Int32.toInt_add, Int.bmod_def]
  split
  · omega
  · omega

theorem natAbs_next_le (nesting : Nesting) (c : Char) :
    (nesting.next c).depth.toInt.natAbs ≤ nesting.depth.toInt.natAbs + 1 := by
  cases open_ : nesting.quote with
  | none =>
    rw [next_outside open_, depthAfter_eq]
    exact (natAbs_toInt_add_le _ _).trans (Nat.add_le_add_left (nesting.natAbs_change_le c) _)
  | some quote =>
    simp only [Nesting.next, open_]
    exact Nat.le_succ _

theorem natAbs_after_le (nesting : Nesting) (text : List Char) :
    (nesting.after text).depth.toInt.natAbs ≤ nesting.depth.toInt.natAbs + text.length := by
  induction text generalizing nesting with
  | nil => exact Nat.le_refl _
  | cons c text ih =>
    have step := nesting.natAbs_next_le c
    have later := ih (nesting.next c)
    rw [after_cons, List.length_cons]
    omega

theorem add_nonpos {depth height : Int32} (low : depth ≤ 0) (lower : height ≤ 0)
    (fits : depth.toInt.natAbs + height.toInt.natAbs ≤ 2 ^ 31) : depth + height ≤ 0 := by
  have none : (0 : Int32).toInt = 0 := rfl
  rw [Int32.le_iff_toInt_le, none] at low lower ⊢
  rw [Int32.toInt_add, Int.bmod_eq_of_le (by omega) (by omega)]
  omega

end Nesting

/-- The depth at which a text is read, and the length of the text, are too small for any count of brackets in it to start
over. From the start on, one character more will do, since it takes a comma to get anywhere else. -/
def Roomy (nesting : Nesting) (length : Nat) : Prop :=
  nesting.depth = 0 ∧ length < 2 ^ 31 + 3 ∨ nesting.depth.toInt.natAbs + length < 2 ^ 31 + 2

theorem Roomy.comma {length : Nat} (roomy : Roomy nesting (front.length + (length + 1)))
    (outside : (nesting.after front).quote = none) : Roomy ((nesting.after front).next ',') length := by
  have bound := nesting.natAbs_after_le front
  rw [Nesting.next_comma outside]
  right
  rcases roomy with ⟨start, short⟩ | short
  · rw [start] at bound
    have none : (0 : Int32).toInt.natAbs = 0 := rfl
    simp only
    omega
  · simp only
    omega

/-- Where no bracket is open, a whole text is whole on its own. -/
theorem Whole.alone (whole : Whole nesting text) (fresh : nesting.Fresh) (low : nesting.depth ≤ 0)
    (roomy : Roomy nesting text.length) : Whole {} text := by
  have below : Nesting.Raised nesting.depth {} nesting :=
    ⟨(Int32.zero_add _).symm, fresh.quote, iff_of_false fresh.arrow (by decide), iff_of_false fresh.escape (by decide)⟩
  intro front rest split
  by_contra separates
  obtain ⟨outside, flat⟩ := Nesting.separates_comma.mp (Bool.not_eq_false _ ▸ separates)
  have same := below.after front
  have depth : (nesting.after front).depth ≤ 0 := by
    rw [same.depth]
    rcases roomy with ⟨start, _⟩ | short
    · rw [start, Int32.add_zero]
      exact flat
    · have bound := Nesting.natAbs_after_le {} front
      have none : (({} : Nesting).depth).toInt.natAbs = 0 := rfl
      rw [split, List.length_append, List.length_cons] at short
      exact Nesting.add_nonpos flat low (by omega)
  have ends := Nesting.separates_comma.mpr ⟨same.quote.trans outside, depth⟩
  rw [whole front rest split] at ends
  cases ends

theorem Roomy.mono {length more : Nat} (roomy : Roomy nesting more) (less : length ≤ more) : Roomy nesting length := by
  rcases roomy with ⟨start, short⟩ | short
  · exact .inl ⟨start, by omega⟩
  · exact .inr (by omega)

theorem Whole.kept_alone {piece : List Char} (whole : Whole nesting piece) (fresh : nesting.Fresh)
    (low : nesting.depth ≤ 0) (roomy : Roomy nesting piece.length) : ∀ part ∈ kept piece, Whole {} part := by
  obtain ⟨blanks, after, split, _, _⟩ := Text.exists_trim_append piece
  have shorter : (Text.trim piece).length ≤ piece.length := by
    have lengths := congrArg List.length split
    simp only [List.length_append] at lengths
    omega
  intro part member
  rw [kept, List.mem_filter, List.mem_singleton] at member
  rw [member.1]
  exact (whole.trim fresh).alone fresh low (roomy.mono shorter)

theorem whole_of_mem_partsFrom (nesting : Nesting) (text : List Char) : nesting.Fresh → nesting.depth ≤ 0 →
    Roomy nesting text.length → ∀ part ∈ partsFrom nesting text, Whole {} part := by
  induction nesting, text using pieces_induction with
  | last nesting text whole =>
    intro fresh low roomy
    rw [partsFrom_whole whole]
    exact whole.kept_alone fresh low roomy
  | comma nesting front rest whole ends ih =>
    intro fresh low roomy
    obtain ⟨outside, flat⟩ := Nesting.separates_comma.mp ends
    rw [partsFrom_comma whole ends]
    have later := ih (Nesting.fresh_comma outside) (by rw [Nesting.next_comma outside]; exact flat)
      (Roomy.comma (by simpa using roomy) outside)
    exact List.forall_mem_append.mpr ⟨whole.kept_alone fresh low (roomy.mono (by simp)), later⟩

theorem split_part {list : List Char} (short : list.length < 2 ^ 31 + 3) (member : part ∈ split list) :
    split part = [part] := by
  have whole : Whole {} part :=
    whole_of_mem_partsFrom {} list Nesting.fresh_start (by decide) (.inl ⟨rfl, short⟩) part member
  have filled : part ≠ [] := by simpa using (List.mem_filter.mp member).2
  have alone : split part = kept part := partsFrom_whole whole
  rcases kept_cases part with ⟨blank, _⟩ | ⟨_, one⟩
  · exact absurd ((trim_of_mem_split member).symm.trans blank) filled
  · rw [alone, one, trim_of_mem_split member]

/-- Splitting loses nothing and is stable, whether brackets and quotes are balanced or not. The parts are trimmed and not
empty, each is read up to a comma that separates it from the next one, and they stand in the list in order with blanks
and commas around them; the list that is made of the parts is split into them. Each part is split into itself, unless the
list is so long that 32 bits cannot count the brackets of a part and of what stands before it. -/
theorem split_stable (list : List Char) :
    (∀ part ∈ split list, part ≠ [] ∧ Text.trim part = part) ∧ Splits {} (split list) ∧
      Scattered (split list) list ∧ split (listed (split list)) = split list ∧
      (list.length < 2 ^ 31 + 3 → ∀ part ∈ split list, split part = [part]) := by
  have parts : ∀ part ∈ split list, part ≠ [] ∧ Text.trim part = part := by
    intro part member
    exact ⟨by simpa using (List.mem_filter.mp member).2, trim_of_mem_split member⟩
  exact ⟨parts, splits_split list, scattered_partsFrom {} list, split_of_splits (splits_split list) parts,
    fun short part member => split_part short member⟩

/-- Behind a bracket that closes nothing, a pair of brackets does not hold its comma, and an open quote holds every one. -/
theorem split_stable_unbalanced :
    split "a), (b,, c) ,d = ',e".toList = ["a)".toList, "(b".toList, "c)".toList, "d = ',e".toList] ∧
      split "a), (b, c), d = ',e".toList = ["a)".toList, "(b".toList, "c)".toList, "d = ',e".toList] ∧
      split "d = ',e".toList = ["d = ',e".toList] := by
  have found : split "a), (b,, c) ,d = ',e".toList = ["a)".toList, "(b".toList, "c)".toList, "d = ',e".toList] := by
    decide
  obtain ⟨_, _, _, stable, parts⟩ := split_stable "a), (b,, c) ,d = ',e".toList
  rw [found] at stable parts
  exact ⟨found, stable, parts (by decide) _ (by simp)⟩

theorem Nesting.after_openers (count : Nat) (depth : Int32) (previous : Char) :
    (Nesting.after { depth, previous } (List.replicate count '(')).quote = none ∧
      (Nesting.after { depth, previous } (List.replicate count '(')).depth = depth + Int32.ofNat count := by
  induction count generalizing depth previous with
  | zero => exact ⟨rfl, (Int32.add_zero depth).symm⟩
  | succ count ih =>
    have step : Nesting.next { depth, previous } '(' = { depth := depth + 1, previous := '(' } := rfl
    rw [List.replicate_succ, after_cons, step, Nat.add_comm count, Int32.ofNat_add, ← Int32.add_assoc]
    exact ih (depth + 1) '('

/-- A list that is as long has a part that is split: as many opened brackets as 32 bits can no longer count are taken for
closed ones, and the next closed one for many open ones, so that the comma behind it separates only where the part stands
alone. -/
theorem split_overflow :
    (List.replicate (2 ^ 31) '(' ++ ",),".toList).length = 2 ^ 31 + 3 ∧
      split (List.replicate (2 ^ 31) '(' ++ ",),".toList) = [List.replicate (2 ^ 31) '(', "),".toList] ∧
      split "),".toList = [")".toList] := by
  refine ⟨by rw [List.length_append, List.length_replicate]; rfl, ?_, by decide⟩
  have commaless : ',' ∉ List.replicate (2 ^ 31) '(' := fun member => by cases List.eq_of_mem_replicate member
  have shown : kept (List.replicate (2 ^ 31) '(') = [List.replicate (2 ^ 31) '('] := by
    have trimmed : Text.trim (List.replicate (2 ^ 31) '(') = List.replicate (2 ^ 31) '(' :=
      Text.trim_eq_self fun c member => List.eq_of_mem_replicate member ▸ rfl
    rcases kept_cases (List.replicate (2 ^ 31) '(') with ⟨blank, _⟩ | ⟨_, one⟩
    · rw [trimmed, List.replicate_eq_nil_iff] at blank
      cases blank
    · rw [one, trimmed]
  obtain ⟨outside, depth⟩ := Nesting.after_openers (2 ^ 31) 0 '\x00'
  have least : (0 : Int32) + Int32.ofNat (2 ^ 31) = -2147483648 := by decide
  have ends : (Nesting.after {} (List.replicate (2 ^ 31) '(')).separates ',' = true :=
    Nesting.separates_comma.mpr ⟨outside, by rw [depth, least]; decide⟩
  have behind : (Nesting.after {} (List.replicate (2 ^ 31) '(')).next ',' = { depth := -2147483648, previous := ',' } := by
    rw [Nesting.next_comma outside, outside, depth, least]
  have parts := partsFrom_comma (whole_of_not_mem {} commaless) ends "),".toList
  rw [behind, shown] at parts
  have rest : partsFrom { depth := -2147483648, previous := ',' } "),".toList = ["),".toList] := by decide
  rw [rest] at parts
  exact parts

end CallAtlas.Parameters

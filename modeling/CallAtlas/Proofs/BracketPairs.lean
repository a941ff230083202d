import CallAtlas.Bracket
import CallAtlas.Proofs.Heredocs
import Mathlib.Order.Bounds.Basic

/-! Which bracket closes another. The search counts the brackets of one kind and stops where the count comes down to zero:
at the first closing bracket up to which there are as many closing as opening ones. Everything before that place, and the
whole text if there is no such place, stays open: it has more opening than closing brackets in front of every character. -/
namespace CallAtlas

namespace Text

@[simp]
theorem byteLength_nil : byteLength [] = 0 := rfl

@[simp]
theorem byteLength_append (first second : List Char) :
    byteLength (first ++ second) = byteLength first + byteLength second := by
  induction first with
  | nil => rw [List.nil_append, byteLength_nil, Nat.zero_add]
  | cons c first ih => rw [List.cons_append, byteLength_cons, byteLength_cons, ih, Nat.add_assoc]

theorem dropBytes?_append (before rest : List Char) :
    dropBytes? (byteLength before) (before ++ rest) = some rest := by
  have inside : before.length ≤ (before ++ rest).length := by simp
  have cut := dropBytes?_take inside
  rwa [List.take_left, List.drop_left] at cut

/-- The byte offset tells which of two front parts of a text is the longer. -/
theorem isPrefix_of_byteLength_le {text first second : List Char} (one : first <+: text) (other : second <+: text)
    (shorter : byteLength first ≤ byteLength second) : first <+: second := by
  rcases List.prefix_or_prefix_of_prefix one other with here | ⟨more, rfl⟩
  · exact here
  · cases more with
    | nil => simp
    | cons c more =>
      have positive := c.utf8Size_pos
      rw [byteLength_append, byteLength_cons] at shorter
      omega

theorem eq_of_byteLength_eq {text first second : List Char} (one : first <+: text) (other : second <+: text)
    (same : byteLength first = byteLength second) : first = second := by
  have forth := isPrefix_of_byteLength_le one other (Nat.le_of_eq same)
  have back := isPrefix_of_byteLength_le other one (Nat.le_of_eq same.symm)
  exact forth.eq_of_length (Nat.le_antisymm forth.length_le back.length_le)

/-- What stands in a text from one byte offset up to another. -/
def Slice (text : List Char) (first last : Nat) (part : List Char) : Prop :=
  ∃ before after, text = before ++ part ++ after ∧ byteLength before = first ∧ byteLength (before ++ part) = last

/-- The slices of a text from an offset on are the front parts of what stands there. -/
theorem slice_append_iff {before rest part : List Char} {last : Nat} :
    Slice (before ++ rest) (byteLength before) last part ↔
      ∃ after, rest = part ++ after ∧ last = byteLength before + byteLength part := by
  constructor
  · intro slice
    obtain ⟨front, after, whole, first, stop⟩ := slice
    have same : front = before :=
      eq_of_byteLength_eq ⟨part ++ after, by rw [whole, List.append_assoc]⟩ (List.prefix_append before rest) first
    rw [same, List.append_assoc] at whole
    refine ⟨after, List.append_cancel_left whole, ?_⟩
    rw [← stop, byteLength_append, first]
  · intro slice
    obtain ⟨after, rfl, rfl⟩ := slice
    exact ⟨before, after, by rw [List.append_assoc], rfl, byteLength_append before part⟩

/-- A slice that starts behind a front part of a text stands in the rest. -/
theorem Slice.behind {front rest part : List Char} {first last : Nat} (slice : Slice (front ++ rest) first last part)
    (behind : byteLength front ≤ first) :
    ∃ inside after, rest = inside ++ part ++ after ∧ first = byteLength front + byteLength inside := by
  obtain ⟨before, after, whole, rfl, _⟩ := slice
  have far : before <+: front ++ rest := ⟨part ++ after, by rw [whole, List.append_assoc]⟩
  obtain ⟨inside, rfl⟩ := isPrefix_of_byteLength_le (List.prefix_append front rest) far behind
  refine ⟨inside, after, ?_, byteLength_append front inside⟩
  rw [List.append_assoc, List.append_assoc] at whole
  rw [List.append_cancel_left whole, List.append_assoc]

end Text

namespace Bracket

open Text (byteLength Slice)

/-- The brackets of a text that are opened less those that are closed, among brackets of one kind. -/
def depth (opener closer : Char) (text : List Char) : Int := text.count opener - text.count closer

/-- The bracket at the byte offset `place` closes the one at `offset`: with both of them, there are as many opening as
closing brackets of their kind from the one to the other. -/
structure Closes (opener closer : Char) (text : List Char) (offset place : Nat) : Prop where
  behind : offset < place
  holds : Slice text place (place + 1) [closer]
  balanced : ∃ part, Slice text offset (place + 1) part ∧ part.count opener = part.count closer

/-- With `opened` brackets open in front of it, a text closes them nowhere. -/
def StaysOpen (opener closer : Char) (opened : Nat) (text : List Char) : Prop :=
  ∀ front, front <+: text → 0 < opened + depth opener closer front

/-- The open brackets behind a character. -/
def openedAfter (opener closer : Char) (opened : Nat) (c : Char) : Nat :=
  if c = opener then opened + 1 else if c = closer then opened - 1 else opened

theorem closing?_eq_some {opener closer : Char} (kind : closing? opener = some closer) :
    closer ≠ opener ∧ opener.utf8Size = 1 ∧ closer.utf8Size = 1 := by
  unfold closing? at kind
  split at kind <;> cases kind <;> decide

section Search

variable {opener closer : Char}

theorem depth_append (first second : List Char) :
    depth opener closer (first ++ second) = depth opener closer first + depth opener closer second := by
  simp only [depth, List.count_append]
  omega

theorem depth_cons (c : Char) (text : List Char) :
    depth opener closer (c :: text) = depth opener closer [c] + depth opener closer text :=
  depth_append [c] text

variable {opened : Nat}

theorem staysOpen_nil : StaysOpen opener closer opened [] ↔ 0 < opened := by
  simp [StaysOpen, depth]

namespace StaysOpen

theorem mono {front text : List Char} (stays : StaysOpen opener closer opened text) (inside : front <+: text) :
    StaysOpen opener closer opened front :=
  fun shorter within => stays shorter (within.trans inside)

theorem pos {text : List Char} (stays : StaysOpen opener closer opened text) : 0 < opened :=
  staysOpen_nil.mp (stays.mono List.nil_prefix)

end StaysOpen

theorem openedAfter_eq_zero (deep : 0 < opened) {c : Char} (ends : openedAfter opener closer opened c = 0) :
    c = closer ∧ opened = 1 := by
  unfold openedAfter at ends
  split at ends
  · cases ends
  · split at ends
    · next closes => exact ⟨closes, by omega⟩
    · omega

variable (other : closer ≠ opener)

include other

theorem depth_opener : depth opener closer [opener] = 1 := by simp [depth, other.symm]

theorem depth_closer : depth opener closer [closer] = -1 := by simp [depth, other]

theorem depth_pair (inside : List Char) :
    depth opener closer (opener :: (inside ++ [closer])) = depth opener closer inside := by
  rw [depth_cons, depth_append, depth_opener other, depth_closer other]
  omega

/-- While brackets are open, the count follows the depth. -/
theorem openedAfter_eq (deep : 0 < opened) (c : Char) :
    (openedAfter opener closer opened c : Int) = opened + depth opener closer [c] := by
  unfold openedAfter depth
  by_cases opens : c = opener
  · simp [opens, other.symm]
  · by_cases closes : c = closer
    · simp [closes, other]
      omega
    · simp [opens, closes]

/-- One step of the search. -/
theorem close?_step (deep : 0 < opened) (c : Char) (text : List Char) :
    close? opener closer opened (c :: text) =
      if openedAfter opener closer opened c = 0 then some ([], text)
      else (close? opener closer (openedAfter opener closer opened c) text).map fun found => (c :: found.1, found.2) := by
  rw [close?, openedAfter]
  by_cases opens : c = opener
  · simp [opens]
  · by_cases closes : c = closer
    · by_cases last : opened ≤ 1
      · simp [closes, last, other, Nat.sub_eq_zero_of_le last]
      · have more : opened - 1 ≠ 0 := by omega
        simp [closes, last, other, more]
    · simp [opens, closes, Nat.ne_of_gt deep]

theorem staysOpen_cons (c : Char) (text : List Char) :
    StaysOpen opener closer opened (c :: text) ↔
      0 < opened ∧ StaysOpen opener closer (openedAfter opener closer opened c) text := by
  constructor
  · intro stays
    have deep := stays.pos
    refine ⟨deep, ?_⟩
    intro front inside
    have reached := stays (c :: front) (List.cons_prefix_cons.mpr ⟨rfl, inside⟩)
    rw [depth_cons] at reached
    rw [openedAfter_eq other deep]
    omega
  · intro stays
    obtain ⟨deep, later⟩ := stays
    intro front inside
    cases front with
    | nil => exact staysOpen_nil.mpr deep [] List.nil_prefix
    | cons first front =>
      obtain ⟨rfl, within⟩ := List.cons_prefix_cons.mp inside
      have reached := later front within
      rw [openedAfter_eq other deep] at reached
      rw [depth_cons]
      omega

/-- Behind a part that stays open, the search goes on with the brackets that are open then. -/
theorem close?_front {front : List Char} (stays : StaysOpen opener closer opened front) (back : List Char) :
    close? opener closer opened (front ++ back) =
      (close? opener closer (opened + depth opener closer front).toNat back).map
        fun found => (front ++ found.1, found.2) := by
  induction front generalizing opened with
  | nil => simp [depth]
  | cons c front ih =>
    obtain ⟨deep, later⟩ := (staysOpen_cons other c front).mp stays
    have still := later.pos
    have reached := openedAfter_eq other deep c
    rw [List.cons_append, close?_step other deep, if_neg (by omega), ih later, Option.map_map, depth_cons, reached,
      Int.add_assoc]
    rfl

/-- A text that stays open has no bracket that closes what is open. -/
theorem close?_staysOpen {text : List Char} (stays : StaysOpen opener closer opened text) :
    close? opener closer opened text = none := by
  have whole := close?_front other stays []
  rwa [List.append_nil] at whole

/-- Behind a part that stays open, a closing bracket for the one that is open then ends the search. -/
theorem close?_closed {inside : List Char} (stays : StaysOpen opener closer opened inside)
    (last : opened + depth opener closer inside = 1) (after : List Char) :
    close? opener closer opened (inside ++ closer :: after) = some (inside, after) := by
  have ends : openedAfter opener closer 1 closer = 0 := by simp [openedAfter, other]
  rw [close?_front other stays, last, Int.toNat_one, close?_step other Nat.one_pos, if_pos ends]
  simp

/-- A text stays open, or it does so up to the bracket that closes what is open. -/
theorem staysOpen_or_closed (deep : 0 < opened) (text : List Char) :
    StaysOpen opener closer opened text ∨ ∃ inside after, text = inside ++ closer :: after ∧
      StaysOpen opener closer opened inside ∧ opened + depth opener closer inside = 1 := by
  induction text generalizing opened with
  | nil => exact .inl (staysOpen_nil.mpr deep)
  | cons c text ih =>
    have reached := openedAfter_eq other deep c
    by_cases ends : openedAfter opener closer opened c = 0
    -- The count comes down to zero only where the last open bracket is closed.
    · obtain ⟨rfl, rfl⟩ := openedAfter_eq_zero deep ends
      exact .inr ⟨[], text, rfl, staysOpen_nil.mpr deep, rfl⟩
    · rcases ih (Nat.pos_of_ne_zero ends) with stays | ⟨inside, after, rfl, stays, last⟩
      · exact .inl ((staysOpen_cons other c text).mpr ⟨deep, stays⟩)
      · refine .inr ⟨c :: inside, after, rfl, (staysOpen_cons other c inside).mpr ⟨deep, stays⟩, ?_⟩
        rw [depth_cons]
        omega

end Search

section Offsets

variable {opener closer : Char} (kind : closing? opener = some closer)

include kind

/-- The search from a bracket comes to the end of the text with brackets open, or to the place where none is left open. -/
theorem matching_cases (before rest : List Char) :
    (StaysOpen opener closer 1 rest ∧ matching (before ++ opener :: rest) (byteLength before) = .ok none) ∨
    ∃ inside after, rest = inside ++ closer :: after ∧ StaysOpen opener closer 1 inside ∧
      depth opener closer inside = 0 ∧ matching (before ++ opener :: rest) (byteLength before) =
        .ok (some (byteLength before + 1 + byteLength inside)) := by
  obtain ⟨other, _, _⟩ := closing?_eq_some kind
  have searched : matching (before ++ opener :: rest) (byteLength before) =
      .ok ((close? opener closer 1 rest).map fun found => byteLength before + 1 + byteLength found.1) := by
    rw [matching, Text.dropBytes?_append]
    simp only [enclosed?, kind]
  rw [searched]
  rcases staysOpen_or_closed other Nat.one_pos rest with stays | ⟨inside, after, rfl, stays, last⟩
  · rw [close?_staysOpen other stays]
    exact .inl ⟨stays, rfl⟩
  · rw [close?_closed other stays last]
    exact .inr ⟨inside, after, rfl, stays, by omega, rfl⟩

/-- The places that close a bracket, told by the characters around it. -/
theorem closes_iff {before rest : List Char} {place : Nat} :
    Closes opener closer (before ++ opener :: rest) (byteLength before) place ↔
      ∃ inside after, rest = inside ++ closer :: after ∧ depth opener closer inside = 0 ∧
        place = byteLength before + 1 + byteLength inside := by
  obtain ⟨other, narrow, single⟩ := closing?_eq_some kind
  have whole : before ++ opener :: rest = (before ++ [opener]) ++ rest := by simp
  have opening : byteLength (before ++ [opener]) = byteLength before + 1 := by
    rw [Text.byteLength_append, Text.byteLength_cons, narrow, Text.byteLength_nil]
  have pairing (inside : List Char) : byteLength (opener :: (inside ++ [closer])) = byteLength inside + 2 := by
    rw [Text.byteLength_cons, Text.byteLength_append, Text.byteLength_cons, narrow, single, Text.byteLength_nil]
    omega
  constructor
  · intro pair
    have stands := pair.holds
    rw [whole] at stands
    obtain ⟨inside, after, rfl, here⟩ := stands.behind (opening ▸ pair.behind)
    obtain ⟨part, slice, balanced⟩ := pair.balanced
    obtain ⟨tail, cut, stop⟩ := Text.slice_append_iff.mp slice
    have between : part = opener :: (inside ++ [closer]) := by
      refine Text.eq_of_byteLength_eq ⟨tail, cut.symm⟩ ⟨after, by simp⟩ ?_
      rw [pairing]
      omega
    refine ⟨inside, after, by simp, ?_, opening ▸ here⟩
    rw [← depth_pair other, ← between, depth]
    omega
  · intro pair
    obtain ⟨inside, after, rfl, balanced, rfl⟩ := pair
    refine ⟨by omega, ⟨before ++ [opener] ++ inside, after, by simp, ?_, ?_⟩, opener :: (inside ++ [closer]), ?_, ?_⟩
    · rw [Text.byteLength_append, opening]
    · rw [Text.byteLength_append, Text.byteLength_append, opening, Text.byteLength_cons, single, Text.byteLength_nil]
    · refine Text.slice_append_iff.mpr ⟨after, by simp, ?_⟩
      rw [pairing]
      omega
    · have level := depth_pair other inside
      rw [balanced, depth] at level
      omega

/-- What stays open behind a bracket ends in front of every place that closes the bracket. -/
theorem le_of_closes {before front rest : List Char} {place : Nat} (stays : StaysOpen opener closer 1 front)
    (within : front <+: rest) (closes : Closes opener closer (before ++ opener :: rest) (byteLength before) place) :
    byteLength before + 1 + byteLength front ≤ place := by
  obtain ⟨other, _, single⟩ := closing?_eq_some kind
  obtain ⟨inside, after, rfl, balanced, rfl⟩ := (closes_iff kind).mp closes
  by_contra sooner
  -- The place would stand inside, and nothing would be open behind it.
  have closed : inside ++ [closer] <+: front := by
    refine Text.isPrefix_of_byteLength_le ⟨after, by simp⟩ within ?_
    rw [Text.byteLength_append, Text.byteLength_cons, single, Text.byteLength_nil]
    omega
  have reached := stays _ closed
  rw [depth_append, balanced, depth_closer other] at reached
  omega

/-- A place that the search finds is the first that closes the bracket. -/
theorem isLeast_of_matching {before rest : List Char} {place : Nat}
    (found : matching (before ++ opener :: rest) (byteLength before) = .ok (some place)) :
    IsLeast {place | Closes opener closer (before ++ opener :: rest) (byteLength before) place} place := by
  rcases matching_cases kind before rest with ⟨_, ended⟩ | ⟨inside, after, rfl, stays, balanced, closed⟩
  · cases ended.symm.trans found
  · cases closed.symm.trans found
    refine ⟨(closes_iff kind).mpr ⟨inside, after, rfl, balanced, rfl⟩, ?_⟩
    intro other closes
    exact le_of_closes kind stays (List.prefix_append inside (closer :: after)) closes

/-- Where the search finds no place, none closes the bracket. -/
theorem not_closes_of_matching {before rest : List Char}
    (found : matching (before ++ opener :: rest) (byteLength before) = .ok none) (place : Nat) :
    ¬ Closes opener closer (before ++ opener :: rest) (byteLength before) place := by
  rcases matching_cases kind before rest with ⟨stays, _⟩ | ⟨_, _, _, _, _, closed⟩
  · intro closes
    have beyond := le_of_closes kind stays (List.prefix_refl rest) closes
    obtain ⟨inside, after, rfl, _, rfl⟩ := (closes_iff kind).mp closes
    have positive := closer.utf8Size_pos
    rw [Text.byteLength_append, Text.byteLength_cons] at beyond
    omega
  · cases closed.symm.trans found

/-- As long as the search has not come to the place that it finds, brackets are open in what it has read, and it goes on
with as many as there are. -/
theorem enclosed?_front {before front back : List Char}
    (ahead : ∀ place, matching (before ++ opener :: (front ++ back)) (byteLength before) = .ok (some place) →
      byteLength before + 1 + byteLength front ≤ place) :
    0 < depth opener closer (opener :: front) ∧
    enclosed? (opener :: (front ++ back)) = (close? opener closer (depth opener closer (opener :: front)).toNat back).map
      fun found => (front ++ found.1, found.2) := by
  obtain ⟨other, _, _⟩ := closing?_eq_some kind
  have stays : StaysOpen opener closer 1 front := by
    rcases matching_cases kind before (front ++ back) with ⟨stays, _⟩ | ⟨inside, after, same, stays, _, closed⟩
    · exact stays.mono (List.prefix_append front back)
    · apply stays.mono
      refine Text.isPrefix_of_byteLength_le (List.prefix_append front back) ⟨closer :: after, same.symm⟩ ?_
      exact Nat.le_of_add_le_add_left (ahead _ closed)
  have reached : depth opener closer (opener :: front) = (1 : Nat) + depth opener closer front := by
    rw [depth_cons, depth_opener other]
    rfl
  rw [reached]
  refine ⟨stays front (List.prefix_refl front), ?_⟩
  rw [← close?_front other stays, enclosed?]
  simp only [kind]

/-- The search from a bracket finds the bracket that closes it: the first behind it up to which there are as many opening as
closing brackets of the kind. It finds none exactly if there is none. As long as it reads on, brackets are open in what it
has read, and their number is the count with which it goes on. -/
theorem matching_exact {text : List Char} {offset : Nat} (holds : Slice text offset (offset + 1) [opener]) :
    (∀ place, matching text offset = .ok (some place) ↔ IsLeast {place | Closes opener closer text offset place} place) ∧
    (matching text offset = .ok none ↔ ∀ place, ¬ Closes opener closer text offset place) ∧
    ∀ front back, front ≠ [] → Slice text offset (byteLength text) (front ++ back) →
      (∀ place, matching text offset = .ok (some place) → offset + byteLength front ≤ place) →
      0 < depth opener closer front ∧
      enclosed? (front ++ back) = (close? opener closer (depth opener closer front).toNat back).map
        fun found => (front.tail ++ found.1, found.2) := by
  obtain ⟨before, rest, rfl, rfl, _⟩ := holds
  rw [List.append_assoc, List.singleton_append]
  obtain ⟨answer, answered⟩ : ∃ answer, matching (before ++ opener :: rest) (byteLength before) = .ok answer := by
    rcases matching_cases kind before rest with ⟨_, ended⟩ | ⟨_, _, _, _, _, closed⟩
    · exact ⟨_, ended⟩
    · exact ⟨_, closed⟩
  refine ⟨?_, ?_, ?_⟩
  · intro place
    refine ⟨isLeast_of_matching kind, ?_⟩
    intro least
    cases answer with
    | none => exact absurd least.1 (not_closes_of_matching kind answered place)
    | some first => rw [answered, (isLeast_of_matching kind answered).unique least]
  · refine ⟨not_closes_of_matching kind, ?_⟩
    intro never
    cases answer with
    | none => exact answered
    | some first => exact absurd (isLeast_of_matching kind answered).1 (never first)
  · intro front back filled whole ahead
    obtain ⟨_, narrow, _⟩ := closing?_eq_some kind
    obtain ⟨more, cut, stop⟩ := Text.slice_append_iff.mp whole
    have same : opener :: rest = front ++ back := by
      refine Text.eq_of_byteLength_eq (List.prefix_refl _) ⟨more, cut.symm⟩ ?_
      rw [Text.byteLength_append before] at stop
      exact Nat.add_left_cancel stop
    cases front with
    | nil => exact absurd rfl filled
    | cons c front =>
      obtain ⟨rfl, rfl⟩ := List.cons.inj same
      rw [Text.byteLength_cons, narrow, ← Nat.add_assoc] at ahead
      exact enclosed?_front kind ahead

end Offsets

/-- A bracket behind a character of two bytes, with an inner pair and brackets of another kind before its closing one, and
one more closing bracket behind that. -/
theorem matching_exact_nested :
    closing? '(' = some ')' ∧ Slice ['é', '(', 'a', '{', '(', 'b', ')', '}', ')', ')'] 2 3 ['('] ∧
    IsLeast {place | Closes '(' ')' ['é', '(', 'a', '{', '(', 'b', ')', '}', ')', ')'] 2 place} 9 := by
  have holds : Slice ['é', '(', 'a', '{', '(', 'b', ')', '}', ')', ')'] 2 3 ['('] := ⟨['é'], _, rfl, rfl, rfl⟩
  exact ⟨rfl, holds, ((matching_exact rfl holds).1 9).mp rfl⟩

end Bracket

end CallAtlas

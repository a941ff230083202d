import CallAtlas.Blanking
import CallAtlas.Proofs.Words

/-! Columns of a line. A search finds what it finds at a column of the text, and blanking leaves every character
that it does not blank at its column; so a name that is found in a blanked line stands at the same column of the
source line. -/
namespace CallAtlas

namespace Text

/-- A name stands in a text from a column on, and not as a part of a longer word. -/
structure StandsAt (continues : Char → Bool) (name : List Char) (column : Nat) (text : List Char) : Prop where
  here : name <+: text.drop column
  before : (text.take column).getLast?.any continues = false
  after : name.getLast?.any continues = true → (text.drop (column + name.length)).head?.any continues = false

variable {continues : Char → Bool} {name text : List Char} {column : Nat}

/-- What is dropped while it goes on does not go on. -/
theorem any_head?_dropWhile (continues : Char → Bool) (text : List Char) :
    (text.dropWhile continues).head?.any continues = false := by
  have stops := List.head?_dropWhile_not continues text
  cases first : (text.dropWhile continues).head? with
  | none => rfl
  | some c =>
    rw [first] at stops
    exact stops

theorem standsAt_append {front rest : List Char} (before : front.getLast?.any continues = false)
    (after : name.getLast?.any continues = true → rest.head?.any continues = false) :
    StandsAt continues name front.length (front ++ (name ++ rest)) := by
  refine ⟨?_, ?_, ?_⟩
  · rw [List.drop_left]
    exact List.prefix_append name rest
  · rwa [List.take_left]
  · rwa [← List.drop_drop, List.drop_left, List.drop_left]

namespace StandsAt

/-- A text in front moves a name by its length. The two texts must not run into each other. -/
theorem append_left (stands : StandsAt continues name column text) (starts : name.head?.any continues = true)
    {front : List Char} (apart : front.getLast?.any continues = true → text.head?.any continues = false) :
    StandsAt continues name (front.length + column) (front ++ text) := by
  refine ⟨?_, ?_, ?_⟩
  · rw [← List.drop_drop, List.drop_left]
    exact stands.here
  · rw [List.take_length_add_append, List.getLast?_append]
    cases taken : (text.take column).getLast? with
    | some c =>
      have before := stands.before
      rwa [taken] at before
    | none =>
      -- Nothing of the text is in front of the name, which the text then starts with.
      obtain ⟨rest, found⟩ := stands.here
      have whole : text = name ++ rest := by
        rw [found]
        rcases List.take_eq_nil_iff.mp (List.getLast?_eq_none_iff.mp taken) with rfl | rfl
        · rw [List.drop_zero]
        · rw [List.drop_nil]
      cases joined : front.getLast?.any continues with
      | false => exact joined
      | true =>
        have other := apart joined
        rw [whole] at other
        cases name with
        | nil => cases starts
        | cons c more => exact absurd (starts.symm.trans other) (by simp)
  · rw [Nat.add_assoc, ← List.drop_drop, List.drop_left]
    exact stands.after

theorem append_right (stands : StandsAt continues name column text) (filled : name ≠ []) {tail : List Char}
    (apart : tail.head?.any continues = false) : StandsAt continues name column (text ++ tail) := by
  obtain ⟨rest, found⟩ := stands.here
  have inside : column ≤ text.length := by
    by_contra beyond
    rw [List.drop_eq_nil_of_le (by omega), List.append_eq_nil_iff] at found
    exact filled found.1
  have follows : text.drop (column + name.length) = rest := by
    rw [← List.drop_drop, ← found, List.drop_left]
  refine ⟨?_, ?_, fun ends => ?_⟩
  · rw [List.drop_append_of_le_length inside, ← found, List.append_assoc]
    exact List.prefix_append name _
  · rw [List.take_append_of_le_length inside]
    exact stands.before
  · have after := stands.after ends
    rw [follows] at after
    rw [← List.drop_drop, List.drop_append_of_le_length inside, ← found, List.append_assoc, List.drop_left]
    cases rest with
    | nil => exact apart
    | cons c rest => exact after

end StandsAt

/-- A text ends in the other one, which does not start in the middle of a word. -/
def Leaves (continues : Char → Bool) (text rest : List Char) : Prop :=
  ∃ front, text = front ++ rest ∧ (front.getLast?.any continues = true → rest.head?.any continues = false)

namespace Leaves

variable {rest : List Char}

theorem refl (text : List Char) : Leaves continues text text := ⟨[], rfl, by simp⟩

/-- Behind a character that no word goes on with, anything may start. -/
theorem behind (front : List Char) {mark : Char} (other : continues mark = false) (rest : List Char) :
    Leaves continues (front ++ mark :: rest) rest :=
  ⟨front ++ [mark], by simp, by simp [other]⟩

theorem trans {middle : List Char} (first : Leaves continues text middle) (second : Leaves continues middle rest) :
    Leaves continues text rest := by
  obtain ⟨front, rfl, apart⟩ := first
  obtain ⟨between, rfl, inner⟩ := second
  refine ⟨front ++ between, by rw [List.append_assoc], fun joined => ?_⟩
  rw [List.getLast?_append] at joined
  cases last : between.getLast? with
  | some c =>
    rw [last] at joined inner
    exact inner joined
  | none =>
    cases List.getLast?_eq_none_iff.mp last
    exact apart joined

/-- A name that stands in the rest of a text stands in the text. -/
theorem standsAt (leaves : Leaves continues text rest) (starts : name.head?.any continues = true)
    (stands : StandsAt continues name column rest) : ∃ place, StandsAt continues name place text := by
  obtain ⟨front, rfl, apart⟩ := leaves
  exact ⟨_, stands.append_left starts apart⟩

end Leaves

/-- What a search finds is what the pattern reads at some place of the text. -/
theorem mem_occurrencesFrom {α : Type} {pattern : Pattern α} {found : α} {before text : List Char} {skip : Nat}
    (member : found ∈ occurrencesFrom pattern before skip text) :
    ∃ front rest left, text = front ++ rest ∧ pattern (front.reverse ++ before) rest = some (found, left) := by
  induction text generalizing before skip with
  | nil => cases skip <;> simp [occurrencesFrom] at member
  | cons c text ih =>
    have later {skip : Nat} (member : found ∈ occurrencesFrom pattern (c :: before) skip text) :
        ∃ front rest left, c :: text = front ++ rest ∧
          pattern (front.reverse ++ before) rest = some (found, left) := by
      obtain ⟨front, rest, left, rfl, reads⟩ := ih member
      refine ⟨c :: front, rest, left, rfl, ?_⟩
      rwa [List.reverse_cons, List.append_assoc, List.singleton_append]
    cases skip with
    | succ skip => exact later member
    | zero =>
      rw [occurrencesFrom] at member
      split at member
      · rename_i first left reads
        rcases List.mem_cons.mp member with rfl | member
        · exact ⟨[], c :: text, left, rfl, reads⟩
        · exact later member
      · exact later member

theorem mem_occurrences {α : Type} {pattern : Pattern α} {found : α} {text : List Char}
    (member : found ∈ occurrences pattern text) :
    ∃ front rest left, text = front ++ rest ∧ pattern front.reverse rest = some (found, left) := by
  obtain ⟨front, rest, left, split, reads⟩ := mem_occurrencesFrom member
  rw [List.append_nil] at reads
  exact ⟨front, rest, left, split, reads⟩

end Text

namespace Blanking

/-- One text shows at each column a blank or what the other has there. -/
def Shadows (shown source : List Char) : Prop :=
  ∀ (column : Nat) (c : Char), shown[column]? = some c → c = ' ' ∨ source[column]? = some c

namespace Shadows

variable {shown source : List Char}

theorem nil : Shadows [] source := by
  intro column c here
  simp at here

theorem refl (source : List Char) : Shadows source source := fun _ _ => .inr

theorem cons {written c : Char} (first : written = ' ' ∨ written = c) (rest : Shadows shown source) :
    Shadows (written :: shown) (c :: source) := by
  intro column d here
  cases column with
  | zero =>
    cases here
    exact first.imp id (congrArg some ·.symm)
  | succ column => exact rest column d here

/-- What shows no blank stands at its column in the source. -/
theorem isPrefix_drop (shadows : Shadows shown source) {word : List Char} (visible : ∀ c ∈ word, c ≠ ' ')
    {column : Nat} (here : word <+: shown.drop column) : word <+: source.drop column := by
  apply List.prefix_iff_getElem?.mpr
  intro index inside
  have found := List.prefix_iff_getElem?.mp here index inside
  rw [List.getElem?_drop] at found ⊢
  rcases shadows _ _ found with blank | same
  · exact absurd blank (visible _ (List.getElem_mem inside))
  · exact same

end Shadows

/-- A move of the scan writes blanks or what it reads. -/
def Step.Shadows (c : Char) (next : Option Char) : Step → Prop
  | .one written _ => written = ' ' ∨ written = c
  | .two first second _ => (first = ' ' ∨ first = c) ∧ ∀ d ∈ next, second = ' ' ∨ second = d
  | .lineComment => True

variable (language : Language) (style : Style) (state : State) (c : Char) (next : Option Char)

theorem stepComment_shadows : (stepComment style state c next).Shadows c next := by
  unfold stepComment
  split
  · rename_i ends
    obtain ⟨star, slash⟩ := Bool.and_eq_true_iff.mp ends
    cases beq_iff_eq.mp star
    cases beq_iff_eq.mp slash
    split <;> simp [Step.Shadows]
  · split <;> simp [Step.Shadows]

theorem stepQuoted_shadows (quote : Char) :
    (stepQuoted language style state quote c next).Shadows c next := by
  unfold stepQuoted
  split
  · split <;> split <;> simp [Step.Shadows]
  · split
    · exact .inr rfl
    · split
      · rename_i opens
        cases beq_iff_eq.mp (Bool.and_eq_true_iff.mp opens).2
        exact ⟨.inr rfl, fun d same => .inr (Option.some.inj same)⟩
      · split <;> simp [Step.Shadows]

theorem stepPlain_shadows : (stepPlain language style state c next).Shadows c next := by
  unfold stepPlain
  split
  · trivial
  · split
    · rename_i opens
      obtain ⟨front, star⟩ := Bool.and_eq_true_iff.mp opens
      cases beq_iff_eq.mp (Bool.and_eq_true_iff.mp front).2
      cases beq_iff_eq.mp star
      split <;> simp [Step.Shadows]
    · split <;> exact .inr rfl

theorem stepCode_shadows : (stepCode language style state c next).Shadows c next := by
  unfold stepCode
  split
  · exact stepPlain_shadows language style _ c next
  · split
    · exact stepPlain_shadows language style _ c next
    · split
      · rename_i closes
        split
        · exact .inr (beq_iff_eq.mp closes).symm
        · exact stepPlain_shadows language style _ c next
      · exact stepPlain_shadows language style _ c next

theorem step_shadows : (step language style state c next).Shadows c next := by
  unfold step
  split
  · exact stepComment_shadows style state c next
  · exact stepQuoted_shadows language style state c next _
  · exact stepCode_shadows language style state c next

variable {language style state}

/-- A blanked line is a shadow of the line. -/
theorem scan_shadows (line : List Char) : Shadows (scan language style state line).1 line := by
  fun_induction scan language style state line with
  | case1 => exact .nil
  | case2 state c rest written next moved text last same ih =>
    have first := step_shadows language style state c rest.head?
    rw [moved] at first
    rw [same] at ih
    exact .cons first ih
  | case3 state c first second next moved =>
    have two := step_shadows language style state c none
    rw [List.head?_nil] at moved
    rw [moved] at two
    exact .cons two.1 .nil
  | case4 state c first second next d rest text last same moved ih =>
    have two := step_shadows language style state c (some d)
    rw [List.head?_cons] at moved
    rw [moved] at two
    rw [same] at ih
    exact .cons two.1 (.cons (two.2 d rfl) ih)
  | case5 =>
    split
    · exact .nil
    · exact .refl _

theorem clean_shadows (cleaner : Cleaner) (line : List Char) :
    Shadows (cleaner.clean language line).1 line := by
  unfold Cleaner.clean
  simp only
  split
  · split
    · exact .nil
    · split
      · exact .nil
      · split
        · exact .nil
        · exact scan_shadows line
  · exact scan_shadows line

theorem pairLines_shadows {lines : List (List Char)} {line : Line} (member : line ∈ pairLines language lines) :
    Shadows line.cleaned line.raw := by
  have each (cleaner : Cleaner) (lines : List (List Char)) :
      ∀ line ∈ List.zipWith Line.mk lines (cleaner.cleanAll language lines), Shadows line.cleaned line.raw := by
    induction lines generalizing cleaner with
    | nil => simp
    | cons raw rest ih =>
      intro line member
      rcases List.mem_cons.mp member with rfl | member
      · exact clean_shadows cleaner raw
      · exact ih _ line member
  exact each {} lines line member

end Blanking
end CallAtlas

import CallAtlas.Proofs.ParameterNames
import CallAtlas.Ruby.Header
import CallAtlas.Script.Pattern

/-! Starts of headers. What is read of a header before its parameter list does not depend on what stands behind the
first bracket, nor on blanks before a line end. -/
namespace CallAtlas

theorem Text.afterBlank?_eq (text : List Char) :
    afterBlank? text = if text.head?.any isBlank = true then some (trimStart text) else none := by
  cases text with
  | nil => rfl
  | cons c text =>
    rw [afterBlank?, List.head?_cons, Option.any_some]
    split
    · rename_i blank
      exact congrArg some (List.dropWhile_cons_of_pos blank).symm
    · rfl

namespace Parameters

open Text (isBlank isQuote)

/-- Two texts that both start with a bracket, with the given texts behind it. -/
def Brackets (source shown a b : List Char) : Prop := a = '(' :: source ∧ b = '(' :: shown

/-- Two texts that have the same characters up to their first bracket. -/
def Starts (source shown : List Char) : List Char → List Char → Prop := Alike (· == '(') (Brackets source shown)

variable {source shown a b : List Char}

theorem bounds_brackets : Bounds (· == '(') (Brackets source shown) where
  head := by
    rintro a b ⟨rfl, rfl⟩
    rfl
  stops := by
    rintro a b c ⟨rfl, rfl⟩ first
    cases first
    rfl
  visible := by
    intro c stops
    cases beq_iff_eq.mp stops
    rfl

/-- A word without blanks and brackets. -/
def IsPlainWord (word : String) : Prop := ∀ c ∈ word.toList, isBlank c = false ∧ (c == '(') = false

instance (word : String) : Decidable (IsPlainWord word) :=
  inferInstanceAs (Decidable (∀ c ∈ word.toList, isBlank c = false ∧ (c == '(') = false))

theorem rel_bind {α β γ δ : Type} {R : α → β → Prop} {S : γ → δ → Prop} {x : Option α} {y : Option β}
    {f : α → Option γ} {g : β → Option δ} (found : Option.Rel R x y) (each : ∀ a b, R a b → Option.Rel S (f a) (g b)) :
    Option.Rel S (x.bind f) (y.bind g) := by
  cases found with
  | none => exact .none
  | some related => exact each _ _ related

theorem rel_getD {α β : Type} {R : α → β → Prop} {x : Option α} {y : Option β} {a : α} {b : β}
    (found : Option.Rel R x y) (other : R a b) : R (x.getD a) (y.getD b) := by
  cases found with
  | none => exact other
  | some related => exact related

namespace Starts

/-- The first brackets of two texts. -/
theorem split (starts : Starts source shown a b) :
    ∃ front front', a = front ++ '(' :: source ∧ b = front' ++ '(' :: shown ∧ (front = [] ↔ front' = []) ∧
      '(' ∉ front ∧ '(' ∉ front' := by
  induction starts with
  | base same =>
    obtain ⟨rfl, rfl⟩ := same
    exact ⟨[], [], rfl, rfl, by simp, by simp, by simp⟩
  | @code a b c free _ ih =>
    obtain ⟨front, front', rfl, rfl, _, inside, inside'⟩ := ih
    have other : '(' ≠ c := by
      rintro rfl
      cases free
    exact ⟨c :: front, c :: front', rfl, rfl, by simp, by simp [other, inside], by simp [other, inside']⟩
  | @padded a b c blank _ ih =>
    obtain ⟨front, front', same, rfl, both, inside, inside'⟩ := ih
    have other : '(' ≠ c := by
      rintro rfl
      cases blank
    have filled : front ≠ [] := by
      rintro rfl
      cases same
    exact ⟨front, c :: front', same, rfl, by simp [filled], inside, by simp [other, inside']⟩

theorem trimStart (starts : Starts source shown a b) : Starts source shown (Text.trimStart a) (Text.trimStart b) :=
  Alike.trimStart bounds_brackets starts

theorem afterBlank? (starts : Starts source shown a b) :
    Option.Rel (Starts source shown) (Text.afterBlank? a) (Text.afterBlank? b) := by
  have blanks : a.head?.any isBlank = b.head?.any isBlank := by
    cases starts with
    | base same => rw [bounds_brackets.head same]
    | code => rfl
    | padded blank => exact blank.symm
  rw [Text.afterBlank?_eq, Text.afterBlank?_eq, blanks]
  split
  · exact .some starts.trimStart
  · exact .none

theorem after? (starts : Starts source shown a b) (word : String) (plain : IsPlainWord word) :
    Option.Rel (Starts source shown) (Text.after? word a) (Text.after? word b) :=
  Alike.after? bounds_brackets plain starts

theorem afterSpacedWord? (starts : Starts source shown a b) (word : String) (plain : IsPlainWord word) :
    Option.Rel (Starts source shown) (Text.afterSpacedWord? word a) (Text.afterSpacedWord? word b) :=
  rel_bind (starts.after? word plain) fun _ _ => afterBlank?

theorem skipSpacedWord (starts : Starts source shown a b) (word : String) (plain : IsPlainWord word) :
    Starts source shown (Text.skipSpacedWord word a) (Text.skipSpacedWord word b) :=
  rel_getD (starts.afterSpacedWord? word plain) starts

open Script

theorem skipMark (starts : Starts source shown a b) {mark : Char} (visible : isBlank mark = false)
    (free : (mark == '(') = false) : Starts source shown (Pattern.skipMark mark a) (Pattern.skipMark mark b) := by
  have reads (text : List Char) : Pattern.mark? mark text = Text.afterChars? [mark] text := by
    cases text with
    | nil => rfl
    | cons c text => simp [Pattern.mark?, Text.afterChars?, eq_comm]
  refine rel_getD ?_ starts
  rw [reads, reads]
  exact Alike.afterChars? bounds_brackets (List.forall_mem_singleton.mpr ⟨visible, free⟩) starts

theorem free_of_isWord {c : Char} (word : Text.isWord c = true) : isBlank c = false ∧ (c == '(') = false :=
  ⟨Text.isBlank_of_isWord word, beq_eq_false_iff_ne.mpr (Text.ne_of_isWord word (by decide))⟩

/-- What is read in front of two texts is the same. -/
def Reads {α : Type} (source shown : List Char) (first second : α × List Char) : Prop :=
  first.1 = second.1 ∧ Starts source shown first.2 second.2

theorem identifier? (starts : Starts source shown a b) :
    Option.Rel (Reads source shown) (Pattern.identifier? a) (Pattern.identifier? b) := by
  have goesOn (c : Char) (joins : Pattern.continuesIdentifier c = true) : isBlank c = false ∧ (c == '(') = false := by
    rcases Bool.or_eq_true_iff.mp joins with word | dollar
    · exact free_of_isWord word
    · cases beq_iff_eq.mp dollar
      decide
  have visible {c : Char} (blank : isBlank c = true) : Pattern.startsIdentifier c = false := by
    refine Bool.eq_false_iff.mpr fun starts => ?_
    have joins : Pattern.continuesIdentifier c = true := by
      rcases Bool.or_eq_true_iff.mp starts with name | dollar
      · rw [Pattern.continuesIdentifier, Text.isWord_of_startsName name, Bool.true_or]
      · rw [Pattern.continuesIdentifier, dollar, Bool.or_true]
    rw [(goesOn c joins).1] at blank
    cases blank
  cases starts with
  | base same =>
    obtain ⟨rfl, rfl⟩ := same
    exact .none
  | @code a b c free rest =>
    rw [Pattern.identifier?, Pattern.identifier?]
    split
    · obtain ⟨same, left⟩ := Alike.dropWhile bounds_brackets goesOn rest
      exact .some ⟨congrArg (c :: ·) same, left⟩
    · exact .none
  | padded blank =>
    rw [Pattern.identifier?, Pattern.identifier?, visible blank, visible (by decide)]
    exact .none

theorem function? (starts : Starts source shown a b) :
    Option.Rel (Reads source shown) (Pattern.function? a) (Pattern.function? b) := by
  have exported : Starts source shown (Pattern.skipExportDefault a) (Pattern.skipExportDefault b) := by
    have found := starts.afterSpacedWord? "export" (by decide)
    rw [Pattern.skipExportDefault, Pattern.skipExportDefault]
    generalize Text.afterSpacedWord? "export" a = first at found ⊢
    generalize Text.afterSpacedWord? "export" b = second at found ⊢
    cases found with
    | none => exact starts
    | some rest => exact rest.skipSpacedWord "default" (by decide)
  have bare := (exported.skipSpacedWord "declare" (by decide)).skipSpacedWord "async" (by decide)
  refine rel_bind (bare.after? "function" (by decide)) fun x y rest => ?_
  exact ((rest.trimStart.skipMark (by decide) (by decide)).trimStart).identifier?

theorem visibilityWord? (starts : Starts source shown a b) :
    Option.Rel (Reads source shown) (Ruby.Header.visibilityWord? a) (Ruby.Header.visibilityWord? b) := by
  have hidden := starts.afterSpacedWord? "private" (by decide)
  have guarded := starts.afterSpacedWord? "protected" (by decide)
  have visible := starts.afterSpacedWord? "public" (by decide)
  unfold Ruby.Header.visibilityWord?
  generalize Text.afterSpacedWord? "private" a = first at hidden ⊢
  generalize Text.afterSpacedWord? "private" b = second at hidden ⊢
  generalize Text.afterSpacedWord? "protected" a = first' at guarded ⊢
  generalize Text.afterSpacedWord? "protected" b = second' at guarded ⊢
  generalize Text.afterSpacedWord? "public" a = last at visible ⊢
  generalize Text.afterSpacedWord? "public" b = last' at visible ⊢
  cases hidden with
  | some rest => exact .some ⟨rfl, rest⟩
  | none =>
    cases guarded with
    | some rest => exact .some ⟨rfl, rest⟩
    | none =>
      cases visible with
      | some rest => exact .some ⟨rfl, rest⟩
      | none => exact .none

theorem name? (starts : Starts source shown a b) :
    Option.Rel (Reads source shown) (Ruby.Header.name? a) (Ruby.Header.name? b) := by
  have visible : ∀ mark ∈ ['?', '!', '='], isBlank mark = false := by decide
  have unmarked {c : Char} (blank : isBlank c = true) : c ∉ ['?', '!', '='] := fun mark => by
    rw [visible c mark] at blank
    cases blank
  have line := unmarked (by decide : isBlank '\n' = true)
  cases starts with
  | base same =>
    obtain ⟨rfl, rfl⟩ := same
    exact .none
  | @code a b c free rest =>
    obtain ⟨same, left⟩ := Alike.dropWhile bounds_brackets (fun _ => free_of_isWord) rest
    rw [Ruby.Header.name?, Ruby.Header.name?, same]
    generalize a.dropWhile Text.isWord = first at left ⊢
    generalize b.dropWhile Text.isWord = second at left ⊢
    split
    · -- the mark after the word is read with it, a bracket or a blank is not
      cases left with
      | base same =>
        obtain ⟨rfl, rfl⟩ := same
        exact .some ⟨rfl, .base ⟨rfl, rfl⟩⟩
      | code mark free rest =>
        by_cases marked : mark ∈ ['?', '!', '=']
        · simp only [if_pos marked]
          exact .some ⟨rfl, rest⟩
        · simp only [if_neg marked]
          exact .some ⟨rfl, .code mark free rest⟩
      | padded blank rest =>
        simp only [if_neg line, if_neg (unmarked blank)]
        exact .some ⟨rfl, .padded blank rest⟩
    · exact .none
  | padded blank =>
    have outside {c : Char} (blank : isBlank c = true) : Text.startsName c = false :=
      Bool.eq_false_iff.mpr fun starts => by
        rw [(free_of_isWord (Text.isWord_of_startsName starts)).1] at blank
        cases blank
    rw [Ruby.Header.name?, Ruby.Header.name?, outside blank, outside (by decide)]
    exact .none

theorem settle (starts : Starts source shown a b) (name : List Char) :
    Starts source shown (Ruby.Header.settle name a).2 (Ruby.Header.settle name b).2 := by
  have brackets := Alike.head?_iff bounds_brackets starts (by decide : isBlank '(' = false)
  rw [Ruby.Header.settle, Ruby.Header.settle]
  by_cases endless : name.getLast? = some '=' ∧ a.head? ≠ some '('
  · rw [if_pos endless, if_pos ⟨endless.1, fun first => endless.2 (brackets.mpr first)⟩]
    exact .code '=' (by decide) starts
  · rw [if_neg endless, if_neg fun other => endless ⟨other.1, fun first => other.2 (brackets.mp first)⟩]
    exact starts

/-- The parameters and bodies of two headers are read from texts that start alike. -/
def Signatures (source shown : List Char) (first second : Ruby.Header) : Prop :=
  ∃ rest rest', Starts source shown rest rest' ∧
    Ruby.Header.signature rest = (first.parameters, first.body) ∧
    Ruby.Header.signature rest' = (second.parameters, second.body)

theorem read?_eq (line : List Char) : Ruby.Header.read? line =
    let word := Ruby.Header.visibilityWord? line
    (Text.afterSpacedWord? "def" ((word.map (·.2)).getD line)).bind fun text =>
      (((Text.after? "self." text).bind Ruby.Header.name?).map fun found =>
        Ruby.Header.finish (word.map (·.1)) true found.1 found.2).or
      ((Ruby.Header.name? text).map fun found => Ruby.Header.finish (word.map (·.1)) false found.1 found.2) := by
  unfold Ruby.Header.read?
  cases Ruby.Header.visibilityWord? line
  all_goals
    simp only [Option.map_none, Option.map_some, Option.getD_none, Option.getD_some]
    generalize Text.afterSpacedWord? "def" _ = rest
    cases rest with
    | none => rfl
    | some text =>
      simp only [Option.bind_some]
      cases (Text.after? "self." text).bind Ruby.Header.name? <;> rfl

theorem read? (starts : Starts source shown a b) :
    Option.Rel (Signatures source shown) (Ruby.Header.read? a) (Ruby.Header.read? b) := by
  have finished (visibility : Option Visibility) (onSelf : Bool) {first second : List Char × List Char}
      (reads : Reads source shown first second) :
      Signatures source shown (Ruby.Header.finish visibility onSelf first.1 first.2)
        (Ruby.Header.finish visibility onSelf second.1 second.2) :=
    ⟨_, _, reads.1 ▸ reads.2.settle first.1, rfl, rfl⟩
  have word := starts.visibilityWord?
  rw [read?_eq, read?_eq]
  generalize Ruby.Header.visibilityWord? a = first at word ⊢
  generalize Ruby.Header.visibilityWord? b = second at word ⊢
  have rest : first.map (·.1) = second.map (·.1) ∧
      Starts source shown ((first.map (·.2)).getD a) ((second.map (·.2)).getD b) := by
    cases word with
    | none => exact ⟨rfl, starts⟩
    | some reads => exact ⟨congrArg some reads.1, reads.2⟩
  refine rel_bind (rest.2.afterSpacedWord? "def" (by decide)) fun x y left => ?_
  have own := rel_bind (left.after? "self." (by decide)) fun _ _ => name?
  have named := left.name?
  rw [rest.1]
  generalize (Text.after? "self." x).bind Ruby.Header.name? = own₁ at own ⊢
  generalize (Text.after? "self." y).bind Ruby.Header.name? = own₂ at own ⊢
  generalize Ruby.Header.name? x = named₁ at named ⊢
  generalize Ruby.Header.name? y = named₂ at named ⊢
  cases own with
  | some reads => exact .some (finished _ true reads)
  | none =>
    cases named with
    | some reads => exact .some (finished _ false reads)
    | none => exact .none

end Starts
end Parameters
end CallAtlas

import CallAtlas.Proofs.ImportBindings

/-! Line ranges of Ruby methods. The search for the end of a method goes no further than the next header, so the
methods of a file stand one after another and every line has at most one owner. Whether a method is closed is told by
its lines alone: the blocks that they open and close, and the headers among them. -/
namespace CallAtlas.Ruby

open Blanking (Line)

namespace Block

/-- Blocks opened less blocks closed by some cleaned lines. -/
def openAfter (lines : List (List Char)) : Int :=
  lines.foldr (fun line total => delta (Text.trim line) + total) 0

/-- Whether a cleaned line starts a method. -/
def isHeader (line : List Char) : Bool := (Header.read? (Text.trim line)).isSome

/-- The block that the first of some lines opens is closed by the line at `offset`: something is open after every line
before it, nothing is open after it, and no line up to it starts another method. -/
structure ClosesAt (lines : List (List Char)) (offset : Nat) : Prop where
  inside : offset < lines.length
  opened : ∀ count ≤ offset, 0 < count → 0 < openAfter (lines.take count)
  shut : openAfter (lines.take (offset + 1)) ≤ 0
  alone : ∀ line ∈ (lines.take (offset + 1)).tail, isHeader line = false

instance (lines : List (List Char)) (offset : Nat) : Decidable (ClosesAt lines offset) :=
  decidable_of_iff
    (offset < lines.length ∧ (∀ count ≤ offset, 0 < count → 0 < openAfter (lines.take count)) ∧
      openAfter (lines.take (offset + 1)) ≤ 0 ∧ ∀ line ∈ (lines.take (offset + 1)).tail, isHeader line = false)
    ⟨fun ⟨inside, opened, shut, alone⟩ => ⟨inside, opened, shut, alone⟩,
     fun ⟨inside, opened, shut, alone⟩ => ⟨inside, opened, shut, alone⟩⟩

/-- Some line closes the block that the first of some lines opens. -/
def Closes (lines : List (List Char)) : Prop := ∃ offset < lines.length, ClosesAt lines offset

instance (lines : List (List Char)) : Decidable (Closes lines) :=
  inferInstanceAs (Decidable (∃ offset < lines.length, ClosesAt lines offset))

variable {depth : Int} {index offset : Nat} {limit : UInt64} {line : List Char} {rest lines : List (List Char)}

/-- One line of the search for the end of a method. A blank line opens and closes nothing. -/
theorem follow_step (positive : 0 < depth) (index : Nat) (line : List Char) (rest : List (List Char)) :
    follow true depth index (line :: rest) =
      if isHeader line = true then .interrupted (index - 1)
      else if depth + delta (Text.trim line) ≤ 0 then .closed index
      else follow true (depth + delta (Text.trim line)) (index + 1) rest := by
  rw [follow]
  by_cases blank : (Text.trim line).isEmpty = true
  · have nothing : Text.trim line = [] := List.isEmpty_iff.mp blank
    have unmoved : delta [] = 0 := by decide
    have header : isHeader line = false := by
      rw [isHeader, nothing]
      rfl
    rw [if_pos blank, header, if_neg Bool.false_ne_true, nothing, unmoved, Int.add_zero, if_neg (by omega)]
  · rw [if_neg blank]
    rfl

/-- No line that the search takes for a line of the method is a header. -/
theorem follow_alone (positive : 0 < depth) (started : 0 < index)
    (within : index + offset ≤ (follow true depth index lines).last) (here : lines[offset]? = some line) :
    isHeader line = false := by
  induction lines generalizing depth index offset with
  | nil => cases here
  | cons first rest ih =>
    rw [follow_step positive] at within
    by_cases header : isHeader first = true
    · rw [if_pos header, End.last] at within
      omega
    · rw [if_neg header] at within
      cases offset with
      | zero =>
        cases here
        simpa using header
      | succ offset =>
        by_cases shut : depth + delta (Text.trim first) ≤ 0
        · rw [if_pos shut, End.last] at within
          omega
        · rw [if_neg shut] at within
          have stillOpen : 0 < depth + delta (Text.trim first) := by omega
          have started : 0 < index + 1 := Nat.succ_pos index
          exact ih stillOpen started (by omega) here

/-- The lines in which the end of a method is sought that starts at an index: the first one, and those before the sum of
index and limit, which is one of machine words. -/
def window (limit : UInt64) (index : Nat) (lines : List (List Char)) : List (List Char) :=
  lines.take (max 1 (Limits.window limit index))

/-- A method ends before the next header. -/
theorem findEnd_alone {other : List Char} (header : isHeader line = true) (here : rest[offset]? = some other)
    (next : isHeader other = true) : (findEnd limit index line rest).last < index + 1 + offset := by
  by_contra beyond
  have bounds := findEnd_last limit index line rest
  simp only [isHeader] at header
  rw [findEnd, header] at bounds beyond
  by_cases shut : delta (Text.trim line) ≤ 0
  · rw [if_pos shut, End.last] at beyond
    omega
  · rw [if_neg shut] at bounds beyond
    have taken : (rest.take (Limits.window limit index - 1))[offset]? = some other := by
      rw [List.getElem?_take_of_lt (by omega), here]
    have positive : 0 < delta (Text.trim line) := by omega
    have started : 0 < index + 1 := Nat.succ_pos index
    have own := follow_alone positive started (by omega) taken
    rw [next] at own
    cases own

end Block

variable {path : String} {limit : UInt64}

/-- One definition stands before another. -/
def StandsBefore (first second : Definition) : Prop :=
  first.startLine < second.startLine ∧ first.endLine < second.startLine

theorem findings_apart (scope : Scope) (index : Nat) (lines : List Line) :
    (foundMethods (findings path limit scope index lines)).Pairwise
      (fun first second => StandsBefore first.definition second.definition) := by
  induction lines generalizing scope index with
  | nil => exact .nil
  | cons line rest ih =>
    rw [findings]
    split
    · exact ih _ _
    · split
      · exact ih _ _
      · split
        · exact ih _ _
        · rename_i header reads
          split
          · exact ih _ _
          · refine List.pairwise_cons.mpr ⟨?_, ih _ _⟩
            intro later member
            obtain ⟨finding, present, kept⟩ := List.mem_filterMap.mp member
            cases finding with
            | visibility => cases kept
            | method found =>
              cases kept
              obtain ⟨front, next, last, inner, another, rfl, readsNext, rfl⟩ := mem_findings present
              have starts : Block.isHeader line.cleaned = true := by rw [Block.isHeader, reads]; rfl
              have stops : Block.isHeader next.cleaned = true := by rw [Block.isHeader, readsNext]; rfl
              have here : ((front ++ next :: last).map (·.cleaned))[front.length]? = some next.cleaned := by simp
              constructor
              · simp only [methodAt]
                omega
              · exact Nat.succ_lt_succ (Block.findEnd_alone starts here stops)

theorem methodsOf_apart (path : String) (limit : UInt64) (lines : List Line) :
    (methodsOf path limit lines).Pairwise
      (fun first second => StandsBefore first.definition second.definition) := by
  refine List.Pairwise.map _ ?_ (findings_apart {} 0 lines)
  intro first second apart
  rw [applyVisibilities_eq, applyVisibilities_eq _ second.definition]
  exact apart

/-- Where definitions stand one after another, the owner of a line is the one that contains it. -/
theorem innermostCallable?_eq_some_iff {definitions : List Definition} (apart : definitions.Pairwise StandsBefore)
    (callable : ∀ definition ∈ definitions, definition.kind.isCallable = true) (line index : Nat) :
    innermostCallable? definitions line = some index ↔
      ∃ definition, definitions[index]? = some definition ∧ definition.containsLine line = true := by
  constructor
  · intro owns
    obtain ⟨definition, here, _, around⟩ := innermostCallable?_contains owns
    exact ⟨definition, here, around⟩
  · rintro ⟨definition, here, around⟩
    have member : definition ∈ definitions := List.mem_of_getElem? here
    obtain ⟨owner, owns⟩ := exists_innermostCallable? member (callable definition member) around
    obtain ⟨other, there, _, aroundOther⟩ := innermostCallable?_contains owns
    obtain ⟨inside, rfl⟩ := List.getElem?_eq_some_iff.mp here
    obtain ⟨insideOther, rfl⟩ := List.getElem?_eq_some_iff.mp there
    simp only [Definition.containsLine, Bool.and_eq_true, decide_eq_true_eq] at around aroundOther
    have ordered := List.pairwise_iff_getElem.mp apart
    rcases Nat.lt_trichotomy index owner with before | same | after
    · have := (ordered index owner inside insideOther before).2
      omega
    · rw [owns, same]
    · have := (ordered owner index insideOther inside after).2
      omega

namespace Reader

/-- The cleaned lines in which the end of a method is sought. -/
def linesFrom (reader : Reader) (file : SourceFile) (definition : Definition) : List (List Char) :=
  Block.window reader.limits.block (definition.startLine - 1)
    (((linesOf file).map (·.cleaned)).drop (definition.startLine - 1))

variable {reader : Reader} {file : SourceFile} {found : Found}

end Reader
end CallAtlas.Ruby

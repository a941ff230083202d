import CallAtlas.Corpus

/-! Where definitions stand when they are found: in the file that is read, without call sites, and on lines that
the file has. Each reader goes from line to line, so each step is told where it stands and how many lines the
file has. -/
namespace CallAtlas

/-- A definition of a file before call sites are added to it. -/
structure Definition.Bare (path : String) (definition : Definition) : Prop where
  filePath : definition.filePath = path
  calls : definition.calls = []

/-- A definition found after the first `index` of `limit` lines. -/
structure Definition.Located (path : String) (index limit : Nat) (definition : Definition) : Prop
    extends definition.Bare path where
  starts : index < definition.startLine
  ordered : definition.startLine ≤ definition.endLine
  ends : definition.endLine ≤ limit

theorem Definition.Located.earlier {path : String} {index limit : Nat} {definition : Definition}
    (located : definition.Located path index limit) {first : Nat} (before : first ≤ index) :
    definition.Located path first limit :=
  { located with starts := Nat.lt_of_le_of_lt before located.starts }

theorem SourceFile.sourceLines_length (file : SourceFile) : file.sourceLines.length = file.lineLimit := by
  rw [sourceLines, List.length_take]
  exact Nat.min_eq_left (Nat.min_le_right _ _)

namespace Limits

theorem blockLines_ofSettings (block : UInt64) (snippetLength : Nat) :
    (ofSettings block snippetLength).blockLines = max block.toNat 1 := by
  have word : max block 1 = if block ≤ 1 then 1 else block := rfl
  have small : block ≤ 1 ↔ block.toNat ≤ 1 := UInt64.le_iff_toNat_le
  rw [blockLines, ofSettings, word]
  split
  · next low => exact (Nat.max_eq_right (small.mp low)).symm
  · next high => exact (Nat.max_eq_left (Nat.le_of_not_le (high ∘ small.mpr))).symm

theorem window_eq_mod (block : UInt64) (start : Nat) :
    window block start = (start + block.toNat) % Text.wordLimit - start := by
  simp only [window, UInt64.toNat_add, UInt64.toNat_ofNat', Nat.mod_add_mod, Text.wordLimit]

theorem window_le (block : UInt64) (start : Nat) : window block start ≤ block.toNat := by
  have below := Nat.mod_le (start + block.toNat) Text.wordLimit
  rw [window_eq_mod]
  omega

theorem window_eq {block : UInt64} {start : Nat} (fits : start + block.toNat < Text.wordLimit) :
    window block start = block.toNat := by
  rw [window_eq_mod, Nat.mod_eq_of_lt fits, Nat.add_sub_cancel_left]

theorem window_eq_zero {block : UInt64} {start : Nat} (wraps : Text.wordLimit ≤ start + block.toNat) :
    window block start = 0 := by
  have small : block.toNat < Text.wordLimit := block.toNat_lt
  have less : (start + block.toNat) % Text.wordLimit ≤ start := by
    by_cases huge : Text.wordLimit ≤ start
    · exact Nat.le_trans (Nat.le_of_lt (Nat.mod_lt _ (by decide))) huge
    · rw [Nat.mod_eq_sub_mod wraps, Nat.mod_eq_of_lt (by omega)]
      omega
  rw [window_eq_mod, Nat.sub_eq_zero_of_le less]

/-- Whether the index of a line and the limit add up to more than a machine word. -/
def overruns (block : UInt64) (line : Nat) : Bool := decide (Text.wordLimit < line + block.toNat)

theorem fits_of_overruns {block : UInt64} {index : Nat} (within : overruns block (index + 1) = false) :
    index + block.toNat < Text.wordLimit := by
  have bound := of_decide_eq_false within
  omega

theorem wraps_of_overruns {block : UInt64} {index : Nat} (beyond : overruns block (index + 1) = true) :
    Text.wordLimit ≤ index + block.toNat := by
  have bound := of_decide_eq_true beyond
  omega

end Limits

namespace Blanking

theorem cleanAll_length (language : Language) (cleaner : Cleaner) (lines : List (List Char)) :
    (cleaner.cleanAll language lines).length = lines.length := by
  induction lines generalizing cleaner with
  | nil => rfl
  | cons line rest ih => simp [Cleaner.cleanAll, ih]

theorem pairLines_length (language : Language) (lines : List (List Char)) :
    (pairLines language lines).length = lines.length := by
  simp [pairLines, cleanLines, cleanAll_length]

end Blanking

namespace Ruby

open Blanking (Line)

namespace Block

/-- The search for the end of a block stops no further than its lines go. -/
theorem follow_last (interruptible : Bool) (depth : Int) {index : Nat} (positive : 0 < index)
    (lines : List (List Char)) :
    index ≤ (follow interruptible depth index lines).last + 1 ∧
      (follow interruptible depth index lines).last < index + lines.length := by
  induction lines generalizing depth index with
  | nil =>
    simp only [follow, End.last, List.length_nil]
    omega
  | cons line rest ih =>
    have later (depth : Int) := ih depth (Nat.zero_lt_succ index)
    simp only [Nat.succ_eq_add_one] at later
    simp only [follow, List.length_cons]
    split
    · have := later depth
      omega
    · split
      · simp only [End.last]
        omega
      · split
        · simp only [End.last]
          omega
        · have := later (depth + delta (Text.trim line))
          omega

theorem findEnd_last (limit : UInt64) (index : Nat) (line : List Char) (rest : List (List Char)) :
    index ≤ (findEnd limit index line rest).last ∧
      (findEnd limit index line rest).last ≤ index + rest.length ∧
      (findEnd limit index line rest).last ≤ index + (Limits.window limit index - 1) := by
  rw [findEnd]
  split
  · simp only [End.last]
    omega
  · have bounds := follow_last (Header.read? (Text.trim line)).isSome (delta (Text.trim line))
      (Nat.zero_lt_succ index) (rest.take (Limits.window limit index - 1))
    simp only [Nat.succ_eq_add_one] at bounds
    have shorter : (rest.take (Limits.window limit index - 1)).length ≤ rest.length := List.length_take_le' _ _
    have capped : (rest.take (Limits.window limit index - 1)).length ≤ Limits.window limit index - 1 :=
      List.length_take_le _ _
    omega

theorem findEnd_flat {line : List Char} (flat : delta (Text.trim line) ≤ 0) (limit : UInt64) (index : Nat)
    (rest : List (List Char)) : findEnd limit index line rest = .closed index := if_pos flat

/-- Where the sum of index and limit does not fit in a word, no line behind the first is looked at. -/
theorem findEnd_unread {limit : UInt64} {index : Nat} {line : List Char} (opens : 0 < delta (Text.trim line))
    (wraps : Text.wordLimit ≤ index + limit.toNat) (rest : List (List Char)) :
    findEnd limit index line rest = .capped index := by
  simp only [findEnd, if_neg (Int.not_le.mpr opens), Limits.window_eq_zero wraps]
  rfl

end Block

variable {path : String} {limit : UInt64} {index : Nat} {found : Found}

/-- A method is found on a line that reads as a header, and its block is sought in the lines from there on. -/
theorem mem_findings {scope : Scope} {lines : List Line}
    (member : .method found ∈ findings path limit scope index lines) :
    ∃ front line rest inner header, lines = front ++ line :: rest ∧
      Header.read? (Text.trim line.cleaned) = some header ∧
      found = methodAt path limit inner (index + front.length) line rest header := by
  induction lines generalizing scope index with
  | nil => simp [findings] at member
  | cons line rest ih =>
    have later {scope : Scope} (member : .method found ∈ findings path limit scope (index + 1) rest) :
        ∃ front next last inner header, line :: rest = front ++ next :: last ∧
          Header.read? (Text.trim next.cleaned) = some header ∧
          found = methodAt path limit inner (index + front.length) next last header := by
      obtain ⟨front, next, last, inner, header, rfl, reads, same⟩ := ih member
      refine ⟨line :: front, next, last, inner, header, rfl, reads, ?_⟩
      rw [same, List.length_cons, Nat.add_assoc, Nat.add_comm 1]
    rw [findings] at member
    split at member
    · rcases List.mem_cons.mp member with other | member
      · cases other
      · exact later member
    · split at member
      · exact later member
      · split at member
        · exact later member
        · rename_i header reads
          split at member
          · exact later member
          · rcases List.mem_cons.mp member with same | member
            · cases same
              exact ⟨[], line, rest, _, header, rfl, reads, rfl⟩
            · exact later member

theorem methodAt_located (scope : Scope) (line : Line) (rest : List Line) (header : Header) :
    (methodAt path limit scope index line rest header).definition.Located path index
      (index + (rest.length + 1)) := by
  have bounds := Block.findEnd_last limit index line.cleaned (rest.map (·.cleaned))
  rw [List.length_map] at bounds
  constructor
  · exact ⟨rfl, rfl⟩
  all_goals simp only [methodAt]; omega

theorem findings_located {scope : Scope} {lines : List Line}
    (member : .method found ∈ findings path limit scope index lines) :
    found.definition.Located path index (index + lines.length) := by
  obtain ⟨front, line, rest, inner, header, rfl, _, rfl⟩ := mem_findings member
  have located : (methodAt path limit inner (index + front.length) line rest header).definition.Located path
      (index + front.length) (index + front.length + (rest.length + 1)) :=
    methodAt_located inner line rest header
  rw [List.length_append, List.length_cons, ← Nat.add_assoc index]
  exact located.earlier (Nat.le_add_right _ _)

/-- Requests for a visibility move nothing. -/
theorem applyVisibilities_located (requests : List (String × Visibility)) {definition : Definition} {last : Nat}
    (located : definition.Located path index last) :
    (applyVisibilities requests definition).Located path index last := by
  unfold applyVisibilities
  induction requests generalizing definition with
  | nil => exact located
  | cons request rest ih =>
    rw [List.foldl_cons]
    apply ih
    split
    · exact { located with }
    · exact located

theorem methodsOf_located {lines : List Line} (member : found ∈ methodsOf path limit lines) :
    found.definition.Located path 0 lines.length := by
  obtain ⟨original, chosen, rfl⟩ := List.mem_map.mp member
  apply applyVisibilities_located
  obtain ⟨finding, present, kept⟩ := List.mem_filterMap.mp chosen
  cases finding with
  | visibility => cases kept
  | method =>
    cases kept
    simpa using findings_located present

theorem Reader.findMethods_located (reader : Reader) (file : SourceFile)
    (member : found ∈ reader.findMethods file) :
    found.definition.Located file.path 0 file.lineLimit := by
  have located := methodsOf_located member
  rwa [linesOf, Blanking.pairLines_length, file.sourceLines_length] at located

theorem Reader.define_located (reader : Reader) {file : SourceFile} {definition : Definition}
    (member : definition ∈ (reader.define file).definitions) :
    definition.Located file.path 0 file.lineLimit := by
  obtain ⟨found, present, rfl⟩ := List.mem_map.mp member
  exact reader.findMethods_located file present

end Ruby
end CallAtlas

import CallAtlas.Proofs.Confinement
import CallAtlas.Proofs.Phases

/-! Where the visibility of a method comes from, for every file. The reader of methods is compared with one that sees
only the trimmed texts of the lines: a word that stands alone counts for the headers below it until the next class or
module, a word on the header line goes before it, and the last line of the whole file that names the method goes
before both. -/
namespace CallAtlas.Ruby

open Blanking (Line)

variable {path : String} {limit : UInt64}

/-- Where a method starts, its name and its visibility. -/
structure Entry where
  number : Nat
  name : String
  visibility : Visibility
  deriving DecidableEq, Repr

def Entry.ofDefinition (definition : Definition) : Entry :=
  { number := definition.startLine, name := definition.name, visibility := definition.visibility }

/-- What a trimmed line asks for the methods that it names. -/
def requestsOn (text : List Char) : List (String × Visibility) :=
  (visibilityList? text).elim [] fun list => list.1.map fun name => (String.ofList name, list.2)

/-- The last request for a name. -/
def lastRequest? (requests : List (String × Visibility)) (name : String) : Option Visibility :=
  (requests.filter fun request => request.1 = name).getLast?.map (·.2)

theorem lastRequest?_cons (request : String × Visibility) (rest : List (String × Visibility)) (name : String) :
    lastRequest? (request :: rest) name =
      if request.1 = name then some ((lastRequest? rest name).getD request.2) else lastRequest? rest name := by
  by_cases named : request.1 = name
  · rw [if_pos named, lastRequest?, List.filter_cons_of_pos (by simpa using named), List.getLast?_cons, lastRequest?]
    cases (rest.filter fun request => request.1 = name).getLast? <;> rfl
  · rw [if_neg named, lastRequest?, List.filter_cons_of_neg (by simpa using named), lastRequest?]

/-- Of all requests only the last one for the name of a method counts. -/
theorem applyVisibilities_visibility (requests : List (String × Visibility)) (definition : Definition) :
    (applyVisibilities requests definition).visibility =
      (lastRequest? requests definition.name).getD definition.visibility := by
  unfold applyVisibilities
  induction requests generalizing definition with
  | nil => rfl
  | cons request rest ih =>
    rw [List.foldl_cons, ih, lastRequest?_cons]
    by_cases named : definition.name = request.1
    · rw [if_pos named, if_pos named.symm]
      rfl
    · rw [if_neg named, if_neg (Ne.symm named)]

/-- The header that a trimmed line is read as, unless the line is read as something else or the name is taken. -/
def headerOn? (text : List Char) : Option Header :=
  if (visibilityList? text).isSome || startsSingleton text then none
  else (Header.read? text).filter fun header => !isReserved (String.ofList header.name)

/-- The entry of the header on line `index`, where `visibility` holds. -/
def entryAt (visibility : Visibility) (index : Nat) (header : Header) : Entry :=
  { number := index + 1, name := String.ofList header.name, visibility := header.visibility.getD visibility }

/-- The entries of the lines from index `index` on, before names are looked up in requests. -/
def entriesFrom (visibility : Visibility) (index : Nat) : (texts : List (List Char)) → List Entry
  | [] => []
  | text :: rest =>
    (headerOn? text).toList.map (entryAt (visibilityAfter visibility text) index) ++
      entriesFrom (visibilityAfter visibility text) (index + 1) rest

/-- The entry after the requests of a file. -/
def Entry.apply (requests : List (String × Visibility)) (entry : Entry) : Entry :=
  { entry with visibility := (lastRequest? requests entry.name).getD entry.visibility }

/-- The entries of a file, by the trimmed texts of its lines. -/
def entriesOf (texts : List (List Char)) : List Entry :=
  (entriesFrom .publicScope 0 texts).map (Entry.apply (texts.flatMap requestsOn))

def textsOf (lines : List Line) : List (List Char) := lines.map fun line => Text.trim line.cleaned

/-- What one line adds to the findings, and the scope that it leaves. -/
theorem findings_cons (scope : Scope) (index : Nat) (line : Line) (rest : List Line) :
    ∃ here next, findings path limit scope index (line :: rest) = here ++ findings path limit next (index + 1) rest ∧
      next.visibility = visibilityAfter scope.visibility (Text.trim line.cleaned) ∧
      requestedVisibilities here = requestsOn (Text.trim line.cleaned) ∧
      (foundMethods here).map (fun found => Entry.ofDefinition found.definition) =
        (headerOn? (Text.trim line.cleaned)).toList.map (entryAt next.visibility index) := by
  rw [findings]
  cases listed : visibilityList? (Text.trim line.cleaned) with
  | some list => exact ⟨[.visibility list.1 list.2], _, rfl, rfl, by simp [requestedVisibilities, requestsOn, listed],
      by simp [foundMethods, headerOn?, listed]⟩
  | none =>
    have silent : requestsOn (Text.trim line.cleaned) = [] := by simp [requestsOn, listed]
    rw [silent]
    by_cases singleton : startsSingleton (Text.trim line.cleaned) = true
    · have other : headerOn? (Text.trim line.cleaned) = none := by simp [headerOn?, singleton]
      simp only [if_pos singleton, other]
      exact ⟨[], _, rfl, rfl, rfl, rfl⟩
    · have read : headerOn? (Text.trim line.cleaned) =
          (Header.read? (Text.trim line.cleaned)).filter fun header => !isReserved (String.ofList header.name) := by
        simp [headerOn?, listed, singleton]
      simp only [if_neg singleton, read]
      cases Header.read? (Text.trim line.cleaned) with
      | none => exact ⟨[], _, rfl, rfl, rfl, rfl⟩
      | some header =>
        by_cases reserved : isReserved (String.ofList header.name) = true
        · simp only [Option.filter_some, reserved]
          exact ⟨[], _, rfl, rfl, rfl, rfl⟩
        · simp only [Option.filter_some, reserved]
          exact ⟨[.method _], _, rfl, rfl, rfl, rfl⟩

theorem requestedVisibilities_append (front rest : List Finding) :
    requestedVisibilities (front ++ rest) = requestedVisibilities front ++ requestedVisibilities rest :=
  List.flatMap_append

theorem foundMethods_append (front rest : List Finding) :
    foundMethods (front ++ rest) = foundMethods front ++ foundMethods rest :=
  List.filterMap_append

theorem requestedVisibilities_findings (scope : Scope) (index : Nat) (lines : List Line) :
    requestedVisibilities (findings path limit scope index lines) = (textsOf lines).flatMap requestsOn := by
  induction lines generalizing scope index with
  | nil => rfl
  | cons line rest ih =>
    obtain ⟨here, next, split, _, requests, _⟩ := findings_cons scope index line rest
    rw [split, requestedVisibilities_append, requests, ih]
    rfl

theorem foundMethods_findings (scope : Scope) (index : Nat) (lines : List Line) :
    (foundMethods (findings path limit scope index lines)).map (fun found => Entry.ofDefinition found.definition) =
      entriesFrom scope.visibility index (textsOf lines) := by
  induction lines generalizing scope index with
  | nil => rfl
  | cons line rest ih =>
    obtain ⟨here, next, split, visibility, _, methods⟩ := findings_cons scope index line rest
    rw [split, foundMethods_append, List.map_append, methods, ih, visibility]
    rfl

theorem Entry.ofDefinition_applyVisibilities (requests : List (String × Visibility)) (definition : Definition) :
    Entry.ofDefinition (applyVisibilities requests definition) = (Entry.ofDefinition definition).apply requests := by
  rw [applyVisibilities_eq, applyVisibilities_visibility]
  rfl

/-- The methods of a file, their places and their visibilities are decided by the trimmed texts of its lines. -/
theorem methodsOf_entries (path : String) (limit : UInt64) (lines : List Line) :
    (methodsOf path limit lines).map (fun found => Entry.ofDefinition found.definition) = entriesOf (textsOf lines) := by
  rw [methodsOf, List.map_map, entriesOf, ← requestedVisibilities_findings {} 0 lines, ← foundMethods_findings {} 0 lines,
    List.map_map]
  apply List.map_congr_left
  intro found _
  exact Entry.ofDefinition_applyVisibilities _ _

namespace Reader

variable (reader : Reader) (file : SourceFile)

theorem define_entries : (reader.define file).definitions.map Entry.ofDefinition = entriesOf (textsOf (linesOf file)) := by
  rw [← methodsOf_entries file.path reader.limits.block, define, List.map_map]
  rfl

/-- Call sites are added later and change no entry. -/
theorem analyze_entries (registry : Registry) :
    (reader.analyze file registry).definitions.map Entry.ofDefinition = entriesOf (textsOf (linesOf file)) := by
  rw [← define_entries reader file, ← reader.analyze_eraseCalls file registry, List.map_map]
  rfl

end Reader

theorem entriesFrom_append (visibility : Visibility) (index : Nat) (front rest : List (List Char)) :
    entriesFrom visibility index (front ++ rest) =
      entriesFrom visibility index front ++
        entriesFrom (front.foldl visibilityAfter visibility) (index + front.length) rest := by
  induction front generalizing visibility index with
  | nil => rfl
  | cons text front ih =>
    rw [List.cons_append, entriesFrom, entriesFrom, ih, List.append_assoc, List.foldl_cons, List.length_cons,
      Nat.add_assoc, Nat.add_comm 1]

theorem number_of_mem_entriesFrom {visibility : Visibility} {index : Nat} {texts : List (List Char)} {entry : Entry}
    (member : entry ∈ entriesFrom visibility index texts) : index < entry.number ∧ entry.number ≤ index + texts.length := by
  induction texts generalizing visibility index with
  | nil => cases member
  | cons text rest ih =>
    rw [List.length_cons]
    rcases List.mem_append.mp member with here | later
    · obtain ⟨header, _, rfl⟩ := List.mem_map.mp here
      simp only [entryAt]
      omega
    · have bounds := ih later
      omega

/-- On a line that is read as a header one method starts. The words above it that stand alone, the word of the header
and the requests of the whole file decide its visibility. -/
theorem entriesOf_at (front : List (List Char)) {text : List Char} (back : List (List Char)) {header : Header}
    (read : headerOn? text = some header) :
    (entriesOf (front ++ text :: back)).filter (fun entry => entry.number = front.length + 1) =
      [(entryAt (visibilityAfter (front.foldl visibilityAfter .publicScope) text) front.length header).apply
        ((front ++ text :: back).flatMap requestsOn)] := by
  have above : (entriesFrom .publicScope 0 front).filter (fun entry => entry.number = front.length + 1) = [] := by
    apply List.filter_eq_nil_iff.mpr
    intro entry member
    have bounds := number_of_mem_entriesFrom member
    simp only [decide_eq_true_eq]
    omega
  have below (visibility : Visibility) :
      (entriesFrom visibility (front.length + 1) back).filter (fun entry => entry.number = front.length + 1) = [] := by
    apply List.filter_eq_nil_iff.mpr
    intro entry member
    have bounds := number_of_mem_entriesFrom member
    simp only [decide_eq_true_eq]
    omega
  have number (requests : List (String × Visibility)) :
      ((fun entry : Entry => decide (entry.number = front.length + 1)) ∘ Entry.apply requests) =
        fun entry : Entry => decide (entry.number = front.length + 1) := rfl
  rw [entriesOf, List.filter_map, number, entriesFrom_append, entriesFrom, read, Nat.zero_add, List.filter_append,
    List.filter_append, above, below]
  simp [entryAt]

end CallAtlas.Ruby

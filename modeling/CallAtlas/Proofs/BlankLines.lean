import CallAtlas.Proofs.InsertedLines
import CallAtlas.Proofs.LocalNames

/-! An empty line in a Ruby file. It makes no name local and calls nothing, so what is found behind the line is found one
line further down, with the same calls, and nothing else changes. -/
namespace CallAtlas

namespace Definition

variable {number : Nat} {before after : Definition}

theorem Moved.addCall (same : before.Moved number after) (call : CallSite) :
    (before.addCall call).Moved number (after.addCall (call.moved number)) := by
  have recorded : after.records (call.moved number) = before.records call := by
    rw [records, records, same.calls, List.any_map]
    congr 1
    funext known
    have line : (Text.moved number known.line == Text.moved number call.line) = (known.line == call.line) := by
      rw [Bool.eq_iff_iff, beq_iff_eq, beq_iff_eq, (Text.moved_injective number).eq_iff]
    simp only [Function.comp_apply, CallSite.moved, line]
  rw [Definition.addCall, Definition.addCall, recorded]
  split
  · exact same
  · refine { same with calls := ?_ }
    simp [same.calls]

theorem Moved.addCalls (same : before.Moved number after) (calls : List CallSite) :
    (before.addCalls calls).Moved number (after.addCalls (calls.map (CallSite.moved number))) := by
  induction calls generalizing before after with
  | nil => exact same
  | cons call rest ih => exact ih (same.addCall call)

/-- The last line moves with the others, or the inserted line becomes the last. -/
theorem Moved.endLine (same : before.Moved number after) :
    after.endLine = Text.moved number before.endLine ∨ before.endLine + 1 = number ∧ after.endLine = number := by
  have last := (same.reaches before.endLine).mp (Nat.le_refl _)
  have next := mt (same.reaches (before.endLine + 1)).mpr (Nat.not_succ_le_self _)
  simp only [Text.moved] at last next ⊢
  split_ifs at last next ⊢ <;> omega

theorem definedNames_moved {before after : List Definition}
    (same : List.Forall₂ (Definition.Moved number) before after) :
    Registry.definedNames after = Registry.definedNames before := by
  induction same with
  | nil => rfl
  | cons first rest ih =>
    simp only [Registry.definedNames] at ih ⊢
    rw [List.filter_cons, List.filter_cons, first.kind]
    split
    · rw [List.map_cons, List.map_cons, ih, first.name]
    · exact ih

end Definition

namespace Ruby.Reader

open Blanking (Line)
open Text (moved)

variable {limits : Limits} {accepts : String → Bool} {locals : List String} {number start : Nat}

theorem callsFrom_step {lines linesAfter : List (List Char × List Char)}
    (later : ∀ locals, callsFrom limits accepts (fun _ => true) locals (moved number start + 1) linesAfter =
      (callsFrom limits accepts (fun _ => true) locals (start + 1) lines).map (CallSite.moved number))
    (line : List Char × List Char) :
    callsFrom limits accepts (fun _ => true) locals (moved number start) (line :: linesAfter) =
      (callsFrom limits accepts (fun _ => true) locals start (line :: lines)).map (CallSite.moved number) := by
  simp only [callsFrom, if_true, later, List.map_append, List.map_map]
  rfl

theorem callsFrom_behind (behind : number ≤ start) (lines : List (List Char × List Char)) :
    callsFrom limits accepts (fun _ => true) locals (start + 1) lines =
      (callsFrom limits accepts (fun _ => true) locals start lines).map (CallSite.moved number) := by
  induction lines generalizing locals start with
  | nil => rfl
  | cons line rest ih =>
    have place := Text.moved_of_le behind
    rw [← place]
    apply callsFrom_step
    intro locals
    rw [place]
    exact ih (Nat.le_succ_of_le behind)

/-- An empty line calls nothing and makes no name local. -/
theorem callsFrom_insert {middle back : List (List Char × List Char)} (place : start + middle.length = number) :
    callsFrom limits accepts (fun _ => true) locals start (middle ++ ([], []) :: back) =
      (callsFrom limits accepts (fun _ => true) locals start (middle ++ back)).map (CallSite.moved number) := by
  induction middle generalizing locals start with
  | nil =>
    have same : localsAfter locals [] = locals := (List.append_nil _).trans (List.append_nil _)
    rw [List.length_nil, Nat.add_zero] at place
    rw [List.nil_append, List.nil_append, ← callsFrom_behind (Nat.le_of_eq place.symm), callsFrom, if_pos rfl, same]
    rfl
  | cons line middle ih =>
    rw [List.length_cons] at place
    have above : moved number start = start := Text.moved_of_lt (by omega)
    have step := @callsFrom_step limits accepts locals number start (middle ++ back) (middle ++ ([], []) :: back)
    rw [above] at step
    apply step
    intro locals
    exact ih (by omega)

theorem callsFrom_above {lines : List (List Char × List Char)} (above : start + lines.length ≤ number) :
    callsFrom limits accepts (fun _ => true) locals start lines =
      (callsFrom limits accepts (fun _ => true) locals start lines).map (CallSite.moved number) := by
  have still : ∀ call ∈ callsFrom limits accepts (fun _ => true) locals start lines, call.moved number = call := by
    intro call member
    have placed := callsFrom_lines member
    rw [CallSite.moved, Text.moved_of_lt (by omega)]
  exact ((List.map_congr_left still).trans (List.map_id _)).symm

variable {path : String} {limit : UInt64} {first second : List Line} {before after : Found}

/-- A method behind the inserted line is searched on the same lines. -/
theorem callsFrom_searchedLines_behind {front rest : List Line} {line : Line} (same : before.Moved first.length after)
    (starts : before.definition.startLine = (first ++ front).length + 1)
    (ordered : before.definition.startLine ≤ before.definition.endLine) :
    callsFrom limits accepts (fun _ => true) locals after.definition.startLine
        (searchedLines (first ++ ⟨[], []⟩ :: (front ++ line :: rest)) after) =
      (callsFrom limits accepts (fun _ => true) locals before.definition.startLine
        (searchedLines (first ++ (front ++ line :: rest)) before)).map (CallSite.moved (first.length + 1)) := by
  have behind : first.length + 1 ≤ before.definition.startLine := by
    rw [starts, List.length_append]
    omega
  have startsAfter : after.definition.startLine = before.definition.startLine + 1 :=
    same.definition.startLine.trans (Text.moved_of_le behind)
  have endsAfter : after.definition.endLine = before.definition.endLine + 1 := by
    have last := Text.moved_of_le (Nat.le_trans behind ordered)
    rcases same.definition.endLine with moves | ⟨above, inserted⟩ <;> omega
  have place : after.definition.startLine = (first ++ ⟨[], []⟩ :: front).length + 1 := by
    rw [startsAfter, starts, List.length_append, List.length_append, List.length_cons]
    omega
  have searched := @searchedLines_append before (first ++ front) rest line starts ordered
  have searchedAfter := @searchedLines_append after (first ++ ⟨[], []⟩ :: front) rest line place (by omega)
  rw [List.append_assoc] at searched searchedAfter
  rw [List.cons_append] at searchedAfter
  rw [searched, searchedAfter, same.body, startsAfter, endsAfter, Nat.add_sub_add_right]
  exact callsFrom_behind behind _

/-- A method that starts above the inserted line is searched on the same lines, and on the inserted one if it reaches
that far. -/
theorem callsFrom_searchedLines_above {front middle : List Line} {line : Line}
    (same : before.Moved (front ++ line :: middle).length after)
    (starts : before.definition.startLine = front.length + 1)
    (ordered : before.definition.startLine ≤ before.definition.endLine) :
    callsFrom limits accepts (fun _ => true) locals after.definition.startLine
        (searchedLines (front ++ line :: (middle ++ ⟨[], []⟩ :: second)) after) =
      (callsFrom limits accepts (fun _ => true) locals before.definition.startLine
        (searchedLines (front ++ line :: (middle ++ second)) before)).map
          (CallSite.moved ((front ++ line :: middle).length + 1)) := by
  have length : (front ++ line :: middle).length = before.definition.startLine + middle.length := by
    rw [starts, List.length_append, List.length_cons]
    omega
  rw [length] at same ⊢
  have startsAfter : after.definition.startLine = before.definition.startLine :=
    same.definition.startLine.trans (Text.moved_of_lt (by omega))
  have last := same.definition.endLine
  simp only [moved] at last
  rw [searchedLines_append starts ordered, searchedLines_append (startsAfter.trans starts) (by split at last <;> omega),
    same.body, startsAfter]
  by_cases reached : after.definition.endLine ≤ before.definition.startLine + middle.length
  · have endsAfter : after.definition.endLine = before.definition.endLine := by split at last <;> omega
    rw [endsAfter] at reached ⊢
    rw [List.take_append_of_le_length (by omega), List.take_append_of_le_length (by omega)]
    apply callsFrom_above
    rw [List.length_cons, List.length_map, List.length_take]
    omega
  · have endsAfter : after.definition.endLine = before.definition.endLine + 1 := by split at last <;> omega
    obtain ⟨more, ends⟩ : ∃ more, before.definition.endLine = before.definition.startLine + middle.length + more :=
      Nat.exists_eq_add_of_le (by omega)
    have taken : before.definition.endLine - before.definition.startLine = middle.length + more := by omega
    have takenAfter : after.definition.endLine - before.definition.startLine = middle.length + (more + 1) := by omega
    rw [taken, takenAfter, List.take_length_add_append, List.take_length_add_append, List.take_succ_cons,
      List.map_append, List.map_append, List.map_cons, ← List.cons_append, ← List.cons_append]
    apply callsFrom_insert
    rw [List.length_cons, List.length_map, Nat.add_assoc]

theorem callsFrom_searchedLines (same : before.Moved first.length after)
    (member : before ∈ methodsOf path limit (first ++ second)) :
    callsFrom limits accepts (fun _ => true) locals after.definition.startLine
        (searchedLines (first ++ ⟨[], []⟩ :: second) after) =
      (callsFrom limits accepts (fun _ => true) locals before.definition.startLine
        (searchedLines (first ++ second) before)).map (CallSite.moved (first.length + 1)) := by
  have ordered := (methodsOf_located member).ordered
  obtain ⟨front, line, rest, scope, header, split, _, visibility, found⟩ := mem_methodsOf member
  have starts : before.definition.startLine = front.length + 1 := by rw [found]; rfl
  rcases List.append_eq_append_iff.mp split with ⟨between, rfl, rfl⟩ | ⟨between, rfl, continued⟩
  · exact callsFrom_searchedLines_behind same starts ordered
  · cases between with
    | nil =>
      rw [List.nil_append] at continued
      subst continued
      rw [List.append_nil] at same ⊢
      exact @callsFrom_searchedLines_behind limits accepts locals front before after [] rest line same
        (by rw [List.append_nil, starts]) ordered
    | cons next middle =>
      cases continued
      rw [List.append_assoc, List.append_assoc, List.cons_append, List.cons_append]
      exact callsFrom_searchedLines_above same starts ordered

variable {reader : Reader} {file : SourceFile}

/-- The methods of a file with the calls on their lines. -/
theorem analyze_definitions (reader : Reader) (file : SourceFile) (registry : Registry) :
    (reader.analyze file registry).definitions = (reader.findMethods file).map fun found =>
      found.definition.addCalls (callsFrom reader.limits
        (reader.acceptance (reader.define file).definitions registry).accepts (fun _ => true)
        (found.definition.parameters.map (·.name)) found.definition.startLine
        (searchedLines (linesOf file) found)) := by
  apply List.ext_getElem
  · rw [analyze, List.length_mapIdx, List.length_map]
  · intro index inside insideAfter
    rw [List.length_map] at insideAfter
    simp only [analyze, List.getElem_mapIdx, List.getElem_map]
    exact withCalls_eq reader _ (List.getElem?_eq_getElem insideAfter)

/-- Every line that reads as the header of a method gives one, wherever it stands. -/
theorem method_mem_findings {scope : Scope} {index : Nat} {front rest : List Line} {line : Line} {header : Header}
    (reads : headerOn? (Text.trim line.cleaned) = some header) :
    ∃ inner, .method (methodAt path limit inner (index + front.length) line rest header) ∈
      findings path limit scope index (front ++ line :: rest) := by
  induction front generalizing scope index with
  | nil =>
    simp only [headerOn?, Option.ite_none_left_eq_some, Bool.or_eq_true, not_or, Bool.not_eq_true,
      Option.isSome_eq_false_iff, Option.isNone_iff_eq_none, Option.filter_eq_some_iff, Bool.not_eq_eq_eq_not,
      Bool.not_true] at reads
    obtain ⟨⟨unlisted, plain⟩, read, free⟩ := reads
    refine ⟨scope.enter index (Text.trim line.cleaned), ?_⟩
    rw [List.nil_append, findings]
    simp only [unlisted, plain, read, free]
    exact List.mem_cons_self
  | cons first front ih =>
    obtain ⟨here, next, split, _⟩ := @findings_cons path limit scope index first (front ++ line :: rest)
    obtain ⟨inner, member⟩ := @ih next (index + 1)
    refine ⟨inner, ?_⟩
    rw [List.cons_append, split, List.length_cons, Nat.add_comm front.length, ← Nat.add_assoc]
    exact List.mem_append_right here member

/-- A method from whose first line the limit cannot be reached is cut off there and reported. -/
theorem analyze_unread (reader : Reader) (file : SourceFile) (registry : Registry) {front rest : List Line} {line : Line}
    {header : Header} (split : linesOf file = front ++ line :: rest)
    (reads : headerOn? (Text.trim line.cleaned) = some header) (opens : 0 < Block.delta (Text.trim line.cleaned))
    (wraps : Text.wordLimit ≤ front.length + reader.limits.blockLines) :
    .malformedConstruct file.path (front.length + 1) ("method '" ++ String.ofList header.name ++ "' has no matching end") ∈
        (reader.analyze file registry).diagnostics ∧
      ∃ definition ∈ (reader.analyze file registry).definitions,
        definition.startLine = front.length + 1 ∧ definition.endLine = front.length + 1 := by
  obtain ⟨scope, member⟩ := @method_mem_findings file.path reader.limits.block {} 0 front rest line header reads
  rw [Nat.zero_add] at member
  have ends := Block.findEnd_unread opens wraps (rest.map (·.cleaned))
  obtain ⟨found, present, cut, path, name, starts, stops⟩ : ∃ found ∈ reader.findMethods file,
      found.blockEnd = .capped front.length ∧ found.definition.filePath = file.path ∧
        found.definition.name = String.ofList header.name ∧ found.definition.startLine = front.length + 1 ∧
        found.definition.endLine = front.length + 1 := by
    rw [findMethods, methodsOf, split]
    refine ⟨_, List.mem_map.mpr ⟨_, List.mem_filterMap.mpr ⟨_, member, rfl⟩, rfl⟩, ?_⟩
    rw [applyVisibilities_eq]
    simp [methodAt, ends, Block.End.last]
  constructor
  · refine List.mem_filterMap.mpr ⟨found, present, ?_⟩
    simp only [Found.diagnostic?, cut, path, name, starts]
    rw [String.append_assoc]
    rfl
  · rw [analyze_definitions]
    refine ⟨_, List.mem_map_of_mem present, ?_⟩
    rw [Definition.addCalls_eq]
    exact ⟨starts, stops⟩

/-- Where the methods stay in step, so do their calls and their diagnostics. -/
theorem analyze_moved (registry : Registry) {fileAfter : SourceFile} {position : Nat} (length : first.length = position)
    (read : linesOf file = first ++ second) (readAfter : linesOf fileAfter = first ++ ⟨[], []⟩ :: second)
    (methods : List.Forall₂ (Found.Moved position) (reader.findMethods file) (reader.findMethods fileAfter)) :
    List.Forall₂ (Definition.Moved (position + 1)) (reader.analyze file registry).definitions
        (reader.analyze fileAfter registry).definitions ∧
      List.Forall₂ (Diagnostic.Moved (position + 1)) (reader.analyze file registry).diagnostics
        (reader.analyze fileAfter registry).diagnostics := by
  have accepts : reader.acceptance (reader.define fileAfter).definitions registry =
      reader.acceptance (reader.define file).definitions registry := by
    have definitions : List.Forall₂ (Definition.Moved (position + 1)) (reader.define file).definitions
        (reader.define fileAfter).definitions := by
      simp only [define, List.forall₂_map_left_iff, List.forall₂_map_right_iff]
      exact methods.imp fun _ _ same => same.definition
    rw [acceptance, acceptance, Registry.ofDefinitions, Registry.ofDefinitions,
      Definition.definedNames_moved definitions]
  constructor
  · rw [analyze_definitions, analyze_definitions, List.forall₂_map_left_iff, List.forall₂_map_right_iff, accepts]
    apply List.forall₂_iff_zip.mpr
    refine ⟨methods.length_eq, ?_⟩
    intro found foundAfter paired
    have same : found.Moved first.length foundAfter := by
      rw [length]
      exact List.forall₂_zip methods paired
    have member := (List.of_mem_zip paired).1
    rw [findMethods, read] at member
    rw [read, readAfter, callsFrom_searchedLines same member, same.definition.parameters, ← length]
    exact same.definition.addCalls _
  · refine List.rel_filterMap ?_ methods
    intro found foundAfter same
    exact same.diagnostic?

/-- An empty line more in a short file. The same methods are found, in the same order and with the same calls and
diagnostics, and everything behind the empty line is one line further down; unless, behind the empty line, a block is
followed from the last line from which the limit can be reached. A method that starts there is cut off on its first line
and reported. -/
theorem analyze_empty_line (reader : Reader) (path : String) (registry : Registry) {before after : String}
    {front back : List (List Char)} (lines : Text.lines before.toList = front ++ back)
    (inserted : Text.lines after.toList = front ++ [] :: back)
    (short : (front ++ back).length < reader.limits.blockLines) :
    (Steady reader.limits.block front.length ((linesOf (.ofText path .ruby before)).drop front.length) →
      List.Forall₂ (Definition.Moved (front.length + 1))
          (reader.analyze (.ofText path .ruby before) registry).definitions
          (reader.analyze (.ofText path .ruby after) registry).definitions ∧
        List.Forall₂ (Diagnostic.Moved (front.length + 1))
          (reader.analyze (.ofText path .ruby before) registry).diagnostics
          (reader.analyze (.ofText path .ruby after) registry).diagnostics) ∧
    ∀ offset line header, ((linesOf (.ofText path .ruby before)).drop front.length)[offset]? = some line →
      front.length + offset + 1 + reader.limits.blockLines = Text.wordLimit →
      headerOn? (Text.trim line.cleaned) = some header → 0 < Block.delta (Text.trim line.cleaned) →
      .malformedConstruct path (front.length + offset + 2)
          ("method '" ++ String.ofList header.name ++ "' has no matching end") ∈
          (reader.analyze (.ofText path .ruby after) registry).diagnostics ∧
        ∃ definition ∈ (reader.analyze (.ofText path .ruby after) registry).definitions,
          definition.startLine = front.length + offset + 2 ∧ definition.endLine = front.length + offset + 2 := by
  obtain ⟨first, second, length, paired, pairedAfter⟩ := Blanking.pairLines_insert front back
  have read : linesOf (.ofText path .ruby before) = first ++ second := by rw [linesOf_ofText, lines, paired]
  have readAfter : linesOf (.ofText path .ruby after) = first ++ ⟨[], []⟩ :: second := by
    rw [linesOf_ofText, inserted, pairedAfter]
  have behind : (linesOf (.ofText path .ruby before)).drop front.length = second := by
    rw [read, ← length, List.drop_left]
  rw [behind]
  constructor
  · intro steady
    have methods : List.Forall₂ (Found.Moved front.length) (reader.findMethods (.ofText path .ruby before))
        (reader.findMethods (.ofText path .ruby after)) := by
      rw [findMethods, findMethods, read, readAfter, ← length]
      apply methodsOf_insert
      · rwa [← paired, Blanking.pairLines_length]
      · rwa [length]
    exact analyze_moved registry length read readAfter methods
  · intro offset line header present last reads opens
    obtain ⟨inside, rfl⟩ := List.getElem?_eq_some_iff.mp present
    have split : linesOf (.ofText path .ruby after) =
        (first ++ ⟨[], []⟩ :: second.take offset) ++ second[offset] :: second.drop (offset + 1) := by
      rw [readAfter, List.append_assoc, List.cons_append, List.getElem_cons_drop, List.take_append_drop]
    have place : (first ++ ⟨[], []⟩ :: second.take offset).length = front.length + offset + 1 := by
      rw [List.length_append, List.length_cons, List.length_take, length]
      omega
    have cut := analyze_unread reader (.ofText path .ruby after) registry split reads opens (by omega)
    rwa [place] at cut

/-- An empty line inside of a method, above a method that is not closed. -/
theorem analyze_empty_line_fee :
    let reader : Reader := ⟨⟨.ruby, []⟩, ⟨9, 20⟩⟩
    let before : SourceFile := .ofText "cart.rb" .ruby "def tax\n  fee\nend\ndef fee\n"
    let after : SourceFile := .ofText "cart.rb" .ruby "def tax\n\n  fee\nend\ndef fee\n"
    ((reader.analyze after .empty).definitions.map (fun definition => definition.calls.map (·.line)) = [[3], []] ∧
        (reader.analyze after .empty).diagnostics.length = 1) ∧
      List.Forall₂ (Definition.Moved 2) (reader.analyze before .empty).definitions
        (reader.analyze after .empty).definitions ∧
      List.Forall₂ (Diagnostic.Moved 2) (reader.analyze before .empty).diagnostics
        (reader.analyze after .empty).diagnostics := by
  intro reader before after
  have steady : Steady 9 1 ((linesOf before).drop 1) := by
    intro offset line present last
    have inside := (List.getElem?_eq_some_iff.mp present).1
    have lines : ((linesOf before).drop 1).length = 3 := by decide +kernel
    rw [lines] at inside
    have few : (9 : UInt64).toNat = 9 := rfl
    simp only [few, Text.wordLimit] at last
    omega
  refine ⟨by decide +kernel, ?_⟩
  exact (@analyze_empty_line reader "cart.rb" .empty "def tax\n  fee\nend\ndef fee\n" "def tax\n\n  fee\nend\ndef fee\n"
    ["def tax".toList] ["  fee".toList, "end".toList, "def fee".toList] (by decide +kernel) (by decide +kernel)
    (by decide)).1 steady

/-- Under the greatest limit, an empty line above a method takes its body and its call away and has it reported. -/
theorem analyze_empty_line_greatest :
    let reader : Reader := ⟨⟨.ruby, []⟩, ⟨18446744073709551615, 20⟩⟩
    let before := reader.analyze (.ofText "cart.rb" .ruby "def fee\n  fee\nend\n") .empty
    let after := reader.analyze (.ofText "cart.rb" .ruby "\ndef fee\n  fee\nend\n") .empty
    (before.definitions.map (fun found => (found.startLine, found.endLine, found.calls.map (·.line))) = [(1, 3, [2])] ∧
        before.diagnostics = []) ∧
      after.definitions.map (fun found => (found.startLine, found.endLine, found.calls.map (·.line))) = [(2, 2, [])] ∧
      after.diagnostics = [.malformedConstruct "cart.rb" 2 "method 'fee' has no matching end"] := by
  decide +kernel

end Ruby.Reader
end CallAtlas

import CallAtlas.Proofs.CallFilter

/-! Confining definitions to a file. Whatever an extractor yields is confined afterwards, and what the standard
extractors yield needs no confining: every definition stands on lines of the file, quotes exactly these lines, and
has its call sites between its first line and its last. -/
namespace CallAtlas

/-- A definition on the first `limit` lines of a file, with no call site outside of its own lines. -/
structure Definition.Confined (limit : Nat) (definition : Definition) : Prop where
  starts : 1 ≤ definition.startLine
  ordered : definition.startLine ≤ definition.endLine
  ends : definition.endLine ≤ limit
  calls : ∀ call ∈ definition.calls, definition.startLine ≤ call.line ∧ call.line ≤ definition.endLine

/-- A definition on the lines of a file, and with their text. -/
structure Definition.StandsIn (file : SourceFile) (definition : Definition) : Prop
    extends definition.Confined file.lineLimit where
  code : definition.code = String.ofList (Text.joinLines
    ((file.lines.take definition.endLine).drop (definition.startLine - 1)))

namespace Analyzer

variable {file : SourceFile} {definition : Definition} {definitions : List Definition}

/-- Whatever a definition is like, if it starts on one of the lines it can be confined to them. -/
theorem confine_confined {limit : Nat} (starts : startsWithin limit definition = true) :
    (confine limit definition).Confined limit := by
  obtain ⟨first, last⟩ := Bool.and_eq_true_iff.mp starts
  have first := of_decide_eq_true first
  have last := of_decide_eq_true last
  refine ⟨first, ?_, ?_, fun call member => ?_⟩
  · simp only [confine]
    omega
  · exact Nat.min_le_right _ _
  · obtain ⟨after, before⟩ := Bool.and_eq_true_iff.mp (List.mem_filter.mp member).2
    exact ⟨of_decide_eq_true after, of_decide_eq_true before⟩

theorem withinFile_confined (member : definition ∈ withinFile file definitions) :
    definition.Confined file.lineLimit := by
  obtain ⟨original, kept, rfl⟩ := List.mem_map.mp member
  exact confine_confined (List.mem_filter.mp kept).2

theorem confine_eq_self {limit : Nat} (confined : definition.Confined limit) :
    confine limit definition = definition := by
  have last : min (max definition.endLine definition.startLine) limit = definition.endLine := by
    rw [Nat.max_eq_left confined.ordered, Nat.min_eq_left confined.ends]
  have calls : (definition.calls.filter fun call =>
      definition.startLine ≤ call.line && call.line ≤ definition.endLine) = definition.calls := by
    refine List.filter_eq_self.mpr fun call member => ?_
    obtain ⟨after, before⟩ := confined.calls call member
    exact Bool.and_eq_true_iff.mpr ⟨decide_eq_true after, decide_eq_true before⟩
  simp only [confine, last, calls]

/-- Confined definitions are all kept, and nothing in them is moved. -/
theorem withinFile_eq_self (confined : ∀ definition ∈ definitions, definition.Confined file.lineLimit) :
    withinFile file definitions = definitions := by
  have all : definitions.filter (startsWithin file.lineLimit) = definitions := by
    refine List.filter_eq_self.mpr fun definition member => ?_
    have inside := confined definition member
    exact Bool.and_eq_true_iff.mpr ⟨decide_eq_true inside.starts,
      decide_eq_true (Nat.le_trans inside.ordered inside.ends)⟩
  rw [withinFile, all]
  exact (List.map_congr_left fun definition member => confine_eq_self (confined definition member)).trans
    (List.map_id definitions)

end Analyzer

namespace Definition

/-- Adding call sites brings in no others. -/
theorem mem_addCalls {definition : Definition} {calls : List CallSite} {call : CallSite}
    (member : call ∈ (definition.addCalls calls).calls) : call ∈ definition.calls ∨ call ∈ calls := by
  induction calls generalizing definition with
  | nil => exact .inl member
  | cons first rest ih =>
    rw [addCalls_cons] at member
    rcases ih member with known | later
    · rw [addCall] at known
      split at known
      · exact .inl known
      · rcases List.mem_append.mp known with known | same
        · exact .inl known
        · exact .inr (List.mem_cons.mpr (.inl (List.mem_singleton.mp same)))
    · exact .inr (List.mem_cons_of_mem first later)

/-- A definition stands in its file with any call sites on its lines. -/
theorem Located.standsIn {file : SourceFile} {definition : Definition} {calls : List CallSite}
    (located : definition.Located file.path 0 file.lineLimit)
    (inside : ∀ call ∈ calls, definition.startLine ≤ call.line ∧ call.line ≤ definition.endLine)
    (code : definition.code = String.ofList (Text.joinLines
      ((file.lines.take definition.endLine).drop (definition.startLine - 1)))) :
    (definition.addCalls calls).StandsIn file := by
  have added : ∀ call ∈ (definition.addCalls calls).calls,
      definition.startLine ≤ call.line ∧ call.line ≤ definition.endLine := by
    intro call member
    rcases mem_addCalls member with known | new
    · rw [located.calls] at known
      cases known
    · exact inside call new
  rw [addCalls_eq]
  exact ⟨⟨located.starts, located.ordered, located.ends, added⟩, code⟩

end Definition

/-- The text of the lines from a place on, found again among all lines of the file. -/
theorem SourceFile.lines_between {file : SourceFile} {front rest : List Blanking.Line} {last : Nat}
    (read : (front ++ rest).map (·.raw) = file.sourceLines) (ends : last ≤ file.lineLimit) :
    (rest.take (last - front.length)).map (·.raw) = (file.lines.take last).drop front.length := by
  have prefixed : file.lines.take last = file.sourceLines.take last := by
    rw [sourceLines, List.take_take, Nat.min_eq_left ends]
  rw [prefixed, ← read, List.drop_take, List.map_append, List.drop_left' (List.length_map _), List.map_take]

theorem Blanking.pairLines_raw (language : Language) (lines : List (List Char)) :
    (pairLines language lines).map (·.raw) = lines := by
  have same : (cleanLines language lines).length = lines.length := cleanAll_length language {} lines
  refine List.ext_getElem ?_ fun index _ _ => ?_
  · rw [List.length_map, pairLines_length]
  · simp [pairLines]

namespace Ruby

open Blanking (Line)

variable {path : String} {limit : UInt64} {index : Nat} {found : Found}

theorem linesOf_raw (file : SourceFile) : (linesOf file).map (·.raw) = file.sourceLines :=
  Blanking.pairLines_raw .ruby file.sourceLines

theorem linesOf_ofText (path text : String) :
    linesOf (.ofText path .ruby text) = Blanking.pairLines .ruby (Text.lines text.toList) := by
  simp only [linesOf, SourceFile.sourceLines, SourceFile.lineLimit, SourceFile.lines, SourceFile.ofText, Nat.min_self,
    List.take_length]

/-- Requests for a visibility change nothing but the visibility. -/
theorem applyVisibilities_eq (requests : List (String × Visibility)) (definition : Definition) :
    applyVisibilities requests definition =
      { definition with visibility := (applyVisibilities requests definition).visibility } := by
  unfold applyVisibilities
  induction requests generalizing definition with
  | nil => rfl
  | cons request rest ih =>
    rw [List.foldl_cons, ih]
    split <;> rfl

/-- A method is the one of some header line, but for its visibility. -/
theorem mem_methodsOf {lines : List Line} (member : found ∈ methodsOf path limit lines) :
    ∃ front line rest scope header, lines = front ++ line :: rest ∧
      Header.read? (Text.trim line.cleaned) = some header ∧
      ∃ visibility, found = { methodAt path limit scope front.length line rest header with
        definition :=
          { (methodAt path limit scope front.length line rest header).definition with visibility } } := by
  obtain ⟨original, chosen, rfl⟩ := List.mem_map.mp member
  obtain ⟨finding, present, kept⟩ := List.mem_filterMap.mp chosen
  cases finding with
  | visibility => cases kept
  | method =>
    cases kept
    obtain ⟨front, line, rest, scope, header, split, reads, rfl⟩ := mem_findings present
    rw [Nat.zero_add]
    exact ⟨front, line, rest, scope, header, split, reads, _, by rw [applyVisibilities_eq]⟩

namespace Reader

variable {file : SourceFile}

theorem findMethods_code (reader : Reader) (member : found ∈ reader.findMethods file) :
    found.definition.code = String.ofList (Text.joinLines
      ((file.lines.take found.definition.endLine).drop (found.definition.startLine - 1))) := by
  have ends := (reader.findMethods_located file member).ends
  have read := linesOf_raw file
  obtain ⟨front, line, rest, scope, header, split, _, visibility, rfl⟩ := mem_methodsOf member
  rw [split] at read
  exact congrArg (fun lines => String.ofList (Text.joinLines lines)) (SourceFile.lines_between read ends)

theorem findMethods_span (reader : Reader) (member : found ∈ reader.findMethods file) :
    found.definition.endLine - found.definition.startLine + 1 ≤ max 1 reader.limits.blockLines := by
  obtain ⟨front, line, rest, scope, header, _, _, visibility, rfl⟩ := mem_methodsOf member
  have bounds := Block.findEnd_last reader.limits.block front.length line.cleaned (rest.map (·.cleaned))
  have within := Limits.window_le reader.limits.block front.length
  simp only [methodAt, Limits.blockLines]
  omega

theorem callsFrom_lines {limits : Limits} {accepts : String → Bool} {owned : Nat → Bool} {locals : List String}
    {number : Nat} {lines : List (List Char × List Char)} {call : CallSite}
    (member : call ∈ callsFrom limits accepts owned locals number lines) :
    number ≤ call.line ∧ call.line < number + lines.length := by
  induction lines generalizing locals number with
  | nil => cases member
  | cons line rest ih =>
    have later {locals : List String}
        (member : call ∈ callsFrom limits accepts owned locals (number + 1) rest) :
        number ≤ call.line ∧ call.line < number + (rest.length + 1) := by
      have := ih member
      omega
    rw [List.length_cons]
    simp only [callsFrom] at member
    split at member
    · rcases List.mem_append.mp member with own | member
      · obtain ⟨name, _, rfl⟩ := List.mem_map.mp own
        simp only
        omega
      · exact later member
    · exact later member

theorem searchedLines_length (lines : List Line) (found : Found) :
    (searchedLines lines found).length ≤ found.definition.endLine - (found.definition.startLine - 1) := by
  have short : ((lines.take found.definition.endLine).drop (found.definition.startLine - 1)).length ≤
      found.definition.endLine - (found.definition.startLine - 1) := by
    rw [List.length_drop]
    have := List.length_take_le found.definition.endLine lines
    omega
  unfold searchedLines
  split
  · exact Nat.zero_le _
  · rename_i first rest same
    rw [same] at short
    simpa using short

theorem withCalls_standsIn (reader : Reader) (acceptance : Acceptance) (definitions : List Definition)
    (index : Nat) (member : found ∈ reader.findMethods file) :
    (reader.withCalls acceptance (linesOf file) definitions index found).StandsIn file := by
  have located := reader.findMethods_located file member
  refine located.standsIn (fun call present => ?_) (reader.findMethods_code member)
  have lines := callsFrom_lines present
  have length := searchedLines_length (linesOf file) found
  have starts := located.starts
  have ordered := located.ordered
  omega

theorem analyze_standsIn (reader : Reader) (file : SourceFile) (registry : Registry) :
    ∀ definition ∈ (reader.analyze file registry).definitions, definition.StandsIn file ∧
      definition.endLine - definition.startLine + 1 ≤ max 1 reader.limits.blockLines := by
  intro definition member
  obtain ⟨index, inside, rfl⟩ := List.mem_mapIdx.mp member
  have found := List.getElem_mem inside
  refine ⟨reader.withCalls_standsIn _ _ index found, ?_⟩
  rw [withCalls, Definition.addCalls_eq]
  exact reader.findMethods_span found

end Reader
end Ruby

/-- A line belongs to a callable definition that contains it. -/
theorem innermostFrom_contains {line index : Nat} {best : Option (Nat × Definition)}
    {definitions : List Definition} {entry : Nat × Definition}
    (found : innermostFrom line index best definitions = some entry) :
    best = some entry ∨ ∃ offset, entry.1 = index + offset ∧ definitions[offset]? = some entry.2 ∧
      entry.2.kind.isCallable = true ∧ entry.2.containsLine line = true := by
  induction definitions generalizing index best with
  | nil => exact .inl found
  | cons definition rest ih =>
    have later {best : Option (Nat × Definition)} (found : innermostFrom line (index + 1) best rest = some entry) :
        best = some entry ∨ ∃ offset, entry.1 = index + offset ∧
          (definition :: rest)[offset]? = some entry.2 ∧
          entry.2.kind.isCallable = true ∧ entry.2.containsLine line = true := by
      rcases ih found with known | ⟨offset, position, present, holds⟩
      · exact .inl known
      · exact .inr ⟨offset + 1, by omega, present, holds⟩
    rw [innermostFrom] at found
    split at found
    · rename_i holds
      rcases later found with chosen | other
      · have either : best = some entry ∨ (index, definition) = entry := by
          unfold tighter at chosen
          split at chosen
          · exact .inr (Option.some.inj chosen)
          · split at chosen
            · exact .inr (Option.some.inj chosen)
            · exact .inl chosen
        rcases either with known | rfl
        · exact .inl known
        · exact .inr ⟨0, rfl, rfl, Bool.and_eq_true_iff.mp holds⟩
      · exact .inr other
    · exact later found

theorem innermostCallable?_contains {definitions : List Definition} {line owner : Nat}
    (found : innermostCallable? definitions line = some owner) :
    ∃ definition, definitions[owner]? = some definition ∧ definition.kind.isCallable = true ∧
      definition.containsLine line = true := by
  obtain ⟨entry, chosen, rfl⟩ := Option.map_eq_some_iff.mp found
  rcases innermostFrom_contains chosen with none | ⟨offset, position, present, holds⟩
  · cases none
  · rw [Nat.zero_add] at position
    exact ⟨entry.2, position ▸ present, holds⟩

namespace Script

open Outline (Spot Context)

variable {file : SourceFile} {definition : Definition}

theorem Outline.scan_code (limits : Limits) (member : definition ∈ (scan file limits).definitions) :
    definition.code = String.ofList (Text.joinLines
      ((file.lines.take definition.endLine).drop (definition.startLine - 1))) := by
  have ends := (scan_located file limits member).ends
  have read := Blanking.pairLines_raw file.language file.sourceLines
  obtain ⟨front, line, rest, containers, depth, split, found⟩ := mem_read member
  have yields := finding_from containers definition found
  rw [split] at read
  rw [yields.code, yields.startLine]
  simp only [Nat.zero_add, Nat.add_sub_cancel]
  exact congrArg (fun lines => String.ofList (Text.joinLines lines)) (SourceFile.lines_between read ends)

theorem Outline.scan_span (limits : Limits) (member : definition ∈ (scan file limits).definitions) :
    definition.endLine - definition.startLine + 1 ≤ max 1 limits.blockLines := by
  obtain ⟨front, line, rest, containers, depth, _, found⟩ := mem_read member
  exact (finding_from containers definition found).span (List.cons_ne_nil line rest)

namespace Reader

theorem mem_callSites {reader : Reader} {registry : Registry} {found : Scan} {site : Nat × CallSite}
    (member : site ∈ reader.callSites file registry found) :
    ∃ definition, found.definitions[site.1]? = some definition ∧
      definition.containsLine site.2.line = true := by
  obtain ⟨candidate, _, accepted⟩ := List.mem_filterMap.mp member
  simp only [site?, Option.bind_eq_bind, Option.bind_eq_some_iff] at accepted
  obtain ⟨owner, owned, accepted⟩ := accepted
  split at accepted
  · simp only [Option.bind_eq_some_iff, Option.pure_def, Option.some.injEq] at accepted
    obtain ⟨raw, _, rfl⟩ := accepted
    obtain ⟨definition, present, _, contains⟩ := innermostCallable?_contains owned
    exact ⟨definition, present, contains⟩
  · cases accepted

/-- Read by its outline, a script yields definitions of no more lines than a statement is followed. -/
theorem analyze_standsIn (reader : Reader) (outline : reader.preference = .heuristic) (file : SourceFile)
    (registry : Registry) :
    ∀ definition ∈ (reader.analyze file registry).definitions, definition.StandsIn file ∧
      definition.endLine - definition.startLine + 1 ≤ max 1 reader.limits.blockLines := by
  intro definition member
  obtain ⟨index, inside, rfl⟩ := List.mem_mapIdx.mp member
  have present := List.getElem_mem inside
  have found : (reader.scan file).definitions[index] ∈ (Outline.scan file reader.limits).definitions := by
    rcases mem_scan present with ⟨auto, _⟩ | found
    · cases auto.symm.trans outline
    · exact found
  constructor
  · refine (Outline.scan_located file reader.limits found).standsIn (fun call added => ?_)
      (Outline.scan_code reader.limits found)
    obtain ⟨site, chosen, rfl⟩ := List.mem_map.mp added
    obtain ⟨listed, own⟩ := List.mem_filter.mp chosen
    obtain ⟨owner, owns, contains⟩ := mem_callSites listed
    rw [beq_iff_eq.mp own, List.getElem?_eq_getElem inside] at owns
    cases owns
    simpa [Definition.containsLine] using contains
  · have span := Outline.scan_span reader.limits found
    rw [Definition.addCalls_eq]
    exact span

end Reader
end Script

namespace Template

theorem readLine_line {line tag : Nat} {place : Place} {text : List Char} {segment : Segment}
    (member : segment ∈ (readLine line tag place text).1) : segment.line = line := by
  have own {tag : Nat} {comment : Bool} {code : List Char}
      (member : segment ∈ (segment? line tag comment code).toList) : segment.line = line := by
    unfold segment? at member
    split at member
    · cases member
    · cases Option.mem_toList.mp member
      rfl
  fun_induction readLine line tag place text with
  | case1 | case2 => cases member
  | case3 => exact own member
  | case10 _ _ _ _ _ _ same ih =>
    rw [same] at ih
    rcases List.mem_append.mp member with first | later
    · exact own first
    · exact ih later
  -- Everywhere else the line is read on.
  | case4 | case5 | case6 | case7 | case8 | case9 | case11 =>
    rename_i ih
    exact ih member

theorem segmentsFrom_line {line tag : Nat} {place : Place} {lines : List (List Char)} {segment : Segment}
    (member : segment ∈ segmentsFrom line tag place lines) :
    line ≤ segment.line ∧ segment.line < line + lines.length := by
  induction lines generalizing line tag place with
  | nil => cases member
  | cons text rest ih =>
    rw [List.length_cons]
    rcases List.mem_append.mp member with own | later
    · have := readLine_line own
      omega
    · have := ih later
      omega

theorem cleanedFrom_line {tag : Nat} {cleaner : Blanking.Cleaner} {segments : List Segment}
    {entry : Nat × List Char} (member : entry ∈ cleanedFrom tag cleaner segments) :
    ∃ segment ∈ segments, segment.line = entry.1 := by
  induction segments generalizing tag cleaner with
  | nil => cases member
  | cons segment rest ih =>
    rcases List.mem_cons.mp member with rfl | later
    · exact ⟨segment, List.mem_cons_self, rfl⟩
    · obtain ⟨other, present, same⟩ := ih later
      exact ⟨other, List.mem_cons_of_mem segment present, same⟩

theorem callsFrom_line {accepts : String → Bool} {locals : List String} {entries : List (Nat × List Char)}
    {call : Nat × String} (member : call ∈ callsFrom accepts locals entries) :
    ∃ entry ∈ entries, entry.1 = call.1 := by
  induction entries generalizing locals with
  | nil => cases member
  | cons entry rest ih =>
    rcases List.mem_append.mp member with own | later
    · obtain ⟨name, _, rfl⟩ := List.mem_map.mp own
      exact ⟨entry, List.mem_cons_self, rfl⟩
    · obtain ⟨other, present, same⟩ := ih later
      exact ⟨other, List.mem_cons_of_mem entry present, same⟩

theorem callSites_line {acceptance : Acceptance} {limits : Limits} {lines : List (List Char)} {call : CallSite}
    (member : call ∈ callSites acceptance limits lines) : 1 ≤ call.line ∧ call.line ≤ lines.length := by
  obtain ⟨named, present, rfl⟩ := List.mem_map.mp member
  obtain ⟨entry, known, sameEntry⟩ := callsFrom_line present
  obtain ⟨segment, found, sameSegment⟩ := cleanedFrom_line known
  have inside := segmentsFrom_line found
  rw [sameSegment, sameEntry] at inside
  exact ⟨inside.1, by have := inside.2; simp only [siteOf]; omega⟩

theorem record_code (file : SourceFile) (filled : 1 ≤ file.lineLimit) :
    (record file).code = String.ofList (Text.joinLines
      ((file.lines.take (record file).endLine).drop ((record file).startLine - 1))) := by
  have length := file.sourceLines_length
  have quoted : ¬(1 = 0 ∨ file.lineLimit < 1) := by omega
  simp only [record, codeOf, length, Nat.min_self, if_neg quoted, Nat.sub_self, List.drop_zero]
  rw [SourceFile.sourceLines, List.take_take, Nat.min_self]

/-- A template has call sites only if it has lines. -/
theorem analyze_standsIn (vocabulary : Vocabulary) (limits : Limits) (file : SourceFile) (registry : Registry) :
    ∀ definition ∈ (analyze vocabulary limits file registry).definitions, definition.StandsIn file := by
  intro definition member
  rw [analyze_definitions] at member
  obtain ⟨alone, filled⟩ := List.mem_filter.mp member
  cases List.mem_singleton.mp alone
  rw [Definition.addCalls_isEmpty (record_bare file)] at filled
  have last : (record file).endLine = file.lineLimit := file.sourceLines_length
  have inside : ∀ call ∈ callSites (acceptance vocabulary registry) limits file.sourceLines,
      (record file).startLine ≤ call.line ∧ call.line ≤ (record file).endLine := fun _ => callSites_line
  have lines : 1 ≤ file.lineLimit := by
    cases calls : callSites (acceptance vocabulary registry) limits file.sourceLines with
    | nil => simp [calls] at filled
    | cons call rest =>
      have := inside call (calls ▸ List.mem_cons_self)
      exact last ▸ Nat.le_trans this.1 this.2
  have located : (record file).Located file.path 0 file.lineLimit :=
    ⟨record_bare file, Nat.zero_lt_one, last ▸ lines, Nat.le_of_eq last⟩
  exact located.standsIn inside (record_code file lines)

end Template

/-- What the extractors for Ruby, for templates and, by their outline, for scripts find in a file stands in that
file and is left as it is when it is confined to it. No method of Ruby and no definition of a script is longer
than a block is followed. -/
theorem extractions_stand_in_file (parse? : Script.Tree.Parser) (settings : Settings) (file : SourceFile)
    (registry : Registry) :
    (∃ raw, (Ruby.extractor settings.ruby).analyze file registry = .ok raw ∧
      Analyzer.withinFile file raw.definitions = raw.definitions ∧
      ∀ definition ∈ raw.definitions, definition.StandsIn file ∧
        definition.endLine - definition.startLine + 1 ≤ max 1 settings.blockLines.toNat) ∧
    (∃ raw, (Template.extractor settings.template settings.limits).analyze file registry = .ok raw ∧
      Analyzer.withinFile file raw.definitions = raw.definitions ∧
      ∀ definition ∈ raw.definitions, definition.StandsIn file) ∧
    ∃ raw, (Script.extractor ({ settings with scripts := .heuristic }.script parse?)).analyze file registry =
        .ok raw ∧
      Analyzer.withinFile file raw.definitions = raw.definitions ∧
      ∀ definition ∈ raw.definitions, definition.StandsIn file ∧
        definition.endLine - definition.startLine + 1 ≤ max 1 settings.blockLines.toNat := by
  have limit : max 1 settings.limits.blockLines = max 1 settings.blockLines.toNat := by
    rw [Settings.limits, Limits.blockLines_ofSettings]
    omega
  have ruby := settings.ruby.analyze_standsIn file registry
  have template := Template.analyze_standsIn settings.template settings.limits file registry
  have script := ({ settings with scripts := .heuristic }.script parse?).analyze_standsIn rfl file registry
  refine ⟨⟨_, rfl, ?_, ?_⟩, ⟨_, rfl, ?_, template⟩, _, rfl, ?_, ?_⟩
  · exact Analyzer.withinFile_eq_self fun definition member => (ruby definition member).1.toConfined
  · exact limit ▸ ruby
  · exact Analyzer.withinFile_eq_self fun definition member => (template definition member).toConfined
  · exact Analyzer.withinFile_eq_self fun definition member => (script definition member).1.toConfined
  · exact limit ▸ script

end CallAtlas

import CallAtlas.Proofs.EdgeList
import CallAtlas.Proofs.Phases

/-! The edges between some files of a corpus are the edges that these files have alone. More files make more names
acceptable, and so more call sites are found in every file; but a name that the part itself does not define leads
nowhere inside it. -/
namespace CallAtlas

namespace Edge

variable {small large : List Definition}

/-- Whether both ends of an edge are kept. -/
def within (keep : Endpoint → Bool) (ends : Endpoint × Endpoint) : Bool := keep ends.1 && keep ends.2

theorem gathered_filter {room : Nat} {meetings : List Meeting} {keep : Endpoint × Endpoint → Bool}
    {pair : Endpoint × Endpoint} (kept : keep pair = true) :
    gathered room (meetings.filter fun meeting => keep meeting.ends) pair = gathered room meetings pair := by
  have same : (meetings.filter fun meeting => keep meeting.ends).filter (fun meeting => meeting.ends == pair) =
      meetings.filter fun meeting => meeting.ends == pair := by
    rw [List.filter_filter]
    refine List.filter_congr fun meeting _ => ?_
    by_cases own : meeting.ends = pair
    · simp [own, kept]
    · simp [own]
  rw [gathered, same, gathered]

/-- Where the meetings are chosen by their ends, so are the edges. -/
theorem ofDefinitions_filter (room : Nat) {keep : Endpoint × Endpoint → Bool}
    (chosen : Edge.meetings small = (Edge.meetings large).filter fun meeting => keep meeting.ends) :
    ofDefinitions small room = (ofDefinitions large room).filter fun edge => keep edge.ends := by
  have ends : (Edge.meetings small).map Meeting.ends = ((Edge.meetings large).map Meeting.ends).filter keep := by
    rw [chosen, List.filter_map]
    rfl
  rw [ofDefinitions_eq, ofDefinitions_eq, ends, distinct_filter, List.filter_map]
  have named : ((fun edge : Edge => keep edge.ends) ∘ fun pair =>
      (gathered room (Edge.meetings large) pair).sortLines) = keep := by
    funext pair
    simp
  rw [named]
  refine List.map_congr_left fun pair member => ?_
  rw [chosen, gathered_filter (List.mem_filter.mp member).2]

theorem targets_filter (keep : Endpoint → Bool) (definitions : List Definition) (name : String) :
    targets (definitions.filter fun definition => keep (Endpoint.of definition)) name =
      (targets definitions name).filter keep := by
  rw [targets, targets, ← distinct_filter, List.filter_map, List.filter_filter, List.filter_filter]
  congr 2
  exact List.filter_congr fun definition _ => Bool.and_comm _ _

theorem meetingsAt_filter (keep : Endpoint → Bool) (definitions : List Definition) (caller : Definition)
    (call : CallSite) :
    (meetingsAt definitions caller call).filter (fun meeting => within keep meeting.ends) =
      if keep (Endpoint.of caller) then
        meetingsAt (definitions.filter fun definition => keep (Endpoint.of definition)) caller call
      else [] := by
  rw [meetingsAt, List.filter_map, meetingsAt, targets_filter]
  split
  · rename_i kept
    congr 1
    refine List.filter_congr fun target _ => ?_
    simp [within, Meeting.ends, kept]
  · rename_i dropped
    simp [within, Meeting.ends, dropped]

/-- The meetings among some of the definitions. -/
theorem meetings_filter (keep : Endpoint → Bool) (definitions : List Definition) :
    Edge.meetings (definitions.filter fun definition => keep (Endpoint.of definition)) =
      (Edge.meetings definitions).filter fun meeting => within keep meeting.ends := by
  have own (caller : Definition) :
      (caller.calls.flatMap (meetingsAt definitions caller)).filter (fun meeting => within keep meeting.ends) =
        if keep (Endpoint.of caller) then
          caller.calls.flatMap
            (meetingsAt (definitions.filter fun definition => keep (Endpoint.of definition)) caller)
        else [] := by
    rw [List.filter_flatMap]
    simp only [meetingsAt_filter]
    split
    · rfl
    · simp
  change _ = List.filter _ (definitions.flatMap fun caller => caller.calls.flatMap (meetingsAt definitions caller))
  rw [List.filter_flatMap, List.flatMap_congr fun caller _ => own caller, ← flatMap_filter_of_nil]
  · refine List.flatMap_congr fun caller member => ?_
    exact (if_pos (List.mem_filter.mp member).2).symm
  · intro caller _ dropped
    rw [dropped]
    rfl

end Edge

/-- Whether a definition can have edges: it can be called, or it calls. -/
def Definition.connects (definition : Definition) : Bool :=
  definition.kind.isResolvable || !definition.calls.isEmpty

/-- What of some definitions can have edges when only the names in a registry are defined. -/
def linked (registry : Registry) (definitions : List Definition) : List Definition :=
  (definitions.map (Definition.keepCalls registry.contains)).filter Definition.connects

namespace Edge

variable {definitions : List Definition} {registry : Registry}

theorem targets_linked (registry : Registry) (definitions : List Definition) (name : String) :
    targets (linked registry definitions) name = targets definitions name := by
  rw [targets, linked, List.filter_filter, List.filter_map, List.map_map, targets]
  congr 2
  refine List.filter_congr fun definition _ => ?_
  cases resolvable : definition.kind.isResolvable with
  | false => simp [Definition.keepCalls, resolvable]
  | true => simp [Definition.keepCalls, Definition.connects, resolvable]

theorem targets_eq_nil (known : ∀ definition ∈ definitions,
      definition.kind.isResolvable = true → definition.name ∈ registry) {name : String}
    (unknown : name ∉ registry) : targets definitions name = [] := by
  apply List.eq_nil_iff_forall_not_mem.mpr
  intro target member
  obtain ⟨rfl, definition, present, resolvable, rfl⟩ := mem_targets.mp member
  exact unknown (known definition present resolvable)

/-- Nothing else can have edges. -/
theorem meetings_linked (known : ∀ definition ∈ definitions,
      definition.kind.isResolvable = true → definition.name ∈ registry) :
    Edge.meetings (linked registry definitions) = Edge.meetings definitions := by
  have same : meetingsAt (linked registry definitions) = meetingsAt definitions := by
    funext caller call
    rw [meetingsAt, targets_linked, meetingsAt]
  change ((linked registry definitions).flatMap fun caller =>
      caller.calls.flatMap (meetingsAt (linked registry definitions) caller)) =
    definitions.flatMap fun caller => caller.calls.flatMap (meetingsAt definitions caller)
  rw [same, linked, flatMap_filter_of_nil, List.flatMap_map]
  · refine List.flatMap_congr fun caller _ => flatMap_filter_of_nil fun call _ dropped => ?_
    have unknown : call.callee ∉ registry := fun present => by
      rw [Registry.contains_iff.mpr present] at dropped
      cases dropped
    rw [meetingsAt, targets_eq_nil known unknown, List.map_nil]
  · intro caller _ dropped
    have silent : caller.calls = [] := by
      simpa using (Bool.or_eq_false_iff.mp dropped).2
    rw [silent, List.flatMap_nil]

end Edge

/-- A name that the smaller corpus defines is accepted in it if it is accepted at all. -/
theorem Acceptance.accepts_of_mem {small large : Registry} {vocabulary : Vocabulary} {file : Registry}
    {name : String} (accepted : accepts { vocabulary, corpus := large, file } name = true)
    (known : name ∈ small) : accepts { vocabulary, corpus := small, file } name = true := by
  simp only [accepts, Bool.and_eq_true, Bool.or_eq_true, Registry.contains_iff] at accepted ⊢
  exact ⟨accepted.1, .inl (.inl known)⟩

theorem Definition.accepted_of_mem {keep : String → Bool} {definitions : List Definition}
    {definition : Definition} (member : definition ∈ definitions.map (keepCalls keep)) {call : CallSite}
    (used : call ∈ definition.calls) : keep call.callee = true := by
  obtain ⟨original, _, rfl⟩ := List.mem_map.mp member
  exact (List.mem_filter.mp used).2

theorem linked_keepCalls {registry : Registry} {keep : String → Bool} {definitions : List Definition}
    (accepted : ∀ definition ∈ definitions, ∀ call ∈ definition.calls,
      call.callee ∈ registry → keep call.callee = true) :
    linked registry (definitions.map (Definition.keepCalls keep)) = linked registry definitions := by
  rw [linked, List.map_map, linked]
  congr 1
  refine List.map_congr_left fun definition member => ?_
  simp only [Function.comp_apply, Definition.keepCalls, List.filter_filter]
  congr 1
  refine List.filter_congr fun call used => ?_
  cases known : registry.contains call.callee with
  | false => rfl
  | true => exact accepted definition member call used (Registry.contains_iff.mp known)

namespace Analyzer

theorem withinFile_keepCalls (file : SourceFile) (keep : String → Bool) (definitions : List Definition) :
    withinFile file (definitions.map (Definition.keepCalls keep)) =
      (withinFile file definitions).map (Definition.keepCalls keep) := by
  rw [withinFile, List.filter_map, List.map_map, withinFile, List.map_map]
  congr 1
  funext definition
  simp only [Function.comp_apply, confine, Definition.keepCalls, List.filter_filter]
  congr 1
  exact List.filter_congr fun call _ => Bool.and_comm _ _

theorem linked_withinFile {file : SourceFile} {small own : Registry} (large : Registry)
    {vocabulary : Vocabulary} {definitions : List Definition}
    (accepted : ∀ definition ∈ definitions, ∀ call ∈ definition.calls,
      Acceptance.accepts ⟨vocabulary, large, own⟩ call.callee = true) :
    linked small (withinFile file
        (definitions.map (Definition.keepCalls (Acceptance.accepts ⟨vocabulary, small, own⟩)))) =
      linked small (withinFile file definitions) := by
  rw [withinFile_keepCalls]
  refine linked_keepCalls fun definition member call used known => ?_
  obtain ⟨original, kept, rfl⟩ := List.mem_map.mp member
  have present := (List.mem_filter.mp kept).1
  exact Acceptance.accepts_of_mem (accepted original present call (List.mem_filter.mp used).1) known

/-- Definitions that neither call nor can be called may be dropped. -/
theorem linked_withinFile_filter {registry : Registry} {file : SourceFile} {keep : Definition → Bool}
    {definitions : List Definition} (idle : ∀ definition ∈ definitions,
      keep definition = false → definition.kind.isResolvable = false ∧ definition.calls = []) :
    linked registry (withinFile file (definitions.filter keep)) =
      linked registry (withinFile file definitions) := by
  simp only [linked, withinFile, List.map_map, List.filter_map, List.filter_filter]
  congr 1
  refine List.filter_congr fun definition member => ?_
  cases kept : keep definition with
  | true => rw [Bool.and_true]
  | false =>
    obtain ⟨unresolvable, silent⟩ := idle definition member kept
    simp [confine, Definition.keepCalls, Definition.connects, unresolvable, silent]

/-- A larger registry changes nothing of a file that can have edges under the smaller one. -/
theorem Reading.linked_eq {parse? : Script.Tree.Parser} {settings : Settings} {file : SourceFile}
    {first : List Definition} {second : Registry → List Definition}
    (reading : Reading parse? settings file first second) {small large : Registry}
    (grows : ∀ name, name ∈ small → name ∈ large) :
    linked small (second small) = linked small (second large) := by
  -- Asked again under the same registry, every call site is kept: it was accepted when it was found.
  have unchanged : ∀ name, name ∈ large → name ∈ large := fun _ => id
  cases reading with
  | ruby language =>
    have again := settings.ruby.analyze_keepCalls unchanged file
    beta_reduce
    rw [← settings.ruby.analyze_keepCalls grows file]
    refine linked_withinFile large fun definition member call used => ?_
    rw [← again] at member
    exact Definition.accepted_of_mem member used
  | script language =>
    have again := (settings.script parse?).analyze_keepCalls unchanged file
    beta_reduce
    rw [← (settings.script parse?).analyze_keepCalls grows file]
    refine linked_withinFile large fun definition member call used => ?_
    rw [← again] at member
    exact Definition.accepted_of_mem member used
  | template language =>
    have again := Template.analyze_keepCalls unchanged settings.template settings.limits file
    beta_reduce
    rw [Template.analyze_keepCalls grows, linked_withinFile_filter]
    · refine linked_withinFile large fun definition member call used => ?_
      rw [again] at member
      exact Definition.accepted_of_mem (List.mem_filter.mp member).1 used
    · intro definition member silent
      obtain ⟨original, found, rfl⟩ := List.mem_map.mp member
      have recorded := (Template.analyze_eraseCalls settings.template settings.limits file large).subset
        (List.mem_map_of_mem found)
      have kind : original.kind = .templateCalls :=
        congrArg Definition.kind (List.mem_singleton.mp recorded)
      refine ⟨?_, by simpa using silent⟩
      change original.kind.isResolvable = false
      rw [kind]
      rfl
  | unread => rfl

/-- Files with different paths are known by them. -/
theorem filter_path_eq {part files : List SourceFile} (sublist : part.Sublist files)
    (apart : (files.map (·.path)).Nodup) :
    (files.filter fun file => file.path ∈ part.map (·.path)) = part := by
  induction sublist with
  | slnil => rfl
  | @cons part rest file inner ih =>
    obtain ⟨different, later⟩ := List.nodup_cons.mp apart
    have absent : file.path ∉ part.map (·.path) := fun present => different ((inner.map (·.path)).subset present)
    rw [List.filter_cons_of_neg (by simpa using absent)]
    exact ih later
  | @cons_cons part rest file inner ih =>
    obtain ⟨different, later⟩ := List.nodup_cons.mp apart
    have others : ∀ other ∈ rest, other.path ≠ file.path := fun other member same =>
      different (List.mem_map.mpr ⟨other, member, same⟩)
    rw [List.filter_cons_of_pos (by simp)]
    congr 1
    refine (List.filter_congr fun other member => ?_).trans (ih later)
    simp [others other member]

theorem linked_flatMap (registry : Registry) (files : List SourceFile) (found : SourceFile → List Definition) :
    linked registry (files.flatMap found) = files.flatMap fun file => linked registry (found file) := by
  rw [linked, List.map_flatMap, List.filter_flatMap]
  rfl

theorem collectNames_mono {analyzer : Analyzer} {part files : List SourceFile} (sublist : part.Sublist files)
    (name : String) (known : name ∈ analyzer.collectNames part) : name ∈ analyzer.collectNames files := by
  obtain ⟨file, member, defined⟩ := mem_collectNames.mp known
  exact mem_collectNames.mpr ⟨file, sublist.subset member, defined⟩

/-- Whether an endpoint is in one of some files. -/
def inPart (part : List SourceFile) (endpoint : Endpoint) : Bool := endpoint.filePath ∈ part.map (·.path)

section
variable {parse? : Script.Tree.Parser} {settings : Settings} {part files : List SourceFile}

/-- What the second pass finds in some files under a registry. -/
def found (analyzer : Analyzer) (registry : Registry) (files : List SourceFile) : List Definition :=
  files.flatMap fun file => (analyzer.analyzeFile registry file).definitions

theorem analyze_edges (analyzer : Analyzer) (files : List SourceFile) :
    (analyzer.analyze files).edges =
      Edge.ofDefinitions (analyzer.found (analyzer.collectNames files) files) analyzer.settings.edgeLines := by
  simp only [analyze, found, List.flatMap_map]

theorem found_filePath {registry : Registry} {definition : Definition}
    (member : definition ∈ (standardWith parse? settings).found registry files) :
    ∃ file ∈ files, definition.filePath = file.path := by
  obtain ⟨file, present, inFile⟩ := List.mem_flatMap.mp member
  exact ⟨file, present, (standardWith_reading parse? settings file).filePath inFile⟩

theorem found_known {registry : Registry} {definition : Definition}
    (member : definition ∈ (standardWith parse? settings).found registry files)
    (resolvable : definition.kind.isResolvable = true) :
    definition.name ∈ (standardWith parse? settings).collectNames files := by
  obtain ⟨file, present, inFile⟩ := List.mem_flatMap.mp member
  exact mem_collectNames.mpr
    ⟨file, present, (standardWith_reading parse? settings file).resolvable inFile resolvable⟩

theorem found_filter (sublist : part.Sublist files) (apart : (files.map (·.path)).Nodup) (registry : Registry) :
    ((standardWith parse? settings).found registry files).filter
        (fun definition => inPart part (Endpoint.of definition)) =
      (standardWith parse? settings).found registry part := by
  have same (file : SourceFile) : ∀ definition ∈ ((standardWith parse? settings).analyzeFile registry file).definitions,
      definition.filePath = file.path := fun _ => (standardWith_reading parse? settings file).filePath
  rw [found, List.filter_flatMap, ← flatMap_filter_of_nil, filter_path_eq sublist apart]
  · refine List.flatMap_congr fun file member => List.filter_eq_self.mpr fun definition inFile => ?_
    have inside : file.path ∈ part.map (·.path) := List.mem_map_of_mem member
    simpa only [inPart, Endpoint.of, same file definition inFile, decide_eq_true_eq] using inside
  · intro file _ outside
    refine List.filter_eq_nil_iff.mpr fun definition inFile => ?_
    simpa only [inPart, Endpoint.of, same file definition inFile, Bool.not_eq_true] using outside

/-- The meetings in a part of a corpus are those of the whole corpus inside the part. -/
theorem meetings_part (sublist : part.Sublist files) (apart : (files.map (·.path)).Nodup) :
    let analyzer := standardWith parse? settings
    Edge.meetings (analyzer.found (analyzer.collectNames part) part) =
      (Edge.meetings (analyzer.found (analyzer.collectNames files) files)).filter fun meeting =>
        Edge.within (inPart part) meeting.ends := by
  intro analyzer
  let small := analyzer.collectNames part
  let large := analyzer.collectNames files
  -- Both registries leave the same to link in the files of the part, so the larger one can take its place there.
  have sameLinks : linked small (analyzer.found small part) = linked small (analyzer.found large part) := by
    rw [found, linked_flatMap, found, linked_flatMap]
    exact List.flatMap_congr fun file _ =>
      (standardWith_reading parse? settings file).linked_eq (collectNames_mono sublist)
  calc Edge.meetings (analyzer.found small part)
    _ = Edge.meetings (linked small (analyzer.found small part)) :=
      (Edge.meetings_linked fun _ => found_known).symm
    _ = Edge.meetings (linked small (analyzer.found large part)) := by rw [sameLinks]
    _ = Edge.meetings (analyzer.found large part) := Edge.meetings_linked fun _ => found_known
    _ = Edge.meetings ((analyzer.found large files).filter fun definition =>
          inPart part (Endpoint.of definition)) := by rw [found_filter sublist apart]
    _ = _ := Edge.meetings_filter (inPart part) _

theorem edge_filePath {edge : Edge} (present : edge ∈ ((standardWith parse? settings).analyze files).edges) :
    (∃ file ∈ files, edge.source.filePath = file.path) ∧ ∃ file ∈ files, edge.target.filePath = file.path := by
  rw [analyze_edges] at present
  obtain ⟨⟨caller, calls, source, _⟩, definition, defined, _, target⟩ :=
    Edge.mem_meetings_ends.mp (Edge.of_mem_ofDefinitions present).1
  rw [← source, ← target]
  exact ⟨found_filePath calls, found_filePath defined⟩

end

/-- The edges of a part of a corpus are the edges of the whole corpus with both ends in the part, and every other
edge of the whole corpus touches a file outside of the part. -/
theorem analyze_edges_local (parse? : Script.Tree.Parser) (settings : Settings) {part files : List SourceFile}
    (sublist : part.Sublist files) (apart : (files.map (·.path)).Nodup) :
    let analyzer := standardWith parse? settings
    (analyzer.analyze part).edges =
      ((analyzer.analyze files).edges.filter fun edge =>
        edge.source.filePath ∈ part.map (·.path) && edge.target.filePath ∈ part.map (·.path)) ∧
    ∀ edge ∈ (analyzer.analyze files).edges, edge ∉ (analyzer.analyze part).edges →
      ∃ file ∈ files, file ∉ part ∧
        (edge.source.filePath = file.path ∨ edge.target.filePath = file.path) := by
  intro analyzer
  have same : (analyzer.analyze part).edges = ((analyzer.analyze files).edges.filter fun edge =>
      edge.source.filePath ∈ part.map (·.path) && edge.target.filePath ∈ part.map (·.path)) := by
    rw [analyze_edges, analyze_edges]
    exact Edge.ofDefinitions_filter _ (meetings_part sublist apart)
  refine ⟨same, fun edge present absent => ?_⟩
  obtain ⟨⟨caller, calls, fromCaller⟩, callee, called, toCallee⟩ := edge_filePath present
  by_cases sourceInside : edge.source.filePath ∈ part.map (·.path)
  · refine ⟨callee, called, fun member => absent ?_, .inr toCallee⟩
    have targetInside : edge.target.filePath ∈ part.map (·.path) := toCallee ▸ List.mem_map_of_mem member
    rw [same]
    exact List.mem_filter.mpr ⟨present, by simp only [sourceInside, targetInside, decide_true, Bool.and_self]⟩
  · refine ⟨caller, calls, fun member => sourceInside ?_, .inl fromCaller⟩
    exact fromCaller ▸ List.mem_map_of_mem member

/-- Without the second of four files the edges into and out of its method are gone, and no others. -/
theorem analyze_edges_local_middle :
    let first : SourceFile := .ofText "a.rb" .ruby "def top\n  helper\n  finish\nend\n"
    let middle : SourceFile := .ofText "b.rb" .ruby "def helper\n  finish\nend\n"
    let last : SourceFile := .ofText "c.erb" .erb "<%= top %>\n"
    let other : SourceFile := .ofText "d.js" .javascript "function finish() \x7b\n  top();\n\x7d\n"
    let analyzer := standardWith Script.Tree.parse? {}
    [first, last, other].Sublist [first, middle, last, other] ∧
    ([first, middle, last, other].map (·.path)).Nodup ∧
    (analyzer.analyze [first, last, other]).edges =
      ((analyzer.analyze [first, middle, last, other]).edges.filter fun edge =>
        edge.source.filePath ∈ [first, last, other].map (·.path) &&
          edge.target.filePath ∈ [first, last, other].map (·.path)) ∧
    (analyzer.analyze [first, last, other]).edges.length = 3 ∧
    (analyzer.analyze [first, middle, last, other]).edges.length = 5 := by
  intro first middle last other analyzer
  have sublist : [first, last, other].Sublist [first, middle, last, other] := by decide
  have apart : ([first, middle, last, other].map (·.path)).Nodup := by decide
  exact ⟨sublist, apart, (analyze_edges_local Script.Tree.parse? {} sublist apart).1,
    by decide +kernel, by decide +kernel⟩

end Analyzer
end CallAtlas

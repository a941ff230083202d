import CallAtlas.Proofs.CallSites

/-! Names that a script imports. A call of an imported name is reported whatever the corpus defines, and it tells the
line of an import that binds the name; but an import is passed over if the module it names is a keyword, because
imports are sorted out by their names as definitions are. -/
namespace CallAtlas

theorem innermostFrom_isSome {line index : Nat} {best : Option (Nat × Definition)} {definitions : List Definition}
    (some : best.isSome = true ∨
      ∃ definition ∈ definitions, definition.kind.isCallable = true ∧ definition.containsLine line = true) :
    (innermostFrom line index best definitions).isSome = true := by
  induction definitions generalizing index best with
  | nil =>
    rcases some with best | ⟨definition, member, _⟩
    · exact best
    · cases member
  | cons head rest ih =>
    rw [innermostFrom]
    split
    · apply ih
      left
      unfold tighter
      split
      · rfl
      · split <;> rfl
    · rename_i idle
      apply ih
      rcases some with best | ⟨definition, member, around⟩
      · exact .inl best
      · rcases List.mem_cons.mp member with rfl | later
        · exact absurd (Bool.and_eq_true_iff.mpr around) idle
        · exact .inr ⟨definition, later, around⟩

/-- A line that a callable definition contains has an owner. -/
theorem exists_innermostCallable? {definitions : List Definition} {line : Nat} {definition : Definition}
    (member : definition ∈ definitions) (callable : definition.kind.isCallable = true)
    (around : definition.containsLine line = true) : ∃ owner, innermostCallable? definitions line = some owner := by
  have found : (innermostFrom line 0 none definitions).isSome = true :=
    innermostFrom_isSome (.inr ⟨definition, member, callable, around⟩)
  obtain ⟨entry, same⟩ := Option.isSome_iff_exists.mp found
  exact ⟨entry.1, by rw [innermostCallable?, same, Option.map_some]⟩

namespace Definition

theorem mem_addCall_of_mem {definition : Definition} {call known : CallSite} (member : known ∈ definition.calls) :
    known ∈ (definition.addCall call).calls := by
  rw [addCall]
  split
  · exact member
  · exact List.mem_append_left _ member

theorem mem_addCalls_of_mem {definition : Definition} {calls : List CallSite} {known : CallSite}
    (member : known ∈ definition.calls) : known ∈ (definition.addCalls calls).calls := by
  induction calls generalizing definition with
  | nil => exact member
  | cons call rest ih => exact ih (mem_addCall_of_mem member)

/-- A call site that is added is recorded, by itself or by an earlier one of its callee on its line. -/
theorem records_addCalls {definition : Definition} {calls : List CallSite} {call : CallSite} (member : call ∈ calls) :
    (definition.addCalls calls).records call = true := by
  induction calls generalizing definition with
  | nil => cases member
  | cons first rest ih =>
    rw [addCalls_cons]
    rcases List.mem_cons.mp member with rfl | later
    · have known : (definition.addCall call).records call = true := by
        rw [addCall]
        split
        · assumption
        · exact records_iff.mpr ⟨call, by simp, rfl, rfl⟩
      obtain ⟨same, recorded, holds⟩ := records_iff.mp known
      exact records_iff.mpr ⟨same, mem_addCalls_of_mem recorded, holds⟩
    · exact ih later

end Definition

namespace Script

/-- Whether a definition is an import or a require. -/
def isImport (definition : Definition) : Bool := definition.kind == .importRecord

/-- Whether an import binds a name. -/
def binds (name : String) (statement : Definition) : Bool := statement.bindings.contains name

/-- An import is named for its module. -/
structure NamesModule (statement : Definition) : Prop where
  module : statement.moduleName = some statement.name
  filled : statement.name ≠ ""

namespace Outline

variable {context : Context} {spot : Spot} {finding : Finding}

/-- A finding without imports. -/
def Finding.Declares (finding : Finding) : Prop := ∀ definition ∈ finding.definitions, isImport definition = false

/-- A finding that is one import. -/
def Finding.Imports (finding : Finding) : Prop :=
  ∃ statement, finding.definitions = [statement] ∧ isImport statement = true ∧ NamesModule statement

/-- A line is one import, or no import at all. -/
theorem Finding.Shape.imports {kinds : List Kind} (shape : finding.Shape context spot kinds)
    (others : ∀ kind ∈ kinds ++ Kind.containers, (kind == .importRecord) = false) :
    finding.Declares ∨ finding.Imports := by
  cases shape with
  | plain plain =>
    left
    intro definition member
    exact others _ (List.mem_append_left _ (plain.kind definition member))
  | imported filled bindings =>
    right
    refine ⟨_, rfl, rfl, rfl, ?_⟩
    intro empty
    exact filled (String.ofList_eq_empty_iff.mp empty)
  | container name known => exact .inl (List.forall_mem_singleton.mpr (others _ (List.mem_append_right _ known)))

theorem finding_filter_isImport (context : Context) (containers : List Container) (spot : Spot) :
    (Outline.finding context containers spot).definitions.filter isImport = [] ∨
      ∃ statement, (Outline.finding context containers spot).definitions.filter isImport = [statement] ∧
        statement.startLine = spot.index + 1 ∧ NamesModule statement := by
  rcases (finding_shape context containers spot).imports (by decide) with declares | ⟨statement, alone, isOne, names⟩
  · left
    rw [List.filter_eq_nil_iff]
    intro definition member
    simp [declares definition member]
  · right
    have member : statement ∈ (Outline.finding context containers spot).definitions := by simp [alone]
    exact ⟨statement, by simp [alone, isOne], (finding_from containers statement member).startLine, names⟩

/-- The imports of a script stand in the order of their lines, no two on one line. -/
theorem read_imports (context : Context) (containers : List Container) (index : Nat) (depth : Int)
    (lines : List Blanking.Line) :
    ((read context containers index depth lines).definitions.filter isImport).Pairwise
        (fun first second => first.startLine < second.startLine) ∧
      ∀ statement ∈ (read context containers index depth lines).definitions.filter isImport,
        NamesModule statement := by
  induction lines generalizing containers index depth with
  | nil => exact ⟨.nil, by simp [read]⟩
  | cons line rest ih =>
    have split : (read context containers index depth (line :: rest)).definitions =
        (Outline.finding context containers { index, depth, lines := line :: rest }).definitions ++
          (read context ((Outline.finding context containers
            { index, depth, lines := line :: rest }).container.toList ++ containers) (index + 1)
            (depth + braceDelta line.cleaned) rest).definitions := rfl
    rw [split, List.filter_append]
    rcases finding_filter_isImport context containers { index, depth, lines := line :: rest } with
      none | ⟨statement, single, starts, names⟩
    · rw [none, List.nil_append]
      exact ih _ _ _
    · rw [single, List.singleton_append]
      obtain ⟨ascending, named⟩ := ih
        ((Outline.finding context containers { index, depth, lines := line :: rest }).container.toList ++ containers)
        (index + 1) (depth + braceDelta line.cleaned)
      refine ⟨List.pairwise_cons.mpr ⟨fun later member => ?_, ascending⟩, List.forall_mem_cons.mpr ⟨names, named⟩⟩
      have there : index + 1 < later.startLine := (read_located (List.mem_filter.mp member).1).starts
      exact starts ▸ there

end Outline

namespace Reader

/-- The imports and requires that a script is found to hold, before definitions are sorted out. -/
def importStatements (reader : Reader) (file : SourceFile) : List Definition :=
  (reader.rawScan file).definitions.filter isImport

/-- The imports whose module is no keyword of the language. -/
def keptImports (reader : Reader) (file : SourceFile) : List Definition :=
  (reader.importStatements file).filter fun statement => !reader.vocabulary.keyword statement.name

/-- Some definition reports the call of a candidate, as one of a name that was imported on the given line. -/
def Reports (reader : Reader) (file : SourceFile) (registry : Registry) (candidate : Candidate) (line : Option Nat) :
    Prop :=
  ∃ definition ∈ (reader.analyze file registry).definitions, ∃ call ∈ definition.calls,
    call.callee = candidate.name ∧ call.line = candidate.line ∧ call.importLine = line

variable (reader : Reader) (file : SourceFile)

theorem importStatements_outline (outline : reader.preference = .heuristic) :
    (reader.importStatements file).Pairwise (fun first second => first.startLine < second.startLine) ∧
      ∀ statement ∈ reader.importStatements file, NamesModule statement := by
  rw [importStatements, rawScan, outline]
  exact Outline.read_imports _ [] 0 0 _

/-- Imports are kept by the name of their module. -/
theorem filter_isImport_scan (outline : reader.preference = .heuristic) :
    (reader.scan file).definitions.filter isImport = reader.keptImports file := by
  rw [scan, sortOut, List.filter_filter, keptImports, importStatements, List.filter_filter]
  apply List.filter_congr
  intro statement member
  by_cases isOne : isImport statement = true
  · have kind : statement.kind = .importRecord := beq_iff_eq.mp isOne
    have names : NamesModule statement :=
      (reader.importStatements_outline file outline).2 statement (List.mem_filter.mpr ⟨member, isOne⟩)
    simp [keeps, names.filled, kind, Kind.isResolvable, isOne]
  · simp [isOne]

theorem find?_bindings (statement : Definition) (name : String) :
    ((statement.bindings.map fun bound => (bound, statement.startLine)).find? fun entry => entry.1 == name) =
      if binds name statement then some (name, statement.startLine) else none := by
  rw [List.find?_map, binds]
  cases found : statement.bindings.find? ((fun entry : String × Nat => entry.1 == name) ∘ fun bound =>
      (bound, statement.startLine)) with
  | none =>
    have absent : name ∉ statement.bindings := fun member =>
      absurd (List.find?_eq_none.mp found name member) (by simp)
    simp [absent]
  | some bound =>
    have same : bound = name := by simpa using List.find?_some found
    have member : name ∈ statement.bindings := same ▸ List.mem_of_find?_eq_some found
    simp [same, member]

theorem importLine?_importedNames (definitions : List Definition) (name : String) :
    importLine? (importedNames definitions) name =
      ((definitions.filter isImport).find? (binds name)).map (·.startLine) := by
  have each (statements : List Definition) :
      importLine? (statements.flatMap fun statement =>
        statement.bindings.map fun bound => (bound, statement.startLine)) name =
        (statements.find? (binds name)).map (·.startLine) := by
    induction statements with
    | nil => rfl
    | cons statement rest ih =>
      rw [importLine?] at ih ⊢
      rw [List.flatMap_cons, List.find?_append, find?_bindings, List.find?_cons]
      by_cases bound : binds name statement = true
      · simp only [bound, if_true, Option.some_or, Option.map_some]
      · simp only [bound, if_false, Option.none_or, Bool.false_eq_true]
        exact ih
  exact each _

/-- The line that a call of an imported name tells is the line of the first import of the name that is kept. -/
theorem importLine?_scan (outline : reader.preference = .heuristic) (name : String) :
    importLine? (importedNames (reader.scan file).definitions) name =
      ((reader.keptImports file).find? (binds name)).map (·.startLine) := by
  rw [importLine?_importedNames, reader.filter_isImport_scan file outline]

variable {reader file}

theorem callSites_importLine {registry : Registry} {found : Scan} {site : Nat × CallSite}
    (member : site ∈ reader.callSites file registry found) :
    site.2.importLine = importLine? (importedNames found.definitions) site.2.callee := by
  obtain ⟨candidate, _, accepted⟩ := List.mem_filterMap.mp member
  simp only [site?, Option.bind_eq_bind, Option.bind_eq_some_iff] at accepted
  obtain ⟨owner, _, accepted⟩ := accepted
  split at accepted
  · simp only [Option.bind_eq_some_iff, Option.pure_def, Option.some.injEq] at accepted
    obtain ⟨raw, _, rfl⟩ := accepted
    rfl
  · cases accepted

/-- What is reported of a call is what was found about its candidate. -/
theorem importLine_of_reports (outline : reader.preference = .heuristic) {registry : Registry} {candidate : Candidate}
    {line : Option Nat} (reports : reader.Reports file registry candidate line) :
    line = ((reader.keptImports file).find? (binds candidate.name)).map (·.startLine) := by
  obtain ⟨definition, member, call, recorded, callee, _, rfl⟩ := reports
  obtain ⟨index, inside, rfl⟩ := List.mem_mapIdx.mp member
  rcases Definition.mem_addCalls recorded with known | added
  · rw [(scan_bare (List.getElem_mem inside)).calls] at known
    cases known
  · obtain ⟨site, chosen, rfl⟩ := List.mem_map.mp added
    rw [callSites_importLine (List.mem_filter.mp chosen).1, callee, reader.importLine?_scan file outline]

/-- An accepted candidate on a line of a callable definition is reported. -/
theorem reports_of_accepts (outline : reader.preference = .heuristic) {registry : Registry} {candidate : Candidate}
    {owner : Definition} (found : candidate ∈ (reader.rawScan file).candidates)
    (defined : owner ∈ (reader.define file).definitions) (callable : owner.kind.isCallable = true)
    (around : owner.containsLine candidate.line = true)
    (accepted : (reader.acceptance (reader.scan file).definitions registry).accepts candidate.name = true) :
    reader.Reports file registry candidate
      (((reader.keptImports file).find? (binds candidate.name)).map (·.startLine)) := by
  change owner ∈ (reader.scan file).definitions at defined
  obtain ⟨index, owned⟩ := exists_innermostCallable? defined callable around
  obtain ⟨definition, present, _, _⟩ := innermostCallable?_contains owned
  have inFile : candidate.line - 1 < file.sourceLines.length := by
    rw [rawScan, outline] at found
    obtain ⟨offset, line, headers, listed, chosen⟩ := Outline.mem_read_candidates found
    have position := (Outline.mem_candidatesOn chosen).1
    have bound := (List.getElem?_eq_some_iff.mp listed).1
    rw [Blanking.pairLines_length] at bound
    omega
  obtain ⟨site, sited, own, callee, line⟩ : ∃ site, site? reader.limits
      (reader.acceptance (reader.scan file).definitions registry).accepts file.sourceLines (reader.scan file).definitions
      (importedNames (reader.scan file).definitions) candidate = some site ∧
      site.1 = index ∧ site.2.callee = candidate.name ∧ site.2.line = candidate.line := by
    simp [site?, owned, accepted, List.getElem?_eq_getElem inFile]
  have member : site ∈ reader.callSites file registry (reader.scan file) :=
    List.mem_filterMap.mpr ⟨candidate, found, sited⟩
  have listed : (definition.addCalls (((reader.callSites file registry (reader.scan file)).filter fun site =>
      site.1 == index).map (·.2))) ∈ (reader.analyze file registry).definitions := by
    obtain ⟨inside, rfl⟩ := List.getElem?_eq_some_iff.mp present
    exact List.mem_mapIdx.mpr ⟨index, inside, rfl⟩
  have added : site.2 ∈ ((reader.callSites file registry (reader.scan file)).filter fun site =>
      site.1 == index).map (·.2) :=
    List.mem_map.mpr ⟨site, List.mem_filter.mpr ⟨member, beq_iff_eq.mpr own⟩, rfl⟩
  obtain ⟨call, recorded, sameLine, sameCallee⟩ := Definition.records_iff.mp (Definition.records_addCalls added)
  have reports : reader.Reports file registry candidate call.importLine :=
    ⟨_, listed, call, recorded, sameCallee.trans callee, sameLine.trans line, rfl⟩
  rwa [importLine_of_reports outline reports] at reports

/-- A name that a kept import binds is accepted, whatever the corpus defines. -/
theorem accepts_of_kept (outline : reader.preference = .heuristic) (registry : Registry) {candidate : Candidate}
    (found : candidate ∈ (reader.rawScan file).candidates) {kept : Definition} (member : kept ∈ reader.keptImports file)
    (bound : binds candidate.name kept = true) (free : reader.vocabulary.excludes candidate.name = false) :
    (reader.acceptance (reader.scan file).definitions registry).accepts candidate.name = true := by
  have named : candidate.name ≠ "" := by
    rw [rawScan, outline] at found
    obtain ⟨offset, line, headers, _, chosen⟩ := Outline.mem_read_candidates found
    obtain ⟨_, ⟨first, more, spelled, _⟩, _⟩ := Outline.mem_candidatesOn chosen
    rintro none
    rw [none] at spelled
    cases spelled
  have imported : candidate.name ∈ (importedNames (reader.scan file).definitions).map (·.1) := by
    rw [← reader.filter_isImport_scan file outline] at member
    apply List.mem_map.mpr
    refine ⟨(candidate.name, kept.startLine), List.mem_flatMap.mpr ⟨kept, member, ?_⟩, rfl⟩
    exact List.mem_map.mpr ⟨candidate.name, by simpa [binds] using bound, rfl⟩
  have known : (reader.acceptance (reader.scan file).definitions registry).file.contains candidate.name = true :=
    Registry.contains_iff.mpr (Registry.mem_insertAll.mpr (.inl imported))
  have vocabulary : (reader.acceptance (reader.scan file).definitions registry).vocabulary = reader.vocabulary := rfl
  simp [Acceptance.accepts, known, named, vocabulary, free]

theorem find?_filter_of_find? {statements : List Definition} {keep choose : Definition → Bool} {first : Definition}
    (chosen : statements.find? choose = some first) (kept : keep first = true) :
    (statements.filter keep).find? choose = some first := by
  induction statements with
  | nil => cases chosen
  | cons head rest ih =>
    rw [List.find?_cons] at chosen
    split at chosen
    · cases chosen
      simp [*]
    · rename_i other
      by_cases keeps : keep head = true
      · simp [keeps, other, ih chosen]
      · simp [keeps, ih chosen]

/-- A call of an imported name on a line of a callable definition is reported for every registry, with the line of the
first import that binds the name, exactly if the module of that import is no keyword. If it is one, the call is
reported with the line of the first import of the name whose module is none, where there is such an import. -/
theorem imported_call_reported (reader : Reader) (outline : reader.preference = .heuristic) (file : SourceFile)
    {candidate : Candidate} (found : candidate ∈ (reader.rawScan file).candidates)
    (free : reader.vocabulary.excludes candidate.name = false) {first owner : Definition}
    (bound : (reader.importStatements file).find? (binds candidate.name) = some first)
    (defined : owner ∈ (reader.define file).definitions) (callable : owner.kind.isCallable = true)
    (around : owner.containsLine candidate.line = true) (registry : Registry) :
    first.moduleName = some first.name ∧
    (reader.Reports file registry candidate (some first.startLine) ↔ reader.vocabulary.keyword first.name = false) ∧
    (∀ kept, (reader.keptImports file).find? (binds candidate.name) = some kept →
      reader.Reports file registry candidate (some kept.startLine)) ∧
    ∀ line, reader.Reports file registry candidate line →
      line = ((reader.keptImports file).find? (binds candidate.name)).map (·.startLine) := by
  obtain ⟨ascending, named⟩ := reader.importStatements_outline file outline
  have stated : first ∈ reader.importStatements file := List.mem_of_find?_eq_some bound
  have report (kept : Definition) (chosen : (reader.keptImports file).find? (binds candidate.name) = some kept) :
      reader.Reports file registry candidate (some kept.startLine) := by
    have accepted := accepts_of_kept outline registry found (List.mem_of_find?_eq_some chosen)
      (List.find?_some chosen) free
    have reports := reports_of_accepts outline found defined callable around accepted
    rwa [chosen, Option.map_some] at reports
  refine ⟨(named first stated).module, ⟨fun reports => ?_, fun plain => report first ?_⟩, report,
    fun line => importLine_of_reports outline⟩
  · -- No other import starts on the line, so the one that is kept there is the first of all.
    obtain ⟨kept, chosen, sameLine⟩ := Option.map_eq_some_iff.mp (importLine_of_reports outline reports).symm
    obtain ⟨member, plain⟩ := List.mem_filter.mp (List.mem_of_find?_eq_some chosen)
    have apart : ((reader.importStatements file).map (·.startLine)).Nodup :=
      List.pairwise_map.mpr (ascending.imp Nat.ne_of_lt)
    rw [← List.inj_on_of_nodup_map apart member stated sameLine]
    simpa using plain
  · exact find?_filter_of_find? bound (by simpa using plain)

/-- A script that imports a name from a module and calls it in a function. -/
def importing (specifier : String) : SourceFile :=
  .ofText "queue.js" .javascript
    ("import \x7b parallel \x7d from '" ++ specifier ++ "';\nfunction run() \x7b\n  parallel(1);\n\x7d\n")

def byOutline : Reader where
  parse? := fun _ _ => none
  preference := .heuristic
  vocabulary := ⟨.javascript, []⟩
  limits := ⟨1000, 160⟩

theorem imported_call_reported_library :
    (byOutline.importStatements (importing "lib")).map (fun statement => (statement.bindings, statement.moduleName)) =
      [(["parallel"], some "lib")] ∧
    byOutline.Reports (importing "lib") .empty ⟨"parallel", 3⟩ (some 1) := by
  have bound : (byOutline.importStatements (importing "lib")).find? (binds "parallel") =
      some { name := "lib", kind := .importRecord, filePath := "queue.js", startLine := 1, endLine := 1,
             code := "import \x7b parallel \x7d from 'lib';", moduleName := some "lib", bindings := ["parallel"] } := by
    decide +kernel
  have defined :
      { name := "run", kind := .function, filePath := "queue.js", startLine := 2, endLine := 4,
        code := "function run() \x7b\n  parallel(1);\n\x7d" } ∈ (byOutline.define (importing "lib")).definitions := by
    decide +kernel
  have found : ⟨"parallel", 3⟩ ∈ (byOutline.rawScan (importing "lib")).candidates := by decide +kernel
  have reported := imported_call_reported byOutline rfl (importing "lib") found (by decide +kernel) bound defined rfl rfl
    .empty
  exact ⟨by decide +kernel, reported.2.1.mpr (by decide +kernel)⟩

/-- A module may have the name of a keyword; what is imported from it is then unknown. -/
theorem keyword_module_hides_call :
    (byOutline.importStatements (importing "async")).map (fun statement => (statement.bindings, statement.startLine)) =
      [(["parallel"], 1)] ∧
    ⟨"parallel", 3⟩ ∈ (byOutline.rawScan (importing "async")).candidates ∧
    byOutline.vocabulary.excludes "parallel" = false ∧
    (byOutline.define (importing "async")).definitions.map (fun definition =>
      (definition.kind.isCallable, definition.containsLine 3)) = [(true, true)] ∧
    (byOutline.analyze (importing "async") .empty).definitions.flatMap (·.calls) = [] := by
  decide +kernel

end Reader
end Script
end CallAtlas

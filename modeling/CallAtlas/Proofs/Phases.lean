import CallAtlas.Proofs.CallFilter
import CallAtlas.Report
import Mathlib.Data.List.Forall2
import Mathlib.Data.List.Perm.Basic

/-! The two passes over a corpus agree. The first pass finds the definitions and the second finds the same ones
again with their call sites, so the names of the first pass are those of the definitions that the second one
reports, and a report of these definitions gives all of the analysis back. -/
namespace CallAtlas

namespace Registry

variable {first second : Registry} {name : String}

theorem mem_union : name ∈ first.union second ↔ name ∈ first ∨ name ∈ second :=
  mem_insertAll.trans or_comm

theorem mem_ofDefinitions {definitions : List Definition} :
    name ∈ ofDefinitions definitions ↔
      ∃ definition ∈ definitions, definition.kind.isResolvable = true ∧ definition.name = name := by
  have absent : name ∉ empty := List.not_mem_nil
  rw [ofDefinitions, ofList, mem_insertAll, or_iff_left absent, definedNames, List.mem_map]
  simp only [List.mem_filter, and_assoc]

theorem mem_ofDefinitions_flatMap {files : List FileAnalysis} :
    name ∈ ofDefinitions (files.flatMap fun file => file.definitions) ↔
      ∃ file ∈ files, ∃ definition ∈ file.definitions,
        definition.kind.isResolvable = true ∧ definition.name = name := by
  rw [mem_ofDefinitions]
  constructor
  · rintro ⟨definition, member, callable, named⟩
    obtain ⟨file, present, found⟩ := List.mem_flatMap.mp member
    exact ⟨file, present, definition, found, callable, named⟩
  · rintro ⟨file, present, definition, found, callable, named⟩
    exact ⟨definition, List.mem_flatMap.mpr ⟨file, present, found⟩, callable, named⟩

/-- A registry is known by its names. -/
theorem eq_of_mem_iff (same : ∀ name, name ∈ first ↔ name ∈ second) : first = second := by
  have strict {names : List String} (ordered : names.Pairwise (· < ·)) : names.Nodup :=
    ordered.imp fun below => String.ne_of_lt below
  have rearranged : first.names.Perm second.names :=
    (List.perm_ext_iff_of_nodup (strict first.ordered) (strict second.ordered)).mpr same
  exact ext_names (rearranged.eq_of_pairwise
    (fun _ _ _ _ below above => absurd above (String.lt_asymm below)) first.ordered second.ordered)

end Registry

/-- A report leaves out nothing but the names, and these are read off the definitions. -/
theorem Report.toAnalysis_ofAnalysis (generatedAt : Timestamp) {analysis : CorpusAnalysis}
    (same : Registry.ofDefinitions analysis.definitions = analysis.registry) :
    (ofAnalysis generatedAt analysis).toAnalysis = analysis :=
  congrArg (fun registry => CorpusAnalysis.mk analysis.files registry analysis.edges) same

/-- A definition without its call sites. -/
def Definition.eraseCalls (definition : Definition) : Definition := { definition with calls := [] }

namespace Definition

theorem eraseCalls_of_bare {path : String} {definition : Definition} (bare : definition.Bare path) :
    definition.eraseCalls = definition := by
  rw [eraseCalls, ← bare.calls]

theorem eraseCalls_addCalls {path : String} {definition : Definition} (bare : definition.Bare path)
    (calls : List CallSite) : (definition.addCalls calls).eraseCalls = definition := by
  rw [addCalls_eq]
  exact eraseCalls_of_bare bare

end Definition

theorem map_mapIdx_eq_map {α β γ : Type} {members : List α} {f : Nat → α → β} {g : β → γ} {h : α → γ}
    (same : ∀ index, ∀ member ∈ members, g (f index member) = h member) :
    (members.mapIdx f).map g = members.map h := by
  rw [map_mapIdx same]
  exact List.ext_getElem (by simp) (by simp)

theorem Ruby.Reader.analyze_eraseCalls (reader : Ruby.Reader) (file : SourceFile) (registry : Registry) :
    (reader.analyze file registry).definitions.map Definition.eraseCalls = (reader.define file).definitions :=
  map_mapIdx_eq_map fun _ _ member =>
    Definition.eraseCalls_addCalls (reader.findMethods_located file member).toBare _

theorem Script.Reader.analyze_eraseCalls (reader : Script.Reader) (file : SourceFile) (registry : Registry) :
    (reader.analyze file registry).definitions.map Definition.eraseCalls = (reader.define file).definitions := by
  have bare : ∀ definition ∈ (reader.scan file).definitions, definition.Bare file.path := fun _ => scan_bare
  have same := map_mapIdx_eq_map (h := id) fun index definition member =>
    Definition.eraseCalls_addCalls (bare definition member)
      (((reader.callSites file registry (reader.scan file)).filter fun site => site.1 == index).map (·.2))
  rwa [List.map_id] at same

theorem Template.analyze_eraseCalls (vocabulary : Vocabulary) (limits : Limits) (file : SourceFile)
    (registry : Registry) :
    ((analyze vocabulary limits file registry).definitions.map Definition.eraseCalls).Sublist [record file] := by
  have whole : [(record file).addCalls (callSites (acceptance vocabulary registry) limits file.sourceLines)].map
      Definition.eraseCalls = [record file] := by
    rw [List.map_singleton, Definition.eraseCalls_addCalls (record_bare file)]
  rw [analyze_definitions, ← whole]
  exact List.filter_sublist.map Definition.eraseCalls

namespace Analyzer

/-- The second pass moves the ends of definitions into the file. There is nothing to move in definitions that
stand on lines of the file. -/
theorem withinFile_eraseCalls {file : SourceFile} {definitions : List Definition}
    (located : ∀ definition ∈ definitions.map Definition.eraseCalls,
      definition.Located file.path 0 file.lineLimit) :
    (withinFile file definitions).map Definition.eraseCalls = definitions.map Definition.eraseCalls := by
  have stands : ∀ definition ∈ definitions, 0 < definition.startLine ∧
      definition.startLine ≤ definition.endLine ∧ definition.endLine ≤ file.lineLimit := by
    intro definition member
    have inside := located _ (List.mem_map_of_mem member)
    exact ⟨inside.starts, inside.ordered, inside.ends⟩
  have all : definitions.filter (startsWithin file.lineLimit) = definitions := by
    refine List.filter_eq_self.mpr fun definition member => ?_
    obtain ⟨starts, ordered, ends⟩ := stands definition member
    exact Bool.and_eq_true_iff.mpr ⟨decide_eq_true starts, decide_eq_true (Nat.le_trans ordered ends)⟩
  rw [withinFile, all, List.map_map]
  refine List.map_congr_left fun definition member => ?_
  obtain ⟨_, ordered, ends⟩ := stands definition member
  have unmoved : min (max definition.endLine definition.startLine) file.lineLimit = definition.endLine := by
    rw [Nat.max_eq_left ordered, Nat.min_eq_left ends]
  simp only [Function.comp_apply, confine, unmoved, Definition.eraseCalls]

/-- The record of a template stays as it is, and is dropped where the file has no lines. -/
theorem withinFile_record {file : SourceFile} {definitions : List Definition}
    (recorded : (definitions.map Definition.eraseCalls).Sublist [Template.record file]) :
    ((withinFile file definitions).map Definition.eraseCalls).Sublist [Template.record file] := by
  by_cases filled : 1 ≤ file.lineLimit
  · rw [withinFile_eraseCalls]
    · exact recorded
    · intro definition member
      rw [List.mem_singleton.mp (recorded.subset member)]
      have last : (Template.record file).endLine = file.lineLimit := file.sourceLines_length
      exact ⟨Template.record_bare file, Nat.zero_lt_one, last ▸ filled, Nat.le_of_eq last⟩
  · have none : definitions.filter (startsWithin file.lineLimit) = [] := by
      refine List.filter_eq_nil_iff.mpr fun definition _ => ?_
      simp only [startsWithin, Bool.and_eq_true, decide_eq_true_eq, not_and]
      omega
    rw [withinFile, none]
    exact List.nil_sublist _

theorem mem_withinFile {file : SourceFile} {definitions : List Definition} {definition : Definition}
    (member : definition ∈ withinFile file definitions) :
    ∃ original ∈ definitions.map Definition.eraseCalls, definition.name = original.name ∧
      definition.kind = original.kind ∧ definition.filePath = original.filePath := by
  obtain ⟨original, kept, rfl⟩ := List.mem_map.mp member
  exact ⟨_, List.mem_map_of_mem (List.mem_filter.mp kept).1, rfl, rfl, rfl⟩

theorem mem_collectNames {analyzer : Analyzer} {files : List SourceFile} {name : String} :
    name ∈ analyzer.collectNames files ↔ ∃ file ∈ files, name ∈ analyzer.namesIn file := by
  suffices general : ∀ registry : Registry,
      name ∈ files.foldl (fun registry file => registry.union (analyzer.namesIn file)) registry ↔
        name ∈ registry ∨ ∃ file ∈ files, name ∈ analyzer.namesIn file by
    have absent : name ∉ Registry.empty := List.not_mem_nil
    exact (general .empty).trans (or_iff_right absent)
  induction files with
  | nil => simp
  | cons file rest ih =>
    intro registry
    rw [List.foldl_cons, ih, Registry.mem_union, List.exists_mem_cons_iff, or_assoc]

/-- What the standard analyzer finds in a file: the definitions of its first pass, and those of its second pass
under every registry. -/
inductive Reading (parse? : Script.Tree.Parser) (settings : Settings) (file : SourceFile) :
    List Definition → (Registry → List Definition) → Prop
  | ruby (language : file.language = .ruby) :
    Reading parse? settings file (settings.ruby.define file).definitions fun registry =>
      withinFile file (settings.ruby.analyze file registry).definitions
  | script (language : file.language.isScript = true) :
    Reading parse? settings file ((settings.script parse?).define file).definitions fun registry =>
      withinFile file ((settings.script parse?).analyze file registry).definitions
  | template (language : file.language = .erb) :
    Reading parse? settings file [] fun registry =>
      withinFile file (Template.analyze settings.template settings.limits file registry).definitions
  | unread : Reading parse? settings file [] fun _ => []

theorem standardWith_reading (parse? : Script.Tree.Parser) (settings : Settings) (file : SourceFile) :
    Reading parse? settings file ((standardWith parse? settings).definitionsIn file) fun registry =>
      ((standardWith parse? settings).analyzeFile registry file).definitions := by
  unfold definitionsIn analyzeFile
  cases language : file.language with
  | ruby => exact .ruby language
  | javascript | typescript | tsx => exact .script (by rw [language]; rfl)
  | erb => exact .template language
  | yaml | markdown | unknown => exact .unread

namespace Reading

variable {parse? : Script.Tree.Parser} {settings : Settings} {file : SourceFile} {first : List Definition}
  {second : Registry → List Definition} (reading : Reading parse? settings file first second)
include reading

/-- What the second pass finds stems from a definition of the first pass or is the record of a template. -/
theorem origin {registry : Registry} {definition : Definition} (member : definition ∈ second registry) :
    ∃ original, (original ∈ first ∨ original = Template.record file) ∧ original.Bare file.path ∧
      definition.name = original.name ∧ definition.kind = original.kind ∧
      definition.filePath = original.filePath := by
  cases reading with
  | ruby language =>
    obtain ⟨original, known, same⟩ := mem_withinFile member
    rw [Ruby.Reader.analyze_eraseCalls] at known
    exact ⟨original, .inl known, (settings.ruby.define_located known).toBare, same⟩
  | script language =>
    obtain ⟨original, known, same⟩ := mem_withinFile member
    rw [Script.Reader.analyze_eraseCalls] at known
    exact ⟨original, .inl known, Script.Reader.scan_bare known, same⟩
  | template language =>
    obtain ⟨original, known, same⟩ := mem_withinFile member
    have recorded := List.mem_singleton.mp ((Template.analyze_eraseCalls _ _ file registry).subset known)
    exact ⟨original, .inr recorded, recorded ▸ Template.record_bare file, same⟩
  | unread => cases member

theorem filePath {registry : Registry} {definition : Definition} (member : definition ∈ second registry) :
    definition.filePath = file.path := by
  obtain ⟨original, _, bare, _, _, same⟩ := reading.origin member
  exact same.trans bare.filePath

/-- The second pass finds no new names. -/
theorem resolvable {registry : Registry} {definition : Definition} (member : definition ∈ second registry)
    (callable : definition.kind.isResolvable = true) :
    definition.name ∈ Registry.ofDefinitions first := by
  obtain ⟨original, known | recorded, _, name, kind, _⟩ := reading.origin member
  · exact Registry.mem_ofDefinitions.mpr ⟨original, known, kind ▸ callable, name.symm⟩
  · rw [kind, recorded] at callable
    cases callable

/-- The second pass finds the definitions of the first one. -/
theorem eraseCalls (rows : settings.scripts = .auto → ∀ tree, Script.Reader.tree? parse? file = some tree →
      tree.Inside file.lineLimit) (other : file.language ≠ .erb) (registry : Registry) :
    (second registry).map Definition.eraseCalls = first := by
  cases reading with
  | ruby language =>
    rw [withinFile_eraseCalls, Ruby.Reader.analyze_eraseCalls]
    rw [Ruby.Reader.analyze_eraseCalls]
    exact fun definition member => settings.ruby.define_located member
  | script language =>
    rw [withinFile_eraseCalls, Script.Reader.analyze_eraseCalls]
    rw [Script.Reader.analyze_eraseCalls]
    exact fun definition member => Script.Reader.scan_located rows member
  | template language => exact absurd language other
  | unread => rfl

/-- A template has no definitions and at most one record of its calls. -/
theorem template_eraseCalls (language : file.language = .erb) (registry : Registry) :
    first = [] ∧ ((second registry).map Definition.eraseCalls).Sublist [Template.record file] := by
  cases reading with
  | ruby same => cases same.symm.trans language
  | script same => rw [language] at same; cases same
  | template =>
    exact ⟨rfl, withinFile_record (Template.analyze_eraseCalls settings.template settings.limits file registry)⟩
  | unread => exact ⟨rfl, List.nil_sublist _⟩

end Reading

theorem analyzeFile_header (analyzer : Analyzer) (registry : Registry) (file : SourceFile) :
    (analyzer.analyzeFile registry file).path = file.path ∧
      (analyzer.analyzeFile registry file).language = file.language := by
  unfold analyzeFile
  split
  · exact ⟨rfl, rfl⟩
  · split <;> exact ⟨rfl, rfl⟩

/-- The names of the first pass are those of the definitions that the second pass reports. -/
theorem mem_collectNames_iff {parse? : Script.Tree.Parser} {settings : Settings} {files : List SourceFile}
    (rows : settings.scripts = .auto → ∀ file ∈ files, ∀ tree, Script.Reader.tree? parse? file = some tree →
      tree.Inside file.lineLimit) (registry : Registry) (name : String) :
    name ∈ (standardWith parse? settings).collectNames files ↔
      ∃ result ∈ files.map ((standardWith parse? settings).analyzeFile registry),
        ∃ definition ∈ result.definitions, definition.kind.isResolvable = true ∧ definition.name = name := by
  rw [mem_collectNames]
  constructor
  · rintro ⟨file, present, known⟩
    have reading := standardWith_reading parse? settings file
    obtain ⟨original, member, callable, named⟩ := Registry.mem_ofDefinitions.mp known
    have other : file.language ≠ .erb := by
      intro language
      rw [(reading.template_eraseCalls language registry).1] at member
      cases member
    rw [← reading.eraseCalls (fun auto => rows auto file present) other registry] at member
    obtain ⟨definition, found, rfl⟩ := List.mem_map.mp member
    exact ⟨_, List.mem_map_of_mem present, definition, found, callable, named⟩
  · rintro ⟨result, present, definition, found, callable, rfl⟩
    obtain ⟨file, member, rfl⟩ := List.mem_map.mp present
    exact ⟨file, member, (standardWith_reading parse? settings file).resolvable found callable⟩

/-- The first pass knows a name exactly if the second one reports a definition with it. In every file the second
pass finds the definitions of the first pass; of a template it finds one record at most and the first pass
nothing. The report of an analysis gives it back. -/
theorem analyze_phases_agree (parse? : Script.Tree.Parser) (settings : Settings) (files : List SourceFile)
    (rows : settings.scripts = .auto → ∀ file ∈ files, ∀ tree, Script.Reader.tree? parse? file = some tree →
      tree.Inside file.lineLimit) :
    let analyzer := standardWith parse? settings
    let analysis := analyzer.analyze files
    (∀ name, name ∈ analysis.registry ↔ ∃ result ∈ analysis.files, ∃ definition ∈ result.definitions,
      definition.kind.isResolvable = true ∧ definition.name = name) ∧
    List.Forall₂ (fun file result => result.path = file.path ∧ result.language = file.language ∧
      if file.language = .erb then
        analyzer.definitionsIn file = [] ∧
          (result.definitions.map Definition.eraseCalls).Sublist [Template.record file]
      else result.definitions.map Definition.eraseCalls = analyzer.definitionsIn file) files analysis.files ∧
    ∀ generatedAt, (Report.ofAnalysis generatedAt analysis).toAnalysis = analysis := by
  intro analyzer analysis
  have names := mem_collectNames_iff rows analysis.registry
  refine ⟨names, ?_, fun generatedAt => ?_⟩
  · refine List.forall₂_map_right_iff.mpr (List.forall₂_same.mpr fun file member => ?_)
    have reading := standardWith_reading parse? settings file
    obtain ⟨path, language⟩ := analyzer.analyzeFile_header analysis.registry file
    refine ⟨path, language, ?_⟩
    split
    · rename_i template
      exact reading.template_eraseCalls template analysis.registry
    · rename_i other
      exact reading.eraseCalls (fun auto => rows auto file member) other analysis.registry
  · refine Report.toAnalysis_ofAnalysis generatedAt (Registry.eq_of_mem_iff fun name => ?_)
    rw [CorpusAnalysis.definitions, Registry.mem_ofDefinitions_flatMap]
    exact (names name).symm

/-- A class and a template that calls into it, and a script whose syntax tree is read: the names of the first pass, and
what the second one reports. -/
theorem analyze_phases_agree_mixed :
    let files : List SourceFile := [.ofText "a.rb" .ruby "class A\n  def run\n    helper\n  end\nend\n",
      .ofText "b.erb" .erb "<p>\n<%= run %>\n</p>\n",
      .ofText "c.js" .javascript "import x from 'y';\nfunction helper() \x7b\n  run();\n\x7d\n"]
    let analysis := (standardWith Script.Tree.parse? {}).analyze files
    let heading (definition : Definition) := (definition.name, definition.startLine, definition.endLine)
    (∃ file ∈ files, (Script.Reader.tree? Script.Tree.parse? file).isSome = true) ∧
    (∀ file ∈ files, ∀ tree, Script.Reader.tree? Script.Tree.parse? file = some tree →
      tree.Inside file.lineLimit) ∧
    analysis.registry.names = ["helper", "run"] ∧
    analysis.files.map (fun result => result.definitions.map heading) =
      [[("run", 2, 4)], [("b.erb", 1, 3)], [("y", 1, 1), ("helper", 2, 4)]] ∧
    ∀ generatedAt, (Report.ofAnalysis generatedAt analysis).toAnalysis = analysis := by
  intro files analysis heading
  have rows : ∀ file ∈ files, ∀ tree ∈ Script.Reader.tree? Script.Tree.parse? file,
      tree.Inside file.lineLimit := by
    decide +kernel
  obtain ⟨_, kept, restored⟩ := analyze_phases_agree Script.Tree.parse? {} files fun _ => rows
  have headings {result : FileAnalysis} {definitions : List Definition}
      (same : result.definitions.map Definition.eraseCalls = definitions) :
      result.definitions.map heading = definitions.map heading := by
    rw [← same, List.map_map]
    rfl
  refine ⟨by decide +kernel, rows, by decide +kernel, ?_, restored⟩
  obtain ⟨⟨_, _, ruby⟩, ⟨_, _, _⟩, ⟨_, _, script⟩, _⟩ := by
    simpa only [files, analysis, Analyzer.analyze, List.map, List.forall₂_cons] using kept
  have template : (analysis.files.get ⟨1, by decide⟩).definitions.map heading = [("b.erb", 1, 3)] := by
    decide +kernel
  refine congr (congrArg List.cons ?_) (congr (congrArg List.cons template) (congrArg (· :: []) ?_))
  · exact (headings ruby).trans (by decide +kernel)
  · exact (headings script).trans (by decide +kernel)

end Analyzer
end CallAtlas

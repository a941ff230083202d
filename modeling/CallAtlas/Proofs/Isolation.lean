import CallAtlas.Proofs.Confinement
import CallAtlas.Proofs.Phases

/-! Failures stay where they happen. Extractors may yield anything and may break down; the result of a file is
confined to it all the same, and a file that adds neither names nor definitions can be left out of the corpus
without a trace in the rest. -/
namespace CallAtlas.Analyzer

variable {analyzer : Analyzer} {registry : Registry} {file : SourceFile}

/-- A file that adds no name in the first pass and no definition in the second. -/
structure Silent (analyzer : Analyzer) (registry : Registry) (file : SourceFile) : Prop where
  names : ∀ name, name ∉ analyzer.namesIn file
  definitions : (analyzer.analyzeFile registry file).definitions = []

/-- An extractor that breaks down on a file in both passes. -/
def BreaksDown (registry : Registry) (file : SourceFile) (extractor : Extractor) : Prop :=
  (∃ breakdown, extractor.define file = .error breakdown) ∧
    ∃ breakdown, extractor.analyze file registry = .error breakdown

theorem analyzeFile_confined (analyzer : Analyzer) (registry : Registry) (file : SourceFile) :
    ∀ definition ∈ (analyzer.analyzeFile registry file).definitions, definition.Confined file.lineLimit := by
  intro definition member
  unfold analyzeFile at member
  split at member
  · cases member
  · split at member
    · exact withinFile_confined member
    · cases member

/-- A breakdown leaves nothing but its diagnostic. -/
theorem analyzeFile_of_breakdown {extractor : Extractor} {breakdown : Breakdown}
    (chosen : analyzer.extractor? file.language = some extractor)
    (broken : extractor.analyze file registry = .error breakdown) :
    analyzer.analyzeFile registry file =
      { path := file.path, language := file.language,
        diagnostics := [.unexpected file.path breakdown.message] } := by
  simp only [analyzeFile, chosen, broken]

theorem silent_of_unsupported (unsupported : analyzer.extractor? file.language = none) :
    analyzer.Silent registry file := by
  constructor
  · intro name known
    rw [namesIn, definitionsIn, unsupported] at known
    cases known
  · simp only [analyzeFile, unsupported]

theorem silent_of_breaksDown {extractor : Extractor} (chosen : analyzer.extractor? file.language = some extractor)
    (broken : BreaksDown registry file extractor) : analyzer.Silent registry file := by
  obtain ⟨⟨first, undefined⟩, second, unread⟩ := broken
  constructor
  · intro name known
    simp only [namesIn, definitionsIn, chosen, undefined] at known
    cases known
  · rw [analyzeFile_of_breakdown chosen unread]

section
variable {before after : List SourceFile} (silent : analyzer.Silent registry file)
include silent

theorem collectNames_of_silent :
    analyzer.collectNames (before ++ after) = analyzer.collectNames (before ++ file :: after) := by
  refine Registry.eq_of_mem_iff fun name => ?_
  rw [mem_collectNames, mem_collectNames]
  constructor
  · rintro ⟨other, present, known⟩
    refine ⟨other, ?_, known⟩
    rcases List.mem_append.mp present with early | late
    · exact List.mem_append_left _ early
    · exact List.mem_append_right _ (List.mem_cons_of_mem file late)
  · rintro ⟨other, present, known⟩
    refine ⟨other, ?_, known⟩
    rcases List.mem_append.mp present with early | late
    · exact List.mem_append_left _ early
    · rcases List.mem_cons.mp late with rfl | late
      · exact absurd known (silent.names name)
      · exact List.mem_append_right _ late

theorem definitions_of_silent :
    ((before ++ after).map (analyzer.analyzeFile registry)).flatMap (fun result => result.definitions) =
      ((before ++ file :: after).map (analyzer.analyzeFile registry)).flatMap fun result => result.definitions := by
  rw [List.map_append, List.map_append, List.flatMap_append, List.flatMap_append, List.map_cons,
    List.flatMap_cons, silent.definitions, List.nil_append]

end

/-- Left out of a corpus, a silent file changes no name, no edge and no result of another file. -/
theorem analyze_of_silent {before after : List SourceFile}
    (silent : analyzer.Silent (analyzer.collectNames (before ++ file :: after)) file) :
    analyzer.analyze (before ++ after) =
      { analyzer.analyze (before ++ file :: after) with
        files := (analyzer.analyze (before ++ file :: after)).files.eraseIdx before.length } := by
  have names : analyzer.collectNames (before ++ after) = analyzer.collectNames (before ++ file :: after) :=
    collectNames_of_silent silent
  have others : (before ++ after).map
      (analyzer.analyzeFile (analyzer.collectNames (before ++ file :: after))) =
        ((before ++ file :: after).map
          (analyzer.analyzeFile (analyzer.collectNames (before ++ file :: after)))).eraseIdx before.length := by
    rw [List.eraseIdx_map, List.eraseIdx_append_of_length_le (Nat.le_refl _), Nat.sub_self, List.eraseIdx_cons_zero]
  simp only [analyze]
  rw [names, definitions_of_silent silent, others]

/-- There is one result a file, in order, with its path and language and with definitions confined to it. An
extractor that breaks down in the second pass leaves only a diagnostic. A file that adds no names and no
definitions, such as one that no extractor takes or whose extractor breaks down in both passes, can be left out
without a change to the rest. -/
theorem analyze_isolates_failures (analyzer : Analyzer) (files : List SourceFile) :
    let analysis := analyzer.analyze files
    List.Forall₂ (fun file result => result.path = file.path ∧ result.language = file.language ∧
      (∀ definition ∈ result.definitions, definition.Confined file.lineLimit) ∧
      ∀ extractor breakdown, analyzer.extractor? file.language = some extractor →
        extractor.analyze file analysis.registry = .error breakdown →
        result.definitions = [] ∧ result.templateCalls = [] ∧
          result.diagnostics = [.unexpected file.path breakdown.message]) files analysis.files ∧
    (∀ file, (analyzer.extractor? file.language = none ∨
        ∃ extractor, analyzer.extractor? file.language = some extractor ∧
          BreaksDown analysis.registry file extractor) → analyzer.Silent analysis.registry file) ∧
    ∀ before file after, files = before ++ file :: after → analyzer.Silent analysis.registry file →
      analyzer.analyze (before ++ after) =
        { analysis with files := analysis.files.eraseIdx before.length } := by
  intro analysis
  refine ⟨?_, ?_, ?_⟩
  · refine List.forall₂_map_right_iff.mpr (List.forall₂_same.mpr fun file member => ?_)
    obtain ⟨path, language⟩ := analyzer.analyzeFile_header analysis.registry file
    refine ⟨path, language, analyzer.analyzeFile_confined analysis.registry file, ?_⟩
    intro extractor breakdown chosen broken
    have result : analyzer.analyzeFile analysis.registry file = _ := analyzeFile_of_breakdown chosen broken
    exact ⟨congrArg FileAnalysis.definitions result, congrArg FileAnalysis.templateCalls result,
      congrArg FileAnalysis.diagnostics result⟩
  · rintro file (unsupported | ⟨extractor, chosen, broken⟩)
    · exact silent_of_unsupported unsupported
    · exact silent_of_breaksDown chosen broken
  · rintro before file after rfl silent
    exact analyze_of_silent silent

/-- An extractor that breaks down in its own way in each pass, between two files for which it yields a definition
that leaves the file. The definition is kept for both, confined to each of them. -/
theorem analyze_isolates_failures_between :
    let run : Definition :=
      { name := "run", kind := .method, filePath := "a.rb", startLine := 1, endLine := 9,
        calls := [⟨"run", 2, "run", none⟩, ⟨"run", 7, "run", none⟩] }
    let stub : Extractor :=
      { name := "stub", supports := fun language => language == .ruby
        define := fun file => if file.path = "b.rb" then .error (.saying "lost") else .ok { definitions := [run] }
        analyze := fun file _ => if file.path = "b.rb" then .error .silent else .ok { definitions := [run] } }
    let analyzer : Analyzer := ⟨{}, [stub]⟩
    let first : SourceFile := .ofText "a.rb" .ruby "def run\n  run\nend\n"
    let broken : SourceFile := .ofText "b.rb" .ruby "def run\nend\n"
    let last : SourceFile := .ofText "c.rb" .ruby "run\n"
    let analysis := analyzer.analyze [first, broken, last]
    analyzer.extractor? broken.language = some stub ∧ BreaksDown analysis.registry broken stub ∧
    analysis.registry.names = ["run"] ∧
    analysis.files.map (fun result => result.definitions.map fun definition =>
      (definition.name, definition.startLine, definition.endLine, definition.calls.map (·.line))) =
        [[("run", 1, 3, [2])], [], [("run", 1, 1, [])]] ∧
    analyzer.analyze [first, last] = { analysis with files := analysis.files.eraseIdx 1 } := by
  intro run stub analyzer first broken last analysis
  have chosen : analyzer.extractor? broken.language = some stub := rfl
  have breaks : BreaksDown analysis.registry broken stub := ⟨⟨_, rfl⟩, _, rfl⟩
  have isolated := analyze_isolates_failures analyzer [first, broken, last]
  exact ⟨chosen, breaks, by decide +kernel, by decide +kernel, isolated.2.2 [first] broken [last] rfl
    (isolated.2.1 broken (.inr ⟨stub, chosen, breaks⟩))⟩

end CallAtlas.Analyzer

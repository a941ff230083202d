import CallAtlas.Proofs.CallFilter

/-! A larger registry only adds call sites, and it adds them by name alone. -/
namespace CallAtlas

/-- The grouping of call sites looks at nothing else of a definition. -/
theorem TemplateCall.collect_congr {first second : Definition} (same : first.calls = second.calls) :
    collect first = collect second := by
  rw [collect, collect, same]

namespace Template

variable {small large : Registry} (grows : ∀ name, name ∈ small → name ∈ large)
  (vocabulary : Vocabulary) (limits : Limits) (file : SourceFile)

theorem analyze_length_le (registry : Registry) :
    (analyze vocabulary limits file registry).definitions.length ≤ 1 := by
  rw [analyze_definitions]
  exact List.length_filter_le _ _

/-- The record is there exactly if there are call sites. -/
theorem analyze_eq_nil_iff (registry : Registry) :
    (analyze vocabulary limits file registry).definitions = [] ↔
      (analyze vocabulary limits file registry).definitions.flatMap (·.calls) = [] := by
  rw [analyze_definitions, List.flatMap_eq_nil_iff]
  constructor
  · intro absent definition member
    rw [absent] at member
    cases member
  · intro empty
    apply List.eq_nil_iff_forall_not_mem.mpr
    intro definition member
    have filled := (List.mem_filter.mp member).2
    simp [empty definition member] at filled

/-- The grouped calls are those of any definition with the call sites of the record. -/
theorem analyze_collect (registry : Registry) {definition : Definition}
    (same : definition.calls = (analyze vocabulary limits file registry).definitions.flatMap (·.calls)) :
    (analyze vocabulary limits file registry).templateCalls = TemplateCall.collect definition := by
  have short := analyze_length_le vocabulary limits file registry
  rw [analyze_templateCalls]
  cases found : (analyze vocabulary limits file registry).definitions with
  | nil =>
    have none : definition.calls = [] := by rw [same, found, List.flatMap_nil]
    rw [TemplateCall.collect, none]
    rfl
  | cons record rest =>
    cases rest with
    | cons => simp [found] at short
    | nil =>
      rw [found, List.flatMap_singleton] at same
      rw [List.flatMap_singleton, TemplateCall.collect_congr same]

include grows

/-- The call sites of the record are those of the larger registry that are accepted again. -/
theorem analyze_calls :
    (analyze vocabulary limits file small).definitions.flatMap (·.calls) =
      ((analyze vocabulary limits file large).definitions.flatMap (·.calls)).filter fun call =>
        (acceptance vocabulary small).accepts call.callee := by
  rw [analyze_keepCalls grows]
  induction (analyze vocabulary limits file large).definitions with
  | nil => rfl
  | cons definition rest ih =>
    have own : (definition.keepCalls (acceptance vocabulary small).accepts).calls =
        definition.calls.filter fun call => (acceptance vocabulary small).accepts call.callee := rfl
    rw [List.map_cons, List.flatMap_cons, List.filter_append, ← own, ← ih, List.filter_cons]
    split
    · rw [List.flatMap_cons]
    · rename_i empty
      have gone : (definition.keepCalls (acceptance vocabulary small).accepts).calls = [] := by
        simpa using empty
      rw [gone, List.nil_append]

end Template

/-- What the extractors find under a registry is what they find under any larger one, with every call site
asked again whether its callee is accepted. The record of a template goes when none is left. -/
theorem registry_growth_adds_calls (ruby : Ruby.Reader) (script : Script.Reader) (vocabulary : Vocabulary)
    (limits : Limits) (file : SourceFile) {small large : Registry}
    (grows : ∀ name, name ∈ small → name ∈ large) :
    (∃ wide, (Ruby.extractor ruby).analyze file large = .ok wide ∧
      (Ruby.extractor ruby).analyze file small =
        .ok (wide.keepCalls (ruby.acceptance (ruby.define file).definitions small).accepts)) ∧
    (∃ wide, (Script.extractor script).analyze file large = .ok wide ∧
      (Script.extractor script).analyze file small =
        .ok (wide.keepCalls (script.acceptance (script.define file).definitions small).accepts)) ∧
    ∃ wide narrow, (Template.extractor vocabulary limits).analyze file large = .ok wide ∧
      (Template.extractor vocabulary limits).analyze file small = .ok narrow ∧
      wide.definitions.length ≤ 1 ∧ narrow.diagnostics = wide.diagnostics ∧
      narrow.definitions =
        (wide.definitions.map
          (Definition.keepCalls (Template.acceptance vocabulary small).accepts)).filter
            (fun definition => !definition.calls.isEmpty) ∧
      let kept := (wide.definitions.flatMap (·.calls)).filter fun call =>
        (Template.acceptance vocabulary small).accepts call.callee
      (narrow.definitions = [] ↔ kept = []) ∧
        ∀ definition, definition.calls = kept → narrow.templateCalls = TemplateCall.collect definition := by
  refine ⟨⟨_, rfl, ?_⟩, ⟨_, rfl, ?_⟩, _, _, rfl, rfl, ?_, ?_, ?_, ?_⟩
  · exact congrArg Except.ok (ruby.analyze_keepCalls grows file).symm
  · exact congrArg Except.ok (script.analyze_keepCalls grows file).symm
  · exact Template.analyze_length_le vocabulary limits file large
  · rw [Template.analyze_diagnostics, Template.analyze_diagnostics]
  · exact Template.analyze_keepCalls grows vocabulary limits file
  · have calls := Template.analyze_calls grows vocabulary limits file
    rw [Template.analyze_eq_nil_iff, calls]
    exact ⟨Iff.rfl, fun definition same =>
      Template.analyze_collect vocabulary limits file small (same.trans calls.symm)⟩

/-- One name more in the registry, and one call more. -/
theorem registry_growth_adds_calls_helper :
    let reader : Ruby.Reader := ⟨⟨.ruby, []⟩, ⟨10, 10⟩⟩
    let file : SourceFile := .ofText "a.rb" .ruby "def a\n  helper\n  other\nend\n"
    let small := Registry.ofList ["helper"]
    let large := Registry.ofList ["helper", "other"]
    let calls (extraction : Extraction) := extraction.definitions.map fun definition =>
      (definition.name, definition.calls.map fun call => (call.callee, call.line))
    (∀ name, name ∈ small → name ∈ large) ∧
    ∃ wide narrow, (Ruby.extractor reader).analyze file large = .ok wide ∧
      (Ruby.extractor reader).analyze file small = .ok narrow ∧
      narrow = wide.keepCalls (reader.acceptance (reader.define file).definitions small).accepts ∧
      calls wide = [("a", [("helper", 2), ("other", 3)])] ∧ calls narrow = [("a", [("helper", 2)])] := by
  intro reader file small large calls
  have grows : ∀ name, name ∈ small → name ∈ large := by
    intro name member
    rcases Registry.mem_insertAll.mp member with same | absent
    · exact Registry.mem_insertAll.mpr (.inl (List.mem_cons.mpr (.inl (List.mem_singleton.mp same))))
    · cases absent
  obtain ⟨wide, found, kept⟩ := (registry_growth_adds_calls reader
    ⟨Script.Tree.parse?, .auto, ⟨.javascript, []⟩, ⟨10, 10⟩⟩ ⟨.erb, []⟩ ⟨10, 10⟩ file grows).1
  refine ⟨grows, wide, _, found, kept, rfl, ?_, ?_⟩
  · rw [← Except.ok.inj found]
    decide +kernel
  · rw [← Except.ok.inj kept]
    decide +kernel

end CallAtlas

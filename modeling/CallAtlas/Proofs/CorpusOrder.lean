import CallAtlas.Proofs.Locality

/-! The order of a corpus does not matter. What files share, the names and the endpoints that a name leads to, is
gathered without regard to order; what depends on order, the call sites of one endpoint, stays inside one file. -/
namespace CallAtlas

namespace Edge

variable {room : Nat} {first second : List Definition} {source target : Endpoint}

section
variable (own : ∀ source, (first.filter fun definition => Endpoint.of definition == source) =
  second.filter fun definition => Endpoint.of definition == source)
include own

theorem mem_of_own {definition : Definition} (member : definition ∈ first) : definition ∈ second := by
  have chosen : definition ∈ first.filter fun other => Endpoint.of other == Endpoint.of definition :=
    List.mem_filter.mpr ⟨member, beq_self_eq_true _⟩
  rw [own] at chosen
  exact (List.mem_filter.mp chosen).1

theorem mem_iff_of_own (definition : Definition) : definition ∈ first ↔ definition ∈ second :=
  ⟨mem_of_own own, mem_of_own fun source => (own source).symm⟩

theorem targets_filter_of_own (name : String) :
    ((targets first name).filter fun other => other == target) =
      (targets second name).filter fun other => other == target := by
  have known : target ∈ targets first name ↔ target ∈ targets second name := by
    rw [mem_targets, mem_targets]
    simp only [mem_iff_of_own own]
  have onceFirst : (targets first name).Nodup := distinct_nodup _
  have onceSecond : (targets second name).Nodup := distinct_nodup _
  rw [List.filter_beq, List.filter_beq, onceFirst.count, onceSecond.count]
  simp only [known]

theorem gathered_of_own (pair : Endpoint × Endpoint) :
    gathered room (Edge.meetings first) pair = gathered room (Edge.meetings second) pair := by
  obtain ⟨source, target⟩ := pair
  rw [gathered, gathered, meetings_filter_ends, meetings_filter_ends, own source]
  simp only [targets_filter_of_own own]

/-- Definitions that keep their order at every endpoint have the same edges. -/
theorem ofDefinitions_perm_of_own : (ofDefinitions first room).Perm (ofDefinitions second room) := by
  have met : (distinct ((Edge.meetings first).map Meeting.ends)).Perm
      (distinct ((Edge.meetings second).map Meeting.ends)) := by
    apply distinct_perm (distinct_nodup _)
    rintro ⟨source, target⟩
    rw [mem_distinct, mem_meetings_ends, mem_meetings_ends]
    simp only [mem_iff_of_own own]
  rw [ofDefinitions_eq, ofDefinitions_eq]
  simp only [gathered_of_own own]
  exact met.map _

end
end Edge

namespace Analyzer

variable {first second : List SourceFile}

section
variable (rearranged : first.Perm second) (apart : (first.map (·.path)).Nodup)
include rearranged

theorem collectNames_perm (analyzer : Analyzer) : analyzer.collectNames first = analyzer.collectNames second := by
  apply Registry.eq_of_mem_iff
  intro name
  rw [mem_collectNames, mem_collectNames]
  simp only [rearranged.mem_iff]

include apart

/-- At most one file has a given path, so there is nothing to rearrange among the files that have it. -/
theorem filter_path_perm (path : String) :
    (first.filter fun file => file.path == path) = second.filter fun file => file.path == path := by
  have alike : (first.filter fun file => file.path == path).Perm (second.filter fun file => file.path == path) :=
    rearranged.filter _
  cases found : first.filter fun file => file.path == path with
  | nil =>
    rw [found] at alike
    exact alike.symm.eq_nil.symm
  | cons file rest =>
    have alone : rest = [] := by
      apply List.eq_nil_iff_forall_not_mem.mpr
      intro other later
      have once : ((file :: rest).map (·.path)).Nodup := found ▸ apart.sublist (List.filter_sublist.map _)
      have holds : ∀ member ∈ file :: rest, member.path = path := by
        intro member present
        rw [← found] at present
        exact beq_iff_eq.mp (List.mem_filter.mp present).2
      have same : other.path = file.path :=
        (holds other (List.mem_cons_of_mem file later)).trans (holds file List.mem_cons_self).symm
      exact (List.nodup_cons.mp once).1 (List.mem_map.mpr ⟨other, later, same⟩)
    rw [found, alone] at alike
    rw [alone, alike.symm.eq_singleton]

theorem file?_perm (analyzer : Analyzer) (registry : Registry) (path : String) :
    ((first.map (analyzer.analyzeFile registry)).find? fun result => result.path == path) =
      (second.map (analyzer.analyzeFile registry)).find? fun result => result.path == path := by
  have named : (fun result : FileAnalysis => result.path == path) ∘ analyzer.analyzeFile registry =
      fun file => file.path == path := by
    funext file
    rw [Function.comp_apply, (analyzer.analyzeFile_header registry file).1]
  rw [List.find?_map, List.find?_map, named, ← List.head?_filter, ← List.head?_filter,
    filter_path_perm rearranged apart]

/-- The definitions at an endpoint are all in one file. -/
theorem found_filter_perm (parse? : Script.Tree.Parser) (settings : Settings) (registry : Registry)
    (source : Endpoint) :
    (((standardWith parse? settings).found registry first).filter fun definition =>
        Endpoint.of definition == source) =
      ((standardWith parse? settings).found registry second).filter fun definition =>
        Endpoint.of definition == source := by
  have confined (files : List SourceFile) :
      (((standardWith parse? settings).found registry files).filter fun definition =>
        Endpoint.of definition == source) =
      (files.filter fun file => file.path == source.filePath).flatMap fun file =>
        ((standardWith parse? settings).analyzeFile registry file).definitions.filter fun definition =>
          Endpoint.of definition == source := by
    rw [found, List.filter_flatMap]
    symm
    apply flatMap_filter_of_nil
    intro file _ away
    apply List.filter_eq_nil_iff.mpr
    intro definition inFile same
    have path : definition.filePath = file.path := (standardWith_reading parse? settings file).filePath inFile
    have own : Endpoint.of definition = source := beq_iff_eq.mp same
    apply beq_eq_false_iff_ne.mp away
    rw [← path, ← own]
    rfl
  rw [confined, confined, filter_path_perm rearranged apart]

end

/-- Two corpora with the same files in any order have the same names, the same result for every path and the same
edges. -/
theorem analyze_order_free (parse? : Script.Tree.Parser) (settings : Settings) {first second : List SourceFile}
    (rearranged : first.Perm second) (apart : (first.map (·.path)).Nodup) :
    let analyzer := standardWith parse? settings
    (analyzer.analyze first).registry = (analyzer.analyze second).registry ∧
    (analyzer.analyze first).files.Perm (analyzer.analyze second).files ∧
    (∀ path, (analyzer.analyze first).file? path = (analyzer.analyze second).file? path) ∧
    (analyzer.analyze first).edges.Perm (analyzer.analyze second).edges := by
  intro analyzer
  have names : analyzer.collectNames first = analyzer.collectNames second := analyzer.collectNames_perm rearranged
  refine ⟨names, ?_, fun path => ?_, ?_⟩
  · simp only [analyze, names]
    exact rearranged.map _
  · simp only [CorpusAnalysis.file?, analyze, names]
    exact file?_perm rearranged apart analyzer _ path
  · rw [analyze_edges, analyze_edges, names]
    exact Edge.ofDefinitions_perm_of_own (found_filter_perm rearranged apart parse? settings _)

/-- Read from the last file to the first, a corpus has its edges in another order. -/
theorem analyze_order_free_reversed :
    let files : List SourceFile := [.ofText "a.rb" .ruby "def top\n  helper\n  finish\n  helper\nend\n",
      .ofText "b.rb" .ruby "def helper\n  top\nend\ndef finish\n  helper\nend\n",
      .ofText "c.erb" .erb "<%= top %>\n"]
    let analyzer := standardWith Script.Tree.parse? {}
    files.Perm files.reverse ∧ (files.map (·.path)).Nodup ∧
    (analyzer.analyze files).edges.Perm (analyzer.analyze files.reverse).edges ∧
    (analyzer.analyze files).edges ≠ (analyzer.analyze files.reverse).edges := by
  intro files analyzer
  have rearranged : files.Perm files.reverse := (List.reverse_perm files).symm
  have apart : (files.map (·.path)).Nodup := by decide
  exact ⟨rearranged, apart, (analyze_order_free Script.Tree.parse? {} rearranged apart).2.2.2, by decide +kernel⟩

end Analyzer
end CallAtlas

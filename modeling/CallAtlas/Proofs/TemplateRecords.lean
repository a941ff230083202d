import CallAtlas.Proofs.CallSites
import CallAtlas.Proofs.Conservation

/-! The call sites of a definition grouped by callee. One pass over the calls, which changes earlier entries in place,
comes to one entry for each callee that counts its calls and lists their lines. Call sites are told once for each line, so
in the record of a template the count of an entry is the number of its lines. -/
namespace CallAtlas

open CallAtlas.Edge (distinct)

namespace TemplateCall

/-- Call sites are gathered by their callee. -/
def grouping : Grouping CallSite String TemplateCall where
  keyOf := CallSite.callee
  entryKey := TemplateCall.name
  blank name := ⟨name, [], 0⟩
  add := add
  blank_key _ := rfl
  add_key _ _ := rfl

variable {calls : List CallSite} {name : String}

@[simp]
theorem grouping_keyOf (call : CallSite) : grouping.keyOf call = call.callee := rfl

@[simp]
theorem grouping_add (entry : TemplateCall) (call : CallSite) : grouping.add entry call = entry.add call := rfl

theorem record_eq_insert (call : CallSite) (entries : List TemplateCall) :
    record call entries = grouping.insert call entries := by
  induction entries with
  | nil => simp [record, Grouping.insert, grouping, add]
  | cons entry rest ih =>
    rw [record, Grouping.insert, ih]
    rfl

theorem entryOf_count :
    (grouping.entryOf calls name).count = calls.countP fun call => call.callee == name := by
  induction calls using List.reverseRecOn with
  | nil => rfl
  | append_singleton calls call ih =>
    rw [Grouping.entryOf_concat, List.countP_append, ← ih]
    by_cases same : call.callee = name
    · simp [add, same]
    · simp [same]

theorem entryOf_lines :
    (grouping.entryOf calls name).lines = distinct ((calls.filter fun call => call.callee == name).map (·.line)) := by
  induction calls using List.reverseRecOn with
  | nil => rfl
  | append_singleton calls call ih =>
    rw [Grouping.entryOf_concat, List.filter_append, List.map_append]
    by_cases same : call.callee = name
    · have alone : ([call].filter fun other => other.callee == name).map (·.line) = [call.line] := by simp [same]
      rw [alone, Edge.distinct_concat, ← ih]
      simp [add, same]
    · have none : ([call].filter fun other => other.callee == name).map (·.line) = [] := by simp [same]
      rw [none, List.append_nil, ← ih]
      simp [same]

/-- The entry of a callee among some calls, with its lines in order. -/
def entryAt (calls : List CallSite) (name : String) : TemplateCall where
  name
  lines := (distinct ((calls.filter fun call => call.callee == name).map (·.line))).mergeSort
    fun first second => decide (first ≤ second)
  count := calls.countP fun call => call.callee == name

theorem collect_eq (definition : Definition) :
    collect definition = (distinct (definition.calls.map (·.callee))).map (entryAt definition.calls) := by
  have gathered : definition.calls.foldl (fun entries call => record call entries) [] =
      (distinct (definition.calls.map (·.callee))).map (grouping.entryOf definition.calls) := by
    simp only [record_eq_insert]
    exact Grouping.foldl_insert definition.calls
  rw [collect, gathered, List.map_map]
  apply List.map_congr_left
  intro name _
  have named : (grouping.entryOf definition.calls name).name = name := grouping.entryOf_key
  rw [entryAt, ← entryOf_count, ← entryOf_lines, Function.comp_apply, named]

theorem entryAt_ascending : (entryAt calls name).lines.Pairwise (· < ·) :=
  Edge.mergeSort_pairwise_lt (Edge.distinct_nodup _)

theorem mem_entryAt_lines {line : Nat} :
    line ∈ (entryAt calls name).lines ↔ ∃ call ∈ calls, call.callee = name ∧ call.line = line := by
  rw [entryAt, List.mem_mergeSort, Edge.mem_distinct]
  simp [and_assoc]

/-- All calls are counted, each by the entry of its callee. -/
theorem sum_count_collect (definition : Definition) :
    ((collect definition).map (·.count)).sum = definition.calls.length := by
  have counted (name : String) :
      (entryAt definition.calls name).count = (definition.calls.map (·.callee)).count name := by
    rw [List.count_eq_countP, List.countP_map]
    rfl
  rw [collect_eq, List.map_map, ← List.length_map (·.callee), ← Edge.sum_count_distinct]
  exact congrArg List.sum (List.map_congr_left fun name _ => counted name)

/-- Calls that are told once for each line are as many as their lines. -/
theorem entryAt_count_eq (once : (calls.map fun call => (call.callee, call.line)).Nodup) :
    (entryAt calls name).count = (entryAt calls name).lines.length := by
  have apart : ((calls.filter fun call => call.callee == name).map (·.line)).Nodup := by
    apply List.Nodup.map_on _ ((List.Nodup.of_map _ once).filter _)
    intro first firstListed second secondListed same
    obtain ⟨present, named⟩ := List.mem_filter.mp firstListed
    obtain ⟨also, namedAlike⟩ := List.mem_filter.mp secondListed
    have callees : first.callee = second.callee := (beq_iff_eq.mp named).trans (beq_iff_eq.mp namedAlike).symm
    exact List.inj_on_of_nodup_map once present also (Prod.ext callees same)
  have all := (Edge.distinct_perm apart fun _ => Iff.rfl).length_eq
  rw [entryAt, List.length_mergeSort, all, List.length_map, List.countP_eq_length_filter]

end TemplateCall

/-- The call sites in the record of a template are told once for each line. -/
theorem Template.analyze_once (vocabulary : Vocabulary) (limits : Limits) (file : SourceFile) (registry : Registry) :
    ∀ definition ∈ (analyze vocabulary limits file registry).definitions,
      (definition.calls.map fun call => (call.callee, call.line)).Nodup := by
  intro definition listed
  rw [analyze_definitions] at listed
  obtain rfl := List.mem_singleton.mp (List.mem_filter.mp listed).1
  exact Definition.addCalls_once _ List.nodup_nil

/-- The entries of a definition: one for each callee, in the order of first occurrence, which counts the calls of that
callee and lists their lines. In a template every call counted has a line of its own. -/
theorem TemplateCall.collect_exact (definition : Definition) :
    ((collect definition).map (·.name)).Nodup ∧
    (collect definition).map (·.name) = (definition.calls.map (·.callee)).eraseDups ∧
    ((collect definition).map (·.count)).sum = definition.calls.length ∧
    (∀ entry ∈ collect definition,
      entry.count = (definition.calls.filter fun call => call.callee == entry.name).length ∧
      entry.lines.Pairwise (· < ·) ∧
      ∀ line, line ∈ entry.lines ↔ ∃ call ∈ definition.calls, call.callee = entry.name ∧ call.line = line) ∧
    ∀ (vocabulary : Vocabulary) (limits : Limits) (file : SourceFile) (registry : Registry),
      (Template.analyze vocabulary limits file registry).templateCalls =
        (Template.analyze vocabulary limits file registry).definitions.flatMap collect ∧
      ∀ entry ∈ (Template.analyze vocabulary limits file registry).templateCalls,
        entry.count = entry.lines.length := by
  have names : (collect definition).map (·.name) = distinct (definition.calls.map (·.callee)) := by
    rw [collect_eq, List.map_map]
    exact List.map_id _
  refine ⟨?_, ?_, sum_count_collect definition, ?_, ?_⟩
  · rw [names]
    exact Edge.distinct_nodup _
  · rw [names, Edge.distinct_eq_eraseDups]
  · intro entry listed
    rw [collect_eq] at listed
    obtain ⟨name, _, rfl⟩ := List.mem_map.mp listed
    exact ⟨List.countP_eq_length_filter, entryAt_ascending, fun line => mem_entryAt_lines⟩
  · intro vocabulary limits file registry
    have grouped := Template.analyze_templateCalls vocabulary limits file registry
    refine ⟨grouped, fun entry listed => ?_⟩
    rw [grouped] at listed
    obtain ⟨record, present, collected⟩ := List.mem_flatMap.mp listed
    rw [collect_eq] at collected
    obtain ⟨name, _, rfl⟩ := List.mem_map.mp collected
    exact entryAt_count_eq (Template.analyze_once vocabulary limits file registry record present)

end CallAtlas

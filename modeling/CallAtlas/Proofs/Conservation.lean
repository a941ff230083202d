import CallAtlas.Proofs.EdgeList
import Mathlib.Algebra.BigOperators.Group.List.Lemmas
import Mathlib.Algebra.GroupWithZero.Nat

/-! Nothing is lost or counted twice when meetings are gathered into edges: the edges of some definitions count
together what the call sites lead to, one for each file that defines the callee. -/
namespace CallAtlas.Edge

/-- The files that define a name, each once. -/
def definingFiles (definitions : List Definition) (name : String) : List String :=
  ((definitions.filter fun definition => definition.kind.isResolvable && definition.name == name).map
    (·.filePath)).eraseDups

/-- Each value counts as often as it occurs, so all values together count all occurrences. -/
theorem sum_count_distinct {α : Type} [DecidableEq α] [comparison : BEq α] [LawfulBEq α] (members : List α) :
    ((distinct members).map fun member => members.count member).sum = members.length := by
  have rearranged : (distinct members).Perm members.dedup :=
    distinct_perm (List.nodup_dedup members) fun _ => List.mem_dedup.symm
  obtain rfl : comparison = instBEqOfDecidableEq := lawful_beq_subsingleton _ _
  rw [(rearranged.map _).sum_eq, List.sum_map_count_dedup_eq_length]

/-- Endpoints of one name differ by their files alone. -/
theorem length_targets (definitions : List Definition) (name : String) :
    (targets definitions name).length = (definingFiles definitions name).length := by
  have named : (definitions.filter fun definition => definition.kind.isResolvable && definition.name == name).map
      Endpoint.of = ((definitions.filter fun definition =>
        definition.kind.isResolvable && definition.name == name).map (·.filePath)).map (Endpoint.mk name) := by
    rw [List.map_map]
    apply List.map_congr_left
    intro definition chosen
    obtain ⟨_, _, rfl⟩ := by simpa using chosen
    rfl
  have apart : Function.Injective (Endpoint.mk name) := fun _ _ same => (Endpoint.mk.inj same).2
  rw [targets, named, distinct_map apart, List.length_map, definingFiles, distinct_eq_eraseDups]

/-- Every call site takes part in one meeting for each file that defines its callee. -/
theorem length_meetings (definitions : List Definition) :
    (Edge.meetings definitions).length =
      ((definitions.flatMap (·.calls)).map fun call => (definingFiles definitions call.callee).length).sum := by
  have own (caller : Definition) : (caller.calls.flatMap (meetingsAt definitions caller)).length =
      (caller.calls.map fun call => (definingFiles definitions call.callee).length).sum := by
    rw [List.length_flatMap]
    congr 1
    apply List.map_congr_left
    intro call _
    rw [meetingsAt, List.length_map, length_targets]
  change (definitions.flatMap fun caller => caller.calls.flatMap (meetingsAt definitions caller)).length = _
  rw [List.length_flatMap, List.map_flatMap, List.flatMap_def, List.sum_flatten, List.map_map]
  congr 1
  exact List.map_congr_left fun caller _ => own caller

/-- The edges count every meeting once. -/
theorem sum_count_ofDefinitions (definitions : List Definition) (room : Nat) :
    ((ofDefinitions definitions room).map (·.count)).sum = (Edge.meetings definitions).length := by
  have counted (pair : Endpoint × Endpoint) :
      ((gathered room (Edge.meetings definitions) pair).sortLines).count =
        ((Edge.meetings definitions).map Meeting.ends).count pair := by
    rw [List.count_eq_countP, List.countP_map]
    exact gathered_count
  calc ((ofDefinitions definitions room).map (·.count)).sum
    _ = ((distinct ((Edge.meetings definitions).map Meeting.ends)).map fun pair =>
          ((Edge.meetings definitions).map Meeting.ends).count pair).sum := by
      rw [ofDefinitions_eq, List.map_map]
      exact congrArg List.sum (List.map_congr_left fun pair _ => counted pair)
    _ = (Edge.meetings definitions).length := by rw [sum_count_distinct, List.length_map]

theorem count_pos {definitions : List Definition} {room : Nat} {edge : Edge}
    (present : edge ∈ ofDefinitions definitions room) : 1 ≤ edge.count := by
  obtain ⟨met, count, _⟩ := of_mem_ofDefinitions present
  obtain ⟨meeting, member, same⟩ := List.mem_map.mp met
  rw [count]
  apply List.countP_pos_iff.mpr
  exact ⟨meeting, member, beq_iff_eq.mpr same⟩

/-- The totals over the edges of some definitions: every call site is counted once for each file that defines its
callee, the internal and the external edges are all edges, and no edge is empty. -/
theorem summary_conserves_calls (definitions : List Definition) (room : Nat) :
    let edges := ofDefinitions definitions room
    (summary edges).resolvedCalls =
      ((definitions.flatMap (·.calls)).map fun call => (definingFiles definitions call.callee).length).sum ∧
    (summary edges).internal + (summary edges).external = (summary edges).edges ∧
    ∀ edge ∈ edges, 1 ≤ edge.count := by
  intro edges
  refine ⟨?_, ?_, fun edge present => count_pos present⟩
  · have total : (summary edges).resolvedCalls = (edges.map (·.count)).sum := by
      rw [List.sum, List.foldr_map]
      rfl
    rw [total, sum_count_ofDefinitions, length_meetings]
  · have bounded : edges.countP isInternal ≤ edges.length := List.countP_le_length
    exact Nat.add_sub_of_le bounded

end CallAtlas.Edge

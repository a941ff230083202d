import CallAtlas.Proofs.Grouping

/-! The edges of a list of definitions, exactly. Gathering the meetings one after another comes to this: the
pairs of endpoints in the order in which they first meet, and for each pair the edge that its own meetings add
up to. -/
namespace CallAtlas

theorem Reach.between_eq_internal_iff {source target : Endpoint} :
    Reach.between source target = .internal ↔ source.filePath = target.filePath := by
  unfold Reach.between
  split <;> simp_all

theorem flatMap_filter_of_nil {α β : Type} {keep : α → Bool} {f : α → List β} {members : List α}
    (empty : ∀ member ∈ members, keep member = false → f member = []) :
    (members.filter keep).flatMap f = members.flatMap f := by
  induction members with
  | nil => rfl
  | cons member rest ih =>
    have later := ih fun other present => empty other (List.mem_cons_of_mem member present)
    rw [List.filter_cons, List.flatMap_cons, ← later]
    split
    · rw [List.flatMap_cons]
    · rename_i dropped
      rw [empty member List.mem_cons_self (Bool.eq_false_iff.mpr dropped), List.nil_append]

namespace Edge

/-- The endpoints of an edge, the caller's first. -/
def ends (edge : Edge) : Endpoint × Endpoint := (edge.source, edge.target)

def Meeting.ends (meeting : Meeting) : Endpoint × Endpoint := (meeting.source, meeting.target)

/-- The edge that the meetings of one pair of endpoints add up to. -/
def gathered (room : Nat) (meetings : List Meeting) (pair : Endpoint × Endpoint) : Edge :=
  (meetings.filter fun meeting => meeting.ends == pair).foldl (add room) (fresh ⟨pair.1, pair.2, 0⟩)

variable {room : Nat} {meetings : List Meeting} {meeting : Meeting} {pair : Endpoint × Endpoint}

@[simp]
theorem add_ends (edge : Edge) : (edge.add room meeting).ends = edge.ends := rfl

@[simp]
theorem sortLines_ends (edge : Edge) : edge.sortLines.ends = edge.ends := rfl

theorem joins_iff (edge : Edge) : edge.joins meeting = true ↔ edge.ends = meeting.ends := by
  simp [joins, ends, Meeting.ends]

/-- Meetings are gathered by their ends. -/
def grouping (room : Nat) : Grouping Meeting (Endpoint × Endpoint) Edge where
  keyOf := Meeting.ends
  entryKey := ends
  blank pair := fresh ⟨pair.1, pair.2, 0⟩
  add := add room
  blank_key _ := rfl
  add_key edge _ := add_ends edge

theorem record_eq_insert (edges : List Edge) : record room meeting edges = (grouping room).insert meeting edges := by
  induction edges with
  | nil => rfl
  | cons edge rest ih =>
    rw [record, Grouping.insert, ih]
    exact if_congr (joins_iff edge) rfl rfl

theorem gathered_eq_entryOf : gathered room = (grouping room).entryOf := by
  funext meetings pair
  unfold gathered Grouping.entryOf
  congr 1
  exact List.filter_congr fun meeting _ => beq_eq_decide ..

theorem gathered_concat (meetings : List Meeting) (meeting : Meeting) (pair : Endpoint × Endpoint) :
    gathered room (meetings ++ [meeting]) pair =
      if meeting.ends = pair then (gathered room meetings pair).add room meeting
      else gathered room meetings pair := by
  rw [gathered_eq_entryOf]
  exact Grouping.entryOf_concat meetings meeting pair

@[simp]
theorem gathered_ends : (gathered room meetings pair).ends = pair := by
  rw [gathered_eq_entryOf]
  exact (grouping room).entryOf_key

theorem gathered_reach : (gathered room meetings pair).reach = Reach.between pair.1 pair.2 := by
  induction meetings using List.reverseRecOn with
  | nil => rfl
  | append_singleton meetings meeting ih =>
    rw [gathered_concat]
    split
    · exact ih
    · exact ih

theorem gathered_count :
    (gathered room meetings pair).count = meetings.countP fun meeting => meeting.ends == pair := by
  induction meetings using List.reverseRecOn with
  | nil => rfl
  | append_singleton meetings meeting ih =>
    rw [gathered_concat, List.countP_append, ← ih]
    split
    · rename_i same
      simp [add, same]
    · rename_i different
      simp [different]

/-- An edge keeps the first lines that its meetings stand on, each once. -/
theorem gathered_lines :
    (gathered room meetings pair).lines =
      (distinct ((meetings.filter fun meeting => meeting.ends == pair).map (·.line))).take room := by
  induction meetings using List.reverseRecOn with
  | nil => simp [gathered, fresh]
  | append_singleton meetings meeting ih =>
    rw [gathered_concat, List.filter_append, List.map_append]
    by_cases same : meeting.ends = pair
    · have alone : ([meeting].filter fun other => other.ends == pair).map (·.line) = [meeting.line] := by simp [same]
      rw [if_pos same, alone, take_distinct_concat, ← ih]
      rfl
    · have none : ([meeting].filter fun other => other.ends == pair).map (·.line) = [] := by simp [same]
      rw [if_neg same, none, List.append_nil, ih]

/-- What the gathering of any list of meetings leaves. -/
theorem fold_record (room : Nat) (meetings : List Meeting) :
    meetings.foldl (fun edges meeting => record room meeting edges) [] =
      (distinct (meetings.map Meeting.ends)).map (gathered room meetings) := by
  simp only [record_eq_insert, gathered_eq_entryOf]
  exact Grouping.foldl_insert meetings

theorem ofDefinitions_eq (definitions : List Definition) (room : Nat) :
    ofDefinitions definitions room =
      (distinct ((Edge.meetings definitions).map Meeting.ends)).map fun pair =>
        (gathered room (Edge.meetings definitions) pair).sortLines := by
  rw [ofDefinitions, fold_record, List.map_map]
  rfl

/-- Every edge stands for a pair that meets, counts its meetings and reaches as far as its ends are apart. -/
theorem of_mem_ofDefinitions {definitions : List Definition} {edge : Edge}
    (present : edge ∈ ofDefinitions definitions room) :
    edge.ends ∈ (Edge.meetings definitions).map Meeting.ends ∧
      edge.count = (Edge.meetings definitions).countP (fun meeting => meeting.ends == edge.ends) ∧
      edge.reach = Reach.between edge.source edge.target := by
  rw [ofDefinitions_eq] at present
  obtain ⟨pair, met, rfl⟩ := List.mem_map.mp present
  have own : ((gathered room (Edge.meetings definitions) pair).sortLines).ends = pair := gathered_ends
  obtain ⟨source, target⟩ := Prod.mk.inj own
  rw [own, source, target]
  exact ⟨mem_distinct.mp met, gathered_count, gathered_reach⟩

/-- The meetings of one call site of a caller. -/
def meetingsAt (definitions : List Definition) (caller : Definition) (call : CallSite) : List Meeting :=
  (targets definitions call.callee).map fun target => ⟨Endpoint.of caller, target, call.line⟩

/-- The endpoints that calls can lead to, in the order of their first definition. -/
def definedEndpoints (definitions : List Definition) : List Endpoint :=
  ((definitions.filter fun definition => definition.kind.isResolvable).map Endpoint.of).eraseDups

/-- The pairs of endpoints in the order in which they meet: caller after caller, call after call, and for each
call the endpoints of its name in the order of their first definition. -/
def metEnds (definitions : List Definition) : List (Endpoint × Endpoint) :=
  definitions.flatMap fun caller =>
    caller.calls.flatMap fun call =>
      ((definedEndpoints definitions).filter fun target => target.name == call.callee).map fun target =>
        (Endpoint.of caller, target)

/-- The call sites, in all callers at an endpoint, that use a name. -/
def callsAt (definitions : List Definition) (source : Endpoint) (name : String) : List CallSite :=
  (definitions.filter fun caller => Endpoint.of caller == source).flatMap fun caller =>
    caller.calls.filter fun call => call.callee == name

variable {definitions : List Definition} {name : String} {target : Endpoint}

theorem mem_targets :
    target ∈ targets definitions name ↔ target.name = name ∧
      ∃ definition ∈ definitions, definition.kind.isResolvable = true ∧ Endpoint.of definition = target := by
  rw [targets, mem_distinct, List.mem_map]
  constructor
  · rintro ⟨definition, chosen, rfl⟩
    obtain ⟨present, resolvable, named⟩ := by simpa using chosen
    exact ⟨named, definition, present, resolvable, rfl⟩
  · rintro ⟨named, definition, present, resolvable, rfl⟩
    have sameName : definition.name = name := named
    exact ⟨definition, List.mem_filter.mpr ⟨present, by simp [resolvable, sameName]⟩, rfl⟩

theorem targets_eq_filter (definitions : List Definition) (name : String) :
    targets definitions name = (definedEndpoints definitions).filter fun target => target.name == name := by
  rw [targets, definedEndpoints, ← distinct_eq_eraseDups, ← distinct_filter, List.filter_map,
    List.filter_filter]
  congr 2
  refine List.filter_congr fun definition _ => ?_
  rw [Bool.and_comm]
  rfl

theorem meetings_ends (definitions : List Definition) :
    (Edge.meetings definitions).map Meeting.ends = metEnds definitions := by
  simp only [Edge.meetings, metEnds, List.map_flatMap, List.map_map, targets_eq_filter]
  rfl

theorem mem_meetings_ends {source : Endpoint} :
    (source, target) ∈ (Edge.meetings definitions).map Meeting.ends ↔
      (∃ caller ∈ definitions, Endpoint.of caller = source ∧
        ∃ call ∈ caller.calls, call.callee = target.name) ∧
      ∃ definition ∈ definitions, definition.kind.isResolvable = true ∧ Endpoint.of definition = target := by
  simp only [Edge.meetings, List.map_flatMap, List.map_map, List.mem_flatMap, List.mem_map,
    Function.comp_apply, Meeting.ends, Prod.mk.injEq, mem_targets]
  constructor
  · rintro ⟨caller, member, call, used, other, ⟨named, defined⟩, rfl, rfl⟩
    exact ⟨⟨caller, member, rfl, call, used, named.symm⟩, defined⟩
  · rintro ⟨⟨caller, member, rfl, call, used, named⟩, defined⟩
    exact ⟨caller, member, call, used, target, ⟨named.symm, defined⟩, rfl, rfl⟩

/-- The meetings between two endpoints: those of the callers at the one, for each call site that leads to the
other. -/
theorem meetings_filter_ends (definitions : List Definition) (source target : Endpoint) :
    ((Edge.meetings definitions).filter fun meeting => meeting.ends == (source, target)) =
      (definitions.filter fun caller => Endpoint.of caller == source).flatMap fun caller =>
        caller.calls.flatMap fun call =>
          ((targets definitions call.callee).filter fun other => other == target).map fun other =>
            ⟨Endpoint.of caller, other, call.line⟩ := by
  have here (caller : Definition) (own : Endpoint.of caller = source) (call : CallSite) :
      ((meetingsAt definitions caller call).filter fun meeting => meeting.ends == (source, target)) =
        ((targets definitions call.callee).filter fun other => other == target).map fun other =>
          ⟨Endpoint.of caller, other, call.line⟩ := by
    rw [meetingsAt, List.filter_map]
    congr 1
    apply List.filter_congr
    intro other _
    simp [Meeting.ends, own, Bool.beq_eq_decide_eq]
  have elsewhere (caller : Definition) (away : Endpoint.of caller ≠ source) (call : CallSite) :
      ((meetingsAt definitions caller call).filter fun meeting => meeting.ends == (source, target)) = [] := by
    apply List.filter_eq_nil_iff.mpr
    intro meeting member
    obtain ⟨other, _, rfl⟩ := List.mem_map.mp member
    simp [Meeting.ends, away]
  have silent : ∀ caller ∈ definitions, (Endpoint.of caller == source) = false →
      ((caller.calls.flatMap (meetingsAt definitions caller)).filter fun meeting =>
        meeting.ends == (source, target)) = [] := by
    intro caller _ away
    rw [List.filter_flatMap]
    exact List.flatMap_eq_nil_iff.mpr fun call _ => elsewhere caller (beq_eq_false_iff_ne.mp away) call
  change List.filter _ (definitions.flatMap fun caller => caller.calls.flatMap (meetingsAt definitions caller)) = _
  rw [List.filter_flatMap, ← flatMap_filter_of_nil silent]
  apply List.flatMap_congr
  intro caller member
  have own : Endpoint.of caller = source := beq_iff_eq.mp (List.mem_filter.mp member).2
  rw [List.filter_flatMap]
  exact List.flatMap_congr fun call _ => here caller own call

section
variable {source : Endpoint}
  (defined : ∃ definition ∈ definitions, definition.kind.isResolvable = true ∧ Endpoint.of definition = target)
include defined

/-- A name leads to a defined endpoint once if it is the endpoint's name, else never. -/
theorem filter_targets : ((targets definitions name).filter fun other => other == target) =
    if name = target.name then [target] else [] := by
  have once : (targets definitions name).Nodup := distinct_nodup _
  have member : target ∈ targets definitions name ↔ name = target.name := by
    rw [mem_targets, and_iff_left defined, eq_comm]
  rw [List.filter_beq, once.count]
  by_cases named : name = target.name
  · rw [if_pos (member.mpr named), if_pos named]
    rfl
  · rw [if_neg (mt member.mp named), if_neg named]
    rfl

/-- Two endpoints meet once for each call site between them, on its line and in the order of the call sites. -/
theorem meetings_between :
    ((Edge.meetings definitions).filter fun meeting => meeting.ends == (source, target)) =
      (callsAt definitions source target.name).map fun call => ⟨source, target, call.line⟩ := by
  rw [meetings_filter_ends, callsAt, List.map_flatMap]
  apply List.flatMap_congr
  intro caller chosen
  have own : Endpoint.of caller = source := beq_iff_eq.mp (List.mem_filter.mp chosen).2
  rw [own]
  induction caller.calls with
  | nil => rfl
  | cons call rest ih =>
    rw [List.flatMap_cons, ih, filter_targets defined]
    by_cases used : call.callee = target.name
    · simp [used]
    · simp [used]

theorem countP_meetings :
    ((Edge.meetings definitions).countP fun meeting => meeting.ends == (source, target)) =
      (callsAt definitions source target.name).length := by
  rw [List.countP_eq_length_filter, meetings_between defined, List.length_map]

end

/-- The edges of a list of definitions: which pairs of endpoints have one, that none has two, what each counts
and how far it reaches, and in what order they stand. -/
theorem ofDefinitions_exact (definitions : List Definition) (room : Nat) :
    (∀ source target,
      (∃ edge ∈ ofDefinitions definitions room, edge.source = source ∧ edge.target = target) ↔
        (∃ caller ∈ definitions, Endpoint.of caller = source ∧
          ∃ call ∈ caller.calls, call.callee = target.name) ∧
        ∃ definition ∈ definitions,
          definition.kind.isResolvable = true ∧ Endpoint.of definition = target) ∧
    ((ofDefinitions definitions room).Pairwise fun first second => first.ends ≠ second.ends) ∧
    (∀ edge ∈ ofDefinitions definitions room,
      edge.count = (callsAt definitions edge.source edge.target.name).length ∧
      (edge.reach = .internal ↔ edge.source.filePath = edge.target.filePath)) ∧
    (ofDefinitions definitions room).map ends = (metEnds definitions).eraseDups := by
  have order : (ofDefinitions definitions room).map ends =
      distinct ((Edge.meetings definitions).map Meeting.ends) := by
    rw [ofDefinitions_eq, List.map_map]
    simp [Function.comp_def]
  refine ⟨fun source target => ?_, ?_, fun edge present => ?_, ?_⟩
  · rw [← mem_meetings_ends, ← mem_distinct, ← order, List.mem_map]
    simp only [ends, Prod.mk.injEq]
  · have distinctEnds : ((ofDefinitions definitions room).map ends).Nodup := order ▸ distinct_nodup _
    exact List.pairwise_map.mp distinctEnds
  · obtain ⟨met, count, reach⟩ := of_mem_ofDefinitions present
    obtain ⟨_, defined⟩ := mem_meetings_ends.mp met
    refine ⟨count.trans (countP_meetings defined), ?_⟩
    rw [reach, Reach.between_eq_internal_iff]
  · rw [order, meetings_ends, distinct_eq_eraseDups]

/-- The lines of the call sites between two endpoints, each once, in the order in which they are first met: caller after
caller and call after call. -/
def callLines (definitions : List Definition) (source target : Endpoint) : List Nat :=
  ((callsAt definitions source target.name).map (·.line)).eraseDups

theorem callLines_nodup (definitions : List Definition) (source target : Endpoint) :
    (callLines definitions source target).Nodup := by
  rw [callLines, ← distinct_eq_eraseDups]
  exact distinct_nodup _

theorem gathered_callLines {source : Endpoint}
    (defined : ∃ definition ∈ definitions, definition.kind.isResolvable = true ∧ Endpoint.of definition = target) :
    (gathered room (Edge.meetings definitions) (source, target)).lines =
      (callLines definitions source target).take room := by
  rw [gathered_lines, meetings_between defined, List.map_map, callLines, ← distinct_eq_eraseDups]
  rfl

/-- The lines of an edge: the first ones of its call sites, as many as there is room for, in ascending order. -/
theorem ofDefinitions_lines (definitions : List Definition) (room : Nat) {edge : Edge}
    (present : edge ∈ ofDefinitions definitions room) :
    edge.lines.Pairwise (· < ·) ∧
    edge.lines.length = min room (callLines definitions edge.source edge.target).length ∧
    ∀ line, line ∈ edge.lines ↔ line ∈ (callLines definitions edge.source edge.target).take room := by
  -- Sorting neither adds nor drops a line of those that were kept first.
  have kept : edge.lines = ((callLines definitions edge.source edge.target).take room).mergeSort
      fun first second => decide (first ≤ second) := by
    rw [ofDefinitions_eq] at present
    obtain ⟨⟨source, target⟩, met, rfl⟩ := List.mem_map.mp present
    obtain ⟨_, defined⟩ := mem_meetings_ends.mp (mem_distinct.mp met)
    have own : (gathered room (Edge.meetings definitions) (source, target)).sortLines.ends = (source, target) :=
      gathered_ends
    obtain ⟨first, second⟩ := Prod.mk.inj own
    rw [first, second, ← gathered_callLines defined]
    rfl
  have once : ((callLines definitions edge.source edge.target).take room).Nodup :=
    (callLines_nodup ..).sublist (List.take_sublist _ _)
  rw [kept]
  refine ⟨mergeSort_pairwise_lt once, ?_, fun line => List.mem_mergeSort⟩
  rw [List.length_mergeSort, List.length_take]

/-- Two methods of one name and file that call `total` on the lines 9, 3, 9 and 5, and the method they call. -/
private def cart : List Definition :=
  let call (line : Nat) : CallSite := { callee := "total", line, snippet := "total" }
  [{ name := "run", kind := .method, filePath := "cart.rb", startLine := 8, endLine := 10, calls := [call 9] },
   { name := "run", kind := .method, filePath := "cart.rb", startLine := 2, endLine := 6,
     calls := [call 3, call 9, call 5] },
   { name := "total", kind := .method, filePath := "cart.rb", startLine := 12, endLine := 13 }]

/-- The cap cuts by the order of the call sites and not by the line: line 5 is dropped and line 9 stays. -/
theorem ofDefinitions_lines_cart :
    ∃ edge ∈ ofDefinitions cart 2, edge.lines = [3, 9] ∧ callLines cart edge.source edge.target = [9, 3, 5] ∧
      edge.lines.Pairwise (· < ·) ∧ edge.lines.length = min 2 (callLines cart edge.source edge.target).length ∧
      ∀ line, line ∈ edge.lines ↔ line ∈ (callLines cart edge.source edge.target).take 2 := by
  have listed : sortLines ⟨⟨"run", "cart.rb"⟩, ⟨"total", "cart.rb"⟩, 4, .internal, [9, 3]⟩ ∈ ofDefinitions cart 2 :=
    List.mem_map.mpr ⟨_, by decide, rfl⟩
  obtain ⟨ascending, length, members⟩ := ofDefinitions_lines cart 2 listed
  have calls : callLines cart ⟨"run", "cart.rb"⟩ ⟨"total", "cart.rb"⟩ = [9, 3, 5] := by decide
  refine ⟨_, listed, ?_, calls, ascending, length, members⟩
  -- The two lines are 9 and 3, and they ascend.
  obtain ⟨first, second, two⟩ := List.length_eq_two.mp length
  have kept (line : Nat) (member : line ∈ [first, second]) : line = 9 ∨ line = 3 := by
    have taken : line ∈ (callLines cart ⟨"run", "cart.rb"⟩ ⟨"total", "cart.rb"⟩).take 2 :=
      (members line).mp (two ▸ member)
    simpa [calls] using taken
  rw [two] at ascending ⊢
  have order : first < second := List.rel_of_pairwise_cons ascending List.mem_cons_self
  have start := kept first (by simp)
  have stop := kept second (by simp)
  rw [show first = 3 by omega, show second = 9 by omega]

end Edge
end CallAtlas

import CallAtlas.Proofs.OutlineFindings

/-! Where the definitions of a script stand, whether its lines or its syntax tree are read. A syntax tree is as
good as its reader: its parts are on the lines of the script if the reader says so. -/
namespace CallAtlas.Script

namespace Outline

open Blanking (Line)

theorem statementEnd?_bounds {first : Bool} {depth : Int} {index last : Nat} {lines : List (List Char)}
    (found : statementEnd? first depth index lines = some last) :
    index ≤ last ∧ last < index + lines.length := by
  induction lines generalizing first depth index with
  | nil => simp [statementEnd?] at found
  | cons line rest ih =>
    have here (same : some index = some last) : index ≤ last ∧ last < index + (rest.length + 1) := by
      cases same
      omega
    have later {depth : Int} (found : statementEnd? false depth (index + 1) rest = some last) :
        index ≤ last ∧ last < index + (rest.length + 1) := by
      have := ih found
      omega
    rw [List.length_cons]
    simp only [statementEnd?] at found
    split at found
    · exact here found
    · split at found
      · exact later found
      · split at found
        · exact later found
        · split at found
          · exact later found
          · split at found
            · exact later found
            · exact here found

variable {context : Context} {spot : Spot}

theorem finding_from (containers : List Container) : (finding context containers spot).From context spot :=
  (finding_shape context containers spot).yields

/-- What is found is found on a line that the reading comes to. -/
theorem mem_read {containers : List Container} {index : Nat} {depth : Int} {lines : List Line}
    {definition : Definition} (member : definition ∈ (read context containers index depth lines).definitions) :
    ∃ front line rest containers depth, lines = front ++ line :: rest ∧
      definition ∈ (finding context containers
        { index := index + front.length, depth, lines := line :: rest }).definitions := by
  induction lines generalizing containers index depth with
  | nil => cases member
  | cons line rest ih =>
    rcases List.mem_append.mp member with own | later
    · exact ⟨[], line, rest, containers, depth, rfl, own⟩
    · obtain ⟨front, next, last, containers, depth, rfl, found⟩ := ih later
      refine ⟨line :: front, next, last, containers, depth, rfl, ?_⟩
      rwa [List.length_cons, Nat.add_comm front.length, ← Nat.add_assoc]

theorem Spot.extent_last (context : Context) (filled : spot.lines ≠ []) :
    spot.index ≤ (spot.extent context).last ∧
      (spot.extent context).last < spot.index + spot.lines.length ∧
      (spot.extent context).last ≤ spot.index + (Limits.window context.limit spot.index - 1) := by
  have positive : 0 < spot.lines.length := List.length_pos_iff.mpr filled
  have window : ((spot.lines.take (Limits.window context.limit spot.index)).map (·.cleaned)).length =
      min (Limits.window context.limit spot.index) spot.lines.length := by
    rw [List.length_map, List.length_take]
  simp only [Spot.extent, Outline.extent]
  split
  · rename_i last found
    have := statementEnd?_bounds found
    simp only
    omega
  · simp only
    omega

theorem Spot.Yields.located {definition : Definition} (yields : spot.Yields context definition)
    (filled : spot.lines ≠ []) :
    definition.Located context.path spot.index (spot.index + spot.lines.length) := by
  obtain ⟨bare, starts, ends, _⟩ := yields
  have positive : 0 < spot.lines.length := List.length_pos_iff.mpr filled
  have extent := Spot.extent_last context filled
  exact { bare with starts := by omega, ordered := by omega, ends := by omega }

theorem Spot.Yields.span {definition : Definition} (yields : spot.Yields context definition)
    (filled : spot.lines ≠ []) : definition.endLine - definition.startLine + 1 ≤ max 1 context.limit.toNat := by
  obtain ⟨_, starts, ends, _⟩ := yields
  have extent := Spot.extent_last context filled
  have within := Limits.window_le context.limit spot.index
  omega

theorem read_located {containers : List Container} {index : Nat} {depth : Int} {lines : List Line}
    {definition : Definition} (member : definition ∈ (read context containers index depth lines).definitions) :
    definition.Located context.path index (index + lines.length) := by
  obtain ⟨front, line, rest, containers, depth, rfl, found⟩ := mem_read member
  have located := (finding_from containers definition found).located (List.cons_ne_nil line rest)
  rw [List.length_append, ← Nat.add_assoc]
  exact located.earlier (Nat.le_add_right _ _)

theorem scan_located (file : SourceFile) (limits : Limits) {definition : Definition}
    (member : definition ∈ (scan file limits).definitions) :
    definition.Located file.path 0 file.lineLimit := by
  have located := read_located member
  rwa [Blanking.pairLines_length, file.sourceLines_length, Nat.zero_add] at located

end Outline

/-- An excerpt of a script of `limit` lines. -/
structure Excerpt.Inside (limit : Nat) (excerpt : Excerpt) : Prop where
  starts : 1 ≤ excerpt.firstLine
  ordered : excerpt.firstLine ≤ excerpt.lastLine
  ends : excerpt.lastLine ≤ limit

instance (limit : Nat) (excerpt : Excerpt) : Decidable (excerpt.Inside limit) :=
  decidable_of_iff (1 ≤ excerpt.firstLine ∧ excerpt.firstLine ≤ excerpt.lastLine ∧ excerpt.lastLine ≤ limit)
    ⟨fun ⟨starts, ordered, ends⟩ => ⟨starts, ordered, ends⟩,
     fun ⟨starts, ordered, ends⟩ => ⟨starts, ordered, ends⟩⟩

namespace Tree

mutual

/-- A node and all nodes in it. -/
def nodes : Tree → List Tree
  | node form field excerpt children => node form field excerpt children :: nodesOf children

def nodesOf : List Tree → List Tree
  | [] => []
  | tree :: rest => tree.nodes ++ nodesOf rest

end

/-- Every node below the root lies on the lines of a script of `limit` lines. -/
def Inside (limit : Nat) (root : Tree) : Prop := ∀ node ∈ nodesOf root.children, node.excerpt.Inside limit

instance (limit : Nat) (root : Tree) : Decidable (root.Inside limit) :=
  inferInstanceAs (Decidable (∀ node ∈ nodesOf root.children, node.excerpt.Inside limit))

variable {tree child node : Tree}

theorem nodes_eq (tree : Tree) : tree.nodes = tree :: nodesOf tree.children := by
  cases tree
  rw [nodes, children]

theorem mem_nodesOf {trees : List Tree} (member : child ∈ trees) (inner : node ∈ child.nodes) :
    node ∈ nodesOf trees := by
  induction trees with
  | nil => cases member
  | cons first rest ih =>
    rw [nodesOf]
    rcases List.mem_cons.mp member with rfl | member
    · exact List.mem_append_left _ inner
    · exact List.mem_append_right _ (ih member)

theorem self_mem_nodes (tree : Tree) : tree ∈ tree.nodes := by
  rw [nodes_eq]
  exact List.mem_cons_self

theorem mem_nodes_child (member : child ∈ tree.children) (inner : node ∈ child.nodes) : node ∈ tree.nodes := by
  rw [nodes_eq]
  exact List.mem_cons_of_mem tree (mem_nodesOf member inner)

/-- A definition of a file that covers a node and has no call sites yet. -/
structure Yields (file : SourceFile) (tree : Tree) (definition : Definition) : Prop
    extends definition.Bare file.path where
  startLine : definition.startLine = tree.excerpt.firstLine
  endLine : definition.endLine = tree.excerpt.lastLine

theorem Yields.located {file : SourceFile} {definition : Definition} {limit : Nat}
    (yields : tree.Yields file definition) (inside : tree.excerpt.Inside limit) :
    definition.Located file.path 0 limit :=
  { yields with
    starts := yields.startLine ▸ inside.starts
    ordered := yields.startLine ▸ yields.endLine ▸ inside.ordered
    ends := yields.endLine ▸ inside.ends }

end Tree

namespace Walk

variable {file : SourceFile} {tree : Tree} {definition : Definition}

theorem named_yields {kind : Kind} (member : definition ∈ named file kind tree) : tree.Yields file definition := by
  obtain ⟨name, _, rfl⟩ := List.mem_map.mp member
  exact ⟨⟨rfl, rfl⟩, rfl, rfl⟩

theorem declared?_yields {declarator : Tree} (found : declared? file tree declarator = some definition) :
    tree.Yields file definition := by
  unfold declared? at found
  split at found
  · obtain ⟨name, _, found⟩ := Option.bind_eq_some_iff.mp found
    obtain ⟨value, _, found⟩ := Option.bind_eq_some_iff.mp found
    split at found
    · cases found
      exact ⟨⟨rfl, rfl⟩, rfl, rfl⟩
    · split at found
      · obtain ⟨function, _, rfl⟩ := Option.map_eq_some_iff.mp found
        exact ⟨⟨rfl, rfl⟩, rfl, rfl⟩
      · cases found
  · cases found

theorem interfaceMethod?_yields (found : interfaceMethod? file tree = some definition) :
    tree.Yields file definition := by
  obtain ⟨name, _, found⟩ := Option.bind_eq_some_iff.mp found
  obtain ⟨function, _, found⟩ := Option.bind_eq_some_iff.mp found
  cases found
  exact ⟨⟨rfl, rfl⟩, rfl, rfl⟩

theorem imported?_yields (found : imported? file tree = some definition) : tree.Yields file definition := by
  obtain ⟨source, _, found⟩ := Option.bind_eq_some_iff.mp found
  cases found
  exact ⟨⟨rfl, rfl⟩, rfl, rfl⟩

theorem memberDefinition?_yields {function : Tree} (found : memberDefinition? file tree function = some definition) :
    tree.Yields file definition := by
  obtain ⟨name, _, found⟩ := Option.bind_eq_some_iff.mp found
  cases found
  exact ⟨⟨rfl, rfl⟩, rfl, rfl⟩

theorem exported_yields (member : definition ∈ exported file tree) : tree.Yields file definition := by
  simp only [exported] at member
  split at member
  · obtain ⟨specifier, _, found⟩ := List.mem_filterMap.mp member
    obtain ⟨names, _, rfl⟩ := Option.map_eq_some_iff.mp found
    exact ⟨⟨rfl, rfl⟩, rfl, rfl⟩
  · split at member
    · cases List.mem_singleton.mp member
      exact ⟨⟨rfl, rfl⟩, rfl, rfl⟩
    · split at member
      · split at member
        · cases List.mem_singleton.mp member
          exact ⟨⟨rfl, rfl⟩, rfl, rfl⟩
        · cases member
      · cases member

theorem interfaceDefinitions_yield (member : definition ∈ interfaceDefinitions file tree) :
    ∃ node ∈ tree.nodes, node.Yields file definition := by
  unfold interfaceDefinitions at member
  split at member
  · cases member
  · rcases List.mem_cons.mp member with rfl | member
    · exact ⟨tree, tree.self_mem_nodes, ⟨rfl, rfl⟩, rfl, rfl⟩
    · obtain ⟨signature, present, found⟩ := List.mem_filterMap.mp member
      cases held : tree.childByField? .body with
      | none =>
        rw [held] at present
        cases present
      | some body =>
        rw [held] at present
        have inBody : signature ∈ body.children := (List.mem_filter.mp present).1
        have inTree : body ∈ tree.children := List.mem_of_find?_eq_some held
        have node := Tree.mem_nodes_child inTree (Tree.mem_nodes_child inBody signature.self_mem_nodes)
        exact ⟨signature, node, interfaceMethod?_yields found⟩

theorem definitions_yield (member : definition ∈ definitions file tree) :
    ∃ node ∈ tree.nodes, node.Yields file definition := by
  have own (yields : tree.Yields file definition) : ∃ node ∈ tree.nodes, node.Yields file definition :=
    ⟨tree, tree.self_mem_nodes, yields⟩
  unfold definitions at member
  split at member
  case h_1 | h_2 =>
    obtain ⟨name, _, rfl⟩ := List.mem_map.mp member
    exact own ⟨⟨rfl, rfl⟩, rfl, rfl⟩
  case h_3 | h_4 | h_5 | h_7 | h_8 => exact own (named_yields member)
  case h_6 => exact interfaceDefinitions_yield member
  case h_9 | h_10 =>
    obtain ⟨declarator, _, found⟩ := List.mem_filterMap.mp member
    exact own (declared?_yields found)
  case h_11 => exact own (imported?_yields (Option.mem_toList.mp member))
  case h_12 => exact own (exported_yields member)
  case h_13 => cases member

theorem memberDefinitions_yield {found : List Definition} (read : memberDefinitions file tree = some found)
    (member : definition ∈ found) : tree.Yields file definition := by
  unfold memberDefinitions at read
  split at read
  case h_1 | h_2 | h_3 =>
    cases read
    exact memberDefinition?_yields (Option.mem_toList.mp member)
  case h_4 | h_5 =>
    cases read
    obtain ⟨function, _, found⟩ := Option.bind_eq_some_iff.mp (Option.mem_toList.mp member)
    exact memberDefinition?_yields found
  case h_6 => cases read

theorem Step.definitions_yield (step : Step) (member : definition ∈ step.definitions file) :
    ∃ node ∈ step.tree.nodes, node.Yields file definition := by
  cases step with
  | visit tree => exact Walk.definitions_yield member
  | member tree =>
    change definition ∈ (memberDefinitions file tree).getD (Walk.definitions file tree) at member
    cases read : memberDefinitions file tree with
    | none =>
      rw [read] at member
      exact Walk.definitions_yield member
    | some found =>
      rw [read] at member
      exact ⟨tree, tree.self_mem_nodes, memberDefinitions_yield read member⟩

/-- From a node the walk goes to the members in its body, to its children, or nowhere. -/
theorem Step.enter_cases (tree : Tree) :
    (∃ body ∈ tree.children, enter tree = body.children.map member) ∨ enter tree = tree.children.map visit ∨
      enter tree = [] := by
  unfold enter
  split
  case h_1 | h_2 | h_3 =>
    split
    · rename_i body found
      exact .inl ⟨body, List.mem_of_find?_eq_some found, rfl⟩
    · exact .inr (.inl rfl)
  case h_8 => exact .inr (.inl rfl)
  all_goals exact .inr (.inr rfl)

/-- What holds of a part and passes to its children holds wherever the walk goes from it. -/
theorem Step.next_holds {holds : Tree → Prop} (inner : ∀ tree, holds tree → ∀ child ∈ tree.children, holds child)
    {step following : Step} (here : holds step.tree) (member : following ∈ step.next) :
    holds following.tree := by
  rw [Step.next] at member
  rcases Step.enter_cases step.tree with ⟨body, inTree, entered⟩ | entered | entered
  · rw [entered] at member
    obtain ⟨tree, present, rfl⟩ := List.mem_map.mp member
    exact inner body (inner step.tree here body inTree) tree present
  · rw [entered] at member
    obtain ⟨tree, present, rfl⟩ := List.mem_map.mp member
    exact inner step.tree here tree present
  · rw [entered] at member
    cases member

theorem run_definitions (holds : Tree → Prop) (good : Definition → Prop)
    (inner : ∀ tree, holds tree → ∀ child ∈ tree.children, holds child)
    (yields : ∀ (step : Step) (definition : Definition),
      holds step.tree → definition ∈ step.definitions file → good definition)
    {known : Array Definition} {candidates : Array Candidate} {pending : List Step}
    (before : ∀ definition ∈ known, good definition) (ahead : ∀ step ∈ pending, holds step.tree) :
    ∀ definition ∈ (run file known candidates pending).1, good definition := by
  fun_induction run file known candidates pending with
  | case1 => exact before
  | case2 known candidates step pending ih =>
    have here := ahead step List.mem_cons_self
    apply ih
    · intro definition member
      rw [← Array.mem_toList_iff, Array.toList_appendList] at member
      rcases List.mem_append.mp member with old | new
      · exact before definition (Array.mem_toList_iff.mp old)
      · exact yields step definition here new
    · intro following member
      rcases List.mem_append.mp member with next | later
      · exact Step.next_holds inner here next
      · exact ahead following (List.mem_cons_of_mem step later)

theorem mem_scan (member : definition ∈ (scan file tree).definitions) :
    definition ∈ (run file #[] #[] (tree.children.map .visit)).1 := by
  simpa [scan] using member

theorem scan_bare (member : definition ∈ (scan file tree).definitions) : definition.Bare file.path := by
  refine run_definitions (fun _ => True) (Definition.Bare file.path) (fun _ _ _ _ => trivial) ?_ ?_ ?_ definition
    (mem_scan member)
  · intro step definition _ found
    obtain ⟨node, _, yields⟩ := step.definitions_yield found
    exact yields.toBare
  · simp
  · exact fun _ _ => trivial

theorem scan_located {limit : Nat} (inside : tree.Inside limit)
    (member : definition ∈ (scan file tree).definitions) : definition.Located file.path 0 limit := by
  refine run_definitions (fun tree => ∀ node ∈ tree.nodes, node.excerpt.Inside limit)
    (Definition.Located file.path 0 limit) ?_ ?_ ?_ ?_ definition (mem_scan member)
  · intro tree inside child present node inner
    exact inside node (Tree.mem_nodes_child present inner)
  · intro step definition inside found
    obtain ⟨node, present, yields⟩ := step.definitions_yield found
    exact yields.located (inside node present)
  · simp
  · intro step pending node inner
    obtain ⟨child, present, rfl⟩ := List.mem_map.mp pending
    exact inside node (Tree.mem_nodesOf present inner)

end Walk

namespace Reader

variable {reader : Reader} {file : SourceFile} {definition : Definition}

/-- Whatever way a script is read, what is found is the yield of its tree or of its outline. -/
theorem mem_scan (member : definition ∈ (reader.scan file).definitions) :
    (reader.preference = .auto ∧
      ∃ tree, tree? reader.parse? file = some tree ∧ definition ∈ (Walk.scan file tree).definitions) ∨
    definition ∈ (Outline.scan file reader.limits).definitions := by
  have found : definition ∈ (reader.rawScan file).definitions := (List.mem_filter.mp member).1
  unfold rawScan at found
  split at found
  · rename_i preference
    cases read : tree? reader.parse? file with
    | none =>
      rw [read] at found
      exact .inr found
    | some tree =>
      rw [read] at found
      exact .inl ⟨preference, tree, rfl, found⟩
  · exact .inr found

theorem scan_bare (member : definition ∈ (reader.scan file).definitions) : definition.Bare file.path := by
  rcases mem_scan member with ⟨_, tree, _, found⟩ | found
  · exact Walk.scan_bare found
  · exact (Outline.scan_located file reader.limits found).toBare

theorem scan_located
    (rows : reader.preference = .auto →
      ∀ tree, tree? reader.parse? file = some tree → tree.Inside file.lineLimit)
    (member : definition ∈ (reader.scan file).definitions) :
    definition.Located file.path 0 file.lineLimit := by
  rcases mem_scan member with ⟨preference, tree, read, found⟩ | found
  · exact Walk.scan_located (rows preference tree read) found
  · exact Outline.scan_located file reader.limits found

end Reader
end CallAtlas.Script

import CallAtlas.Diagram
import CallAtlas.Proofs.EdgeList
import Mathlib.Data.List.Forall2
import Mathlib.Data.List.Nodup

/-! Identifiers of a flowchart. An identifier joins the path and the name of an endpoint and writes one character for ten, so
it stands for every endpoint that looks the same under that reading. The endpoints of a list of edges are listed once each;
their identifiers are distinct exactly when no two of them look alike. -/
namespace CallAtlas

namespace Endpoint

variable {first second third : Endpoint}

theorem before_iff : first.before second = true ↔
    first.name < second.name ∨ first.name = second.name ∧ first.filePath < second.filePath := by
  simp [before]

theorem before_irrefl (endpoint : Endpoint) : ¬ endpoint.before endpoint = true := by
  rw [before_iff]
  rintro (low | ⟨_, low⟩)
  · exact String.lt_irrefl _ low
  · exact String.lt_irrefl _ low

theorem before_trans (low : first.before second = true) (high : second.before third = true) :
    first.before third = true := by
  rw [before_iff] at *
  rcases low with low | ⟨same, low⟩
  · rcases high with high | ⟨same, -⟩
    · exact .inl (String.lt_trans low high)
    · exact .inl (same ▸ low)
  · rcases high with high | ⟨equal, high⟩
    · exact .inl (same ▸ high)
    · exact .inr ⟨same.trans equal, String.lt_trans low high⟩

theorem before_of_not_before (notBefore : ¬ first.before second = true) (different : first ≠ second) :
    second.before first = true := by
  rw [before_iff, not_or, not_and] at notBefore
  obtain ⟨name, path⟩ := notBefore
  rw [before_iff]
  by_cases same : first.name = second.name
  · have paths : first.filePath ≠ second.filePath := fun equal =>
      different (by cases first; cases second; simp_all)
    exact .inr ⟨same.symm, Classical.not_not.mp fun notBelow =>
      paths (String.le_antisymm (String.not_lt.mp notBelow) (String.not_lt.mp (path same)))⟩
  · exact .inl (Classical.not_not.mp fun notBelow =>
      same (String.le_antisymm (String.not_lt.mp notBelow) (String.not_lt.mp name)))

end Endpoint

theorem Edge.ofDefinitions_nodup (definitions : List Definition) (room : Nat) :
    (Edge.ofDefinitions definitions room).Nodup := by
  have order : (Edge.ofDefinitions definitions room).map Edge.ends =
      Edge.distinct ((Edge.meetings definitions).map Edge.Meeting.ends) := by
    rw [Edge.ofDefinitions_eq, List.map_map]
    simp [Function.comp_def]
  exact List.Nodup.of_map Edge.ends (order ▸ Edge.distinct_nodup _)

namespace Diagram

section Nodes

variable {node other : Endpoint} {known : List Endpoint}

theorem mem_placeNode : other ∈ placeNode node known ↔ other = node ∨ other ∈ known := by
  fun_induction placeNode node known with
  | case1 => simp
  | case2 head rest _ => simp
  | case3 rest _ => simp
  | case4 head rest _ _ ih =>
    rw [List.mem_cons, ih, List.mem_cons]
    exact or_left_comm

theorem placeNode_ordered (ordered : known.Pairwise fun first second => first.before second = true) :
    (placeNode node known).Pairwise fun first second => first.before second = true := by
  fun_induction placeNode node known with
  | case1 => exact List.pairwise_singleton _ _
  | case2 head rest low =>
    obtain ⟨above, _⟩ := List.pairwise_cons.mp ordered
    refine List.pairwise_cons.mpr ⟨fun other present => ?_, ordered⟩
    rcases List.mem_cons.mp present with rfl | later
    · exact low
    · exact Endpoint.before_trans low (above other later)
  | case3 rest _ => exact ordered
  | case4 head rest notLow different ih =>
    obtain ⟨above, later⟩ := List.pairwise_cons.mp ordered
    refine List.pairwise_cons.mpr ⟨fun other present => ?_, ih later⟩
    rcases mem_placeNode.mp present with rfl | known
    · exact Endpoint.before_of_not_before notLow different
    · exact above other known

/-- What one more edge adds. -/
theorem nodes_concat (edges : List Edge) (edge : Edge) :
    nodes (edges ++ [edge]) = placeNode edge.target (placeNode edge.source (nodes edges)) := by
  rw [nodes, List.foldl_append]
  rfl

theorem mem_nodes {edges : List Edge} :
    node ∈ nodes edges ↔ ∃ edge ∈ edges, node = edge.source ∨ node = edge.target := by
  induction edges using List.reverseRecOn with
  | nil => simp [nodes]
  | append_singleton edges edge ih =>
    simp only [nodes_concat, mem_placeNode, ih, List.mem_append, List.mem_singleton, or_and_right, exists_or,
      exists_eq_left]
    exact or_assoc.symm.trans (or_comm.trans (or_congr_right or_comm))

theorem nodes_nodup (edges : List Edge) : (nodes edges).Nodup := by
  have ordered : (nodes edges).Pairwise fun first second => first.before second = true := by
    induction edges using List.reverseRecOn with
    | nil => exact .nil
    | append_singleton edges edge ih =>
      rw [nodes_concat]
      exact placeNode_ordered (placeNode_ordered ih)
  refine List.nodup_iff_pairwise_ne.mpr (ordered.imp fun low => ?_)
  rintro rfl
  exact Endpoint.before_irrefl _ low

end Nodes

/-- The characters that an identifier writes as an underscore, and the underscore itself. -/
def underscored : List Char := [':', '/', '\\', '.', ' ', '-', '?', '!', '$', '_']

/-- Two characters that an identifier writes alike. -/
def Alike (first second : Char) : Prop := first = second ∨ first ∈ underscored ∧ second ∈ underscored

/-- Two texts of one length that differ only in characters that are written alike. -/
def LooksLike (first second : String) : Prop := List.Forall₂ Alike first.toList second.toList

/-- The identifier of an endpoint in a flowchart. -/
def mermaidId (node : Endpoint) : String := plainId (nodeId node)

section Identifiers

variable {first second : Endpoint}

/-- The character that an identifier writes. -/
def plainChar (c : Char) : Char := if c ∈ [':', '/', '\\', '.', ' ', '-', '?', '!', '$'] then '_' else c

theorem plainId_eq (text : String) : plainId text = String.ofList (text.toList.map plainChar) := rfl

theorem plainChar_of_free {c : Char} (free : c ∉ underscored) : plainChar c = c :=
  if_neg fun listed => free (List.mem_append_left ['_'] listed)

theorem plainChar_of_mem {c : Char} (listed : c ∈ underscored) : plainChar c = '_' := by
  rcases List.mem_append.mp (show c ∈ [':', '/', '\\', '.', ' ', '-', '?', '!', '$'] ++ ['_'] from listed) with
    special | same
  · exact if_pos special
  · rw [List.mem_singleton.mp same]
    rfl

theorem plainChar_eq_iff {a b : Char} : plainChar a = plainChar b ↔ Alike a b := by
  have mark : '_' ∈ underscored := by decide
  constructor
  · intro same
    by_cases first : a ∈ underscored
    · by_cases second : b ∈ underscored
      · exact .inr ⟨first, second⟩
      · rw [plainChar_of_mem first, plainChar_of_free second] at same
        exact absurd (same ▸ mark) second
    · by_cases second : b ∈ underscored
      · rw [plainChar_of_free first, plainChar_of_mem second] at same
        exact absurd (same ▸ mark) first
      · rw [plainChar_of_free first, plainChar_of_free second] at same
        exact .inl same
  · rintro (rfl | ⟨first, second⟩)
    · rfl
    · rw [plainChar_of_mem first, plainChar_of_mem second]

theorem plainId_eq_iff {first second : String} : plainId first = plainId second ↔ LooksLike first second := by
  rw [plainId_eq, plainId_eq, String.ofList_inj, ← List.forall₂_eq_eq_eq, List.forall₂_map_left_iff,
    List.forall₂_map_right_iff, LooksLike]
  simp only [plainChar_eq_iff]

@[simp]
theorem plainId_append (front back : String) : plainId (front ++ back) = plainId front ++ plainId back := by
  simp [plainId_eq]

/-- The path and the name are written apart from each other, with an underscore between them. -/
theorem mermaidId_eq (node : Endpoint) :
    mermaidId node = plainId node.filePath ++ "_" ++ plainId node.name := by
  rw [mermaidId, nodeId, plainId_append, plainId_append]
  rfl

theorem mermaidId_eq_iff_of_filePath (same : first.filePath = second.filePath) :
    mermaidId first = mermaidId second ↔ LooksLike first.name second.name := by
  rw [mermaidId_eq, mermaidId_eq, same, String.append_right_inj, plainId_eq_iff]

/-- A text without any of the ten characters is its own identifier. -/
theorem plainId_of_free {text : String} (free : ∀ c ∈ text.toList, c ∉ underscored) : plainId text = text := by
  have kept : text.toList.map plainChar = text.toList :=
    (List.map_congr_left fun c present => plainChar_of_free (free c present)).trans (List.map_id _)
  rw [plainId_eq, kept, String.ofList_toList]

/-- The last underscore parts the path from a name that has none. -/
theorem append_underscore_inj {front back front' back' : List Char} (free : '_' ∉ back) (free' : '_' ∉ back')
    (same : front ++ '_' :: back = front' ++ '_' :: back') : front = front' ∧ back = back' := by
  -- A longer front would hold the underscore that stands before the other back.
  have single {middle back back' : List Char} (free : '_' ∉ back) (tail : '_' :: back = middle ++ '_' :: back') :
      middle = [] ∧ back = back' := by
    cases middle with
    | nil => exact ⟨rfl, (List.cons.inj tail).2⟩
    | cons c middle =>
      have inside : back = middle ++ '_' :: back' := (List.cons.inj tail).2
      exact absurd (by simp [inside]) free
  rcases List.append_eq_append_iff.mp same with ⟨middle, longer, tail⟩ | ⟨middle, longer, tail⟩
  · obtain ⟨rfl, backs⟩ := single free tail
    exact ⟨(longer.trans (List.append_nil _)).symm, backs⟩
  · obtain ⟨rfl, backs⟩ := single free' tail
    exact ⟨longer.trans (List.append_nil _), backs.symm⟩

theorem mermaidId_eq_iff_of_free (free : ∀ c ∈ first.name.toList ++ second.name.toList, c ∉ underscored) :
    mermaidId first = mermaidId second ↔ first.name = second.name ∧ LooksLike first.filePath second.filePath := by
  have own : ∀ c ∈ first.name.toList, c ∉ underscored := fun c present => free c (List.mem_append_left _ present)
  have other : ∀ c ∈ second.name.toList, c ∉ underscored := fun c present => free c (List.mem_append_right _ present)
  rw [mermaidId_eq, mermaidId_eq, plainId_of_free own, plainId_of_free other, ← plainId_eq_iff]
  constructor
  · intro same
    have lists : (plainId first.filePath).toList ++ '_' :: first.name.toList =
        (plainId second.filePath).toList ++ '_' :: second.name.toList := by
      simpa using congrArg String.toList same
    obtain ⟨paths, names⟩ := append_underscore_inj (fun present => own '_' present (by decide))
      (fun present => other '_' present (by decide)) lists
    exact ⟨String.toList_inj.mp names, String.toList_inj.mp paths⟩
  · rintro ⟨names, paths⟩
    rw [names, paths]

end Identifiers

/-- The nodes and arrows of a flowchart. Every endpoint has one line, whose identifier it shares with exactly the endpoints
that look the same: in one file those whose names do, and with plain names those of that name in files whose paths do. So
the nodes, and the arrows, are told apart by identifiers exactly when no two of them look alike. -/
theorem renderMermaid_ids (definitions : List Definition) (room : Nat) :
    renderMermaid (Edge.ofDefinitions definitions room) =
      "flowchart LR\n" ++
        String.join ((nodes (Edge.ofDefinitions definitions room)).map fun node =>
          "  " ++ mermaidId node ++ "[\"" ++ node.name ++ "\\n(" ++ node.filePath ++ ")\"]\n") ++
        String.join ((Edge.ofDefinitions definitions room).map fun edge =>
          "  " ++ mermaidId edge.source ++ " " ++ (if edge.isInternal then "-->" else "-.->") ++ "|" ++
            toString edge.count ++ "| " ++ mermaidId edge.target ++ "\n") ∧
    (nodes (Edge.ofDefinitions definitions room)).Nodup ∧
    (∀ node, node ∈ nodes (Edge.ofDefinitions definitions room) ↔
      ∃ edge ∈ Edge.ofDefinitions definitions room, node = edge.source ∨ node = edge.target) ∧
    (∀ first second, mermaidId first = mermaidId second ↔ LooksLike (nodeId first) (nodeId second)) ∧
    (∀ first second, first.filePath = second.filePath →
      (mermaidId first = mermaidId second ↔ LooksLike first.name second.name)) ∧
    (∀ first second, (∀ c ∈ first.name.toList ++ second.name.toList, c ∉ underscored) →
      (mermaidId first = mermaidId second ↔
        first.name = second.name ∧ LooksLike first.filePath second.filePath)) ∧
    (((nodes (Edge.ofDefinitions definitions room)).map mermaidId).Nodup ↔
      ∀ first ∈ nodes (Edge.ofDefinitions definitions room), ∀ second ∈ nodes (Edge.ofDefinitions definitions room),
        LooksLike (nodeId first) (nodeId second) → first = second) ∧
    (((Edge.ofDefinitions definitions room).map fun edge => (mermaidId edge.source, mermaidId edge.target)).Nodup ↔
      ∀ first ∈ Edge.ofDefinitions definitions room, ∀ second ∈ Edge.ofDefinitions definitions room,
        LooksLike (nodeId first.source) (nodeId second.source) →
          LooksLike (nodeId first.target) (nodeId second.target) → first = second) := by
  refine ⟨rfl, nodes_nodup _, fun _ => mem_nodes, fun _ _ => plainId_eq_iff,
    fun _ _ => mermaidId_eq_iff_of_filePath, fun _ _ => mermaidId_eq_iff_of_free, ?_, ?_⟩
  · rw [List.nodup_map_iff_inj_on (nodes_nodup _)]
    simp only [mermaidId, plainId_eq_iff]
  · rw [List.nodup_map_iff_inj_on (Edge.ofDefinitions_nodup definitions room)]
    simp only [mermaidId, Prod.mk.injEq, plainId_eq_iff, and_imp]

/-- A method that calls a predicate and its bang form, which share an identifier. -/
theorem renderMermaid_predicate_bang :
    renderMermaid (Edge.ofDefinitions
      [{ name := "run", kind := .method, filePath := "a.rb", startLine := 1, endLine := 4,
         calls := [⟨"valid?", 2, "valid?", none⟩, ⟨"valid!", 3, "valid!", none⟩] },
       { name := "valid?", kind := .method, filePath := "a.rb", startLine := 5, endLine := 6 },
       { name := "valid!", kind := .method, filePath := "a.rb", startLine := 7, endLine := 8 }] Edge.usualRoom) =
      "flowchart LR\n  a_rb_run[\"run\\n(a.rb)\"]\n  a_rb_valid_[\"valid!\\n(a.rb)\"]\n" ++
        "  a_rb_valid_[\"valid?\\n(a.rb)\"]\n  a_rb_run -->|1| a_rb_valid_\n  a_rb_run -->|1| a_rb_valid_\n" := by
  decide +kernel

end Diagram
end CallAtlas

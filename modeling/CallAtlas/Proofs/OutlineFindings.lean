import CallAtlas.Proofs.Extents

/-! What one line of a script can contribute to its outline: definitions of the kinds that its place admits, one import,
or one container together with its definition. In each case the definitions start on the line. What the outline knows
of its definitions, its containers and its imports is derived from these cases. -/
namespace CallAtlas

/-- Kinds of definitions whose lines are no statements of their own. -/
def Kind.containers : List Kind := [.classType, .interfaceType, .enumeration, .typeAlias]

namespace Script

namespace Pattern

theorem quoted?_ne_nil {text module left : List Char} (read : quoted? text = some (module, left)) : module ≠ [] := by
  unfold quoted? at read
  split at read
  · cases read
  · split at read
    · split at read
      · cases read
      · cases read
      · rename_i filled
        cases read
        exact filled
    · cases read

theorem clause?_ne_nil {text clause module : List Char} (read : clause? text = some (clause, module)) :
    module ≠ [] := by
  induction text generalizing clause with
  | nil => cases read
  | cons c rest ih =>
    rw [clause?] at read
    split at read
    · rename_i found left source
      cases read
      simp only [source?, Option.bind_eq_bind, Option.bind_eq_some_iff] at source
      obtain ⟨after, _, quoted⟩ := source
      exact quoted?_ne_nil quoted
    · obtain ⟨⟨later, found⟩, read, same⟩ := Option.map_eq_some_iff.mp read
      cases same
      exact ih read

theorem importFrom?_ne_nil {text clause module : List Char} (read : importFrom? text = some (clause, module)) :
    module ≠ [] := by
  simp only [importFrom?, Option.bind_eq_bind, Option.bind_eq_some_iff, Option.or_eq_some_iff] at read
  obtain ⟨rest, _, ⟨inner, _, read⟩ | ⟨_, read⟩⟩ := read
  · exact clause?_ne_nil read
  · exact clause?_ne_nil read

theorem importBare?_ne_nil {text module : List Char} (read : importBare? text = some module) : module ≠ [] := by
  simp only [importBare?, Option.bind_eq_bind, Option.bind_eq_some_iff, Option.pure_def, Option.some.injEq] at read
  obtain ⟨rest, _, ⟨found, left⟩, quoted, rfl⟩ := read
  exact quoted?_ne_nil quoted

theorem require?_ne_nil {text target module : List Char} (read : require? text = some (target, module)) :
    module ≠ [] := by
  simp only [require?, Option.bind_eq_bind, Option.bind_eq_some_iff, Option.pure_def, Option.some.injEq] at read
  obtain ⟨_, _, _, _, _, _, _, _, _, _, ⟨found, left⟩, quoted, same⟩ := read
  cases same
  exact quoted?_ne_nil quoted

end Pattern

namespace Outline

/-- A definition of the line of a spot alone, or of the statement that starts on it. -/
structure Spot.Yields (context : Context) (spot : Spot) (definition : Definition) : Prop
    extends definition.Bare context.path where
  startLine : definition.startLine = spot.index + 1
  endLine : definition.endLine = spot.index + 1 ∨ definition.endLine = (spot.extent context).last + 1
  code : definition.code =
    String.ofList (Text.joinLines ((spot.lines.take (definition.endLine - spot.index)).map (·.raw)))

/-- All that a spot contributes starts on its line. -/
def Finding.From (context : Context) (spot : Spot) (finding : Finding) : Prop :=
  ∀ definition ∈ finding.definitions, spot.Yields context definition

/-- Definitions of some kinds, beside no container. -/
structure Finding.Plain (context : Context) (spot : Spot) (kinds : List Kind) (finding : Finding) : Prop where
  alone : finding.container = none
  kind : ∀ definition ∈ finding.definitions, definition.kind ∈ kinds
  yields : finding.From context spot

/-- What a line can contribute where definitions of some kinds are admitted. -/
inductive Finding.Shape (context : Context) (spot : Spot) (kinds : List Kind) : Finding → Prop
  | plain {finding : Finding} (plain : finding.Plain context spot kinds) : Shape context spot kinds finding
  | imported {module : List Char} (filled : module ≠ []) (bindings : List String) :
      Shape context spot kinds (importRecord context spot (spot.extent context).last module bindings)
  | container (name : List Char) {kind : Kind} (known : kind ∈ Kind.containers) :
      Shape context spot kinds (containerDeclaration context spot name kind)

variable {context : Context} {spot : Spot} {finding : Finding} {kinds more : List Kind}

namespace Finding

theorem Plain.empty : Plain context spot kinds {} := ⟨rfl, by simp, fun _ member => by cases member⟩

theorem Plain.single {definition : Definition} (alone : finding.container = none)
    (one : finding.definitions = [definition]) (kind : definition.kind ∈ kinds)
    (yields : spot.Yields context definition) : finding.Plain context spot kinds := by
  refine ⟨alone, ?_, ?_⟩
  · rw [one]
    exact List.forall_mem_singleton.mpr kind
  · rw [From, one]
    exact List.forall_mem_singleton.mpr yields

theorem Plain.mono (plain : finding.Plain context spot kinds) (admitted : kinds ⊆ more) :
    finding.Plain context spot more :=
  { plain with kind := fun definition member => admitted (plain.kind definition member) }

theorem Shape.mono (shape : finding.Shape context spot kinds) (admitted : kinds ⊆ more) :
    finding.Shape context spot more := by
  cases shape with
  | plain plain => exact .plain (plain.mono admitted)
  | imported filled bindings => exact .imported filled bindings
  | container name known => exact .container name known

theorem Shape.yields (shape : finding.Shape context spot kinds) : finding.From context spot := by
  cases shape with
  | plain plain => exact plain.yields
  | imported => exact List.forall_mem_singleton.mpr ⟨⟨rfl, rfl⟩, rfl, .inr rfl, rfl⟩
  | container => exact List.forall_mem_singleton.mpr ⟨⟨rfl, rfl⟩, rfl, .inr rfl, rfl⟩

/-- The kinds of definitions in a finding. -/
theorem Shape.kind_mem (shape : finding.Shape context spot kinds) :
    ∀ definition ∈ finding.definitions, definition.kind ∈ kinds ++ .importRecord :: Kind.containers := by
  cases shape with
  | plain plain => exact fun definition member => List.mem_append_left _ (plain.kind definition member)
  | imported => exact List.forall_mem_singleton.mpr (List.mem_append_right _ List.mem_cons_self)
  | container name known =>
    exact List.forall_mem_singleton.mpr (List.mem_append_right _ (List.mem_cons_of_mem _ known))

end Finding

theorem import?_shape (found : import? context spot = some finding) : finding.Shape context spot kinds := by
  simp only [import?] at found
  split at found
  · split at found
    · rename_i read
      cases found
      exact .imported (Pattern.importFrom?_ne_nil read) _
    · obtain ⟨module, read, rfl⟩ := Option.map_eq_some_iff.mp found
      exact .imported (Pattern.importBare?_ne_nil read) _
  · cases found

theorem require?_shape (found : require? context spot = some finding) : finding.Shape context spot kinds := by
  obtain ⟨⟨target, module⟩, read, rfl⟩ := Option.map_eq_some_iff.mp found
  exact .imported (Pattern.require?_ne_nil read) _

theorem exportFrom?_plain (found : exportFrom? context spot = some finding) :
    finding.Plain context spot [.exportRecord] := by
  simp only [exportFrom?] at found
  split at found
  · cases found
    exact .single rfl rfl List.mem_cons_self ⟨⟨rfl, rfl⟩, rfl, .inr rfl, rfl⟩
  · obtain ⟨⟨list, module⟩, _, rfl⟩ := Option.map_eq_some_iff.mp found
    refine ⟨rfl, ?_, ?_⟩
    · intro definition member
      obtain ⟨names, _, rfl⟩ := List.mem_map.mp member
      exact List.mem_cons_self
    · intro definition member
      obtain ⟨names, _, rfl⟩ := List.mem_map.mp member
      exact ⟨⟨rfl, rfl⟩, rfl, .inr rfl, rfl⟩

theorem export?_plain (found : export? context spot = some finding) : finding.Plain context spot [.exportRecord] := by
  simp only [export?] at found
  split at found
  · split at found
    · split at found
      · cases found
      · cases found
        exact .single rfl rfl List.mem_cons_self ⟨⟨rfl, rfl⟩, rfl, .inl rfl, rfl⟩
    · split at found
      · exact exportFrom?_plain found
      · cases found
  · cases found

/-- Kinds of functions that are declared. -/
def functionKinds : List Kind := [.function, .component, .customHook]

theorem functionKind_mem (name text : List Char) : functionKind name text ∈ functionKinds := by
  unfold functionKind
  split
  · simp [functionKinds]
  · split <;> simp [functionKinds]

theorem containerHeader?_mem {text name : List Char} {kind : Kind}
    (found : containerHeader? text = some (name, kind)) : kind ∈ Kind.containers := by
  simp only [containerHeader?, Option.or_eq_some_iff, Option.map_eq_some_iff, Prod.mk.injEq] at found
  rcases found with ⟨_, _, _, rfl⟩ | ⟨_, ⟨_, _, _, rfl⟩ | ⟨_, ⟨_, _, _, rfl⟩ | ⟨_, _, _, _, rfl⟩⟩⟩ <;> decide

theorem variableDeclaration_plain (name : List Char) :
    (variableDeclaration context spot name).Plain context spot functionKinds := by
  unfold variableDeclaration
  extract_lets extent
  split
  · exact .empty
  · exact .single rfl rfl (functionKind_mem _ _) ⟨⟨rfl, rfl⟩, rfl, .inr rfl, rfl⟩

theorem declaration_shape : (declaration context spot).Shape context spot functionKinds := by
  unfold declaration
  split
  · exact .plain (.single rfl rfl (functionKind_mem _ _) ⟨⟨rfl, rfl⟩, rfl, .inr rfl, rfl⟩)
  · split
    · rename_i found
      exact .container _ (containerHeader?_mem found)
    · split
      · exact .plain (variableDeclaration_plain _)
      · exact .plain .empty

/-- Kinds of what a statement can define, beside imports and containers. -/
def statementKinds : List Kind := .exportRecord :: functionKinds

theorem statement_shape : (statement context spot).Shape context spot statementKinds := by
  unfold statement
  split
  · rename_i finding found
    rcases Option.or_eq_some_iff.mp found with found | ⟨_, found⟩
    · rcases Option.or_eq_some_iff.mp found with found | ⟨_, found⟩
      · exact import?_shape found
      · exact require?_shape found
    · exact .plain ((export?_plain found).mono (by simp [statementKinds]))
  · exact declaration_shape.mono (List.subset_cons_self _ _)

/-- Kinds of the members of a class. -/
def memberKinds : List Kind := [.method, .classMethod]

theorem memberDefinition_kind (member : Pattern.Member) (extent : Extent) (parameters : List Parameter) :
    (memberDefinition context spot member extent parameters).kind ∈ memberKinds := by
  simp only [memberDefinition, Spot.definition]
  split <;> simp [memberKinds]

theorem classMember_plain : (classMember context spot).Plain context spot memberKinds := by
  simp only [classMember]
  split
  · exact .single rfl rfl (memberDefinition_kind _ _ _) ⟨⟨rfl, rfl⟩, rfl, .inr rfl, rfl⟩
  · split
    · exact .empty
    · split
      · exact .empty
      · exact .single rfl rfl (memberDefinition_kind _ _ _) ⟨⟨rfl, rfl⟩, rfl, .inr rfl, rfl⟩

theorem interfaceMember_plain : (interfaceMember context spot).Plain context spot [.interfaceMethod] := by
  simp only [interfaceMember]
  split
  · exact .single rfl rfl List.mem_cons_self ⟨⟨rfl, rfl⟩, rfl, .inr rfl, rfl⟩
  · split
    · exact .single rfl rfl List.mem_cons_self ⟨⟨rfl, rfl⟩, rfl, .inr rfl, rfl⟩
    · exact .empty

/-- Kinds of what a line can define, beside imports and containers. -/
def lineKinds : List Kind := .interfaceMethod :: (statementKinds ++ memberKinds)

theorem finding_shape (context : Context) (containers : List Container) (spot : Spot) :
    (Outline.finding context containers spot).Shape context spot lineKinds := by
  have statements : (statement context spot).Shape context spot lineKinds :=
    statement_shape.mono fun _ member => List.mem_cons_of_mem _ (List.mem_append_left _ member)
  unfold Outline.finding
  split
  · exact .plain .empty
  · split
    · exact statements
    · split
      · split
        · exact .plain (classMember_plain.mono fun _ member => List.mem_cons_of_mem _ (List.mem_append_right _ member))
        · exact statements
      · split
        · exact .plain (interfaceMember_plain.mono (by simp [lineKinds]))
        · exact .plain .empty

end Outline
end Script
end CallAtlas

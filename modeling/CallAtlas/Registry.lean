import CallAtlas.Definition

/-! The names defined in a corpus. A registry is an ordered list without repetition, so two registries with the
same names are equal. -/
namespace CallAtlas

/-- Names in ascending order by code point. -/
structure Registry where
  names : List String
  ordered : names.Pairwise (· < ·)

namespace Registry

/-- Puts a name at its place in an ascending list that may already hold it. -/
def place (name : String) : List String → List String
  | [] => [name]
  | head :: rest =>
    if name < head then name :: head :: rest
    else if name = head then head :: rest
    else head :: place name rest

theorem mem_place {name other : String} {names : List String} :
    other ∈ place name names ↔ other = name ∨ other ∈ names := by
  induction names with
  | nil => simp [place]
  | cons head rest ih =>
    unfold place
    split
    · simp
    · split
      · rename_i same
        subst same
        simp
      · simp only [List.mem_cons, ih]
        constructor
        · rintro (same | same | member) <;> simp_all
        · rintro (same | same | member) <;> simp_all

theorem place_ordered {name : String} {names : List String} (ordered : names.Pairwise (· < ·)) :
    (place name names).Pairwise (· < ·) := by
  induction names with
  | nil => simp [place]
  | cons head rest ih =>
    obtain ⟨above, orderedRest⟩ := List.pairwise_cons.1 ordered
    unfold place
    split
    · rename_i below
      refine List.pairwise_cons.2 ⟨fun other member => ?_, ordered⟩
      rcases List.mem_cons.1 member with rfl | member
      · exact below
      · exact String.lt_trans below (above other member)
    · split
      · exact ordered
      · rename_i notBelow different
        refine List.pairwise_cons.2 ⟨fun other member => ?_, ih orderedRest⟩
        rcases mem_place.1 member with rfl | member
        · exact Decidable.byContradiction fun notAbove =>
            different (String.le_antisymm (String.not_lt.1 notAbove) (String.not_lt.1 notBelow))
        · exact above other member

instance : Membership String Registry := ⟨fun registry name => name ∈ registry.names⟩

def empty : Registry := ⟨[], List.Pairwise.nil⟩

instance : Inhabited Registry := ⟨empty⟩

@[ext]
theorem ext_names {first second : Registry} (same : first.names = second.names) : first = second := by
  cases first; cases second; cases same; rfl

instance : DecidableEq Registry := fun first second =>
  decidable_of_iff (first.names = second.names) ⟨ext_names, fun same => same ▸ rfl⟩

def contains (registry : Registry) (name : String) : Bool := registry.names.contains name

def insert (registry : Registry) (name : String) : Registry :=
  ⟨place name registry.names, place_ordered registry.ordered⟩

/-- Adds every name of a list. -/
def insertAll (registry : Registry) (names : List String) : Registry := names.foldl insert registry

def ofList (names : List String) : Registry := empty.insertAll names

def union (first second : Registry) : Registry := first.insertAll second.names

/-- The names that the resolvable ones among some definitions define. -/
def definedNames (definitions : List Definition) : List String :=
  (definitions.filter fun definition => definition.kind.isResolvable).map (·.name)

def ofDefinitions (definitions : List Definition) : Registry := ofList (definedNames definitions)

def size (registry : Registry) : Nat := registry.names.length

theorem mem_insert {registry : Registry} {name other : String} :
    other ∈ registry.insert name ↔ other = name ∨ other ∈ registry := mem_place

theorem mem_insertAll {names : List String} {registry : Registry} {other : String} :
    other ∈ registry.insertAll names ↔ other ∈ names ∨ other ∈ registry := by
  induction names generalizing registry with
  | nil => simp [insertAll]
  | cons name rest ih =>
    have step : registry.insertAll (name :: rest) = (registry.insert name).insertAll rest := rfl
    rw [step, ih, mem_insert, List.mem_cons]
    constructor
    · rintro (member | same | member) <;> simp_all
    · rintro ((same | member) | member) <;> simp_all

theorem contains_iff {registry : Registry} {name : String} :
    registry.contains name = true ↔ name ∈ registry := by
  show registry.names.contains name = true ↔ name ∈ registry.names
  simp

end Registry
end CallAtlas

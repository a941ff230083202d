import CallAtlas.Proofs.ScriptExtents

/-! What the outline of a script knows when it comes to a line. The containers that it carries along stand for the
classes, interfaces, enumerations and types that were found before, the latest first; what a line contributes depends
on these and on the braces before it alone. -/
namespace CallAtlas

/-- A class, interface, enumeration or type starts before a line and has not ended before it. -/
structure Definition.Surrounds (definition : Definition) (number : Nat) : Prop where
  kind : definition.kind ∈ Kind.containers
  starts : definition.startLine < number
  ends : number ≤ definition.endLine

instance (definition : Definition) (number : Nat) : Decidable (definition.Surrounds number) :=
  decidable_of_iff
    (definition.kind ∈ Kind.containers ∧ definition.startLine < number ∧ number ≤ definition.endLine)
    ⟨fun ⟨kind, starts, ends⟩ => ⟨kind, starts, ends⟩, fun ⟨kind, starts, ends⟩ => ⟨kind, starts, ends⟩⟩

namespace Script.Outline

open Blanking (Line)

/-- Opening less closing braces of some lines. -/
def bracesOf (lines : List Line) : Int := lines.foldr (fun line total => braceDelta line.cleaned + total) 0

theorem bracesOf_append (front rest : List Line) : bracesOf (front ++ rest) = bracesOf front + bracesOf rest := by
  induction front with
  | nil => exact (Int.zero_add _).symm
  | cons line front ih =>
    change braceDelta line.cleaned + bracesOf (front ++ rest) = braceDelta line.cleaned + bracesOf front + bracesOf rest
    rw [ih, Int.add_assoc]

/-- A container as a definition shows it. -/
structure Container.ShownBy (container : Container) (definition : Definition) : Prop where
  kind : definition.kind = container.kind
  starts : definition.startLine = container.first + 1
  ends : definition.endLine = container.last + 1

/-- A finding holds no definition of a container, or is one container with its definition. -/
inductive Finding.Opens (spot : Spot) (finding : Finding) : Prop
  | nothing (none : finding.container = none)
      (plain : ∀ definition ∈ finding.definitions, definition.kind ∉ Kind.containers)
  | container (container : Container) (definition : Definition) (opens : finding.container = some container)
      (alone : finding.definitions = [definition]) (shown : container.ShownBy definition)
      (kind : container.kind ∈ Kind.containers) (first : container.first = spot.index)
      (depth : container.depth = spot.depth + 1)

variable {context : Context} {spot : Spot} {finding : Finding}

theorem Finding.Shape.opens {kinds : List Kind} (shape : finding.Shape context spot kinds)
    (apart : ∀ kind ∈ kinds, kind ∉ Kind.containers) : finding.Opens spot := by
  cases shape with
  | plain plain => exact .nothing plain.alone fun definition member => apart _ (plain.kind definition member)
  | imported => exact .nothing rfl (List.forall_mem_singleton.mpr (show Kind.importRecord ∉ Kind.containers by decide))
  | container name known => exact .container _ _ rfl rfl ⟨rfl, rfl, rfl⟩ known rfl rfl

theorem finding_opens (context : Context) (containers : List Container) (spot : Spot) :
    (Outline.finding context containers spot).Opens spot :=
  (finding_shape context containers spot).opens (by decide)

/-- No statement is a member of a class. -/
theorem statement_kinds :
    ∀ definition ∈ (statement context spot).definitions, definition.kind ∉ memberKinds := by
  have apart : ∀ kind ∈ statementKinds ++ .importRecord :: Kind.containers, kind ∉ memberKinds := by decide
  intro definition member
  exact apart _ (statement_shape.kind_mem definition member)

/-- The reading of some lines has come behind those that are done, with the containers that it knows there. -/
structure Reached (context : Context) (lines : List Line) (definitions : List Definition) (done rest : List Line)
    (containers : List Container) : Prop where
  split : lines = done ++ rest
  ahead : ∃ before, (∀ definition ∈ before, definition.startLine ≤ done.length) ∧
    definitions = before ++ (read context containers done.length (bracesOf done) rest).definitions
  descending : containers.Pairwise fun later earlier => earlier.first < later.first
  sound : ∀ container ∈ containers, container.kind ∈ Kind.containers ∧ container.first < done.length ∧
    container.depth = bracesOf (lines.take container.first) + 1 ∧
    ∃ definition ∈ definitions, container.ShownBy definition
  complete : ∀ definition ∈ definitions, definition.kind ∈ Kind.containers → definition.startLine ≤ done.length →
    ∃ container ∈ containers, container.ShownBy definition

variable {lines done front rest : List Line} {definitions : List Definition} {line : Line}
  {containers : List Container}

theorem Reached.start (context : Context) (lines : List Line) :
    Reached context lines (read context [] 0 0 lines).definitions [] lines [] where
  split := rfl
  ahead := ⟨[], by simp, rfl⟩
  descending := .nil
  sound := by simp
  complete := by
    intro definition member _ starts
    exact absurd (read_located member).starts (Nat.not_lt.mpr starts)

/-- The definitions that start on the line that the reading comes to. -/
theorem Reached.filter_own (reached : Reached context lines definitions done (line :: rest) containers) :
    (definitions.filter fun definition => definition.startLine == done.length + 1) =
      (Outline.finding context containers ⟨done.length, bracesOf done, line :: rest⟩).definitions := by
  obtain ⟨before, earlier, found⟩ := reached.ahead
  have split : definitions = before ++
      ((Outline.finding context containers ⟨done.length, bracesOf done, line :: rest⟩).definitions ++
        (read context ((Outline.finding context containers
          ⟨done.length, bracesOf done, line :: rest⟩).container.toList ++ containers) (done.length + 1)
          (bracesOf done + braceDelta line.cleaned) rest).definitions) := found
  rw [split, List.filter_append, List.filter_append, List.filter_eq_nil_iff.mpr, List.filter_eq_self.mpr,
    List.filter_eq_nil_iff.mpr, List.nil_append, List.append_nil]
  · intro definition later
    have starts := (read_located later).starts
    simp only [beq_iff_eq]
    omega
  · intro definition own
    exact beq_iff_eq.mpr (finding_from containers definition own).startLine
  · intro definition old
    have starts := earlier definition old
    simp only [beq_iff_eq]
    omega

theorem Reached.own (reached : Reached context lines definitions done (line :: rest) containers)
    {definition : Definition} (member : definition ∈ definitions) :
    definition ∈ (Outline.finding context containers ⟨done.length, bracesOf done, line :: rest⟩).definitions ↔
      definition.startLine = done.length + 1 := by
  rw [← reached.filter_own, List.mem_filter, beq_iff_eq, and_iff_right member]

theorem Reached.mem_of_own (reached : Reached context lines definitions done (line :: rest) containers)
    {definition : Definition}
    (own : definition ∈ (Outline.finding context containers ⟨done.length, bracesOf done, line :: rest⟩).definitions) :
    definition ∈ definitions := by
  rw [← reached.filter_own] at own
  exact (List.mem_filter.mp own).1

/-- A container that starts on the next line or before is known already or is found there. -/
theorem Reached.known_or_own (reached : Reached context lines definitions done (line :: rest) containers)
    {definition : Definition} (member : definition ∈ definitions) (kind : definition.kind ∈ Kind.containers)
    (starts : definition.startLine ≤ done.length + 1) :
    (∃ container ∈ containers, container.ShownBy definition) ∨
      definition ∈ (Outline.finding context containers ⟨done.length, bracesOf done, line :: rest⟩).definitions := by
  by_cases old : definition.startLine ≤ done.length
  · exact .inl (reached.complete definition member kind old)
  · exact .inr ((reached.own member).mpr (by omega))

/-- One line further: a container is known once its definition is found. -/
theorem Reached.step (reached : Reached context lines definitions done (line :: rest) containers) :
    Reached context lines definitions (done ++ [line]) rest
      ((Outline.finding context containers ⟨done.length, bracesOf done, line :: rest⟩).container.toList ++
        containers) := by
  have length : (done ++ [line]).length = done.length + 1 := by simp
  have braces : bracesOf (done ++ [line]) = bracesOf done + braceDelta line.cleaned := by
    rw [bracesOf_append]
    simp [bracesOf]
  obtain ⟨before, earlier, found⟩ := reached.ahead
  have opens := finding_opens context containers ⟨done.length, bracesOf done, line :: rest⟩
  constructor
  case split => rw [reached.split, List.append_assoc, List.singleton_append]
  case ahead =>
    refine ⟨before ++ (Outline.finding context containers
      ⟨done.length, bracesOf done, line :: rest⟩).definitions, ?_, ?_⟩
    · intro definition member
      rw [length]
      rcases List.mem_append.mp member with old | new
      · exact Nat.le_succ_of_le (earlier definition old)
      · exact Nat.le_of_eq ((reached.own (reached.mem_of_own new)).mp new)
    · rw [found, length, braces, List.append_assoc]
      rfl
  case descending =>
    cases opens with
    | nothing none =>
      rw [none]
      exact reached.descending
    | container container definition opens _ _ _ first =>
      rw [opens]
      refine List.pairwise_cons.mpr ⟨?_, reached.descending⟩
      intro older member
      rw [first]
      exact (reached.sound older member).2.1
  case sound =>
    have older : ∀ container ∈ containers, container.kind ∈ Kind.containers ∧
        container.first < (done ++ [line]).length ∧ container.depth = bracesOf (lines.take container.first) + 1 ∧
        ∃ definition ∈ definitions, container.ShownBy definition := by
      intro container member
      obtain ⟨kind, first, depth, shown⟩ := reached.sound container member
      exact ⟨kind, by omega, depth, shown⟩
    cases opens with
    | nothing none =>
      rw [none]
      exact older
    | container container definition opens alone shown kind first depth =>
      rw [opens]
      refine List.forall_mem_cons.mpr ⟨⟨kind, ?_, ?_, definition, ?_, shown⟩, older⟩
      · rw [first, length]
        exact Nat.lt_succ_self _
      · rw [first, depth, reached.split, List.take_left]
      · exact reached.mem_of_own (by rw [alone]; exact List.mem_singleton.mpr rfl)
  case complete =>
    intro definition member kind starts
    rw [length] at starts
    rcases reached.known_or_own member kind starts with ⟨container, older, shown⟩ | new
    · exact ⟨container, List.mem_append_right _ older, shown⟩
    · cases opens with
      | nothing _ plain => exact absurd kind (plain definition new)
      | container container other opens alone shown =>
        rw [alone] at new
        cases List.mem_singleton.mp new
        exact ⟨container, by simp [opens], shown⟩

theorem Reached.run (reached : Reached context lines definitions done (front ++ rest) containers) :
    ∃ known, Reached context lines definitions (done ++ front) rest known := by
  induction front generalizing done containers with
  | nil => exact ⟨containers, by simpa using reached⟩
  | cons line front ih =>
    obtain ⟨known, further⟩ := ih reached.step
    exact ⟨known, by simpa using further⟩

/-- The container that the reading takes a line to be in. -/
def around? (containers : List Container) (index : Nat) : Option Container :=
  containers.find? fun container => container.first < index && index ≤ container.last

theorem Container.ShownBy.surrounds {container : Container} {definition : Definition}
    (shown : container.ShownBy definition) (kind : container.kind ∈ Kind.containers) {index : Nat} :
    definition.Surrounds (index + 1) ↔ container.first < index ∧ index ≤ container.last := by
  constructor
  · rintro ⟨_, starts, ends⟩
    rw [shown.starts] at starts
    rw [shown.ends] at ends
    omega
  · rintro ⟨starts, ends⟩
    refine ⟨shown.kind ▸ kind, ?_, ?_⟩
    · rw [shown.starts]
      omega
    · rw [shown.ends]
      omega

/-- The reading takes a line to be in no container if no definition of one surrounds it. -/
theorem Reached.around?_eq_none (reached : Reached context lines definitions done rest containers) :
    around? containers done.length = none ↔
      ∀ definition ∈ definitions, ¬ definition.Surrounds (done.length + 1) := by
  rw [around?, List.find?_eq_none]
  constructor
  · intro none definition member surrounds
    have starts := surrounds.starts
    obtain ⟨container, known, shown⟩ := reached.complete definition member surrounds.kind (by omega)
    have inside := (shown.surrounds (reached.sound container known).1).mp surrounds
    exact none container known (by simpa using inside)
  · intro outside container known inside
    obtain ⟨kind, _, _, definition, member, shown⟩ := reached.sound container known
    exact outside definition member ((shown.surrounds kind).mpr (by simpa using inside))

/-- The reading takes a line to be in the container that starts last of all that surround the line. -/
theorem Reached.around?_eq_some (reached : Reached context lines definitions done rest containers)
    {definition : Definition} (member : definition ∈ definitions) (surrounds : definition.Surrounds (done.length + 1))
    (last : ∀ other ∈ definitions, other.Surrounds (done.length + 1) → other.startLine ≤ definition.startLine) :
    ∃ container, around? containers done.length = some container ∧ container.ShownBy definition ∧
      container.depth = bracesOf (lines.take container.first) + 1 := by
  have starts := surrounds.starts
  obtain ⟨container, known, shown⟩ := reached.complete definition member surrounds.kind (by omega)
  have inside := (shown.surrounds (reached.sound container known).1).mp surrounds
  cases found : around? containers done.length with
  | none => exact absurd surrounds (reached.around?_eq_none.mp found definition member)
  | some chosen =>
    obtain ⟨around, newer, older, listed, outside⟩ := List.find?_eq_some_iff_append.mp found
    obtain ⟨kind, _, depth, other, present, shownOther⟩ := reached.sound chosen (by simp [listed])
    have notLater := last other present ((shownOther.surrounds kind).mpr (by simpa using around))
    rw [shownOther.starts, shown.starts] at notLater
    -- The chosen container is the first in the list, and the list is ordered by where containers start.
    have same : container = chosen := by
      rw [listed] at known
      rcases List.mem_append.mp known with before | after
      · have other := outside container before
        simp [inside] at other
      · rcases List.mem_cons.mp after with same | later
        · exact same
        · have ordered := reached.descending
          rw [listed] at ordered
          have := List.rel_of_pairwise_cons (List.pairwise_append.mp ordered).2.1 later
          omega
    cases same
    exact ⟨container, rfl, shown, depth⟩

/-- Where the outline of a file comes to a line. -/
theorem scan_reaches (file : SourceFile) (limits : Limits) {front rest : List Line}
    (split : Blanking.pairLines file.language file.sourceLines = front ++ rest) :
    ∃ containers, Reached ⟨file.path, file.language, limits.block⟩
      (Blanking.pairLines file.language file.sourceLines) (scan file limits).definitions front rest containers := by
  have start := Reached.start ⟨file.path, file.language, limits.block⟩
    (Blanking.pairLines file.language file.sourceLines)
  rw [split] at start ⊢
  rw [scan, split]
  exact start.run

end Script.Outline
end CallAtlas

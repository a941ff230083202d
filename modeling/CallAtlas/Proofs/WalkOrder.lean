import CallAtlas.Proofs.ScriptGrammar
import Mathlib.Logic.Function.Iterate

/-! The walk over a syntax tree against a recursion over it. The recursion visits a part before the parts in it, and these
from left to right. What the walk has found, followed by what the recursion finds in the pending parts, is the same after
every turn of the walk, and every turn leaves fewer nodes pending; so the walk ends, with what the recursion finds. -/
namespace CallAtlas.Script

namespace Form

def isClass : Form → Bool
  | classDeclaration | abstractClassDeclaration | classExpression => true
  | _ => false

/-- Interfaces, type aliases, enumerations and imports are not entered. -/
def isSealed : Form → Bool
  | interfaceDeclaration | typeAliasDeclaration | enumDeclaration | importStatement => true
  | _ => false

end Form

namespace Recursion

/-- What there is to find in a part itself. Members of a class are read differently from the same parts elsewhere. -/
def own (file : SourceFile) (inClass : Bool) (tree : Tree) : Scan :=
  { definitions := (if inClass then Walk.memberDefinitions file tree else none).getD (Walk.definitions file tree)
    candidates := (Walk.used? tree).toList }

/-- What counts of that which is found inside a part: in a class, what is found in its body if it has one. -/
def inside (form : Form) (body : Option Scan) (parts : Scan) : Scan :=
  if form.isClass then body.getD parts else if form.isSealed then {} else parts

mutual

/-- What is found in a part: first in the part itself, then inside. -/
def visit (file : SourceFile) (inClass : Bool) : Tree → Scan
  | .node form field excerpt parts =>
    own file inClass (.node form field excerpt parts) ++
      inside form (body? file parts) (visitAll file false parts)

/-- What is found in several parts, from left to right. -/
def visitAll (file : SourceFile) (inClass : Bool) : List Tree → Scan
  | [] => {}
  | tree :: rest => visit file inClass tree ++ visitAll file inClass rest

/-- What is found in the body among the parts of a class, as members of the class. -/
def body? (file : SourceFile) : List Tree → Option Scan
  | [] => none
  | .node _ field _ members :: rest =>
    if field = some .body then some (visitAll file true members) else body? file rest

end

end Recursion

namespace Walk

/-- Whether a part is pending as a member of a class. -/
def Step.inClass : Step → Bool
  | member _ => true
  | visit _ => false

/-- What the walk has found, and the stack of the parts that it still has to visit; the last of them is the next. -/
structure State where
  definitions : Array Definition := #[]
  candidates : Array Candidate := #[]
  stack : Array Step

namespace State

/-- The walk starts with the parts below the root, the first of them on top. -/
def start (tree : Tree) : State := { stack := (tree.children.map .visit).reverse.toArray }

/-- One turn of the walk: it takes the last part from the stack, visits it, and pushes the parts that this leads to in
reverse. -/
def turn (file : SourceFile) (state : State) : State :=
  match state.stack.back? with
  | none => state
  | some step =>
    { definitions := state.definitions ++ step.definitions file
      candidates := state.candidates ++ step.candidates
      stack := state.stack.pop ++ step.next.reverse }

/-- The parts on the stack, the next one first. -/
def pending (state : State) : List Step := state.stack.toList.reverse

def found (state : State) : Scan :=
  { definitions := state.definitions.toList, candidates := state.candidates.toList }

end State
end Walk

open Walk (Step State)

namespace Recursion

variable (file : SourceFile)

def visitStep (step : Step) : Scan := visit file step.inClass step.tree

def visitSteps (steps : List Step) : Scan := steps.foldr (fun step later => visitStep file step ++ later) {}

theorem visitSteps_append (first second : List Step) :
    visitSteps file (first ++ second) = visitSteps file first ++ visitSteps file second := by
  induction first with
  | nil => rfl
  | cons step first ih =>
    change visitStep file step ++ visitSteps file (first ++ second) = visitStep file step ++ visitSteps file first ++ _
    rw [ih, Scan.append_assoc]

/-- Parts that are pending in one way are visited from left to right. -/
theorem visitSteps_map {role : Tree → Step} {inClass : Bool}
    (stands : ∀ tree, visitStep file (role tree) = visit file inClass tree) (trees : List Tree) :
    visitSteps file (trees.map role) = visitAll file inClass trees := by
  induction trees with
  | nil => rw [visitAll, List.map_nil]; rfl
  | cons tree trees ih =>
    rw [visitAll, ← stands, ← ih]
    rfl

theorem body?_eq (tree : Tree) :
    body? file tree.children =
      (tree.childByField? .body).map fun body => visitAll file true body.children := by
  rw [Tree.childByField?]
  induction tree.children with
  | nil => rw [body?]; rfl
  | cons part parts ih =>
    cases part with
    | node form field excerpt members =>
      rw [body?, ih]
      by_cases isBody : field = some .body <;> simp [Tree.field, Tree.children, isBody]

theorem enter_eq (tree : Tree) :
    Step.enter tree =
      if tree.form.isClass then
        ((tree.childByField? .body).map fun body => body.children.map .member).getD (tree.children.map .visit)
      else if tree.form.isSealed then [] else tree.children.map .visit := by
  unfold Step.enter
  cases tree with
  | node form field excerpt children =>
    cases form
    case classDeclaration | abstractClassDeclaration | classExpression =>
      cases Tree.childByField? .body (.node _ field excerpt children) <;> rfl
    all_goals rfl

/-- What counts inside a part is what is found in the parts that the walk goes to from it. -/
theorem inside_eq (tree : Tree) :
    inside tree.form (body? file tree.children) (visitAll file false tree.children) =
      visitSteps file (Step.enter tree) := by
  have all : visitSteps file (tree.children.map .visit) = visitAll file false tree.children :=
    visitSteps_map file (fun _ => rfl) tree.children
  rw [enter_eq, inside, body?_eq]
  split
  -- The members of a class are those of the first body among its parts, here and in the walk.
  · cases tree.childByField? .body with
    | none => exact all.symm
    | some body => exact (visitSteps_map file (fun _ => rfl) body.children).symm
  · split
    · rfl
    · exact all.symm

/-- What is found in a pending part is what it shows itself, and then what is found in the parts that it leads to. -/
theorem visitStep_eq (step : Step) :
    visitStep file step =
      { definitions := step.definitions file, candidates := step.candidates : Scan } ++ visitSteps file step.next := by
  have shown : own file step.inClass step.tree =
      { definitions := step.definitions file, candidates := step.candidates : Scan } := by
    cases step <;> rfl
  rw [← shown, Step.next, visitStep, ← inside_eq]
  cases step.tree with
  | node form field excerpt parts => rw [visit]; rfl

end Recursion

namespace Walk.State

open Recursion (visitSteps)

variable (file : SourceFile) (state : State)

theorem pending_start (tree : Tree) : (start tree).pending = tree.children.map .visit := by
  simp [start, pending]

theorem turn_done (done : state.pending = []) : state.turn file = state := by
  have empty : state.stack = #[] := by simpa [pending] using done
  simp [turn, empty]

/-- What a turn does with the next part. -/
theorem turn_next {step : Step} {rest : List Step} (next : state.pending = step :: rest) :
    (state.turn file).definitions = state.definitions ++ step.definitions file ∧
    (state.turn file).candidates = state.candidates ++ step.candidates ∧
    (state.turn file).pending = step.next ++ rest := by
  have items : state.stack.toList = rest.reverse ++ [step] := by
    rw [← List.reverse_reverse state.stack.toList, ← pending, next, List.reverse_cons]
  have top : state.stack.back? = some step := by
    rw [← Array.getLast?_toList, items, List.getLast?_concat]
  unfold turn
  rw [top]
  refine ⟨rfl, rfl, ?_⟩
  simp [pending, items]

/-- A turn takes what it finds from what there was to find. -/
theorem found_turn :
    (state.turn file).found ++ visitSteps file (state.turn file).pending = state.found ++ visitSteps file state.pending := by
  cases shape : state.pending with
  | nil => rw [turn_done file state shape, shape]
  | cons step rest =>
    obtain ⟨definitions, candidates, pending⟩ := turn_next file state shape
    have first : visitSteps file (step :: rest) = Recursion.visitStep file step ++ visitSteps file rest := rfl
    have grown : (state.turn file).found =
        state.found ++ { definitions := step.definitions file, candidates := step.candidates : Scan } := by
      rw [found, definitions, candidates, Array.toList_appendList, Array.toList_appendList]
      rfl
    rw [grown, pending, first, Recursion.visitStep_eq, Recursion.visitSteps_append, Scan.append_assoc, Scan.append_assoc]

/-- A turn leaves fewer nodes pending. -/
theorem load_turn (unfinished : state.pending ≠ []) : Step.load (state.turn file).pending < Step.load state.pending := by
  cases shape : state.pending with
  | nil => exact absurd shape unfinished
  | cons step rest =>
    obtain ⟨_, _, pending⟩ := turn_next file state shape
    have fewer := Step.load_enter step.tree
    have whole : Step.load (step :: rest) = step.tree.weight + Step.load rest := rfl
    rw [pending, whole, Step.load_append]
    exact Nat.add_lt_add_right fewer _

/-- The walk goes on from a turn as from before it. -/
theorem run_turn :
    run file (state.turn file).definitions (state.turn file).candidates (state.turn file).pending =
      run file state.definitions state.candidates state.pending := by
  cases shape : state.pending with
  | nil => rw [turn_done file state shape, shape]
  | cons step rest =>
    obtain ⟨definitions, candidates, pending⟩ := turn_next file state shape
    conv_rhs => rw [run]
    rw [definitions, candidates, pending]

theorem found_turns (turns : Nat) :
    ((turn file)^[turns] state).found ++ visitSteps file ((turn file)^[turns] state).pending =
      state.found ++ visitSteps file state.pending := by
  induction turns with
  | zero => rfl
  | succ turns ih => rw [Function.iterate_succ_apply', found_turn, ih]

theorem run_turns (turns : Nat) :
    run file ((turn file)^[turns] state).definitions ((turn file)^[turns] state).candidates
      ((turn file)^[turns] state).pending = run file state.definitions state.candidates state.pending := by
  induction turns with
  | zero => rfl
  | succ turns ih => rw [Function.iterate_succ_apply', run_turn, ih]

/-- There are at most as many turns as there are nodes pending. -/
theorem turns_finish {turns : Nat} (enough : Step.load state.pending ≤ turns) :
    ((turn file)^[turns] state).pending = [] := by
  induction turns generalizing state with
  | zero =>
    -- Another turn would leave less than nothing.
    by_contra unfinished
    have fewer := load_turn file state unfinished
    exact absurd (Nat.lt_of_lt_of_le fewer enough) (Nat.not_lt_zero _)
  | succ turns ih =>
    rw [Function.iterate_succ_apply]
    apply ih
    by_cases done : state.pending = []
    · rw [turn_done file state done, done]
      exact Nat.zero_le turns
    · have fewer := load_turn file state done
      omega

/-- After so many turns the walk has found what it had found before, and what the recursion finds in the pending parts. -/
theorem turns_eq {turns : Nat} (enough : Step.load state.pending ≤ turns) :
    (turn file)^[turns] state =
      { definitions := (state.found ++ visitSteps file state.pending).definitions.toArray
        candidates := (state.found ++ visitSteps file state.pending).candidates.toArray
        stack := #[] } := by
  have done := turns_finish file state enough
  have kept := found_turns file state turns
  rw [done] at kept
  rw [← kept, visitSteps, List.foldr_nil, Scan.append_nil]
  cases shape : (turn file)^[turns] state with
  | mk definitions candidates stack =>
    have empty : stack = #[] := by simpa [shape, pending] using done
    rw [empty]
    rfl

/-- From any state the walk adds what the recursion finds in the pending parts. -/
theorem run_eq :
    run file state.definitions state.candidates state.pending =
      ((state.found ++ visitSteps file state.pending).definitions.toArray,
        (state.found ++ visitSteps file state.pending).candidates.toArray) := by
  have ends := turns_eq file state (Nat.le_refl _)
  have empty : ((turn file)^[Step.load state.pending] state).pending = [] := turns_finish file state (Nat.le_refl _)
  rw [← run_turns file state (Step.load state.pending), empty, ends, run]

end Walk.State

namespace Walk

/-- The walk ends, with no more turns than there are nodes below the root, and it has found then what the recursion finds:
the same definitions and the same candidates, in the same order. -/
theorem run_is_recursion (file : SourceFile) (tree : Tree) :
    let found := Recursion.visitAll file false tree.children
    (∃ turns < tree.weight, (State.turn file)^[turns] (.start tree) =
      { definitions := found.definitions.toArray, candidates := found.candidates.toArray, stack := #[] }) ∧
    run file #[] #[] (tree.children.map .visit) = (found.definitions.toArray, found.candidates.toArray) ∧
    scan file tree =
      { definitions := found.definitions
        candidates := found.candidates.mergeSort fun first second => first.line ≤ second.line } := by
  intro found
  have pending : Recursion.visitSteps file (State.start tree).pending = found := by
    rw [State.pending_start]
    exact Recursion.visitSteps_map file (fun _ => rfl) tree.children
  have load : Step.load (State.start tree).pending = Tree.weights tree.children := by
    rw [State.pending_start, Step.load_map_visit]
  have runs : run file #[] #[] (tree.children.map .visit) = (found.definitions.toArray, found.candidates.toArray) := by
    rw [← State.pending_start, ← pending]
    exact State.run_eq file (.start tree)
  refine ⟨⟨Tree.weights tree.children, ?_, ?_⟩, runs, ?_⟩
  · rw [Tree.weight_eq]
    exact Nat.lt_succ_self _
  · rw [← pending]
    exact State.turns_eq file (.start tree) (Nat.le_of_eq load)
  · rw [scan, runs]

end Walk

end CallAtlas.Script

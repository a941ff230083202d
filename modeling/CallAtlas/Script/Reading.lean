import CallAtlas.Script.Tree

/-! Readings of a script. A reading starts at a place, ends at a later one, and adds the nodes that it comes by to those
before them. One that fails leaves no trace, so another can be tried at the same place. -/
namespace CallAtlas.Script

/-- A place in a script, with the nodes before it that have the same parent; the last of them comes first. -/
structure Place where
  cursor : Cursor
  siblings : List Tree := []

/-- A way of reading on from a place. -/
abbrev Reading (α : Type) := StateT Place Option α

namespace Reading

variable {α : Type}

def fail : Reading α := fun _ => none

def check (condition : Bool) : Reading Unit := if condition then pure () else fail

def orElse (first : Reading α) (second : Unit → Reading α) : Reading α := fun place =>
  match first place with
  | some result => some result
  | none => second () place

instance : OrElse (Reading α) := ⟨orElse⟩

def anyOf (readings : List (Reading α)) : Reading α := fun place =>
  readings.findSome? fun reading => reading place

def given (reading : Reading α) : Reading Bool := fun place =>
  match reading place with
  | some (_, next) => some (true, next)
  | none => some (false, place)

def maybe (reading : Reading α) : Reading Unit := do let _ ← given reading

/-- What could be read next, without going there. -/
def peek (reading : Reading α) : Reading (Option α) := fun place =>
  some ((reading place).map (·.1), place)

def ahead (reading : Reading α) : Reading Bool := do return (← peek reading).isSome

def require (reading : Reading α) : Reading Unit := do check (← ahead reading)

def refuse (reading : Reading α) : Reading Unit := do check (!(← ahead reading))

def manyFrom (item : Reading Unit) (place : Place) : Place :=
  match item place with
  | none => place
  | some ((), next) => if next.cursor.left < place.cursor.left then manyFrom item next else place
termination_by place.cursor.left

/-- Reads as often as it can and as long as there is progress. -/
def many (item : Reading Unit) : Reading Unit := fun place => some ((), manyFrom item place)

def separated (mark item : Reading Unit) : Reading Unit := do
  item
  many do mark; item

/-- Items with a mark between them, possibly none, possibly with a mark at the end. -/
def listed (mark item : Reading Unit) : Reading Unit := maybe do
  separated mark item
  maybe mark

/-- Items with marks between and around them, in any number. -/
def scattered (mark item : Reading Unit) : Reading Unit := do
  maybe item
  many do mark; maybe item

def upcoming : Reading (List Char) := do return (← get).cursor.rest

def line : Reading Nat := do return (← get).cursor.line

def move (forward : Cursor → Cursor) : Reading Unit :=
  modify fun place => { place with cursor := forward place.cursor }

/-- Reads the children of a node, and what the node is. -/
def nodeHere (inside : Reading Form) : Reading Unit := fun start =>
  match inside { start with siblings := [] } with
  | none => none
  | some (form, stop) =>
    let tree := .node form none ⟨start.cursor, stop.cursor⟩ stop.siblings.reverse
    some ((), { cursor := stop.cursor, siblings := tree :: start.siblings })

/-- Reads further children of a node whose first child is the last node before, and what the node is. -/
def wrapAs (inside : Reading Form) : Reading Unit := fun start =>
  match start.siblings with
  | [] => none
  | first :: siblings =>
    match inside { start with siblings := [first] } with
    | none => none
    | some (form, stop) =>
      let tree := .node form none ⟨first.excerpt.start, stop.cursor⟩ stop.siblings.reverse
      some ((), { cursor := stop.cursor, siblings := tree :: siblings })

/-- Makes the last node known to its parent by a field. -/
def label (field : Field) : Reading Unit := modify fun place =>
  match place.siblings with
  | [] => place
  | last :: siblings => { place with siblings := last.asField field :: siblings }

def field (field : Field) (reading : Reading Unit) : Reading Unit := do
  reading
  label field

def wrap (form : Form) (inside : Reading Unit) : Reading Unit := wrapAs do inside; return form

/-- Makes the last node the child of another one by a field, and reads on in that one. -/
def wrapField (form : Form) (field : Field) (inside : Reading Unit) : Reading Unit := wrap form do
  label field
  inside

def passed (form : Form) : Reading Bool := do return (← get).siblings.any (·.form == form)

def lastIs (form : Form) : Reading Bool := do return (← get).siblings.head?.any (·.form == form)

def lastHas (field : Field) : Reading Bool := do
  return (← get).siblings.head?.any fun tree => (tree.childByField? field).isSome

def lastHolds (field : Field) (form : Form) : Reading Bool := do
  return (← get).siblings.head?.any fun tree => (tree.childByField? field).any (·.form == form)

end Reading
end CallAtlas.Script

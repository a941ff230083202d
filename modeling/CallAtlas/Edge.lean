import CallAtlas.Definition

/-! The call graph of a list of definitions. Every call site meets each file that defines its callee; meetings
with the same two ends are gathered into one edge, and edges stand in the order in which their ends first
met. -/
namespace CallAtlas

/-- One end of an edge: definitions of one name in one file share it. -/
structure Endpoint where
  name : String
  filePath : String
  deriving DecidableEq, Repr

namespace Endpoint

def of (definition : Definition) : Endpoint := ⟨definition.name, definition.filePath⟩

/-- Whether one end stands before another: by name, then by file. -/
def before (first second : Endpoint) : Bool :=
  first.name < second.name || (first.name == second.name && first.filePath < second.filePath)

end Endpoint

/-- Whether both ends of an edge are in one file. -/
inductive Reach where
  | internal
  | external
  deriving DecidableEq, Repr

namespace Reach

def all : List Reach := [internal, external]

def tag : Reach → String
  | internal => "internal"
  | external => "external"

def ofTag? (tag : String) : Option Reach := all.find? fun reach => reach.tag == tag

def between (source target : Endpoint) : Reach :=
  if source.filePath = target.filePath then internal else external

end Reach

/-- Calls from one endpoint to another, counted, with some of the lines on which they stand. -/
structure Edge where
  source : Endpoint
  target : Endpoint
  count : Nat
  reach : Reach
  lines : List Nat
  deriving DecidableEq, Repr

namespace Edge

/-- One call site together with one of the files that define its callee. -/
structure Meeting where
  source : Endpoint
  target : Endpoint
  line : Nat
  deriving DecidableEq, Repr

/-- Keeps the first occurrence of every member. -/
def distinct {α : Type} [DecidableEq α] (members : List α) : List α :=
  members.foldl (fun kept member => if member ∈ kept then kept else kept ++ [member]) []

/-- The endpoints that define a name, in the order of their first definition. -/
def targets (definitions : List Definition) (name : String) : List Endpoint :=
  distinct ((definitions.filter fun d => d.kind.isResolvable && d.name == name).map Endpoint.of)

/-- All meetings, caller after caller, call after call, target after target. -/
def meetings (definitions : List Definition) : List Meeting :=
  definitions.flatMap fun caller =>
    caller.calls.flatMap fun call =>
      (targets definitions call.callee).map fun target => ⟨Endpoint.of caller, target, call.line⟩

/-- An edge that has seen no meeting yet. -/
def fresh (meeting : Meeting) : Edge :=
  { source := meeting.source, target := meeting.target, count := 0,
    reach := Reach.between meeting.source meeting.target, lines := [] }

/-- Counts one more meeting and keeps its line if it is new and there is room for it. -/
def add (room : Nat) (edge : Edge) (meeting : Meeting) : Edge :=
  { edge with
    count := edge.count + 1
    lines := if edge.lines.length < room ∧ meeting.line ∉ edge.lines then edge.lines ++ [meeting.line]
      else edge.lines }

def joins (edge : Edge) (meeting : Meeting) : Bool :=
  edge.source == meeting.source && edge.target == meeting.target

/-- Gathers a meeting into the edge with its ends, which is put last when it is new. -/
def record (room : Nat) (meeting : Meeting) : List Edge → List Edge
  | [] => [(fresh meeting).add room meeting]
  | edge :: rest =>
    if edge.joins meeting then edge.add room meeting :: rest else edge :: record room meeting rest

private def ascending (first second : Nat) : Bool := decide (first ≤ second)

def sortLines (edge : Edge) : Edge := { edge with lines := edge.lines.mergeSort ascending }

/-- The edges of some definitions, with at most `room` lines each. -/
def ofDefinitions (definitions : List Definition) (room : Nat) : List Edge :=
  ((meetings definitions).foldl (fun edges meeting => record room meeting edges) []).map sortLines

def isInternal (edge : Edge) : Bool := edge.reach == .internal

/-- The number of lines an edge keeps when nothing else is asked. -/
def usualRoom : Nat := 5

/-- Totals over a list of edges. -/
structure Summary where
  edges : Nat
  internal : Nat
  external : Nat
  resolvedCalls : Nat
  deriving DecidableEq, Repr

def summary (edges : List Edge) : Summary :=
  let internal := edges.countP isInternal
  { edges := edges.length, internal, external := edges.length - internal,
    resolvedCalls := edges.foldr (fun edge total => edge.count + total) 0 }

end Edge
end CallAtlas

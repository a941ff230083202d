import CallAtlas.Edge
import CallAtlas.Text.Cut

/-! Drawings of a call graph as text: a Graphviz digraph or a Mermaid flowchart. Both list the endpoints in
order of name and file, then the edges in the order given. -/
namespace CallAtlas

inductive Diagram where
  | graphviz
  | mermaid
  deriving DecidableEq, Repr

namespace Diagram

/-- The notation with a given name, in any ASCII case. -/
def ofName? (name : String) : Option Diagram :=
  match Text.lowered name with
  | "dot" | "graphviz" => some graphviz
  | "mermaid" | "mmd" => some mermaid
  | _ => none

def placeNode (node : Endpoint) : List Endpoint → List Endpoint
  | [] => [node]
  | head :: rest =>
    if node.before head then node :: head :: rest
    else if node = head then head :: rest
    else head :: placeNode node rest

/-- The endpoints of some edges, each once, ordered by name and then by file. -/
def nodes (edges : List Edge) : List Endpoint :=
  edges.foldl (fun known edge => placeNode edge.target (placeNode edge.source known)) []

/-- The path and the name of an endpoint, as one text. -/
def nodeId (node : Endpoint) : String := node.filePath ++ ":" ++ node.name

private def graphvizNode (node : Endpoint) : String :=
  "  \"" ++ nodeId node ++ "\" [label=\"" ++ node.name ++ "\\n" ++ node.filePath ++ "\"];\n"

private def graphvizEdge (edge : Edge) : String :=
  "  \"" ++ nodeId edge.source ++ "\" -> \"" ++ nodeId edge.target ++ "\" [style=" ++
    (if edge.isInternal then "solid" else "dashed") ++ ", label=\"" ++ toString edge.count ++ "\"];\n"

def renderGraphviz (edges : List Edge) : String :=
  "digraph methodmap \x7b\n  rankdir=LR;\n  node [shape=box, fontsize=10];\n\n" ++
    String.join ((nodes edges).map graphvizNode) ++ "\n" ++ String.join (edges.map graphvizEdge) ++ "\x7d\n"

/-- Characters that a flowchart identifier may not hold become underscores. -/
def plainId (id : String) : String :=
  String.ofList (id.toList.map fun c => if c ∈ [':', '/', '\\', '.', ' ', '-', '?', '!', '$'] then '_' else c)

private def mermaidNode (node : Endpoint) : String :=
  "  " ++ plainId (nodeId node) ++ "[\"" ++ node.name ++ "\\n(" ++ node.filePath ++ ")\"]\n"

private def mermaidEdge (edge : Edge) : String :=
  "  " ++ plainId (nodeId edge.source) ++ " " ++ (if edge.isInternal then "-->" else "-.->") ++ "|" ++
    toString edge.count ++ "| " ++ plainId (nodeId edge.target) ++ "\n"

def renderMermaid (edges : List Edge) : String :=
  "flowchart LR\n" ++ String.join ((nodes edges).map mermaidNode) ++ String.join (edges.map mermaidEdge)

def render (diagram : Diagram) (edges : List Edge) : String :=
  match diagram with
  | graphviz => renderGraphviz edges
  | mermaid => renderMermaid edges

end Diagram
end CallAtlas

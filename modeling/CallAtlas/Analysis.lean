import CallAtlas.Diagnostic
import CallAtlas.Edge
import CallAtlas.Language
import CallAtlas.Registry

/-! What an analysis yields, for one file and for a corpus, and the questions that can be asked of it. -/
namespace CallAtlas

/-- One callee of a template: how often and on which lines it is called. -/
structure TemplateCall where
  name : String
  lines : List Nat
  count : Nat
  deriving DecidableEq, Repr

namespace TemplateCall

def add (entry : TemplateCall) (call : CallSite) : TemplateCall :=
  { entry with
    count := entry.count + 1
    lines := if call.line ∈ entry.lines then entry.lines else entry.lines ++ [call.line] }

/-- Gathers a call into the entry of its callee, which is put last when it is new. -/
def record (call : CallSite) : List TemplateCall → List TemplateCall
  | [] => [⟨call.callee, [call.line], 1⟩]
  | entry :: rest =>
    if entry.name = call.callee then entry.add call :: rest else entry :: record call rest

/-- The call sites of a definition grouped by callee, in the order of their first occurrence. -/
def collect (definition : Definition) : List TemplateCall :=
  (definition.calls.foldl (fun entries call => record call entries) []).map fun entry =>
    { entry with lines := entry.lines.mergeSort fun first second => decide (first ≤ second) }

end TemplateCall

/-- Everything found in one file. -/
structure FileAnalysis where
  path : String
  language : Language
  definitions : List Definition := []
  templateCalls : List TemplateCall := []
  diagnostics : List Diagnostic := []
  deriving DecidableEq, Repr

def FileAnalysis.callCount (file : FileAnalysis) : Nat :=
  file.definitions.foldr (fun definition total => definition.calls.length + total) 0

/-- The results of all files, in the order in which the files were given. -/
structure CorpusAnalysis where
  files : List FileAnalysis
  registry : Registry
  edges : List Edge
  deriving DecidableEq

/-- The definitions of a name, in order; records of imports and exports are passed over. -/
def findDefinitions (definitions : List Definition) (name : String) : List Definition :=
  definitions.filter fun definition => definition.name == name && definition.kind.isResolvable

/-- The definitions with a call site that uses a name. -/
def findCallers (definitions : List Definition) (name : String) : List Definition :=
  definitions.filter fun definition => definition.callsName name

namespace CorpusAnalysis

def empty : CorpusAnalysis := ⟨[], .empty, []⟩

/-- All definitions, file after file. -/
def definitions (analysis : CorpusAnalysis) : List Definition :=
  analysis.files.flatMap fun file => file.definitions

def definitionCount (analysis : CorpusAnalysis) : Nat := analysis.definitions.length

def callCount (analysis : CorpusAnalysis) : Nat :=
  analysis.files.foldr (fun file total => file.callCount + total) 0

def file? (analysis : CorpusAnalysis) (path : String) : Option FileAnalysis :=
  analysis.files.find? fun file => file.path == path

def definition? (analysis : CorpusAnalysis) (name : String) : Option Definition :=
  (findDefinitions analysis.definitions name).head?

def callers (analysis : CorpusAnalysis) (name : String) : List Definition :=
  findCallers analysis.definitions name

/-- Every diagnostic with the path of its file. -/
def diagnostics (analysis : CorpusAnalysis) : List (String × Diagnostic) :=
  analysis.files.flatMap fun file => file.diagnostics.map fun diagnostic => (file.path, diagnostic)

end CorpusAnalysis
end CallAtlas

import CallAtlas.Script.Outline
import CallAtlas.Script.Program
import CallAtlas.Script.Walk
import CallAtlas.Settings
import CallAtlas.Vocabulary

/-! The extractor for JavaScript, TypeScript and TSX files. -/
namespace CallAtlas.Script

structure Reader where
  parse? : Tree.Parser
  preference : ScriptPreference
  vocabulary : Vocabulary
  limits : Limits

namespace Reader

/-- Names that the language reserves define nothing; a builtin name can still name a module. -/
def keeps (vocabulary : Vocabulary) (definition : Definition) : Bool :=
  definition.name != "" && !vocabulary.keyword definition.name &&
    !(definition.kind.isResolvable && vocabulary.builtin definition.name)

def tree? (parse? : Tree.Parser) (file : SourceFile) : Option Tree := do
  let text := Text.joinLines file.sourceLines
  let dialect ← Dialect.of? file.language text
  parse? dialect text

def rawScan (reader : Reader) (file : SourceFile) : Scan :=
  match reader.preference with
  | .auto => ((tree? reader.parse? file).map (Walk.scan file)).getD (Outline.scan file reader.limits)
  | .heuristic => Outline.scan file reader.limits

/-- What is found without the definitions whose names are not kept. -/
def sortOut (reader : Reader) (found : Scan) : Scan :=
  { found with definitions := found.definitions.filter (keeps reader.vocabulary) }

def scan (reader : Reader) (file : SourceFile) : Scan := reader.sortOut (reader.rawScan file)

def define (reader : Reader) (file : SourceFile) : Extraction :=
  let found := reader.scan file
  { definitions := found.definitions, diagnostics := found.diagnostics }

/-- The names bound by imports, each with the first line of its import. -/
def importedNames (definitions : List Definition) : List (String × Nat) :=
  (definitions.filter fun definition => definition.kind == .importRecord).flatMap fun definition =>
    definition.bindings.map fun name => (name, definition.startLine)

def importLine? (imported : List (String × Nat)) (name : String) : Option Nat :=
  (imported.find? fun entry => entry.1 == name).map (·.2)

/-- The call site of an accepted candidate, with the position of the definition that owns it. -/
def site? (limits : Limits) (accepts : String → Bool) (lines : List (List Char))
    (definitions : List Definition) (imported : List (String × Nat)) (candidate : Candidate) :
    Option (Nat × CallSite) := do
  let owner ← innermostCallable? definitions candidate.line
  if accepts candidate.name then
    let raw ← lines[candidate.line - 1]?
    return (owner,
      { callee := candidate.name, line := candidate.line,
        snippet := String.ofList (Text.snippet limits.snippetLength raw),
        importLine := importLine? imported candidate.name })
  else none

/-- What is accepted as a call in a file with these definitions: imported names count as its own. -/
def acceptance (reader : Reader) (definitions : List Definition) (registry : Registry) : Acceptance :=
  { vocabulary := reader.vocabulary, corpus := registry
    file := (Registry.ofDefinitions definitions).insertAll ((importedNames definitions).map (·.1)) }

def callSites (reader : Reader) (file : SourceFile) (registry : Registry) (found : Scan) :
    List (Nat × CallSite) :=
  let acceptance := reader.acceptance found.definitions registry
  found.candidates.filterMap
    (site? reader.limits acceptance.accepts file.sourceLines found.definitions
      (importedNames found.definitions))

/-- Gives every accepted candidate to the definition that owns its line. -/
def assignCalls (reader : Reader) (file : SourceFile) (registry : Registry) (found : Scan) : Extraction :=
  let sites := reader.callSites file registry found
  { definitions := found.definitions.mapIdx fun index definition =>
      definition.addCalls ((sites.filter fun site => site.1 == index).map (·.2))
    diagnostics := found.diagnostics }

def analyze (reader : Reader) (file : SourceFile) (registry : Registry) : Extraction :=
  reader.assignCalls file registry (reader.scan file)

end Reader

def extractor (reader : Reader) : Extractor where
  name := "javascript"
  supports := Language.isScript
  define := fun file => .ok (reader.define file)
  analyze := fun file registry => .ok (reader.analyze file registry)

end CallAtlas.Script

import CallAtlas.Corpus
import CallAtlas.Diagram
import CallAtlas.Project.Command
import CallAtlas.Project.Store

/-! Commands carried out on the project in a folder. Nothing here looks at a clock or a disk: the folder, the
environment and the time are given, and what is to be printed and kept is the result. -/
namespace CallAtlas.Project

/-- Why a command came to nothing. -/
inductive Fault where
  | invalidGlob (switch pattern : String)
  | settings (root : String)
  | noSources (root : String)
  | unknownFormat (name : String)
  | unknownDiagram (name : String)
  | noDefinition (name : String)
  | store (fault : StoreFault)
  deriving DecidableEq, Repr

def Fault.message : Fault → String
  | invalidGlob switch pattern => "invalid --" ++ switch ++ " glob: " ++ pattern
  | settings root => "failed to load config for " ++ root
  | noSources root =>
    "No Ruby, ERB, JavaScript or TypeScript files found in " ++ root ++ "\nAre you in the right directory?"
  | unknownFormat name => "unsupported output format: " ++ name ++ " (use summary or json)"
  | unknownDiagram name => "unsupported export format: " ++ name ++ " (use dot or mermaid)"
  | noDefinition name => "no definition named '" ++ name ++ "'"
  | store fault => fault.message

/-- What a command prints and leaves behind. -/
structure Outcome where
  exitCode : Nat := 0
  output : String := ""
  notice : String := ""
  folder : Folder

/-- A project in its surroundings. -/
structure Session where
  folder : Folder
  root : Root
  environment : Settings.Environment
  time : Timestamp
  formats : Formats

/-- The root that a command is for: the one it was given, or else the current one. -/
def Invocation.root (invocation : Invocation) (current : Root) : Root :=
  match invocation.project with
  | some path => current.follow path
  | none => current

namespace Session

private def globRules : Glob.Rules := { slashIsSpecial := false, bareBrackets := false }

/-- The globs given with a switch. -/
private def globs (switch : String) (patterns : List String) : Except Fault (List Glob) :=
  patterns.mapM fun pattern =>
    match Glob.parse? globRules pattern with
    | some glob => .ok glob
    | none => .error (.invalidGlob switch pattern)

/-- Analyzes the files that the globs select: those of an included one, if there are any, and of no excluded one. -/
def analyze (session : Session) (included excluded : List String) : Except Fault CorpusAnalysis := do
  let settings ← match session.folder.loadSettings session.root session.environment session.formats with
    | .ok settings => .ok settings
    | .error _ => .error (.settings session.root.written)
  let analyzer := Analyzer.standard settings
  let included ← globs "include" included
  let excluded ← globs "exclude" excluded
  let matched (globs : List Glob) (path : String) : Bool := globs.any fun glob => glob.isMatch path
  let selects (path : String) : Bool := (included.isEmpty || matched included path) && !matched excluded path
  let supports (language : Language) : Bool := (analyzer.extractor? language).isSome
  let files := session.folder.sources session.root supports selects
  if files.isEmpty then .error (.noSources session.root.written) else .ok (analyzer.analyze files)

/-- The analysis of the saved report, or a new one where none is saved. -/
def savedAnalysis (session : Session) : Except Fault CorpusAnalysis :=
  if session.folder.hasReport session.root then
    match session.folder.loadReport session.root session.formats with
    | .ok report => .ok report.toAnalysis
    | .error fault => .error (.store fault)
  else session.analyze [] []

/-- How many definitions there are of each kind, by ascending tag. -/
def kindCounts (analysis : CorpusAnalysis) : List (String × Nat) :=
  let tags := analysis.definitions.map fun definition => definition.kind.tag
  let kinds := (Kind.all.map Kind.tag).mergeSort fun first second => decide (first ≤ second)
  (kinds.map fun tag => (tag, tags.count tag)).filter fun entry => entry.2 != 0

def summaryLines (analysis : CorpusAnalysis) : List String :=
  let summary := Edge.summary analysis.edges
  let kinds := (kindCounts analysis).map fun (tag, count) => tag ++ " " ++ toString count
  let diagnostics := analysis.diagnostics.length
  ["Files: " ++ toString analysis.files.length,
   "Methods: " ++ toString analysis.definitionCount,
   "Call sites: " ++ toString analysis.callCount,
   "Dependency edges: " ++ toString summary.edges ++ " (" ++ toString summary.internal ++ " internal, " ++
     toString summary.external ++ " external)",
   "Resolved calls: " ++ toString summary.resolvedCalls] ++
  (if kinds.isEmpty then [] else ["Kinds: " ++ ", ".intercalate kinds]) ++
  (if diagnostics = 0 then [] else ["Diagnostics: " ++ toString diagnostics])

def definitionLine (definition : Definition) : String :=
  definition.filePath ++ ":" ++ toString definition.startLine ++ "-" ++ toString definition.endLine ++ "  " ++
    definition.kind.tag ++ "  " ++ definition.name ++ "(" ++
    ", ".intercalate (definition.parameters.map (·.name)) ++ ")"

def callerLines (name : String) (caller : Definition) : List String :=
  (caller.calls.filter fun call => call.callee == name).map fun call =>
    caller.filePath ++ ":" ++ toString call.line ++ "  " ++ caller.name ++ "  " ++ call.snippet

private def unlines (lines : List String) : String := String.join (lines.map (· ++ "\n"))

/-- How an analysis is printed. -/
inductive Format where
  | summary
  | json
  deriving DecidableEq, Repr

def Format.ofName? (name : String) : Option Format :=
  match Text.lowered name with
  | "summary" | "text" => some .summary
  | "json" => some .json
  | _ => none

private def failed (session : Session) (output : String) (fault : Fault) : Outcome :=
  { exitCode := 1, output, notice := "Error: " ++ fault.message ++ "\n", folder := session.folder }

private def printed (session : Session) (output : String) : Outcome := { output, folder := session.folder }

private def runAnalyze (session : Session) (format : String) (included excluded : List String) (save : Bool) :
    Outcome :=
  match Format.ofName? format with
  | none => session.failed "" (.unknownFormat format)
  | some format =>
    match session.analyze included excluded with
    | .error fault => session.failed "" fault
    | .ok analysis =>
      let report := Report.ofAnalysis session.time analysis
      let output := match format with
        | .summary => unlines (summaryLines analysis)
        | .json => report.text session.formats.report ++ "\n"
      if save then
        match session.folder.saveReport session.root report session.formats with
        | .ok folder => { output, notice := "Saved to: " ++ session.root.reportPath ++ "\n", folder }
        | .error fault => session.failed output (.store fault)
      else session.printed output

private def runDefinition (session : Session) (name : String) : Except Fault Outcome := do
  let analysis ← session.savedAnalysis
  match findDefinitions analysis.definitions name with
  | [] => .error (.noDefinition name)
  | found => return session.printed (unlines (found.map definitionLine))

private def runCallers (session : Session) (name : String) : Except Fault Outcome := do
  let analysis ← session.savedAnalysis
  match analysis.callers name with
  | [] => return { notice := "No callers of '" ++ name ++ "'.\n", folder := session.folder }
  | callers => return session.printed (unlines (callers.flatMap (callerLines name)))

private def runGraph (session : Session) (format : String) : Except Fault Outcome :=
  match Diagram.ofName? format with
  | none => .error (.unknownDiagram format)
  | some diagram => do
    let analysis ← session.savedAnalysis
    return session.printed (diagram.render analysis.edges)

/-- Carries out a command. -/
def run (session : Session) (command : Command) : Outcome :=
  let outcome : Except Fault Outcome := match command with
    | .analyze format included excluded save => .ok (session.runAnalyze format included excluded save)
    | .definition name => session.runDefinition name
    | .callers name => session.runCallers name
    | .graph format => session.runGraph format
  match outcome with
  | .ok outcome => outcome
  | .error fault => session.failed "" fault

end Session

/-- Carries out a command line at a place in a folder. A line that cannot be read changes nothing. -/
def run (folder : Folder) (current : Root) (environment : Settings.Environment) (time : Timestamp)
    (arguments : List String) (formats : Formats := .standard) : Outcome :=
  match Invocation.parse? arguments with
  | none => { exitCode := 2, notice := Invocation.usage, folder }
  | some invocation =>
    ({ folder, root := invocation.root current, environment, time, formats } : Session).run invocation.command

end CallAtlas.Project

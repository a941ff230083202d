import CallAtlas.Json.Reader
import CallAtlas.Json.Writer
import CallAtlas.Report.Codec
import CallAtlas.Timestamp

/-! Reports: an analysis with a version and the time at which it was made, as text that can be saved and read
back. -/
namespace CallAtlas

structure Report where
  version : String
  generatedAt : Timestamp
  files : List FileAnalysis
  edges : List Edge
  deriving DecidableEq, Repr

namespace Report

/-- The version that is written and accepted. -/
def currentVersion : String := "1.0.0"

/-- Why a text is not a report. -/
inductive Fault where
  | unreadable
  | wrongVersion (found : String)
  deriving DecidableEq, Repr

def Fault.message : Fault → String
  | unreadable => "failed to deserialize report from JSON"
  | wrongVersion found => "report version mismatch: expected " ++ currentVersion ++ ", found " ++ found

/-- The report of an analysis made at some time. -/
def ofAnalysis (generatedAt : Timestamp) (analysis : CorpusAnalysis) : Report :=
  { version := currentVersion, generatedAt, files := analysis.files, edges := analysis.edges }

/-- The analysis in a report. The names are those of the definitions it holds. -/
def toAnalysis (report : Report) : CorpusAnalysis :=
  { files := report.files, edges := report.edges,
    registry := .ofDefinitions (report.files.flatMap fun file => file.definitions) }

/-- How a report is put into text: JSON values as texts, and instants as the strings that stand in them. -/
structure Encoding where
  print : Json → String
  parse? : String → Option Json
  printTime : Timestamp → String
  parseTime? : String → Option Timestamp

namespace Encoding

def standard : Encoding where
  print := Json.pretty
  parse? := Json.parse?
  printTime := Timestamp.text
  parseTime? := Timestamp.parse?

end Encoding

def write (report : Report) (encoding : Encoding := .standard) : Json :=
  .object [("version", .string report.version), ("generatedAt", .string (encoding.printTime report.generatedAt)),
    ("files", .array (report.files.map FileAnalysis.write)),
    ("dependencies", .array (report.edges.map Edge.write))]

def read? (value : Json) (encoding : Encoding := .standard) : Option Report :=
  match Json.record? ["version", "generatedAt", "files", "dependencies"] value with
  | some [version, generatedAt, files, edges] => do
    return { version := ← Json.required Json.string? version
             generatedAt := ← Json.required (fun value => (Json.string? value).bind encoding.parseTime?) generatedAt
             files := ← Json.required (Json.list? FileAnalysis.read?) files
             edges := ← Json.required (Json.list? Edge.read?) edges }
  | _ => none

/-- The text of a report. -/
def text (report : Report) (encoding : Encoding := .standard) : String := encoding.print (report.write encoding)

def checkVersion (report : Report) : Except Fault Report :=
  if report.version = currentVersion then .ok report else .error (.wrongVersion report.version)

/-- Reads the text of a report of the current version. -/
def parse (text : String) (encoding : Encoding := .standard) : Except Fault Report :=
  match (encoding.parse? text).bind fun value => read? value encoding with
  | some report => report.checkVersion
  | none => .error .unreadable

end Report
end CallAtlas

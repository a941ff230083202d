import CallAtlas.Project.Folder
import CallAtlas.Report
import CallAtlas.Settings.Codec

/-! What a project keeps for itself, in a directory below its root: its settings and the last saved report. -/
namespace CallAtlas.Project

/-- The name of the directory that a project keeps its settings and its report in. -/
def dataDirectory : String := ".methodmap"

def reportName : String := "report.json"

namespace Root

def dataPath (root : Root) : String := root.join dataDirectory

def reportPath (root : Root) : String := root.dataPath ++ "/" ++ reportName

def reportPlace (root : Root) : List String := root.place ++ [dataDirectory, reportName]

end Root

/-- The languages of the files that a project keeps. -/
structure Formats where
  report : Report.Encoding
  settings? : String → Option Json

def Formats.standard : Formats := { report := .standard, settings? := Toml.parse? }

/-- Why a report could not be saved or loaded. -/
inductive StoreFault where
  | unreadable (path : String)
  | noDirectory (path : String)
  | unwritable (path : String)
  | report (fault : Report.Fault)
  deriving DecidableEq, Repr

def StoreFault.message : StoreFault → String
  | unreadable path => "failed to read report from " ++ path
  | noDirectory path => "failed to create directory " ++ path
  | unwritable path => "failed to write report to " ++ path
  | report fault => fault.message

namespace Folder

def hasReport (folder : Folder) (root : Root) : Bool := folder.contains root.reportPlace

def loadReport (folder : Folder) (root : Root) (formats : Formats := .standard) : Except StoreFault Report :=
  match folder.read? root.reportPlace with
  | none => .error (.unreadable root.reportPath)
  | some text =>
    match Report.parse text formats.report with
    | .ok report => .ok report
    | .error fault => .error (.report fault)

def saveReport (folder : Folder) (root : Root) (report : Report) (formats : Formats := .standard) :
    Except StoreFault Folder :=
  if !folder.admitsDirectory (root.place ++ [dataDirectory]) then .error (.noDirectory root.dataPath)
  else if folder.isDirectory root.reportPlace then .error (.unwritable root.reportPath)
  else .ok (folder.write root.reportPlace (report.text formats.report))

/-- The settings of a project, from its own file and the environment. -/
def loadSettings (folder : Folder) (root : Root) (environment : Settings.Environment)
    (formats : Formats := .standard) : Except Settings.LoadFault Settings :=
  let path := root.place ++ [dataDirectory, "config.toml"]
  if folder.isDirectory path then .error .unreadable
  else Settings.load (folder.read? path) environment formats.settings?

end Folder
end CallAtlas.Project

import CallAtlas.Project.Run
import Std.Time.DateTime.Timestamp

/-! The command line: reads the project from the disk, carries the command out, and writes what it leaves behind. -/
namespace CallAtlas.Main

open CallAtlas.Project

private def environment : IO Settings.Environment :=
  Settings.Variable.all.filterMapM fun name => do
    return (← IO.getEnv name).map fun value => (name, value)

private def now : IO Timestamp := do
  let nanos := (← Std.Time.Timestamp.now).toNanosecondsSinceUnixEpoch.val
  let seconds := nanos.fdiv 1000000000
  return { day := seconds.fdiv 86400, second := (seconds.fmod 86400).toNat
           nano := (nanos.fmod 1000000000).toNat }

private def written (place : List String) : String := "/" ++ "/".intercalate place

/-- The folder with one more file, unless there is none or it cannot be read as text. -/
private def addFile (folder : Folder) (place : List String) : IO Folder := do
  try
    return folder.write place (← IO.FS.readFile (written place))
  catch _ => return folder

/-- The folder with a file or with the files of a directory that is not left out. -/
private partial def addEntry (place : List String) (folder : Folder) (entry : IO.FS.DirEntry) : IO Folder := do
  let place := place ++ [entry.fileName]
  if ← entry.path.isDir then
    if entry.fileName = dataDirectory || folder.admits place true then
      let entries ← try entry.path.readDir catch _ => pure #[]
      let folder ← ignoreFiles.foldlM (fun folder name => addFile folder (place ++ [name])) folder
      entries.foldlM (addEntry place) folder
    else return folder
  else addFile folder place

/-- The files at a place and the ignore files in the directories around it. -/
private def readFolder (place : List String) : IO Folder := do
  let around := (List.range (place.length + 1)).map place.take
  let rules := around.flatMap fun directory => ignoreFiles.map fun name => directory ++ [name]
  let folder ← rules.foldlM addFile (← addFile {} place)
  let entries ← try (← IO.FS.realPath (written place)).readDir catch _ => pure #[]
  entries.foldlM (addEntry place) folder

/-- Writes the report of a root, if a command has changed it. -/
private def keepReport (root : Root) (before after : Folder) : IO Unit := do
  let text := after.read? root.reportPlace
  if text != before.read? root.reportPlace then
    IO.FS.createDirAll (written (root.place ++ [dataDirectory]))
    IO.FS.writeFile (written root.reportPlace) (text.getD "")

def run (arguments : List String) : IO UInt32 := do
  let directory := (← IO.currentDir).toString
  let current : Root := ⟨directory, pathNames directory⟩
  let root := ((Invocation.parse? arguments).map fun invocation => invocation.root current).getD current
  let folder ← readFolder root.place
  let outcome := Project.run folder current (← environment) (← now) arguments .standard
  keepReport root folder outcome.folder
  IO.print outcome.output
  IO.eprint outcome.notice
  return UInt32.ofNat outcome.exitCode

end CallAtlas.Main

def main (arguments : List String) : IO UInt32 := CallAtlas.Main.run arguments

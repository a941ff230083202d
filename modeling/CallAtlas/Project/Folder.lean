import CallAtlas.Project.Ignore
import CallAtlas.SourceFile

/-! Folders of text files, the place of a project in one, and the files of a project that are not left out. -/
namespace CallAtlas.Project

/-- Text files by their path: the names of directories from the outside inward and the name of the file. -/
structure Folder where
  files : List (List String × String) := []

namespace Folder

def read? (folder : Folder) (path : List String) : Option String :=
  (folder.files.find? fun file => file.1 == path).map (·.2)

def isDirectory (folder : Folder) (path : List String) : Bool :=
  folder.files.any fun file => path.isPrefixOf file.1 && path != file.1

def contains (folder : Folder) (path : List String) : Bool :=
  (folder.read? path).isSome || folder.isDirectory path

/-- Whether a directory of this path is there or could be made: no file is in its way. -/
def admitsDirectory (folder : Folder) (path : List String) : Bool :=
  folder.files.all fun file => !file.1.isPrefixOf path

def erase (folder : Folder) (path : List String) : Folder :=
  ⟨folder.files.filter fun file => file.1 != path⟩

def write (folder : Folder) (path : List String) (text : String) : Folder :=
  ⟨(path, text) :: (folder.erase path).files⟩

end Folder

def pathNames (path : String) : List String :=
  ((path.toList.splitOn '/').map String.ofList).filter fun name => name != "" && name != "."

/-- The root of a project: how it is written, and where in a folder it is. -/
structure Root where
  written : String
  place : List String

namespace Root

private def enter (place : List String) (name : String) : List String :=
  if name = ".." then place.dropLast else place ++ [name]

/-- The root that a path leads to from another one. A slash at the start leads from the outside. -/
def follow (current : Root) (path : String) : Root :=
  ⟨path, (pathNames path).foldl enter (if path.startsWith "/" then [] else current.place)⟩

def join (root : Root) (path : String) : String :=
  if root.written.endsWith "/" then root.written ++ path else root.written ++ "/" ++ path

end Root

/-- Names of ignore files, those that decide first in front. -/
def ignoreFiles : List String := [".methodmapignore", ".ignore"]

private def joinNames (names : List String) : String := "/".intercalate names

/-- What the ignore files of one name say about a path, those of inner directories first. -/
private def verdictOf? (folder : Folder) (ignoreFile : String) (path : List String) (isDirectory : Bool) :
    Option Ignore.Verdict :=
  (List.range path.length).reverse.findSome? fun depth => do
    let text ← folder.read? (path.take depth ++ [ignoreFile])
    (Ignore.ofText text).verdict? (joinNames (path.drop depth)) isDirectory

/-- Whether a path is not left out. Without a word about it, what begins with a dot is. -/
def Folder.admits (folder : Folder) (path : List String) (isDirectory : Bool) : Bool :=
  match ignoreFiles.findSome? fun ignoreFile => verdictOf? folder ignoreFile path isDirectory with
  | some .ignored => false
  | some .admitted => true
  | none => !(path.getLastD "").startsWith "."

/-- Whether a file below a place is not left out, and no directory on the way to it is. -/
private def reaches (folder : Folder) (place below : List String) : Bool :=
  ((List.range below.length).drop 1).all (fun count => folder.admits (place ++ below.take count) true) &&
    (below.isEmpty || folder.admits (place ++ below) false)

/-- The files below a root that are not left out, by their paths from there. -/
def Folder.filesBelow (folder : Folder) (root : Root) : List (String × List String × String) :=
  folder.files.filterMap fun (path, text) =>
    if root.place.isPrefixOf path then
      let below := path.drop root.place.length
      if reaches folder root.place below then some (joinNames below, path, text) else none
    else none

/-- The source files below a root that some extractor reads and that the globs select, by ascending path. -/
def Folder.sources (folder : Folder) (root : Root) (supports : Language → Bool) (selects : String → Bool) :
    List SourceFile :=
  let found := (folder.filesBelow root).filterMap fun (below, path, text) =>
    let language := Language.ofPath (joinNames path)
    if supports language && selects below then
      some (SourceFile.ofText (below.replace "\\" "/") language text)
    else none
  found.mergeSort fun first second => decide (first.path ≤ second.path)

end CallAtlas.Project

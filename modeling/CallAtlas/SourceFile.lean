import CallAtlas.Language
import CallAtlas.Text.Lines

/-! Source files. A file carries a declared line count; the smaller of the declared and the actual count bounds
every line number that is produced from it. -/
namespace CallAtlas

structure SourceFile where
  path : String
  language : Language
  content : String
  totalLines : Nat
  deriving DecidableEq, Repr

namespace SourceFile

def lines (file : SourceFile) : List (List Char) := Text.lines file.content.toList

def ofText (path : String) (language : Language) (content : String) : SourceFile :=
  { path, language, content, totalLines := (Text.lines content.toList).length }

def detect (path : String) (content : String) : SourceFile := ofText path (Language.ofPath path) content

/-- The greatest line number that may be reported for the file. -/
def lineLimit (file : SourceFile) : Nat := min file.totalLines file.lines.length

/-- The lines up to the limit: what the extractors read. -/
def sourceLines (file : SourceFile) : List (List Char) := file.lines.take file.lineLimit

private def isSeparator (c : Char) : Bool := c == '/' || c == '\\'

/-- The last component of the path, or the whole path when it ends in a separator. -/
def fileName (file : SourceFile) : String :=
  match (file.path.toList.reverse.takeWhile fun c => !isSeparator c).reverse with
  | [] => file.path
  | name => String.ofList name

end SourceFile
end CallAtlas

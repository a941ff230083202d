import CallAtlas.Project.Glob
import CallAtlas.Text.Cut
import CallAtlas.Text.Lines

/-! Files that list what to leave out of a project, one pattern a line. The last line that matches decides, and a line
with an exclamation mark lets in what it matches. -/
namespace CallAtlas.Project

namespace Ignore

/-- What the lines of an ignore file say about a path. -/
inductive Verdict where
  | ignored
  | admitted
  deriving DecidableEq, Repr

structure Rule where
  glob : Glob
  verdict : Verdict
  onlyDirectories : Bool

private def globRules : Glob.Rules := { slashIsSpecial := true, bareBrackets := true }

/-- Takes a slash from the end of a pattern, with the backslash before it. -/
private def withoutSlash (pattern : List Char) : List Char × Bool :=
  match pattern.reverse with
  | '/' :: '\\' :: rest => (rest.reverse, true)
  | '/' :: rest => (rest.reverse, true)
  | _ => (pattern, false)

/-- A pattern without a slash matches in every directory. One that ends in all that is below a directory does not
match the directory. -/
private def widened (pattern : List Char) (fixed : Bool) : List Char :=
  let anywhere := !fixed && !pattern.contains '/' && !Text.startsWith "**/" pattern && pattern != ['*', '*']
  let pattern := if anywhere then "**/".toList ++ pattern else pattern
  if Text.endsWith "/**" pattern then pattern ++ ['/', '*'] else pattern

def Rule.ofLine? (line : List Char) : Option Rule := do
  let line := if Text.endsWith "\\ " line then line else Text.trimEnd line
  if line.isEmpty || Text.startsWith "#" line then none
  else
    let (line, verdict, fixed) : List Char × Verdict × Bool := match line with
      | '\\' :: '!' :: rest => ('!' :: rest, .ignored, false)
      | '\\' :: '#' :: rest => ('#' :: rest, .ignored, false)
      | '!' :: '/' :: rest => (rest, .admitted, true)
      | '!' :: rest => (rest, .admitted, false)
      | '/' :: rest => (rest, .ignored, true)
      | _ => (line, .ignored, false)
    let (pattern, onlyDirectories) := withoutSlash line
    let glob ← Glob.parse? globRules (String.ofList (widened pattern fixed))
    return { glob, verdict, onlyDirectories }

end Ignore

/-- The rules of one ignore file, in the order of its lines. -/
structure Ignore where
  rules : List Ignore.Rule

namespace Ignore

def ofText (text : String) : Ignore := ⟨(Text.lines text.toList).filterMap Rule.ofLine?⟩

def verdict? (ignore : Ignore) (path : String) (isDirectory : Bool) : Option Verdict :=
  (ignore.rules.reverse.find? fun rule =>
    (isDirectory || !rule.onlyDirectories) && rule.glob.isMatch path).map (·.verdict)

end Ignore
end CallAtlas.Project

import CallAtlas.Definition
import CallAtlas.Diagnostic

/-! What the reading of a script yields before calls are accepted and given to their owners. -/
namespace CallAtlas.Script

/-- A name used like a call: before an argument list, after `new`, or as the name of an element. -/
structure Candidate where
  name : String
  line : Nat
  deriving DecidableEq, Repr

structure Scan where
  definitions : List Definition := []
  candidates : List Candidate := []
  diagnostics : List Diagnostic := []
  deriving DecidableEq, Repr

def Scan.append (first second : Scan) : Scan :=
  { definitions := first.definitions ++ second.definitions
    candidates := first.candidates ++ second.candidates
    diagnostics := first.diagnostics ++ second.diagnostics }

instance : Append Scan := ⟨Scan.append⟩

end CallAtlas.Script

import CallAtlas.Analysis
import CallAtlas.SourceFile
import CallAtlas.Text.Lines

/-! What an extractor is and what it yields. An extractor reads one file twice: once for its definitions and
once, knowing the names of the corpus, for its call sites. Either reading may break down. -/
namespace CallAtlas

structure Extraction where
  definitions : List Definition := []
  templateCalls : List TemplateCall := []
  diagnostics : List Diagnostic := []
  deriving DecidableEq, Repr

structure Limits where
  block : UInt64
  snippetLength : Nat
  deriving DecidableEq, Repr

namespace Limits

/-- Bounds are at least one. -/
def ofSettings (block : UInt64) (snippetLength : Nat) : Limits := ⟨max block 1, max snippetLength 1⟩

def blockLines (limits : Limits) : Nat := limits.block.toNat

/-- How many of the lines from index `start` on stand before the index `start + block`. That sum is one of machine
words: it starts over at their limit, and then no line stands before it. -/
def window (block : UInt64) (start : Nat) : Nat := (UInt64.ofNat start + block).toNat - start

end Limits

inductive Breakdown where
  | saying (message : String)
  | silent
  deriving DecidableEq, Repr

def Breakdown.message : Breakdown → String
  | saying message => message
  | silent => "unknown panic"

structure Extractor where
  name : String
  supports : Language → Bool
  define : SourceFile → Except Breakdown Extraction
  analyze : SourceFile → Registry → Except Breakdown Extraction

def Extractor.for? (extractors : List Extractor) (language : Language) : Option Extractor :=
  extractors.find? fun extractor => extractor.supports language

/-- Of two numbered definitions the one with fewer lines; the first on a tie. -/
def tighter (best : Option (Nat × Definition)) (entry : Nat × Definition) :
    Option (Nat × Definition) :=
  match best with
  | none => some entry
  | some known => if entry.2.span < known.2.span then some entry else some known

/-- The tightest callable definition around a line, of the best one so far and of those from position `index` on. -/
def innermostFrom (line : Nat) : (index : Nat) → Option (Nat × Definition) → List Definition →
    Option (Nat × Definition)
  | _, best, [] => best
  | index, best, definition :: rest =>
    if definition.kind.isCallable && definition.containsLine line then
      innermostFrom line (index + 1) (tighter best (index, definition)) rest
    else innermostFrom line (index + 1) best rest

/-- The position of the callable definition with the fewest lines around a line; the first on a tie. -/
def innermostCallable? (definitions : List Definition) (line : Nat) : Option Nat :=
  (innermostFrom line 0 none definitions).map (·.1)

def codeOf (lines : List (List Char)) (first last : Nat) : String :=
  if first = 0 ∨ min last lines.length < first then ""
  else String.ofList (Text.joinLines ((lines.take (min last lines.length)).drop (first - 1)))

end CallAtlas

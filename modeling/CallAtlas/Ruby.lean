import CallAtlas.Ruby.Calls
import CallAtlas.Ruby.Definitions

/-! The extractor for Ruby files. -/
namespace CallAtlas.Ruby

open Blanking (Line)

/-- Words and bounds of an extractor. -/
structure Reader where
  vocabulary : Vocabulary
  limits : Limits

namespace Reader

def findMethods (reader : Reader) (file : SourceFile) : List Found :=
  methodsOf file.path reader.limits.block (linesOf file)

def define (reader : Reader) (file : SourceFile) : Extraction :=
  let methods := reader.findMethods file
  { definitions := methods.map (·.definition), diagnostics := methods.filterMap Found.diagnostic? }

/-- The call sites on the lines of a method from line `number` on. Only lines that the method owns count, and
`text` says what of a line is searched. -/
def callsFrom (limits : Limits) (accepts : String → Bool) (owned : Nat → Bool) (locals : List String)
    (number : Nat) : List (List Char × List Char) → List CallSite
  | [] => []
  | (raw, text) :: rest =>
    if owned number then
      let calls := (callNames accepts locals text).map fun name =>
        { callee := name, line := number, snippet := String.ofList (Text.snippet limits.snippetLength raw) }
      calls ++ callsFrom limits accepts owned (localsAfter locals text) (number + 1) rest
    else callsFrom limits accepts owned locals (number + 1) rest

/-- The source lines of a method, each with the cleaned text to search: on the first line, what follows the
header. -/
def searchedLines (lines : List Line) (found : Found) : List (List Char × List Char) :=
  match (lines.take found.definition.endLine).drop (found.definition.startLine - 1) with
  | [] => []
  | first :: rest => (first.raw, found.body) :: rest.map fun line => (line.raw, line.cleaned)

/-- A method with its call sites. -/
def withCalls (reader : Reader) (acceptance : Acceptance) (lines : List Line) (definitions : List Definition)
    (index : Nat) (found : Found) : Definition :=
  let owned (line : Nat) := innermostCallable? definitions line == some index
  let parameterNames := found.definition.parameters.map (·.name)
  found.definition.addCalls
    (callsFrom reader.limits acceptance.accepts owned parameterNames found.definition.startLine
      (searchedLines lines found))

/-- What is accepted as a call in a file with these definitions. -/
def acceptance (reader : Reader) (definitions : List Definition) (registry : Registry) : Acceptance :=
  { vocabulary := reader.vocabulary, corpus := registry, file := Registry.ofDefinitions definitions }

def analyze (reader : Reader) (file : SourceFile) (registry : Registry) : Extraction :=
  let methods := reader.findMethods file
  let definitions := methods.map (·.definition)
  let acceptance := reader.acceptance definitions registry
  { definitions := methods.mapIdx (reader.withCalls acceptance (linesOf file) definitions)
    diagnostics := methods.filterMap Found.diagnostic? }

end Reader

def extractor (reader : Reader) : Extractor where
  name := "ruby"
  supports := fun language => language == .ruby
  define := fun file => .ok (reader.define file)
  analyze := fun file registry => .ok (reader.analyze file registry)

end CallAtlas.Ruby

import CallAtlas.Blanking
import CallAtlas.Extraction
import CallAtlas.Parameters
import CallAtlas.Ruby.Block
import CallAtlas.Vocabulary

/-! Definitions of a Ruby file. The lines are read once from top to bottom; what is carried along is the current
visibility and the extent of a surrounding `class << self` block. -/
namespace CallAtlas.Ruby

open Blanking (Line)

def linesOf (file : SourceFile) : List Line := Blanking.pairLines .ruby file.sourceLines

/-- What holds for the definitions that follow. -/
structure Scope where
  visibility : Visibility := .publicScope
  singletonUntil : Option Nat := none
  deriving DecidableEq, Repr

/-- A method together with the text after its header, and whether its block is closed. -/
structure Found where
  definition : Definition
  body : List Char
  blockEnd : Block.End
  deriving DecidableEq, Repr

inductive Finding where
  | method (found : Found)
  /-- Methods of these names have this visibility, wherever they stand in the file. -/
  | visibility (names : List (List Char)) (visibility : Visibility)
  deriving DecidableEq, Repr

def startsContainer (line : List Char) : Bool :=
  [Text.afterSpacedWord? "class" line, Text.afterSpacedWord? "module" line].any fun rest =>
    (rest.bind List.head?).any Text.isUpper

def startsSingleton (line : List Char) : Bool :=
  match Text.after? "class" line with
  | none => false
  | some rest =>
    match Text.after? "<<" (Text.trimStart rest) with
    | none => false
    | some rest => (Text.after? "self" (Text.trimStart rest)).any Text.atWordEnd

def symbolName? (piece : List Char) : Option (List Char) :=
  match Text.trim piece with
  | ':' :: name =>
    match name.dropWhile Text.isWord with
    | [] => if name.isEmpty then none else some name
    | [mark] => if mark ∈ ['?', '!', '='] ∧ 2 ≤ name.length then some name else none
    | _ => none
  | _ => none

/-- A trimmed line that gives methods a visibility by their names: `private :a, :b`. -/
def visibilityList? (line : List Char) : Option (List (List Char) × Visibility) :=
  match Header.visibilityWord? line with
  | none => none
  | some (visibility, rest) => ((rest.splitOn ',').mapM symbolName?).map fun names => (names, visibility)

/-- The visibility after a trimmed line: a word alone sets it, a new class or module resets it. -/
def visibilityAfter (visibility : Visibility) (line : List Char) : Visibility :=
  if startsContainer line then .publicScope
  else if line = "private".toList then .privateScope
  else if line = "public".toList ∨ line = "protected".toList then .publicScope
  else visibility

/-- Parameters are read from the source line, so that the text of default values survives; when its header
reads differently, from the cleaned one. -/
def parametersOf (raw : List Char) (header : Header) : List Parameter :=
  let source := Header.read? (Text.trim (Blanking.stripComments .ruby raw))
  let list := match source with
    | some written => if written.name = header.name then written.parameters.or header.parameters
      else header.parameters
    | none => header.parameters
  match list with
  | some list => Parameters.parse .ruby list
  | none => []

def isReserved (name : String) : Bool := isKeyword .ruby name || isBuiltin .ruby name

def methodAt (path : String) (limit : UInt64) (scope : Scope) (index : Nat) (line : Line) (rest : List Line)
    (header : Header) : Found :=
  let blockEnd := Block.findEnd limit index line.cleaned (rest.map (·.cleaned))
  let code := ((line :: rest).take (blockEnd.last + 1 - index)).map (·.raw)
  { definition :=
      { name := String.ofList header.name
        kind := if header.onSelf || scope.singletonUntil.isSome then .classMethod else .method
        filePath := path
        startLine := index + 1
        endLine := blockEnd.last + 1
        code := String.ofList (Text.joinLines code)
        visibility := header.visibility.getD scope.visibility
        parameters := parametersOf line.raw header }
    body := header.body
    blockEnd }

def findings (path : String) (limit : UInt64) (scope : Scope) (index : Nat) : List Line → List Finding
  | [] => []
  | line :: rest =>
    let trimmed := Text.trim line.cleaned
    let scope : Scope :=
      { visibility := visibilityAfter scope.visibility trimmed
        singletonUntil := scope.singletonUntil.filter fun last => index ≤ last }
    match visibilityList? trimmed with
    | some (names, visibility) =>
      .visibility names visibility :: findings path limit scope (index + 1) rest
    | none =>
      if startsSingleton trimmed then
        let blockEnd := Block.findEnd limit index line.cleaned (rest.map (·.cleaned))
        findings path limit { scope with singletonUntil := some blockEnd.last } (index + 1) rest
      else
        match Header.read? trimmed with
        | none => findings path limit scope (index + 1) rest
        | some header =>
          if isReserved (String.ofList header.name) then findings path limit scope (index + 1) rest
          else
            .method (methodAt path limit scope index line rest header) ::
              findings path limit scope (index + 1) rest

def foundMethods (all : List Finding) : List Found :=
  all.filterMap fun
    | .method found => some found
    | .visibility .. => none

/-- Name by name, in order, the visibility that lists of names ask for. -/
def requestedVisibilities (all : List Finding) : List (String × Visibility) :=
  all.flatMap fun
    | .method _ => []
    | .visibility names visibility => names.map fun name => (String.ofList name, visibility)

/-- The last request for a name decides. -/
def applyVisibilities (requests : List (String × Visibility)) (definition : Definition) : Definition :=
  requests.foldl
    (fun definition request =>
      if definition.name = request.1 then { definition with visibility := request.2 } else definition)
    definition

def Found.diagnostic? (found : Found) : Option Diagnostic :=
  let malformed (reason : String) : Diagnostic :=
    .malformedConstruct found.definition.filePath found.definition.startLine
      ("method '" ++ found.definition.name ++ "' has " ++ reason)
  match found.blockEnd with
  | .closed _ => none
  | .interrupted _ => some (malformed "no end before the next def")
  | .capped _ => some (malformed "no matching end")

/-- The methods of a file, with their bodies, in order. -/
def methodsOf (path : String) (limit : UInt64) (lines : List Line) : List Found :=
  let all := findings path limit {} 0 lines
  (foundMethods all).map fun found =>
    { found with definition := applyVisibilities (requestedVisibilities all) found.definition }

end CallAtlas.Ruby

import CallAtlas.Blanking
import CallAtlas.Extraction
import CallAtlas.Parameters
import CallAtlas.Script.Clause
import CallAtlas.Script.Pattern
import CallAtlas.Script.Scan

/-! The outline of a script, read line by line without a grammar. Declarations are recognised by how their first
line looks, and their extent is found by counting brackets with a few rules for statements that go on. -/
namespace CallAtlas.Script.Outline

open Blanking (Line)

/-- A statement that ends with one of these goes on in the next line. -/
def enders : List String := ["=>", "=", "(", "?", ":", "||", "&&", "+", "|", "&", ".", "??"]

/-- A line that starts with one of these goes on with the statement before it. -/
def starters : List String := [".", "?.", "?", ":", "||", "&&", "|", "&", "\x7b", "=>", "+", "??"]

/-- Whether the first line that is not blank goes on with the statement before it. -/
def continues : List (List Char) → Bool
  | [] => false
  | line :: rest =>
    let trimmed := Text.trim line
    if trimmed.isEmpty then continues rest else starters.any fun starter => Text.startsWith starter trimmed

/-- The index of the last line of a statement, reading from its line `index` at bracket depth `depth`;
nothing when the lines run out first. -/
def statementEnd? (first : Bool) (depth : Int) (index : Nat) : List (List Char) → Option Nat
  | [] => none
  | line :: rest =>
    let depth := depth + Bracket.delta line
    if depth < 0 then some index
    else if 0 < depth then statementEnd? false depth (index + 1) rest
    else if (Text.trim line).isEmpty && !first then statementEnd? false depth (index + 1) rest
    else if enders.any fun ender => Text.endsWith ender (Text.trimEnd line) then
      statementEnd? false depth (index + 1) rest
    else if continues rest then statementEnd? false depth (index + 1) rest
    else some index

/-- The last line of a statement and whether it is closed there. -/
structure Extent where
  last : Nat
  closed : Bool
  deriving DecidableEq, Repr

/-- The extent of the statement that starts at index `index`, on the first of `lines`, following it through
at most `limit` lines. -/
def extent (limit : UInt64) (index : Nat) (lines : List Line) : Extent :=
  let window := (lines.take (Limits.window limit index)).map (·.cleaned)
  match statementEnd? true 0 index window with
  | some last => ⟨last, true⟩
  | none => ⟨max (index + window.length - 1) index, false⟩

def braceDelta (line : List Char) : Int :=
  line.foldr (fun c total => (if c = '{' then 1 else if c = '}' then -1 else 0) + total) 0

/-- The body of a class, interface, enumeration or type, whose lines are no statements of their own. -/
structure Container where
  kind : Kind
  first : Nat
  last : Nat
  depth : Int
  deriving DecidableEq, Repr

/-- A line to be read: its index, the brace depth at its start, and the lines from it on. -/
structure Spot where
  index : Nat
  depth : Int
  lines : List Line
  deriving Repr

structure Finding where
  definitions : List Definition := []
  headers : List String := []
  diagnostics : List Diagnostic := []
  container : Option Container := none
  deriving Repr

structure Context where
  path : String
  language : Language
  limit : UInt64

namespace Spot

def line (spot : Spot) : Line := spot.lines.headD ⟨[], []⟩

def text (spot : Spot) : List Char := Text.trim spot.line.cleaned

def extent (context : Context) (spot : Spot) : Extent := Outline.extent context.limit spot.index spot.lines

def through (spot : Spot) (last : Nat) : List Line := spot.lines.take (last + 1 - spot.index)

def rawLine (context : Context) (spot : Spot) : List Char :=
  Text.trimStart (Blanking.stripComments context.language spot.line.raw)

/-- The source text of a statement that ends at index `last`, without comments. -/
def rawStatement (context : Context) (spot : Spot) (last : Nat) : List Char :=
  Text.trimStart <| Text.joinLines <|
    (spot.through last).map fun line => Blanking.stripComments context.language line.raw

def cleanedStatement (spot : Spot) (last : Nat) : List Char :=
  Text.trimStart (Text.joinLines ((spot.through last).map (·.cleaned)))

def definition (context : Context) (spot : Spot) (name : List Char) (kind : Kind) (last : Nat) :
    Definition :=
  { name := String.ofList name, kind, filePath := context.path, startLine := spot.index + 1,
    endLine := last + 1, code := String.ofList (Text.joinLines ((spot.through last).map (·.raw))) }

def unclosed (context : Context) (spot : Spot) (extent : Extent) (name : List Char) : List Diagnostic :=
  if extent.closed then []
  else
    [.malformedConstruct context.path (spot.index + 1)
      ("`" ++ String.ofList name ++ "` not closed within " ++ toString context.limit ++ " lines")]

/-- The parameters in the brackets after what `header` reads. The source text is tried first, so that the
text of default values survives, and the cleaned text second. -/
def parametersAfter (context : Context) (spot : Spot) (header : List Char → Option (List Char))
    (last : Nat) : List Parameter :=
  let listIn (text : List Char) := (header text).bind Pattern.inBrackets?
  match (listIn (spot.rawStatement context last)).or (listIn (spot.cleanedStatement last)) with
  | some list => Parameters.parse context.language list
  | none => []

/-- The parameters of the function that stands as a value after what `binder` reads, if one does. -/
def boundParameters? (context : Context) (spot : Spot) (binder : List Char → Option (List Char))
    (last : Nat) : Option (List Parameter) :=
  let listIn (text : List Char) := (binder text).bind Pattern.boundFunction?
  (listIn (spot.cleanedStatement last)).map fun cleaned =>
    Parameters.parse context.language ((listIn (spot.rawStatement context last)).getD cleaned)

end Spot

def importRecord (context : Context) (spot : Spot) (last : Nat) (module : List Char)
    (bindings : List String) : Finding :=
  { definitions :=
      [{ spot.definition context module .importRecord last with
          moduleName := some (String.ofList module), bindings }] }

def import? (context : Context) (spot : Spot) : Option Finding :=
  if Text.startsWith "import" spot.text && Pattern.startsImport (spot.rawLine context) then
    let last := (spot.extent context).last
    let raw := spot.rawStatement context last
    match Pattern.importFrom? raw with
    | some (clause, module) => some (importRecord context spot last module (importBindings clause))
    | none => (Pattern.importBare? raw).map fun module => importRecord context spot last module []
  else none

def require? (context : Context) (spot : Spot) : Option Finding :=
  (Pattern.require? (spot.rawLine context)).map fun (target, module) =>
    let bindings := if target.head? = some '{' then importBindings target else [String.ofList target]
    importRecord context spot (spot.extent context).last module bindings

def exportedNames (context : Context) (spot : Spot) (last : Nat) (list : List Char)
    (module : Option (List Char)) : Finding :=
  { definitions := ((list.splitOn ',').filterMap exportSpecifier?).map fun (inner, exported) =>
      { spot.definition context exported.toList .exportRecord last with
        moduleName := module.map String.ofList, bindings := [inner] } }

def startsExportList (raw : List Char) : Bool :=
  ["export *", "export\x7b", "export \x7b", "export type \x7b"].any fun start => Text.startsWith start raw

/-- An export of a list of names, or of everything from another module. -/
def exportFrom? (context : Context) (spot : Spot) : Option Finding :=
  let last := (spot.extent context).last
  let raw := spot.rawStatement context last
  match Pattern.exportStar? raw with
  | some (name, module) =>
    some { definitions := [{ spot.definition context (name.getD ['*']) .exportRecord last with
      moduleName := some (String.ofList module) }] }
  | none =>
    (Pattern.exportList? raw).map fun (list, module) => exportedNames context spot last list module

def export? (context : Context) (spot : Spot) : Option Finding :=
  if Text.startsWith "export" spot.text then
    let raw := spot.rawLine context
    match Pattern.exportDefault? raw with
    | some name =>
      if String.ofList name ∈ ["function", "class", "async"] then none
      else some { definitions := [{ spot.definition context name .exportRecord spot.index with
        bindings := [String.ofList name] }] }
    | none => if startsExportList raw then exportFrom? context spot else none
  else none

def functionDeclaration (context : Context) (spot : Spot) (name : List Char) : Finding :=
  let extent := spot.extent context
  let kind := functionKind name (spot.cleanedStatement extent.last)
  { definitions := [{ spot.definition context name kind extent.last with
      parameters := spot.parametersAfter context (fun text => (Pattern.function? text).map (·.2)) extent.last }]
    headers := [String.ofList name]
    diagnostics := spot.unclosed context extent name }

def containerDeclaration (context : Context) (spot : Spot) (name : List Char) (kind : Kind) :
    Finding :=
  let extent := spot.extent context
  { definitions := [spot.definition context name kind extent.last]
    diagnostics := spot.unclosed context extent name
    container := some { kind, first := spot.index, last := extent.last, depth := spot.depth + 1 } }

def variableDeclaration (context : Context) (spot : Spot) (name : List Char) : Finding :=
  let extent := spot.extent context
  match spot.boundParameters? context (fun text => (Pattern.boundName? text).map (·.2)) extent.last with
  | none => {}
  | some parameters =>
    let kind := functionKind name (spot.cleanedStatement extent.last)
    { definitions := [{ spot.definition context name kind extent.last with parameters }]
      diagnostics := spot.unclosed context extent name }

/-- The name and the kind of the container that a text declares. -/
def containerHeader? (text : List Char) : Option (List Char × Kind) :=
  ((Pattern.class? text).map fun found => (found.1, Kind.classType)).or <|
  ((Pattern.interface? text).map fun found => (found.1, Kind.interfaceType)).or <|
  ((Pattern.enumeration? text).map fun found => (found.1, Kind.enumeration)).or <|
  (Pattern.alias? text).map fun found => (found.1, Kind.typeAlias)

/-- A declaration of a function, a container, or a variable that holds a function. -/
def declaration (context : Context) (spot : Spot) : Finding :=
  match Pattern.function? spot.text with
  | some (name, _) => functionDeclaration context spot name
  | none =>
    match containerHeader? spot.text with
    | some (name, kind) => containerDeclaration context spot name kind
    | none =>
      match Pattern.boundName? spot.text with
      | some (name, _) => variableDeclaration context spot name
      | none => {}

/-- A statement outside of containers, or deeper inside a class than its members. -/
def statement (context : Context) (spot : Spot) : Finding :=
  match ((import? context spot).or (require? context spot)).or (export? context spot) with
  | some finding => finding
  | none => declaration context spot

def memberDefinition (context : Context) (spot : Spot) (member : Pattern.Member) (extent : Extent)
    (parameters : List Parameter) : Definition :=
  let name := member.name.dropWhile (· == '#')
  let kind := if "static" ∈ member.modifiers then Kind.classMethod else .method
  { spot.definition context name kind extent.last with
    parameters
    visibility := if "private" ∈ member.modifiers ∨ member.name.head? = some '#' then .privateScope
      else .publicScope }

/-- A member of a class: a method, or a field that holds a function. -/
def classMember (context : Context) (spot : Spot) : Finding :=
  let extent := spot.extent context
  let bareName (member : Pattern.Member) := member.name.dropWhile (· == '#')
  match Pattern.classMethod? spot.text with
  | some member =>
    let parameters :=
      spot.parametersAfter context (fun text => (Pattern.classMethod? text).map (·.rest)) extent.last
    { definitions := [memberDefinition context spot member extent parameters]
      headers := [String.ofList (bareName member)]
      diagnostics := spot.unclosed context extent (bareName member) }
  | none =>
    match Pattern.classField? spot.text with
    | none => {}
    | some member =>
      match spot.boundParameters? context (fun text => (Pattern.classField? text).map (·.rest)) extent.last with
      | none => {}
      | some parameters =>
        { definitions := [memberDefinition context spot member extent parameters]
          diagnostics := spot.unclosed context extent (bareName member) }

/-- A member of an interface: a method, or a property whose type is a function. -/
def interfaceMember (context : Context) (spot : Spot) : Finding :=
  let member (name : List Char) (header : List Char → Option (List Char × List Char)) : Finding :=
    let last := (spot.extent context).last
    { definitions := [{ spot.definition context name .interfaceMethod last with
        parameters := spot.parametersAfter context (fun text => (header text).map (·.2)) last }]
      headers := [String.ofList name] }
  match Pattern.interfaceMethod? spot.text with
  | some (name, _) => member name Pattern.interfaceMethod?
  | none =>
    match Pattern.interfaceProperty? spot.text with
    | some (name, _) => member name Pattern.interfaceProperty?
    | none => {}

def finding (context : Context) (containers : List Container) (spot : Spot) : Finding :=
  if spot.text.isEmpty then {}
  else
    match containers.find? fun c => c.first < spot.index && spot.index ≤ c.last with
    | none => statement context spot
    | some container =>
      if container.kind = .classType then
        if spot.depth = container.depth then classMember context spot else statement context spot
      else if container.kind = .interfaceType ∧ spot.depth = container.depth then
        interfaceMember context spot
      else {}

def isWordBefore (before : Option Char) : Bool :=
  before.any fun c => Text.isAlphanumeric c || c == '_' || c == '$'

/-- The names before argument lists that are calls; each header is passed over once. -/
def callsBeyond (headers : List String) : List (Option Char × List Char) → List String
  | [] => []
  | (before, name) :: rest =>
    let name := String.ofList name
    if isWordBefore before then callsBeyond headers rest
    else if headers.contains name then callsBeyond (headers.erase name) rest
    else name :: callsBeyond headers rest

def elementNames (line : List Char) : List String :=
  ((Text.occurrences Pattern.element line).filter fun found => !isWordBefore found.1).map fun found =>
    String.ofList found.2

/-- The candidates of a cleaned line: names before argument lists first, then elements. -/
def candidatesOn (number : Nat) (headers : List String) (line : List Char) : List Candidate :=
  (callsBeyond headers (Text.occurrences Pattern.call line) ++ elementNames line).map fun name =>
    ⟨name, number⟩

/-- Reads the lines from a spot on. -/
def read (context : Context) (containers : List Container) (index : Nat) (depth : Int) :
    List Line → Scan
  | [] => {}
  | line :: rest =>
    let finding := finding context containers { index, depth, lines := line :: rest }
    { definitions := finding.definitions
      candidates := candidatesOn (index + 1) finding.headers line.cleaned
      diagnostics := finding.diagnostics : Scan } ++
      read context (finding.container.toList ++ containers) (index + 1) (depth + braceDelta line.cleaned) rest

def scan (file : SourceFile) (limits : Limits) : Scan :=
  let context : Context := { path := file.path, language := file.language, limit := limits.block }
  read context [] 0 0 (Blanking.pairLines file.language file.sourceLines)

end CallAtlas.Script.Outline

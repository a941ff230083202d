import CallAtlas.Edge
import CallAtlas.Extraction
import CallAtlas.Language
import CallAtlas.Text.Bytes
import CallAtlas.Text.Cut

/-! Settings of an analysis: bounds of the line readers, how scripts are read, how many lines an edge keeps, and
names that are allowed as calls per language. -/
namespace CallAtlas

/-- How scripts are to be read. -/
inductive ScriptPreference where
  | auto
  | heuristic
  deriving DecidableEq, Repr, Inhabited

namespace ScriptPreference

def all : List ScriptPreference := [auto, heuristic]

def tag : ScriptPreference → String
  | auto => "auto"
  | heuristic => "heuristic"

def ofTag? (tag : String) : Option ScriptPreference := all.find? fun preference => preference.tag == tag

/-- The preference with a given name, in any ASCII case. -/
def ofName? (name : String) : Option ScriptPreference :=
  match Text.lowered name with
  | "auto" | "ast" => some auto
  | "heuristic" | "regex" => some heuristic
  | _ => none

/-- What is said about a name that is no preference. -/
def unknownName (name : String) : String := "unknown js strategy '" ++ Text.lowered name ++ "'"

/-- The way of reading that a preference selects, by name. -/
def strategyName : ScriptPreference → String
  | auto => "ast"
  | heuristic => "heuristic"

end ScriptPreference

structure Settings where
  blockLines : UInt64 := 1000
  snippetLength : Nat := 160
  scripts : ScriptPreference := .auto
  edgeLines : Nat := Edge.usualRoom
  parallel : Bool := true
  /-- Names allowed as calls, by language tag, in ascending order of tags. -/
  allowlist : List (String × List String) := []
  deriving DecidableEq, Repr

namespace Settings

def limits (settings : Settings) : Limits :=
  Limits.ofSettings settings.blockLines settings.snippetLength

/-- The names allowed as calls in a language. -/
def extraNames (settings : Settings) (language : Language) : List String :=
  ((settings.allowlist.find? fun entry => entry.1 == language.name).map (·.2)).getD []

/-- Settings that no reader can work with. -/
inductive Fault where
  | noBlockLines
  | noSnippetLength
  deriving DecidableEq, Repr

def Fault.message : Fault → String
  | noBlockLines => "scan.max_block_lines must be greater than 0"
  | noSnippetLength => "scan.max_snippet_len must be greater than 0"

def validate (settings : Settings) : Except Fault Settings :=
  if settings.blockLines = 0 then .error .noBlockLines
  else if settings.snippetLength = 0 then .error .noSnippetLength
  else .ok settings

/-- Puts an entry at its place in an ascending list of tags; an entry with the same tag is replaced. -/
def placeEntry (tag : String) (names : List String) :
    List (String × List String) → List (String × List String)
  | [] => [(tag, names)]
  | (head, known) :: rest =>
    if tag < head then (tag, names) :: (head, known) :: rest
    else if tag = head then (tag, names) :: rest
    else (head, known) :: placeEntry tag names rest

/-- The allowlist with canonical tags. Of several tags of one language the last in order counts. -/
def canonicalAllowlist (allowlist : List (String × List String)) : List (String × List String) :=
  allowlist.foldl (fun known (tag, names) => placeEntry (Language.ofTag tag).name names known) []

/-- Environment variables, by name. -/
abbrev Environment := List (String × String)

namespace Variable

def blockLines : String := "METHODMAP_MAX_BLOCK_LINES"

def snippetLength : String := "METHODMAP_MAX_SNIPPET_LEN"

def scripts : String := "METHODMAP_JS_STRATEGY"

def edgeLines : String := "METHODMAP_MAX_EDGE_LINES"

def parallel : String := "METHODMAP_PARALLEL"

/-- The names of all variables that override a setting. -/
def all : List String := [blockLines, snippetLength, scripts, edgeLines, parallel]

end Variable

private def isNumber (text : List Char) : Bool := !text.isEmpty && text.all Text.isDigit

private def digitsValue (digits : List Char) : Nat :=
  digits.foldl (fun value digit => value * 10 + (digit.toNat - '0'.toNat)) 0

/-- An unsigned number of 64 bits, with an optional plus sign. -/
def number? (text : String) : Option Nat :=
  let digits := match text.toList with
    | '+' :: rest => rest
    | chars => chars
  if isNumber digits && digitsValue digits < Text.wordLimit then some (digitsValue digits) else none

def truth? : String → Option Bool
  | "true" => some true
  | "false" => some false
  | _ => none

private def lookup? (environment : Environment) (name : String) : Option String :=
  (environment.find? fun entry => entry.1 == name).map (·.2)

/-- Settings with what the environment overrides; a value that cannot be read overrides nothing. -/
def override (environment : Environment) (settings : Settings) : Settings :=
  let value (name : String) : Option String := lookup? environment name
  { settings with
    blockLines := (((value Variable.blockLines).bind number?).map UInt64.ofNat).getD settings.blockLines
    snippetLength := ((value Variable.snippetLength).bind number?).getD settings.snippetLength
    scripts := ((value Variable.scripts).bind ScriptPreference.ofName?).getD settings.scripts
    edgeLines := ((value Variable.edgeLines).bind number?).getD settings.edgeLines
    parallel := ((value Variable.parallel).bind truth?).getD settings.parallel }

/-- Settings as they are used: with canonical tags, overridden by the environment, and checked. -/
def prepare (environment : Environment) (settings : Settings) : Except Fault Settings :=
  validate (override environment { settings with allowlist := canonicalAllowlist settings.allowlist })

end Settings
end CallAtlas

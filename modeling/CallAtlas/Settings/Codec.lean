import CallAtlas.Json.Record
import CallAtlas.Settings
import CallAtlas.Toml

/-! Settings as JSON values and as the text of a configuration file. Whatever is missing has its usual value. -/
namespace CallAtlas.Settings

open Json (natural)

/-- A field that keeps its usual value when it is missing. -/
def orElse {α : Type} (usual : α) (read? : Json → Option α) : Option Json → Option α
  | none => some usual
  | some value => read? value

def readScan? (settings : Settings) (value : Json) : Option Settings :=
  match Json.record? ["max_block_lines", "max_snippet_len", "js_strategy"] value with
  | some [blockLines, snippetLength, scripts] => do
    return { settings with
      blockLines := ← orElse settings.blockLines (fun value => (Json.natural? value).map UInt64.ofNat) blockLines
      snippetLength := ← orElse settings.snippetLength Json.natural? snippetLength
      scripts := ← orElse settings.scripts (Json.choice? ScriptPreference.ofTag?) scripts }
  | _ => none

def readGraph? (settings : Settings) (value : Json) : Option Settings :=
  match Json.record? ["max_representative_lines"] value with
  | some [edgeLines] => do
    return { settings with edgeLines := ← orElse settings.edgeLines Json.natural? edgeLines }
  | _ => none

def readAnalysis? (settings : Settings) (value : Json) : Option Settings :=
  match Json.record? ["parallel"] value with
  | some [parallel] => do return { settings with parallel := ← orElse settings.parallel Json.bool? parallel }
  | _ => none

def readAllowlist? (settings : Settings) : Json → Option Settings
  | .object fields => do
    let entries ← fields.mapM fun (tag, names) => do return (tag, ← Json.list? Json.string? names)
    return { settings with
      allowlist := entries.foldl (fun known (tag, names) => placeEntry tag names known) [] }
  | _ => none

def part? (read? : Settings → Json → Option Settings) (value : Option Json)
    (settings : Settings) : Option Settings :=
  match value with
  | none => some settings
  | some value => read? settings value

/-- Reads settings as they are, without checking them. -/
def read? (value : Json) : Option Settings :=
  match Json.record? ["scan", "graph", "analysis", "allowlist"] value with
  | some [scan, graph, analysis, allowlist] => do
    let settings ← part? readScan? scan {}
    let settings ← part? readGraph? graph settings
    let settings ← part? readAnalysis? analysis settings
    part? readAllowlist? allowlist settings
  | _ => none

def write (settings : Settings) : Json :=
  .object
    [("scan", .object [("max_block_lines", natural settings.blockLines.toNat),
      ("max_snippet_len", natural settings.snippetLength), ("js_strategy", .string settings.scripts.tag)]),
     ("graph", .object [("max_representative_lines", natural settings.edgeLines)]),
     ("analysis", .object [("parallel", .bool settings.parallel)]),
     ("allowlist", .object (settings.allowlist.map fun (tag, names) => (tag, Json.strings names)))]

/-- Why settings could not be loaded. -/
inductive LoadFault where
  | unreadable
  | invalid (fault : Fault)
  deriving DecidableEq, Repr

/-- Settings from the text of a configuration file, if there is one, and from the environment. -/
def load (configuration : Option String) (environment : Environment)
    (parse? : String → Option Json := Toml.parse?) : Except LoadFault Settings := do
  let settings ← match configuration with
    | none => .ok {}
    | some text =>
      match (parse? text).bind read? with
      | some settings => .ok settings
      | none => .error .unreadable
  match prepare environment settings with
  | .ok settings => .ok settings
  | .error fault => .error (.invalid fault)

end CallAtlas.Settings

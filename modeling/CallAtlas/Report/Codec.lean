import CallAtlas.Analysis
import CallAtlas.Json.Record
import CallAtlas.SourceFile

/-! The model as JSON values: every record has a writer and a reader, and what the writer leaves out the reader
takes for unset or empty. -/
namespace CallAtlas

open Json (string natural)

def Language.write (language : Language) : Json := string language.name

def Language.read? (value : Json) : Option Language := Json.choice? (fun tag => some (Language.ofName tag)) value

namespace SourceFile

def write (file : SourceFile) : Json :=
  .object [("path", string file.path), ("language", file.language.write),
    ("rawContent", string file.content), ("totalLines", natural file.totalLines)]

def read? (value : Json) : Option SourceFile :=
  match Json.record? ["path", "language", "rawContent", "totalLines"] value with
  | some [path, language, content, totalLines] => do
    return { path := ← Json.required Json.string? path
             language := ← Json.required Language.read? language
             content := ← Json.required Json.string? content
             totalLines := ← Json.required Json.natural? totalLines }
  | _ => none

end SourceFile

namespace Parameter

def write (parameter : Parameter) : Json :=
  .object (("name", string parameter.name) :: Json.fieldOf "type" string parameter.type ++
    Json.fieldOf "defaultValue" string parameter.defaultValue ++
    Json.fieldOf "kind" (fun passing => string passing.tag) parameter.passing)

def read? (value : Json) : Option Parameter :=
  match Json.record? ["name", "type", "defaultValue", "kind"] value with
  | some [name, type, defaultValue, passing] => do
    return { name := ← Json.required Json.string? name
             type := ← Json.optional Json.string? type
             defaultValue := ← Json.optional Json.string? defaultValue
             passing := ← Json.optional (Json.choice? Passing.ofTag?) passing }
  | _ => none

end Parameter

namespace CallSite

def write (call : CallSite) : Json :=
  .object ([("methodName", string call.callee), ("line", natural call.line),
    ("snippet", string call.snippet)] ++ Json.fieldOf "importLine" natural call.importLine)

def read? (value : Json) : Option CallSite :=
  match Json.record? ["methodName", "line", "snippet", "importLine"] value with
  | some [callee, line, snippet, importLine] => do
    return { callee := ← Json.required Json.string? callee
             line := ← Json.required Json.natural? line
             snippet := ← Json.required Json.string? snippet
             importLine := ← Json.optional Json.natural? importLine }
  | _ => none

end CallSite

namespace Definition

def write (definition : Definition) : Json :=
  .object ([("name", string definition.name), ("kind", string definition.kind.tag),
    ("filePath", string definition.filePath), ("startLine", natural definition.startLine),
    ("endLine", natural definition.endLine), ("code", string definition.code),
    ("visibility", string definition.visibility.tag),
    ("parameters", .array (definition.parameters.map Parameter.write)),
    ("calls", .array (definition.calls.map CallSite.write))] ++
    Json.fieldOf "module" string definition.moduleName ++
    Json.fieldOfList "bindings" string definition.bindings)

def read? (value : Json) : Option Definition :=
  match Json.record? ["name", "kind", "filePath", "startLine", "endLine", "code", "visibility",
    "parameters", "calls", "module", "bindings"] value with
  | some [name, kind, filePath, startLine, endLine, code, visibility, parameters, calls, module, bindings] => do
    return { name := ← Json.required Json.string? name
             kind := ← Json.required (Json.choice? Kind.ofTag?) kind
             filePath := ← Json.required Json.string? filePath
             startLine := ← Json.required Json.natural? startLine
             endLine := ← Json.required Json.natural? endLine
             code := ← Json.required Json.string? code
             visibility := ← Json.required (Json.choice? Visibility.ofTag?) visibility
             parameters := ← Json.listOrEmpty Parameter.read? parameters
             calls := ← Json.listOrEmpty CallSite.read? calls
             moduleName := ← Json.optional Json.string? module
             bindings := ← Json.listOrEmpty Json.string? bindings }
  | _ => none

end Definition

namespace Endpoint

def write (endpoint : Endpoint) : Json :=
  .object [("name", string endpoint.name), ("filePath", string endpoint.filePath)]

def read? (value : Json) : Option Endpoint :=
  match Json.record? ["name", "filePath"] value with
  | some [name, filePath] => do
    return { name := ← Json.required Json.string? name, filePath := ← Json.required Json.string? filePath }
  | _ => none

end Endpoint

namespace Edge

def write (edge : Edge) : Json :=
  .object [("from", edge.source.write), ("to", edge.target.write), ("count", natural edge.count),
    ("type", string edge.reach.tag), ("lines", Json.naturals edge.lines)]

def read? (value : Json) : Option Edge :=
  match Json.record? ["from", "to", "count", "type", "lines"] value with
  | some [source, target, count, reach, lines] => do
    return { source := ← Json.required Endpoint.read? source
             target := ← Json.required Endpoint.read? target
             count := ← Json.required Json.natural? count
             reach := ← Json.required (Json.choice? Reach.ofTag?) reach
             lines := ← Json.required (Json.list? Json.natural?) lines }
  | _ => none

def Summary.write (summary : Summary) : Json :=
  .object [("edges", natural summary.edges), ("internal", natural summary.internal),
    ("external", natural summary.external), ("resolvedCalls", natural summary.resolvedCalls)]

end Edge

namespace Diagnostic

def write : Diagnostic → Json
  | unsupportedLanguage language =>
    .object [("kind", string "unsupported_language"), ("language", string language)]
  | malformedConstruct path line reason =>
    .object [("kind", string "malformed_construct"), ("path", string path), ("line", natural line),
      ("reason", string reason)]
  | parserUnavailable reason =>
    .object [("kind", string "parser_unavailable"), ("reason", string reason)]
  | unexpected path message =>
    .object [("kind", string "unexpected"), ("path", string path), ("message", string message)]

def readAs? (kind : String) (content : Json) : Option Diagnostic :=
  match kind with
  | "unsupported_language" =>
    match Json.record? ["language"] content with
    | some [language] => (Json.required Json.string? language).map unsupportedLanguage
    | _ => none
  | "malformed_construct" =>
    match Json.record? ["path", "line", "reason"] content with
    | some [path, line, reason] => do
      return malformedConstruct (← Json.required Json.string? path) (← Json.required Json.natural? line)
        (← Json.required Json.string? reason)
    | _ => none
  | "parser_unavailable" =>
    match Json.record? ["reason"] content with
    | some [reason] => (Json.required Json.string? reason).map parserUnavailable
    | _ => none
  | "unexpected" =>
    match Json.record? ["path", "message"] content with
    | some [path, message] => do
      return unexpected (← Json.required Json.string? path) (← Json.required Json.string? message)
    | _ => none
  | _ => none

/-- The kind comes with the other fields, or as the first item of an array. -/
def read? : Json → Option Diagnostic
  | .array (.string kind :: items) => readAs? kind (.array items)
  | .object fields =>
    match Json.record? ["kind"] (.object fields) with
    | some [some (.string kind)] => readAs? kind (.object fields)
    | _ => none
  | _ => none

end Diagnostic

namespace TemplateCall

def write (call : TemplateCall) : Json :=
  .object [("name", string call.name), ("lines", Json.naturals call.lines), ("count", natural call.count)]

def read? (value : Json) : Option TemplateCall :=
  match Json.record? ["name", "lines", "count"] value with
  | some [name, lines, count] => do
    return { name := ← Json.required Json.string? name
             lines := ← Json.required (Json.list? Json.natural?) lines
             count := ← Json.required Json.natural? count }
  | _ => none

end TemplateCall

namespace FileAnalysis

def write (file : FileAnalysis) : Json :=
  .object ([("path", string file.path), ("language", file.language.write),
    ("methods", .array (file.definitions.map Definition.write))] ++
    Json.fieldOfList "templateCalls" TemplateCall.write file.templateCalls ++
    Json.fieldOfList "diagnostics" Diagnostic.write file.diagnostics)

def read? (value : Json) : Option FileAnalysis :=
  match Json.record? ["path", "language", "methods", "templateCalls", "diagnostics"] value with
  | some [path, language, definitions, templateCalls, diagnostics] => do
    return { path := ← Json.required Json.string? path
             language := ← Json.required Language.read? language
             definitions := ← Json.required (Json.list? Definition.read?) definitions
             templateCalls := ← Json.listOrEmpty TemplateCall.read? templateCalls
             diagnostics := ← Json.listOrEmpty Diagnostic.read? diagnostics }
  | _ => none

end FileAnalysis

namespace Registry

def write (registry : Registry) : Json := .object [("names", Json.strings registry.names)]

def read? (value : Json) : Option Registry :=
  match Json.record? ["names"] value with
  | some [names] => (Json.required (Json.list? Json.string?) names).map ofList
  | _ => none

end Registry
end CallAtlas

import CallAtlas.Ruby
import CallAtlas.Script
import CallAtlas.Template

/-! Analysis of a corpus in two passes. The first pass gathers the names that the files define, the second reads
each file against all of them. A breakdown of an extractor costs only the file that it was reading. -/
namespace CallAtlas

namespace Settings

def ruby (settings : Settings) : Ruby.Reader where
  vocabulary := ⟨.ruby, settings.extraNames .ruby⟩
  limits := settings.limits

/-- Scripts of all dialects share the names that are allowed in one of them. -/
def script (parse? : Script.Tree.Parser) (settings : Settings) : Script.Reader where
  parse?
  preference := settings.scripts
  vocabulary := ⟨.javascript, [.javascript, .typescript, .tsx].flatMap settings.extraNames⟩
  limits := settings.limits

/-- Templates hold Ruby and allow what Ruby files do. -/
def template (settings : Settings) : Vocabulary := ⟨.erb, [.ruby, .erb].flatMap settings.extraNames⟩

end Settings

/-- Settings together with the extractors that read the files. -/
structure Analyzer where
  settings : Settings
  extractors : List Extractor

namespace Analyzer

/-- The extractors for Ruby, templates and scripts, whose syntax trees are read by `parse?`. -/
def extractorsWith (parse? : Script.Tree.Parser) (settings : Settings) : List Extractor :=
  [Ruby.extractor settings.ruby, Template.extractor settings.template settings.limits,
   Script.extractor (settings.script parse?)]

def standardExtractors : Settings → List Extractor := extractorsWith Script.Tree.parse?

def standardWith (parse? : Script.Tree.Parser) (settings : Settings) : Analyzer :=
  ⟨settings, extractorsWith parse? settings⟩

def standard : Settings → Analyzer := standardWith Script.Tree.parse?

def extractor? (analyzer : Analyzer) (language : Language) : Option Extractor :=
  Extractor.for? analyzer.extractors language

/-- The definitions of one file without their call sites; none when its extractor breaks down. -/
def definitionsIn (analyzer : Analyzer) (file : SourceFile) : List Definition :=
  match analyzer.extractor? file.language with
  | none => []
  | some extractor =>
    match extractor.define file with
    | .ok extraction => extraction.definitions
    | .error _ => []

def namesIn (analyzer : Analyzer) (file : SourceFile) : Registry := .ofDefinitions (analyzer.definitionsIn file)

/-- First pass: the names that the files define. -/
def collectNames (analyzer : Analyzer) (files : List SourceFile) : Registry :=
  files.foldl (fun registry file => registry.union (analyzer.namesIn file)) .empty

def startsWithin (limit : Nat) (definition : Definition) : Bool :=
  1 ≤ definition.startLine && definition.startLine ≤ limit

/-- A definition with its end moved into the first `limit` lines and without calls outside of it. -/
def confine (limit : Nat) (definition : Definition) : Definition :=
  let last := min (max definition.endLine definition.startLine) limit
  { definition with
    endLine := last
    calls := definition.calls.filter fun call => definition.startLine ≤ call.line && call.line ≤ last }

def withinFile (file : SourceFile) (definitions : List Definition) : List Definition :=
  (definitions.filter (startsWithin file.lineLimit)).map (confine file.lineLimit)

def analyzeFile (analyzer : Analyzer) (registry : Registry) (file : SourceFile) : FileAnalysis :=
  match analyzer.extractor? file.language with
  | none =>
    { path := file.path, language := file.language,
      diagnostics := [.unsupportedLanguage file.language.name] }
  | some extractor =>
    match extractor.analyze file registry with
    | .ok extraction =>
      { path := file.path, language := file.language,
        definitions := withinFile file extraction.definitions,
        templateCalls := extraction.templateCalls, diagnostics := extraction.diagnostics }
    | .error breakdown =>
      { path := file.path, language := file.language,
        diagnostics := [.unexpected file.path breakdown.message] }

/-- Both passes and the call graph. -/
def analyze (analyzer : Analyzer) (files : List SourceFile) : CorpusAnalysis :=
  let registry := analyzer.collectNames files
  let analyses := files.map (analyzer.analyzeFile registry)
  { files := analyses, registry,
    edges := Edge.ofDefinitions (analyses.flatMap fun file => file.definitions) analyzer.settings.edgeLines }

end Analyzer
end CallAtlas

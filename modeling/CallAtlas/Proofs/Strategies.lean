import CallAtlas.Proofs.CallFilter
import CallAtlas.Proofs.ScriptOutline
import CallAtlas.Proofs.ScriptWalk
import Mathlib.Data.List.Forall2

/-! Two readings of a script. On a structured script the outline finds what the walk over the syntax tree finds, but
for the texts of the definitions and for the words of conditions, which no vocabulary accepts as calls, and but for
definitions so far down that the limit of a block is out of reach, which it cuts short. So the extractor reports the
same definitions with the same calls whichever way scripts are read, exactly if it reports none of the latter. -/
namespace CallAtlas

namespace Definition

def lineRange (definition : Definition) : Nat × Nat := (definition.startLine, definition.endLine)

theorem eraseCode_addCalls (definition : Definition) (calls : List CallSite) :
    (definition.addCalls calls).eraseCode = definition.eraseCode.addCalls calls := by
  induction calls generalizing definition with
  | nil => rfl
  | cons call rest ih =>
    have first : (definition.addCall call).eraseCode = definition.eraseCode.addCall call := by
      have same : definition.eraseCode.records call = definition.records call := rfl
      rw [addCall, addCall, same]
      split <;> rfl
    rw [addCalls_cons, addCalls_cons, ih, first]

end Definition

/-- An extraction without the texts of its definitions. -/
def Extraction.eraseCode (extraction : Extraction) : Extraction :=
  { extraction with definitions := extraction.definitions.map Definition.eraseCode }

theorem innermostFrom_eraseCode (line index : Nat) (best : Option (Nat × Definition)) (definitions : List Definition) :
    innermostFrom line index (best.map fun entry => (entry.1, entry.2.eraseCode))
        (definitions.map Definition.eraseCode) =
      (innermostFrom line index best definitions).map fun entry => (entry.1, entry.2.eraseCode) := by
  induction definitions generalizing index best with
  | nil => rfl
  | cons definition rest ih =>
    have chosen : tighter (best.map fun entry => (entry.1, entry.2.eraseCode)) (index, definition.eraseCode) =
        (tighter best (index, definition)).map fun entry => (entry.1, entry.2.eraseCode) := by
      cases best with
      | none => rfl
      | some known =>
        have same : definition.eraseCode.span < known.2.eraseCode.span ↔ definition.span < known.2.span := Iff.rfl
        simp only [tighter, Option.map_some, same]
        split <;> rfl
    have around : (definition.eraseCode.kind.isCallable && definition.eraseCode.containsLine line) =
        (definition.kind.isCallable && definition.containsLine line) := rfl
    rw [List.map_cons, innermostFrom, innermostFrom, around]
    split
    · rw [chosen, ih]
    · exact ih (index + 1) best

theorem innermostCallable?_eraseCode (definitions : List Definition) (line : Nat) :
    innermostCallable? (definitions.map Definition.eraseCode) line = innermostCallable? definitions line := by
  have erased := innermostFrom_eraseCode line 0 none definitions
  rw [Option.map_none] at erased
  rw [innermostCallable?, erased, Option.map_map]
  rfl

theorem Registry.ofDefinitions_eraseCode (definitions : List Definition) :
    Registry.ofDefinitions (definitions.map Definition.eraseCode) = Registry.ofDefinitions definitions := by
  rw [ofDefinitions, definedNames, List.filter_map, List.map_map]
  rfl

namespace Script

/-- A file with a dialect holds no Ruby. -/
theorem Dialect.isRubyLike_of_some {language : Language} {text : List Char} {dialect : Dialect}
    (known : Dialect.of? language text = some dialect) : language.isRubyLike = false := by
  cases language with
  | javascript | typescript | tsx | yaml | markdown | unknown => rfl
  | ruby | erb => cases known

namespace Reader

theorem importedNames_eraseCode (definitions : List Definition) :
    importedNames (definitions.map Definition.eraseCode) = importedNames definitions := by
  rw [importedNames, List.filter_map, List.flatMap_map]
  rfl

variable (reader : Reader) (file : SourceFile) (registry : Registry)

theorem sortOut_eraseCode (found : Scan) : (reader.sortOut found).eraseCode = reader.sortOut found.eraseCode := by
  rw [sortOut, sortOut, Scan.eraseCode, Scan.eraseCode, List.filter_map]
  rfl

theorem callSites_eraseCode (found : Scan) :
    reader.callSites file registry found.eraseCode = reader.callSites file registry found := by
  have accepted : reader.acceptance (found.definitions.map Definition.eraseCode) registry =
      reader.acceptance found.definitions registry := by
    rw [acceptance, acceptance, Registry.ofDefinitions_eraseCode, importedNames_eraseCode]
  rw [callSites, callSites, Scan.eraseCode, accepted, importedNames_eraseCode]
  apply List.filterMap_congr
  intro candidate _
  rw [site?, site?, innermostCallable?_eraseCode]

/-- The texts of definitions have no part in the assignment of calls. -/
theorem assignCalls_eraseCode (found : Scan) :
    (reader.assignCalls file registry found).eraseCode = reader.assignCalls file registry found.eraseCode := by
  have erased : (reader.assignCalls file registry found).definitions.map Definition.eraseCode =
      (reader.assignCalls file registry found.eraseCode).definitions := by
    rw [assignCalls, assignCalls, callSites_eraseCode, Scan.eraseCode]
    apply List.ext_getElem
    · simp
    · intro index bound within
      simp only [List.getElem_map, List.getElem_mapIdx, Definition.eraseCode_addCalls]
  rw [Extraction.eraseCode, erased]
  rfl

/-- The assignment of calls leaves the lines of definitions alone. -/
theorem assignCalls_lines (found : Scan) :
    (reader.assignCalls file registry found).definitions.map Definition.lineRange =
      found.definitions.map Definition.lineRange := by
  rw [assignCalls]
  apply List.ext_getElem
  · simp
  · intro index bound within
    simp only [List.getElem_map, List.getElem_mapIdx]
    rw [Definition.addCalls_eq]
    rfl

theorem accepts_keyword {name : String} (keyword : reader.vocabulary.keyword name = true)
    (definitions : List Definition) : (reader.acceptance definitions registry).accepts name = false := by
  have excluded : reader.vocabulary.excludes name = true := by
    rw [Vocabulary.excludes, ← Vocabulary.keyword, keyword]
    rfl
  rw [Acceptance.accepts, acceptance, excluded, Bool.not_true, Bool.and_false, Bool.false_and]

theorem site?_eq_none {limits : Limits} {accepts : String → Bool} {candidate : Candidate}
    (refused : accepts candidate.name = false) (lines : List (List Char)) (definitions : List Definition)
    (imported : List (String × Nat)) : site? limits accepts lines definitions imported candidate = none := by
  rw [site?, refused]
  cases innermostCallable? definitions candidate.line <;> rfl

end Reader

namespace Structured

/-- Choosing among candidates leaves nothing of words that are not chosen on any line. -/
theorem Program.filterMap_found {α : Type} {choose : Candidate → Option α} {words : List (List Char)}
    (refused : ∀ word ∈ words, ∀ line, choose ⟨String.ofList word, line⟩ = none) (file : SourceFile) (program : Program)
    (line : Nat) :
    (program.found file words line).candidates.filterMap choose =
      (program.found file [] line).candidates.filterMap choose := by
  induction program generalizing line with
  | done => rfl
  | evaluate indent value program ih =>
    have whole := congrArg ((named line value.calls).filterMap choose ++ ·) (ih (line + 1))
    rw [← List.filterMap_append, ← List.filterMap_append] at whole
    exact whole
  | block indent header body closing program inner later =>
    have own : (named line (header.calls words)).filterMap choose =
        (named line (header.calls [])).filterMap choose := by
      cases header with
      | function name parameters => rfl
      | arrow name parameters => rfl
      | branch condition =>
        have none : (named line words).filterMap choose = [] := by
          rw [named, List.filterMap_map, List.filterMap_eq_nil_iff]
          intro word member
          exact refused word member line
        rw [Header.calls, Header.calls, named, List.map_append, List.filterMap_append]
        exact congrArg (· ++ _) none
    have inside := congrArg₂ (· ++ ·) (inner (line + 1)) (later (line + body.lines.length + 2))
    have whole := congrArg₂ (· ++ ·) own inside
    simp only [← List.filterMap_append] at whole
    exact whole

/-- A definition and what the outline makes of it, which cuts it short if the limit is out of reach. -/
structure Cut (limit : UInt64) (whole part : Definition) : Prop where
  name : part.name = whole.name
  resolvable : part.kind.isResolvable = whole.kind.isResolvable
  same : Limits.overruns limit whole.startLine = false → part = whole
  shorter : Limits.overruns limit whole.startLine = true → part.endLine < whole.endLine

theorem isResolvable_functionKind (name text : List Char) : (functionKind name text).isResolvable = true := by
  unfold functionKind
  split
  · rfl
  · split <;> rfl

theorem Header.cut (file : SourceFile) (limit : UInt64) (index : Nat) (header : Header) (body : Program)
    (closing : Indent) :
    List.Forall₂ (Cut limit)
      (header.definition? file (Program.blockText header body closing) (index + 1)
        (index + 1 + body.lines.length + 1)).toList
      (header.definition? file (header.reached body closing limit index) (index + 1)
        (reach body limit index + 1)).toList := by
  have resolvable (name : Identifier) :
      (functionKind name.text (header.reached body closing limit index)).isResolvable =
        (functionKind name.text (Program.blockText header body closing)).isResolvable :=
    (isResolvable_functionKind _ _).trans (isResolvable_functionKind _ _).symm
  have within (fits : Limits.overruns limit (index + 1) = false) :
      header.reached body closing limit index = Program.blockText header body closing ∧
        reach body limit index + 1 = index + 1 + body.lines.length + 1 := by
    rw [reached, reach, fits, if_neg Bool.false_ne_true, if_neg Bool.false_ne_true]
    exact ⟨rfl, by omega⟩
  have beyond (wraps : Limits.overruns limit (index + 1) = true) :
      reach body limit index + 1 < index + 1 + body.lines.length + 1 := by
    rw [reach, wraps, if_pos rfl]
    omega
  cases header with
  | function name parameters | arrow name parameters =>
    refine .cons ⟨rfl, resolvable name, fun fits => ?_, beyond⟩ .nil
    rw [(within fits).1, (within fits).2]
  | branch condition => exact .nil

theorem Program.cut (file : SourceFile) (limit : UInt64) (words : List (List Char)) (program : Program) (index : Nat) :
    List.Forall₂ (Cut limit) (program.found file words (index + 1)).definitions
      (program.outlined file limit index).definitions := by
  induction program generalizing index with
  | done => exact .nil
  | evaluate indent value program ih => exact ih (index + 1)
  | block indent header body closing program inner later =>
    have next : index + body.lines.length + 2 + 1 = index + 1 + body.lines.length + 1 + 1 := by omega
    have behind := later (index + body.lines.length + 2)
    rw [next] at behind
    exact List.rel_append (header.cut file limit index body closing) (List.rel_append (inner (index + 1)) behind)

theorem Program.outlined_candidates (file : SourceFile) (limit : UInt64) (program : Program) (index : Nat) :
    (program.outlined file limit index).candidates = (program.found file [['i', 'f']] (index + 1)).candidates := by
  induction program generalizing index with
  | done => rfl
  | evaluate indent value program ih => exact congrArg (_ ++ ·) (ih (index + 1))
  | block indent header body closing program inner later =>
    have next : index + body.lines.length + 2 + 1 = index + 1 + body.lines.length + 1 + 1 := by omega
    have behind := later (index + body.lines.length + 2)
    rw [next] at behind
    exact congrArg (_ ++ ·) (congrArg₂ (· ++ ·) (inner (index + 1)) behind)

/-- The definitions that are kept are cut short where they were before. -/
theorem Cut.filter {limit : UInt64} {vocabulary : Vocabulary} {whole part : List Definition}
    (cut : List.Forall₂ (Cut limit) whole part) :
    List.Forall₂ (Cut limit) (whole.filter (Reader.keeps vocabulary)) (part.filter (Reader.keeps vocabulary)) := by
  induction cut with
  | nil => exact .nil
  | @cons definition other _ _ first _ ih =>
    have kept : Reader.keeps vocabulary other = Reader.keeps vocabulary definition := by
      rw [Reader.keeps, Reader.keeps, first.name, first.resolvable]
    rw [List.filter_cons, List.filter_cons, kept]
    split
    · exact .cons first ih
    · exact ih

/-- The lines of definitions are those of what the outline makes of them exactly if the limit is within reach. -/
theorem Cut.lines_iff {limit : UInt64} {whole part : List Definition} (cut : List.Forall₂ (Cut limit) whole part) :
    whole.map Definition.lineRange = part.map Definition.lineRange ↔
      ∀ definition ∈ whole, Limits.overruns limit definition.startLine = false := by
  induction cut with
  | nil => simp
  | @cons definition other _ _ first _ ih =>
    rw [List.map_cons, List.map_cons, List.cons.injEq, ih, List.forall_mem_cons]
    refine and_congr_left fun _ => ⟨fun same => ?_, fun fits => by rw [first.same fits]⟩
    cases reach : Limits.overruns limit definition.startLine with
    | false => rfl
    | true => exact absurd (Prod.mk.inj same).2.symm (Nat.ne_of_lt (first.shorter reach))

theorem Cut.eq {limit : UInt64} {whole part : List Definition} (cut : List.Forall₂ (Cut limit) whole part)
    (fits : ∀ definition ∈ whole, Limits.overruns limit definition.startLine = false) : part = whole := by
  induction cut with
  | nil => rfl
  | cons first _ ih =>
    obtain ⟨here, others⟩ := List.forall_mem_cons.mp fits
    rw [first.same here, ih others]

/-- What an extractor reports for a program, without the texts of the definitions. -/
def Program.extraction (reader : Reader) (file : SourceFile) (registry : Registry) (program : Program) : Extraction :=
  reader.assignCalls file registry (reader.sortOut (program.found file [] 1))

section Readings

variable (reader : Reader) (file : SourceFile) (registry : Registry) (program : Program)

/-- The way in which scripts are read has no part in what there is to report. -/
theorem extraction_eq (other : Reader) (vocabulary : reader.vocabulary = other.vocabulary)
    (limits : reader.limits = other.limits) :
    program.extraction reader file registry = program.extraction other file registry := by
  cases reader
  cases other
  cases vocabulary
  cases limits
  rfl

/-- The words of conditions make for no calls. -/
theorem callSites_words (scripted : reader.vocabulary.language = .javascript) {words : List (List Char)}
    (keywords : ∀ word ∈ words, isKeyword .javascript (String.ofList word) = true) {found : Scan}
    (definitions : found.definitions = (reader.sortOut (program.found file [] 1)).definitions)
    (candidates : found.candidates = (program.found file words 1).candidates) :
    reader.callSites file registry found =
      reader.callSites file registry (reader.sortOut (program.found file [] 1)) := by
  rw [Reader.callSites, definitions, candidates]
  apply program.filterMap_found
  intro word member line
  apply Reader.site?_eq_none
  apply Reader.accepts_keyword
  rw [Vocabulary.keyword, scripted]
  exact keywords word member

/-- A walk that finds what there is in a program makes for the extraction of the program. -/
theorem analyze_found (reads : (reader.rawScan file).eraseCode = program.found file [] 1) :
    (reader.analyze file registry).eraseCode = program.extraction reader file registry := by
  rw [Reader.analyze, Reader.assignCalls_eraseCode, Reader.scan, Reader.sortOut_eraseCode, reads, Program.extraction]

/-- From the outline of a program the definitions of the program are reported exactly if the limit is within reach of
all of them. -/
theorem analyze_outlined (scripted : reader.vocabulary.language = .javascript) {limit : UInt64}
    (reads : (reader.rawScan file).eraseCode = program.outlined file limit 0) :
    (program.extraction reader file registry).definitions =
        (reader.analyze file registry).eraseCode.definitions ↔
      ∀ definition ∈ (program.extraction reader file registry).definitions,
        Limits.overruns limit definition.startLine = false := by
  let kept := reader.sortOut (program.found file [] 1)
  let shown := reader.sortOut (program.outlined file limit 0)
  have cut : List.Forall₂ (Cut limit) kept.definitions shown.definitions :=
    Cut.filter (program.cut file limit [] 0)
  have reported : (reader.analyze file registry).eraseCode.definitions =
      (reader.assignCalls file registry shown).definitions := by
    rw [Reader.analyze, Reader.assignCalls_eraseCode, Reader.scan, Reader.sortOut_eraseCode, reads]
  have reach : (∀ definition ∈ (program.extraction reader file registry).definitions,
      Limits.overruns limit definition.startLine = false) ↔
      ∀ definition ∈ kept.definitions, Limits.overruns limit definition.startLine = false := by
    have lines := reader.assignCalls_lines file registry kept
    have all (definitions : List Definition) :
        (∀ definition ∈ definitions, Limits.overruns limit definition.startLine = false) ↔
          ∀ entry ∈ definitions.map Definition.lineRange, Limits.overruns limit entry.1 = false := by
      rw [List.forall_mem_map]
      rfl
    rw [all, all, ← lines]
    rfl
  rw [reported, reach]
  constructor
  · intro same
    apply (Cut.lines_iff cut).mp
    rw [← reader.assignCalls_lines file registry kept, ← reader.assignCalls_lines file registry shown, ← same]
    rfl
  · intro fits
    have same : shown.definitions = kept.definitions := Cut.eq cut fits
    have sites := callSites_words reader file registry program scripted (by decide) same
      (program.outlined_candidates file limit 0)
    rw [Program.extraction, Reader.assignCalls, Reader.assignCalls, sites, same]

end Readings

end Structured

/-- A structured script is read alike by its syntax tree and by its outline, exactly if none of the definitions that are
reported stands on a line from which the limit of a block is more than a machine word: whatever the registry and the
settings are, the extractor then reports the same definitions in the same order, with the same calls and with all else
but the text the same. Those that it finds in the tree are those of the program. -/
theorem strategies_agree (parse? : Tree.Parser) (settings : Settings) (program : Structured.Program) (file : SourceFile)
    (registry : Registry) (root : Tree) (dialect : Dialect) (printed : file.sourceLines = program.lines)
    (short : program.lines.length ≤ settings.limits.blockLines) (parsed : Reader.tree? parse? file = some root)
    (shaped : root.children = program.trees dialect 1 []) :
    ∃ walked outlined,
      (extractor ({ settings with scripts := .auto }.script parse?)).analyze file registry = .ok walked ∧
      (extractor ({ settings with scripts := .heuristic }.script parse?)).analyze file registry = .ok outlined ∧
      walked.eraseCode = program.extraction (settings.script parse?) file registry ∧
      (walked.eraseCode.definitions = outlined.eraseCode.definitions ↔
        ∀ definition ∈ walked.definitions, definition.startLine + settings.limits.blockLines ≤ Text.wordLimit) := by
  have script : file.language.isRubyLike = false := by
    obtain ⟨dialect, known, _⟩ := Option.bind_eq_some_iff.mp parsed
    exact Dialect.isRubyLike_of_some known
  have walks : (({ settings with scripts := .auto }.script parse?).rawScan file).eraseCode =
      program.found file [] 1 := by
    rw [← Structured.walk_program file program shaped]
    simp only [Reader.rawScan, Settings.script, parsed, Option.map_some, Option.getD_some]
  have outlines : (({ settings with scripts := .heuristic }.script parse?).rawScan file).eraseCode =
      program.outlined file settings.limits.block 0 := Structured.outline_program script printed short
  have walked := (Structured.analyze_found _ file registry program walks).trans
    (Structured.extraction_eq _ file registry program (settings.script parse?) rfl rfl)
  have agree := Structured.analyze_outlined _ file registry program rfl outlines
  have shown : program.extraction ({ settings with scripts := .heuristic : Settings }.script parse?) file registry =
      program.extraction (settings.script parse?) file registry :=
    Structured.extraction_eq _ file registry program (settings.script parse?) rfl rfl
  rw [shown] at agree
  refine ⟨_, _, rfl, rfl, walked, ?_⟩
  have reach (definition : Definition) : Limits.overruns settings.limits.block definition.startLine = false ↔
      definition.startLine + settings.limits.blockLines ≤ Text.wordLimit :=
    decide_eq_false_iff_not.trans Nat.not_lt
  rw [← walked] at agree
  rw [agree, Extraction.eraseCode, List.forall_mem_map]
  exact forall₂_congr fun definition _ => reach definition

namespace Structured.Specimen

def useSum : Identifier := ⟨⟨['u', 's', 'e', 'S', 'u', 'm'], by decide, by decide⟩, by decide, by decide⟩
def add : Identifier := ⟨⟨['a', 'd', 'd'], by decide, by decide⟩, by decide, by decide⟩
def all : Identifier := ⟨⟨['a', 'l', 'l'], by decide, by decide⟩, by decide, by decide⟩

def flush : Indent := ⟨[], by decide⟩
def tab : Indent := ⟨['\t'], by decide⟩

/-- A hook with a function inside, both of which call the two. -/
def program : Program :=
  .block flush (.function useSum [all, add])
    (.block tab (.arrow add [])
      (.evaluate flush (.call useSum [.call add []]) .done) tab
      (.block flush (.branch (.call add [.name all]))
        (.evaluate tab (.call useSum []) .done) flush .done)) flush .done

/-- A function on the second line that calls itself. -/
def later : Program :=
  .evaluate flush (.call all []) (.block flush (.function add []) (.evaluate tab (.call add []) .done) flush .done)

def file (program : Program) : SourceFile :=
  .ofText "sum.js" .javascript (String.ofList (Text.joinLines program.lines))

def root (program : Program) : Tree :=
  .node .program none (between (Text.joinLines program.lines) [] 1 program.lines.length) (program.trees .plain 1 [])

/-- Reads scripts with the greatest limit. -/
def greatest (scripts : ScriptPreference) : Reader :=
  { blockLines := 18446744073709551615, scripts : Settings }.script Tree.parse?

/-- What is reported of a script without its texts: names, lines and callees. -/
def reported (extraction : Extraction) : List (String × Kind × Nat × Nat × List String) :=
  extraction.definitions.map fun definition =>
    (definition.name, definition.kind, definition.startLine, definition.endLine, definition.calls.map (·.callee))

end Structured.Specimen

open Structured in
theorem strategies_agree_specimen :
    (Specimen.file Specimen.program).sourceLines = Specimen.program.lines ∧
      Reader.tree? Tree.parse? (Specimen.file Specimen.program) = some (Specimen.root Specimen.program) ∧
      ∃ walked outlined,
        (extractor ({ scripts := .auto : Settings }.script Tree.parse?)).analyze (Specimen.file Specimen.program) .empty =
          .ok walked ∧
        (extractor ({ scripts := .heuristic : Settings }.script Tree.parse?)).analyze (Specimen.file Specimen.program)
          .empty = .ok outlined ∧
        walked.eraseCode.definitions = outlined.eraseCode.definitions ∧
        Specimen.reported walked.eraseCode =
          [("useSum", .customHook, 1, 8, ["add", "useSum"]), ("add", .function, 2, 4, ["useSum", "add"])] := by
  have printed : (Specimen.file Specimen.program).sourceLines = Specimen.program.lines := by decide +kernel
  have parsed : Reader.tree? Tree.parse? (Specimen.file Specimen.program) = some (Specimen.root Specimen.program) := by
    decide +kernel
  obtain ⟨walked, outlined, walks, outlines, whole, agree⟩ :=
    strategies_agree Tree.parse? {} Specimen.program (Specimen.file Specimen.program) .empty _ .plain printed (by decide)
      parsed rfl
  have found : Specimen.reported walked.eraseCode =
      [("useSum", .customHook, 1, 8, ["add", "useSum"]), ("add", .function, 2, 4, ["useSum", "add"])] := by
    rw [whole]
    decide +kernel
  have near : ∀ entry ∈ Specimen.reported walked.eraseCode, entry.2.2.1 + 1000 ≤ Text.wordLimit := by
    rw [found]
    decide
  refine ⟨printed, parsed, walked, outlined, walks, outlines, agree.mpr fun definition member => ?_, found⟩
  exact near _ (List.mem_map_of_mem (List.mem_map_of_mem member))

open Structured in
/-- With the greatest limit the function on the second line is found whole in the tree, and without its body in the
outline. -/
theorem strategies_differ_greatest :
    let walked := (Specimen.greatest .auto).analyze (Specimen.file Specimen.later) .empty
    let outlined := (Specimen.greatest .heuristic).analyze (Specimen.file Specimen.later) .empty
    (Specimen.file Specimen.later).sourceLines = Specimen.later.lines ∧
      Reader.tree? Tree.parse? (Specimen.file Specimen.later) = some (Specimen.root Specimen.later) ∧
      Specimen.later.lines.length ≤ (Specimen.greatest .auto).limits.blockLines ∧
      Specimen.reported walked.eraseCode = [("add", .function, 2, 4, ["add"])] ∧
      Specimen.reported outlined.eraseCode = [("add", .function, 2, 2, [])] := by
  have parsed : Reader.tree? Tree.parse? (Specimen.file Specimen.later) = some (Specimen.root Specimen.later) := by
    decide +kernel
  have walks : ((Specimen.greatest .auto).rawScan (Specimen.file Specimen.later)).eraseCode =
      Specimen.later.found (Specimen.file Specimen.later) [] 1 := by
    have read : Reader.tree? (Specimen.greatest .auto).parse? (Specimen.file Specimen.later) = _ := parsed
    rw [Reader.rawScan, read]
    exact walk_program _ Specimen.later rfl
  refine ⟨by decide +kernel, parsed, by decide, ?_, by decide +kernel⟩
  rw [analyze_found _ _ _ _ walks]
  decide +kernel

end Script

end CallAtlas

import CallAtlas.Proofs.JsonText
import CallAtlas.Proofs.TimestampText
import CallAtlas.Report

/-! Reports read back from their text. Every record is written as a value that has a text, and read from that value
as itself; numbers must fit in the words that the reader accepts. -/
namespace CallAtlas

open Json (Writable)

namespace Json

section
variable {α : Type} (read? : Json → Option α) (value : Json) (text : String) (number : Nat)

@[simp]
theorem required_some : required read? (some value) = read? value := rfl

@[simp]
theorem optional_none : optional read? none = some none := rfl

@[simp]
theorem optional_string : optional read? (some (.string text)) = (read? (.string text)).map some := rfl

@[simp]
theorem optional_natural : optional read? (some (.natural number)) = (read? (.natural number)).map some := rfl

@[simp]
theorem listOrEmpty_none : listOrEmpty read? none = some [] := rfl

@[simp]
theorem listOrEmpty_some : listOrEmpty read? (some value) = list? read? value := rfl

@[simp]
theorem string?_string : string? (.string text) = some text := rfl

@[simp]
theorem choice?_string (ofTag? : String → Option α) : choice? ofTag? (.string text) = ofTag? text := rfl

end

theorem list?_map {α : Type} {write : α → Json} {read? : Json → Option α} {values : List α}
    (each : ∀ value ∈ values, read? (write value) = some value) :
    list? read? (.array (values.map write)) = some values := by
  rw [list?]
  induction values with
  | nil => rfl
  | cons value rest ih =>
    have later := ih fun other member => each other (List.mem_cons_of_mem value member)
    simp [each value List.mem_cons_self, later]

theorem natural?_natural {value : Nat} (fits : value < Text.wordLimit) :
    natural? (.natural value) = some value := if_pos fits

theorem list?_naturals {values : List Nat} (fit : ∀ value ∈ values, value < Text.wordLimit) :
    list? natural? (naturals values) = some values :=
  list?_map fun value member => natural?_natural (fit value member)

theorem fieldOfList_cases {α : Type} (name : String) (write : α → Json) (values : List α) :
    values = [] ∧ fieldOfList name write values = [] ∨
      fieldOfList name write values = [(name, .array (values.map write))] := by
  cases values with
  | nil => exact .inl ⟨rfl, rfl⟩
  | cons value rest => exact .inr rfl

end Json

theorem Kind.ofTag?_tag (kind : Kind) : Kind.ofTag? kind.tag = some kind := by
  cases kind <;> decide

theorem Visibility.ofTag?_tag (visibility : Visibility) : Visibility.ofTag? visibility.tag = some visibility := by
  cases visibility <;> decide

theorem Parameter.Passing.ofTag?_tag (passing : Parameter.Passing) :
    Parameter.Passing.ofTag? passing.tag = some passing := by
  cases passing <;> decide

theorem Reach.ofTag?_tag (reach : Reach) : Reach.ofTag? reach.tag = some reach := by
  cases reach <;> decide

def CallSite.numbers (call : CallSite) : List Nat := call.line :: call.importLine.toList

def Definition.numbers (definition : Definition) : List Nat :=
  definition.startLine :: definition.endLine :: definition.calls.flatMap CallSite.numbers

def TemplateCall.numbers (call : TemplateCall) : List Nat := call.count :: call.lines

def Diagnostic.numbers : Diagnostic → List Nat
  | malformedConstruct _ line _ => [line]
  | _ => []

def FileAnalysis.numbers (file : FileAnalysis) : List Nat :=
  file.definitions.flatMap Definition.numbers ++ file.templateCalls.flatMap TemplateCall.numbers ++
    file.diagnostics.flatMap Diagnostic.numbers

def Edge.numbers (edge : Edge) : List Nat := edge.count :: edge.lines

/-- Every line number and count that a report holds. -/
def Report.numbers (report : Report) : List Nat :=
  report.files.flatMap FileAnalysis.numbers ++ report.edges.flatMap Edge.numbers

/-- Numbers that fit in a word of eight bytes. -/
def Fit (numbers : List Nat) : Prop := ∀ number ∈ numbers, number < Text.wordLimit

theorem Fit.of_flatMap {α : Type} {all : List Nat} {values : List α} {numbers : α → List Nat} (fit : Fit all)
    (part : values.flatMap numbers ⊆ all) {value : α} (member : value ∈ values) : Fit (numbers value) :=
  fun number inside => fit number (part (List.mem_flatMap.mpr ⟨value, member, inside⟩))

theorem Parameter.read?_write (parameter : Parameter) : Parameter.read? parameter.write = some parameter := by
  obtain ⟨name, type, defaultValue, passing⟩ := parameter
  cases type <;> cases defaultValue <;> cases passing <;>
    simp [write, read?, Json.record?, Json.fieldOf, Passing.ofTag?_tag]

theorem CallSite.read?_write {call : CallSite} (fit : Fit call.numbers) : CallSite.read? call.write = some call := by
  obtain ⟨callee, line, snippet, importLine⟩ := call
  have own : line < Text.wordLimit := fit line (by simp [numbers])
  cases importLine with
  | none => simp [write, read?, Json.record?, Json.fieldOf, Json.natural?_natural own]
  | some bound =>
    have above : bound < Text.wordLimit := fit bound (by simp [numbers])
    simp [write, read?, Json.record?, Json.fieldOf, Json.natural?_natural own, Json.natural?_natural above]

theorem Definition.read?_write {definition : Definition} (fit : Fit definition.numbers) :
    Definition.read? definition.write = some definition := by
  obtain ⟨name, kind, filePath, startLine, endLine, code, visibility, parameters, calls, moduleName, bindings⟩ :=
    definition
  have start := Json.natural?_natural (fit startLine (by simp [numbers]))
  have last := Json.natural?_natural (fit endLine (by simp [numbers]))
  have given : Json.list? Parameter.read? (.array (parameters.map Parameter.write)) = some parameters :=
    Json.list?_map fun parameter _ => parameter.read?_write
  have sites : Json.list? CallSite.read? (.array (calls.map CallSite.write)) = some calls :=
    Json.list?_map fun call member => call.read?_write (fit.of_flatMap (by simp [numbers]) member)
  have names : Json.list? Json.string? (.array (bindings.map Json.string)) = some bindings :=
    Json.list?_map fun _ _ => rfl
  rcases Json.fieldOfList_cases "bindings" Json.string bindings with ⟨rfl, left⟩ | left <;> cases moduleName <;>
    simp [write, read?, Json.record?, Json.fieldOf, left, start, last, given, sites, names, Kind.ofTag?_tag,
      Visibility.ofTag?_tag]

theorem Endpoint.read?_write (endpoint : Endpoint) : Endpoint.read? endpoint.write = some endpoint := by
  simp [write, read?, Json.record?]

theorem Edge.read?_write {edge : Edge} (fit : Fit edge.numbers) : Edge.read? edge.write = some edge := by
  have count := Json.natural?_natural (fit edge.count (by simp [numbers]))
  have lines : Json.list? Json.natural? (Json.naturals edge.lines) = some edge.lines :=
    Json.list?_naturals fun line member => fit line (by simp [numbers, member])
  simp [write, read?, Json.record?, Endpoint.read?_write, count, Reach.ofTag?_tag, lines]

theorem Diagnostic.read?_write {diagnostic : Diagnostic} (fit : Fit diagnostic.numbers) :
    Diagnostic.read? diagnostic.write = some diagnostic := by
  cases diagnostic with
  | unsupportedLanguage language => simp [write, read?, readAs?, Json.record?]
  | malformedConstruct path line reason =>
    have own := Json.natural?_natural (fit line (by simp [numbers]))
    simp [write, read?, readAs?, Json.record?, own]
  | parserUnavailable reason => simp [write, read?, readAs?, Json.record?]
  | unexpected path message => simp [write, read?, readAs?, Json.record?]

theorem TemplateCall.read?_write {call : TemplateCall} (fit : Fit call.numbers) :
    TemplateCall.read? call.write = some call := by
  have count := Json.natural?_natural (fit call.count (by simp [numbers]))
  have lines : Json.list? Json.natural? (Json.naturals call.lines) = some call.lines :=
    Json.list?_naturals fun line member => fit line (by simp [numbers, member])
  simp [write, read?, Json.record?, count, lines]

theorem FileAnalysis.read?_write {file : FileAnalysis} (fit : Fit file.numbers) :
    FileAnalysis.read? file.write = some file := by
  obtain ⟨path, language, definitions, templateCalls, diagnostics⟩ := file
  have tag : Language.read? language.write = some language := by
    simp [Language.read?, Language.write, Language.ofName_name]
  have found : Json.list? Definition.read? (.array (definitions.map Definition.write)) = some definitions :=
    Json.list?_map fun definition member => definition.read?_write (fit.of_flatMap (by simp [numbers]) member)
  have calls : Json.list? TemplateCall.read? (.array (templateCalls.map TemplateCall.write)) = some templateCalls :=
    Json.list?_map fun call member => call.read?_write (fit.of_flatMap (by simp [numbers]) member)
  have faults : Json.list? Diagnostic.read? (.array (diagnostics.map Diagnostic.write)) = some diagnostics :=
    Json.list?_map fun diagnostic member => diagnostic.read?_write (fit.of_flatMap (by simp [numbers]) member)
  rcases Json.fieldOfList_cases "templateCalls" TemplateCall.write templateCalls with ⟨rfl, first⟩ | first <;>
    rcases Json.fieldOfList_cases "diagnostics" Diagnostic.write diagnostics with ⟨rfl, second⟩ | second <;>
    simp [write, read?, Json.record?, first, second, tag, found, calls, faults]

theorem Report.read?_write {report : Report} {encoding : Encoding}
    (time : encoding.parseTime? (encoding.printTime report.generatedAt) = some report.generatedAt)
    (fit : Fit report.numbers) : Report.read? (report.write encoding) encoding = some report := by
  have files : Json.list? FileAnalysis.read? (.array (report.files.map FileAnalysis.write)) = some report.files :=
    Json.list?_map fun file member => file.read?_write (fit.of_flatMap (by simp [numbers]) member)
  have edges : Json.list? Edge.read? (.array (report.edges.map Edge.write)) = some report.edges :=
    Json.list?_map fun edge member => edge.read?_write (fit.of_flatMap (by simp [numbers]) member)
  simp [write, read?, Json.record?, time, files, edges]

namespace Json

/-- Fields whose values have a written form. -/
def WritableFields (fields : List (String × Json)) : Prop := ∀ field ∈ fields, Writable field.2

namespace WritableFields

theorem nil : WritableFields [] := by simp [WritableFields]

theorem cons {name : String} {value : Json} {rest : List (String × Json)} (first : Writable value)
    (later : WritableFields rest) : WritableFields ((name, value) :: rest) :=
  List.forall_mem_cons.mpr ⟨first, later⟩

theorem append {fields rest : List (String × Json)} (first : WritableFields fields) (later : WritableFields rest) :
    WritableFields (fields ++ rest) :=
  List.forall_mem_append.mpr ⟨first, later⟩

end WritableFields

theorem Writable.ofFields {fields : List (String × Json)} (each : WritableFields fields) : Writable (.object fields) :=
  .object each

section
variable {α : Type} {write : α → Json} (each : ∀ value, Writable (write value))
include each

theorem writable_list (values : List α) : Writable (.array (values.map write)) :=
  .array (by simpa using fun value _ => each value)

theorem writable_fieldOf (name : String) (value : Option α) : WritableFields (fieldOf name write value) := by
  cases value with
  | none => exact .nil
  | some value => exact .cons (each value) .nil

theorem writable_fieldOfList (name : String) (values : List α) : WritableFields (fieldOfList name write values) := by
  cases values with
  | nil => exact .nil
  | cons value rest => exact .cons (writable_list each (value :: rest)) .nil

end
end Json

open Json (writable_list writable_fieldOf writable_fieldOfList)

theorem Parameter.write_writable (parameter : Parameter) : Writable parameter.write :=
  .ofFields (.append (.append (.cons (.string _) (writable_fieldOf .string _ _)) (writable_fieldOf .string _ _))
    (writable_fieldOf (fun _ => .string _) _ _))

theorem CallSite.write_writable (call : CallSite) : Writable call.write :=
  .ofFields (.append (.cons (.string _) (.cons (.natural _) (.cons (.string _) .nil))) (writable_fieldOf .natural _ _))

theorem Definition.write_writable (definition : Definition) : Writable definition.write := by
  have parameters := writable_list Parameter.write_writable definition.parameters
  have calls := writable_list CallSite.write_writable definition.calls
  refine .ofFields (.append (.append ?_ (writable_fieldOf .string _ _)) (writable_fieldOfList .string _ _))
  exact .cons (.string _) (.cons (.string _) (.cons (.string _) (.cons (.natural _) (.cons (.natural _)
    (.cons (.string _) (.cons (.string _) (.cons parameters (.cons calls .nil))))))))

theorem Endpoint.write_writable (endpoint : Endpoint) : Writable endpoint.write :=
  .ofFields (.cons (.string _) (.cons (.string _) .nil))

theorem Edge.write_writable (edge : Edge) : Writable edge.write :=
  .ofFields (.cons edge.source.write_writable (.cons edge.target.write_writable (.cons (.natural _)
    (.cons (.string _) (.cons (writable_list .natural edge.lines) .nil)))))

theorem Diagnostic.write_writable (diagnostic : Diagnostic) : Writable diagnostic.write := by
  cases diagnostic with
  | unsupportedLanguage language => exact .ofFields (.cons (.string _) (.cons (.string _) .nil))
  | malformedConstruct path line reason =>
    exact .ofFields (.cons (.string _) (.cons (.string _) (.cons (.natural _) (.cons (.string _) .nil))))
  | parserUnavailable reason => exact .ofFields (.cons (.string _) (.cons (.string _) .nil))
  | unexpected path message => exact .ofFields (.cons (.string _) (.cons (.string _) (.cons (.string _) .nil)))

theorem TemplateCall.write_writable (call : TemplateCall) : Writable call.write :=
  .ofFields (.cons (.string _) (.cons (writable_list .natural call.lines) (.cons (.natural _) .nil)))

theorem FileAnalysis.write_writable (file : FileAnalysis) : Writable file.write := by
  have definitions := writable_list Definition.write_writable file.definitions
  exact .ofFields (.append (.append (.cons (.string _) (.cons (.string _) (.cons definitions .nil)))
    (writable_fieldOfList TemplateCall.write_writable _ _)) (writable_fieldOfList Diagnostic.write_writable _ _))

theorem Report.write_writable (report : Report) (encoding : Encoding) : Writable (report.write encoding) :=
  .ofFields (.cons (.string _) (.cons (.string _) (.cons (writable_list FileAnalysis.write_writable report.files)
    (.cons (writable_list Edge.write_writable report.edges) .nil))))

/-- The text of a report is read as that report, or refused for its version, which the message names. Of the encoding it
is only assumed that it reads back the JSON values that it prints and the time of the report. -/
theorem Report.parse_text (report : Report) (encoding : Encoding) (fit : Fit report.numbers)
    (values : ∀ value, Writable value → encoding.parse? (encoding.print value) = some value)
    (time : encoding.parseTime? (encoding.printTime report.generatedAt) = some report.generatedAt) :
    (report.version = currentVersion → parse (report.text encoding) encoding = .ok report) ∧
      (report.version ≠ currentVersion →
        parse (report.text encoding) encoding = .error (.wrongVersion report.version)) ∧
      (Fault.wrongVersion report.version).message =
        "report version mismatch: expected 1.0.0, found " ++ report.version := by
  have value : encoding.parse? (report.text encoding) = some (report.write encoding) :=
    values (report.write encoding) (report.write_writable encoding)
  have checked : parse (report.text encoding) encoding = report.checkVersion := by
    rw [parse, value, Option.bind_some, read?_write time fit]
  refine ⟨fun current => ?_, fun other => ?_, rfl⟩
  · rw [checked, checkVersion, if_pos current]
  · rw [checked, checkVersion, if_neg other]

/-- A report with a leap second, marks in its texts and the largest number, of which most fields are unset. -/
def Report.specimen : Report where
  version := currentVersion
  generatedAt := ⟨17166, 86399, 1500000000⟩
  files := [{
    path := "a \"b\"\\é.rb", language := .unknown,
    definitions := [{
      name := "total", kind := .classMethod, filePath := "a.rb", startLine := 1, endLine := 18446744073709551615,
      code := "def self.total(x)\n\tx\nend", parameters := [⟨"x", none, some "\u0001", some .defaulted⟩],
      calls := [⟨"x", 2, "x", none⟩] }],
    diagnostics := [.malformedConstruct "a.rb" 1 "no matching end", .unexpected "a.rb" ""] }]
  edges := [⟨⟨"total", "a.rb"⟩, ⟨"x", "b.rb"⟩, 1, .external, [2]⟩]

theorem Report.parse_text_specimen :
    (∀ value, Writable value → Encoding.standard.parse? (Encoding.standard.print value) = some value) ∧
      Fit specimen.numbers ∧ parse (specimen.text .standard) .standard = .ok specimen ∧
      parse ({ specimen with version := "2" }.text .standard) .standard = .error (.wrongVersion "2") := by
  have values (value : Json) (writable : Writable value) :
      Encoding.standard.parse? (Encoding.standard.print value) = some value := Json.parse?_pretty writable
  have time : Timestamp.parse? specimen.generatedAt.text = some specimen.generatedAt :=
    Timestamp.parse?_text ⟨by decide, by decide, by decide, by decide⟩
  have fit : Fit specimen.numbers := by
    simp [Fit, numbers, specimen, FileAnalysis.numbers, Definition.numbers, CallSite.numbers, Diagnostic.numbers,
      Edge.numbers, Text.wordLimit]
  have other := (parse_text { specimen with version := "2" } .standard fit values time).2.1 (by decide)
  exact ⟨values, fit, (parse_text specimen .standard fit values time).1 rfl, other⟩

end CallAtlas

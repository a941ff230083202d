import CallAtlas.Proofs.LineStarts
import CallAtlas.Proofs.OutlineContainers
import CallAtlas.Proofs.ParameterNames

/-! Lines of a script that start with an expression. A line whose first word is an identifier of its own is no
declaration, yet the outline reads `function` without asking whether the word ends there, and reads imports and
exports in the source text, where a comment or a template of the lines before may still be going on. The main
statement says that such a line defines something in these two cases only. -/
namespace CallAtlas

namespace Blanking

open Script.Pattern (continuesIdentifier leadingRun)

variable {language : Language} {style : Style} {frames : List Frame} {c : Char} {next : Option Char}

theorem not_mem_codeMarks_of_continues (joins : continuesIdentifier c = true) : c ∉ codeMarks := by
  have others : ∀ mark ∈ codeMarks, continuesIdentifier mark = false := by decide
  intro mark
  rw [others c mark] at joins
  cases joins

/-- An identifier at the start of code is written as it stands. -/
theorem takeWhile_scan (line : List Char) :
    (scan language style ⟨.code, frames⟩ line).1.takeWhile continuesIdentifier =
      line.takeWhile continuesIdentifier := by
  induction line with
  | nil => rfl
  | cons c rest ih =>
    cases joins : continuesIdentifier c with
    | true =>
      rw [scan_one (step_unmarked (not_mem_codeMarks_of_continues joins)), List.takeWhile_cons_of_pos joins,
        List.takeWhile_cons_of_pos joins, ih]
    | false =>
      -- Whatever the step is, it writes a blank or what it reads.
      have shadows : Shadows (scan language style ⟨.code, frames⟩ (c :: rest)).1 (c :: rest) := scan_shadows _
      rw [List.takeWhile_cons_of_neg (by simp [joins])]
      cases written : (scan language style ⟨.code, frames⟩ (c :: rest)).1 with
      | nil => rfl
      | cons d more =>
        rw [written] at shadows
        refine List.takeWhile_cons_of_neg ?_
        rcases shadows 0 d rfl with rfl | same
        · decide
        · cases same
          simp [joins]

theorem leadingRun_space (text : List Char) : leadingRun (' ' :: text) = leadingRun text :=
  Script.Pattern.leadingRun_cons_of_isBlank rfl text

/-- One step of a scan in a comment. -/
theorem leadingRun_scan_comment (drops : style.dropComments = true) (frames : List Frame) (c : Char)
    (rest : List Char) :
    leadingRun (scan language style ⟨.comment, frames⟩ (c :: rest)).1 =
      if c == '*' && rest.head? == some '/' then leadingRun (scan language style ⟨.code, frames⟩ rest.tail).1
      else leadingRun (scan language style ⟨.comment, frames⟩ rest).1 := by
  split
  · rename_i ends
    cases rest with
    | nil => simp at ends
    | cons d more =>
      rw [scan_two ((step_comment drops).trans (if_pos ends)), leadingRun_space, leadingRun_space, List.tail_cons]
  · rename_i inside
    rw [scan_one ((step_comment drops).trans (if_neg inside)), leadingRun_space]

/-- One step of a scan in code: a comment is passed over, and so is a blank; anything else is written. -/
theorem leadingRun_scan_code (drops : style.dropComments = true) (frames : List Frame) (c : Char) (rest : List Char) :
    leadingRun (scan language style ⟨.code, frames⟩ (c :: rest)).1 =
      if startsLineComment language c rest.head? then []
      else if opensComment language c rest.head? then leadingRun (scan language style ⟨.comment, frames⟩ rest.tail).1
      else if Text.isBlank c then leadingRun (scan language style ⟨.code, frames⟩ rest).1
      else (c :: rest).takeWhile continuesIdentifier := by
  split
  · rename_i starts
    rw [scan, step_lineComment starts]
    simp only [drops]
    rfl
  · rename_i code
    split
    · rename_i opens
      cases rest with
      | nil => simp [opensComment] at opens
      | cons d more =>
        rw [scan_two (step_opensComment drops opens), leadingRun_space, leadingRun_space, List.tail_cons]
    · rename_i inside
      split
      · rename_i blank
        rw [scan_one (step_unmarked (not_mem_codeMarks_of_isBlank blank)),
          Script.Pattern.leadingRun_cons_of_isBlank blank]
      · rename_i visible
        obtain ⟨later, moved⟩ : ∃ later, step language style ⟨.code, frames⟩ c rest.head? = .one c later :=
          step_writes (by simpa using code) (by simpa using inside)
        rw [← takeWhile_scan, scan_one moved, Script.Pattern.leadingRun_cons_of_visible (by simpa using visible)]

/-- Two scans that are not inside a string write the same word first. -/
theorem scan_leadingRun {other : Style} (drops : style.dropComments = true) (otherDrops : other.dropComments = true)
    {mode : Mode} (plain : ∀ quote, mode ≠ .quoted quote) (frames outer : List Frame) (line : List Char) :
    leadingRun (scan language style ⟨mode, frames⟩ line).1 = leadingRun (scan language other ⟨mode, outer⟩ line).1 := by
  -- A step reads one or two characters, so the induction is on how long the line is.
  induction length : line.length using Nat.strong_induction_on generalizing mode line with
  | _ bound ih =>
    subst length
    cases line with
    | nil => rfl
    | cons c rest =>
      have shorter : rest.tail.length < (c :: rest).length := by
        rw [List.length_tail, List.length_cons]
        omega
      cases mode with
      | quoted quote => exact absurd rfl (plain quote)
      | comment =>
        rw [leadingRun_scan_comment drops, leadingRun_scan_comment otherDrops]
        split
        · exact ih rest.tail.length shorter (by simp) rest.tail rfl
        · exact ih rest.length (Nat.lt_succ_self _) plain rest rfl
      | code =>
        rw [leadingRun_scan_code drops, leadingRun_scan_code otherDrops]
        split
        · rfl
        · split
          · exact ih rest.tail.length shorter (by simp) rest.tail rfl
          · split
            · exact ih rest.length (Nat.lt_succ_self _) plain rest rfl
            · rfl

/-- The cleaner behind some lines. -/
def Cleaner.behind (language : Language) (cleaner : Cleaner) : List (List Char) → Cleaner
  | [] => cleaner
  | line :: rest => (cleaner.clean language line).2.behind language rest

/-- A line starts in code if no comment and no string of the lines before it goes on. -/
def StartsInCode (language : Language) (front : List Line) : Prop :=
  (({} : Cleaner).behind language (front.map (·.raw))).state.mode = .code

instance (language : Language) (front : List Line) : Decidable (StartsInCode language front) :=
  inferInstanceAs (Decidable (_ = Mode.code))

theorem Cleaner.clean_text (cleaner : Cleaner) (line : List Char) :
    (cleaner.clean language line).1 = [] ∨
      (cleaner.clean language line).1 = (scan language ⟨true, true⟩ cleaner.state line).1 := by
  unfold Cleaner.clean
  simp only
  split
  · split
    · exact .inl rfl
    · split
      · exact .inl rfl
      · split
        · exact .inl rfl
        · exact .inr rfl
  · exact .inr rfl

theorem Cleaner.cleaned_behind {cleaner : Cleaner} {lines : List (List Char)} {front rest : List Line} {line : Line}
    (split : List.zipWith Line.mk lines (cleaner.cleanAll language lines) = front ++ line :: rest) :
    line.cleaned = ((cleaner.behind language (front.map (·.raw))).clean language line.raw).1 := by
  induction front generalizing lines cleaner with
  | nil =>
    cases lines with
    | nil => cases split
    | cons raw lines =>
      simp only [Cleaner.cleanAll, List.zipWith_cons_cons, List.nil_append, List.cons.injEq] at split
      rw [← split.1]
      rfl
  | cons first front ih =>
    cases lines with
    | nil => cases split
    | cons raw lines =>
      simp only [Cleaner.cleanAll, List.zipWith_cons_cons, List.cons_append, List.cons.injEq] at split
      rw [ih split.2, ← split.1]
      rfl

/-- Where a line starts in code, the source text without comments starts with the word that the cleaned line does. -/
theorem leadingRun_stripComments {lines : List (List Char)} {front rest : List Line} {line : Line}
    (split : pairLines language lines = front ++ line :: rest) (code : StartsInCode language front)
    (filled : line.cleaned ≠ []) : leadingRun (stripComments language line.raw) = leadingRun line.cleaned := by
  have cleaned := Cleaner.cleaned_behind split
  rw [StartsInCode] at code
  generalize ({} : Cleaner).behind language (front.map (·.raw)) = cleaner at cleaned code
  rcases cleaner.clean_text line.raw with empty | scanned
  · exact absurd (cleaned.trans empty) filled
  · rw [cleaned, scanned, stripComments, Script.Pattern.leadingRun_trimEnd]
    obtain ⟨⟨mode, frames⟩, _, _⟩ := cleaner
    cases code
    exact scan_leadingRun rfl rfl (by simp) [] frames line.raw

end Blanking

namespace Script

namespace Pattern

/-- The name that follows on `function` within the word that a text starts with. -/
def gluedName? (text : List Char) : Option (List Char) :=
  (Text.after? "function" (leadingRun text)).filter fun name => name.head?.any startsIdentifier

variable {text : List Char}

/-- In a text whose first word is longer than `function`, the name of the function is what is left of the word. -/
theorem function?_eq_gluedName? (visible : Text.trimStart text = text) (unspaced : Outline.Unspaced text)
    (other : leadingRun text ≠ "function".toList) : (function? text).map (·.1) = gluedName? text := by
  have word : ∀ c ∈ "function".toList, continuesIdentifier c = true := by decide
  rw [unspaced.function?]
  cases found : Text.after? "function" text with
  | none =>
    have absent : Text.after? "function" (leadingRun text) = none := by
      rw [Option.eq_none_iff_forall_ne_some]
      intro name inside
      -- The first word is a front part of the text, so the text would start with `function` too.
      have longer : text = "function".toList ++ (name ++ text.dropWhile continuesIdentifier) := by
        rw [← List.append_assoc, ← Text.after?_eq_some.mp inside, leadingRun, visible,
          List.takeWhile_append_dropWhile]
      rw [Text.after?_eq_some.mpr longer] at found
      cases found
    rw [gluedName?, absent]
    rfl
  | some rest =>
    have split := Text.after?_eq_some.mp found
    have stop : rest.head?.any continuesIdentifier ≠ false := by
      intro stop
      exact other (by rw [split, leadingRun_append (by decide) word stop])
    cases rest with
    | nil => exact absurd rfl stop
    | cons c rest =>
      have joins : continuesIdentifier c = true := by simpa using stop
      have run : leadingRun text = "function".toList ++ c :: rest.takeWhile continuesIdentifier := by
        rw [leadingRun, visible, split, List.takeWhile_append_of_pos word, List.takeWhile_cons_of_pos joins]
      have star : c ≠ '*' := by
        rintro rfl
        cases joins
      have start : Text.trimStart (c :: rest) = c :: rest :=
        List.dropWhile_cons_of_neg (by simp [isBlank_of_continues joins])
      rw [gluedName?, run, Text.after?_append]
      simp only [Option.bind_some, start, skipMark, mark?, star, if_false, Option.getD_none, identifier?]
      cases starts : startsIdentifier c <;> simp [Option.filter, starts]

end Pattern

namespace Outline

open Blanking (Line StartsInCode)
open Pattern (firstRun leadingRun gluedName?)

variable {context : Context} {spot : Spot} {finding : Finding}

theorem Spot.trimStart_text (spot : Spot) : Text.trimStart spot.text = spot.text :=
  Text.trimStart_eq_self fun c first => Text.visible_head?_trimStart _ c (Text.head?_trimEnd first)

theorem declaration_of_unspaced (unspaced : Unspaced spot.text) (other : leadingRun spot.text ≠ "function".toList) :
    declaration context spot = ((gluedName? spot.text).map (functionDeclaration context spot)).getD {} := by
  rw [← Pattern.function?_eq_gluedName? spot.trimStart_text unspaced other]
  unfold declaration
  cases Pattern.function? spot.text with
  | none => simp only [unspaced.containerHeader?, unspaced.boundName?, Option.map_none, Option.getD_none]
  | some found => rfl

/-- An import or export on a line that starts with `function` is a required module. -/
theorem record?_of_function {rest : List Char} (starts : spot.text = "function".toList ++ rest)
    (found : record? context spot = some finding) : finding.definitions ≠ [] := by
  have importing : import? context spot = none := by
    rw [import?, starts]
    rfl
  have exporting : export? context spot = none := by
    rw [export?, starts]
    rfl
  rw [record?, importing, exporting, Option.none_or, Option.or_none] at found
  obtain ⟨required, _, rfl⟩ := Option.map_eq_some_iff.mp found
  exact List.cons_ne_nil _ _

theorem exists_text_eq_of_gluedName? (spot : Spot) {name : List Char}
    (glued : gluedName? spot.line.cleaned = some name) : ∃ rest, spot.text = "function".toList ++ rest := by
  obtain ⟨found, _⟩ := Option.filter_eq_some_iff.mp glued
  have run : leadingRun spot.text = "function".toList ++ name :=
    (Pattern.leadingRun_trim _).trans (Text.after?_eq_some.mp found)
  rw [leadingRun, spot.trimStart_text] at run
  refine ⟨name ++ spot.text.dropWhile Pattern.continuesIdentifier, ?_⟩
  rw [← List.append_assoc, ← run, List.takeWhile_append_dropWhile]

/-- Whether the source text of a line reads as an import or export that defines something. -/
def Spot.ReadsRecord (context : Context) (spot : Spot) : Prop :=
  ∃ finding, record? context spot = some finding ∧ finding.definitions ≠ []

theorem finding_outside {containers : List Container} (visible : spot.text ≠ [])
    (plain : ∀ container ∈ around? containers spot.index, container.kind ∉ [Kind.classType, .interfaceType]) :
    Outline.finding context containers spot =
      if around? containers spot.index = none then statement context spot else {} := by
  have shown : spot.text.isEmpty = false := List.isEmpty_eq_false_iff.mpr visible
  rw [around?] at plain ⊢
  unfold Outline.finding
  rw [shown, if_neg Bool.false_ne_true]
  split
  · rename_i outside
    rw [outside, if_pos rfl]
  · rename_i container inside
    have kind := plain container inside
    simp only [List.mem_cons, List.not_mem_nil, or_false, not_or] at kind
    rw [inside, if_neg kind.1, if_neg fun both => kind.2 both.1, if_neg (Option.some_ne_none container)]

theorem text_ne_nil_of_firstRun {text : List Char} (filled : firstRun text ≠ []) : Text.trim text ≠ [] := by
  intro empty
  apply filled
  obtain ⟨front, split, blank⟩ := Text.exists_trimStart_append text
  obtain ⟨back, rest, blanks⟩ := Text.exists_trimEnd_append (Text.trimStart text)
  have all : ∀ c ∈ text, Text.isBlank c = true := by
    intro c member
    rw [split, rest] at member
    rw [Text.trim] at empty
    rw [empty, List.nil_append] at member
    rcases List.mem_append.mp member with first | last
    · exact blank c first
    · exact blanks c last
  have skipped : (text.dropWhile fun c => !Pattern.continuesIdentifier c) = [] := by
    rw [List.dropWhile_eq_nil_iff]
    intro c member
    rw [Pattern.continues_of_isBlank (all c member)]
    rfl
  rw [firstRun, skipped]
  rfl

/-- The words that declarations, imports and exports start with. -/
def declarationWords : List String := "function" :: "import" :: openers

/-- A line of a file outside the bodies of classes and interfaces whose first word is an identifier of its own. -/
structure ExpressionLine (file : SourceFile) (limits : Limits) (front : List Line) (line : Line) (rest : List Line) :
    Prop where
  split : Blanking.pairLines file.language file.sourceLines = front ++ line :: rest
  outside : ∀ definition ∈ (scan file limits).definitions, definition.kind ∈ [Kind.classType, .interfaceType] →
    ¬ definition.Surrounds (front.length + 1)
  identifier : IsIdentifier (firstRun line.cleaned)
  word : ∀ word ∈ declarationWords, firstRun line.cleaned ≠ word.toList

namespace ExpressionLine

variable {file : SourceFile} {limits : Limits} {front rest : List Line} {line : Line}
  (expression : ExpressionLine file limits front line rest)
include expression

theorem firstRun_ne_nil : firstRun line.cleaned ≠ [] := by
  obtain ⟨c, more, run, _⟩ := expression.identifier
  rw [run]
  exact List.cons_ne_nil c more

theorem leadingRun_ne : ∀ word ∈ declarationWords, leadingRun line.cleaned ≠ word.toList := by
  have filled : ∀ word ∈ declarationWords, word.toList ≠ [] := by decide
  intro word listed same
  apply expression.word word listed
  rw [Pattern.firstRun_eq_leadingRun (same ▸ filled word listed), same]

/-- Where the line starts in code it is no import or export. -/
theorem record? (code : StartsInCode file.language front) (limit : UInt64) (index : Nat) (depth : Int) :
    Outline.record? ⟨file.path, file.language, limit⟩ ⟨index, depth, line :: rest⟩ = none := by
  have cleaned : line.cleaned ≠ [] := by
    intro empty
    apply expression.firstRun_ne_nil
    rw [empty]
    rfl
  have run : leadingRun (Spot.rawLine ⟨file.path, file.language, limit⟩ ⟨index, depth, line :: rest⟩) =
      leadingRun line.cleaned := by
    rw [Spot.rawLine, Pattern.leadingRun_trimStart]
    exact Blanking.leadingRun_stripComments expression.split code cleaned
  have other := expression.leadingRun_ne
  rw [← run] at other
  apply record?_eq_none
  · exact .of_leadingRun fun word opener => other word (by simp [declarationWords, opener])
  · by_contra starts
    exact other "import" (by decide) (leadingRun_of_startsImport (by simpa using starts))
  · by_contra starts
    exact other "export" (by decide) (leadingRun_of_startsExportList (by simpa using starts))

theorem declaration (context : Context) (index : Nat) (depth : Int) :
    Outline.declaration context ⟨index, depth, line :: rest⟩ =
      ((gluedName? line.cleaned).map (functionDeclaration context ⟨index, depth, line :: rest⟩)).getD {} := by
  have run : leadingRun (Spot.text ⟨index, depth, line :: rest⟩) = leadingRun line.cleaned :=
    Pattern.leadingRun_trim line.cleaned
  have other := expression.leadingRun_ne
  rw [← run] at other
  rw [declaration_of_unspaced (.of_leadingRun fun word opener => other word (by simp [declarationWords, opener]))
    (other "function" (by decide)), gluedName?, run, ← gluedName?]

/-- As a statement the line defines the function whose name follows on `function` in its first word, unless its
source text reads as an import or export. -/
theorem statement_definitions (context : Context) (index : Nat) (depth : Int) :
    (statement context ⟨index, depth, line :: rest⟩).definitions = [] ↔
      gluedName? line.cleaned = none ∧ ¬ Spot.ReadsRecord context ⟨index, depth, line :: rest⟩ := by
  rw [statement_eq]
  cases found : Outline.record? context ⟨index, depth, line :: rest⟩ with
  | none =>
    have unread : ¬ Spot.ReadsRecord context ⟨index, depth, line :: rest⟩ := by
      rintro ⟨finding, reads, _⟩
      rw [found] at reads
      cases reads
    rw [Option.getD_none, expression.declaration]
    cases gluedName? line.cleaned with
    | none => simpa using unread
    | some name => simp [functionDeclaration]
  | some finding =>
    constructor
    · intro empty
      -- Behind `function` only a required module is read, and that is a definition.
      refine ⟨?_, ?_⟩
      · rw [Option.eq_none_iff_forall_ne_some]
        intro name glued
        obtain ⟨left, starts⟩ := exists_text_eq_of_gluedName? ⟨index, depth, line :: rest⟩ glued
        exact record?_of_function starts found empty
      · rintro ⟨other, reads, filled⟩
        cases found.symm.trans reads
        exact filled empty
    · rintro ⟨_, unread⟩
      by_contra filled
      exact unread ⟨finding, found, filled⟩

/-- The container around the line, if any, is an enumeration or a type. -/
theorem around_kind {containers : List Container}
    (reached : Reached ⟨file.path, file.language, limits.block⟩
      (Blanking.pairLines file.language file.sourceLines) (scan file limits).definitions front (line :: rest)
      containers) :
    ∀ container ∈ around? containers front.length, container.kind ∉ [Kind.classType, .interfaceType] := by
  intro container around kind
  have known := List.mem_of_find?_eq_some around
  have inside := List.find?_some around
  obtain ⟨listed, _, _, definition, member, shown⟩ := reached.sound container known
  exact expression.outside definition member (shown.kind ▸ kind)
    ((shown.surrounds listed).mpr (by simpa using inside))

/-- What is found on the line is what it says as a statement, or nothing in the body of an enumeration or type. -/
theorem definitions_on_line :
    ((∀ definition ∈ (scan file limits).definitions, ¬ definition.Surrounds (front.length + 1)) →
      ((scan file limits).definitions.filter fun definition => definition.startLine == front.length + 1) =
        (statement ⟨file.path, file.language, limits.block⟩
          ⟨front.length, bracesOf front, line :: rest⟩).definitions) ∧
      ((∃ definition ∈ (scan file limits).definitions, definition.Surrounds (front.length + 1)) →
        ((scan file limits).definitions.filter fun definition => definition.startLine == front.length + 1) = []) := by
  obtain ⟨containers, reached⟩ := scan_reaches file limits expression.split
  have visible : Spot.text ⟨front.length, bracesOf front, line :: rest⟩ ≠ [] :=
    text_ne_nil_of_firstRun expression.firstRun_ne_nil
  rw [reached.filter_own, finding_outside visible (expression.around_kind reached)]
  constructor
  · intro free
    rw [if_pos (reached.around?_eq_none.mpr free)]
  · rintro ⟨definition, member, surrounds⟩
    rw [if_neg]
    intro free
    exact reached.around?_eq_none.mp free definition member surrounds

end ExpressionLine

/-- A line that starts with an identifier of its own defines nothing, unless the outline takes it for a statement and
either the identifier is `function` with a name right behind it, or the line does not start in code and its source
text reads as an import or export. Where it starts in code, what is defined is that function. -/
theorem expression_line_defines_nothing_iff {file : SourceFile} {limits : Limits} {front rest : List Line} {line : Line}
    (expression : ExpressionLine file limits front line rest) :
    (((scan file limits).definitions.filter fun definition => definition.startLine == front.length + 1) = [] ↔
      (∃ definition ∈ (scan file limits).definitions, definition.Surrounds (front.length + 1)) ∨
        gluedName? line.cleaned = none ∧
          (StartsInCode file.language front ∨
            ¬ Spot.ReadsRecord ⟨file.path, file.language, limits.block⟩
              ⟨front.length, bracesOf front, line :: rest⟩)) ∧
      (StartsInCode file.language front → ∀ definition ∈ (scan file limits).definitions,
        definition.startLine = front.length + 1 →
          gluedName? line.cleaned = some definition.name.toList ∧ definition.kind ∈ functionKinds) := by
  obtain ⟨own, surrounded⟩ := expression.definitions_on_line
  have unread (code : StartsInCode file.language front) :
      ¬ Spot.ReadsRecord ⟨file.path, file.language, limits.block⟩
        ⟨front.length, bracesOf front, line :: rest⟩ := by
    rintro ⟨finding, reads, _⟩
    rw [expression.record? code] at reads
    cases reads
  by_cases inside : ∃ definition ∈ (scan file limits).definitions, definition.Surrounds (front.length + 1)
  · have nothing := surrounded inside
    refine ⟨iff_of_true nothing (.inl inside), ?_⟩
    intro _ definition member starts
    have kept := List.filter_eq_nil_iff.mp nothing definition member
    exact absurd (beq_iff_eq.mpr starts) kept
  · have found := own fun definition member surrounds => inside ⟨definition, member, surrounds⟩
    constructor
    · rw [found, expression.statement_definitions]
      constructor
      · rintro ⟨unglued, blank⟩
        exact .inr ⟨unglued, .inr blank⟩
      · rintro (surrounds | ⟨unglued, code | blank⟩)
        · exact absurd surrounds inside
        · exact ⟨unglued, unread code⟩
        · exact ⟨unglued, blank⟩
    · intro code definition member starts
      have kept : definition ∈ (scan file limits).definitions.filter
          fun definition => definition.startLine == front.length + 1 :=
        List.mem_filter.mpr ⟨member, beq_iff_eq.mpr starts⟩
      rw [found, statement_eq, expression.record? code, Option.getD_none, expression.declaration] at kept
      cases glued : gluedName? line.cleaned with
      | none =>
        rw [glued] at kept
        cases kept
      | some name =>
        rw [glued] at kept
        cases List.mem_singleton.mp kept
        exact ⟨congrArg some (String.toList_ofList).symm, functionKind_mem name _⟩

/-- Two calls, of which the second stands behind a template of several lines. -/
def calls : SourceFile := .ofText "c.js" .javascript "functionA()\nt=\x60\n/*a*/let b=require('x')\x60,c()"

def callsFirst : Line := ⟨"functionA()".toList, "functionA()".toList⟩

def callsTemplate : Line := ⟨"t=\x60".toList, "t=\x60".toList⟩

def callsSecond : Line := ⟨"/*a*/let b=require('x')\x60,c()".toList, "                       \x60,c()".toList⟩

def callsFunction : Definition :=
  { name := "A", kind := .function, filePath := "c.js", startLine := 1, endLine := 1, code := "functionA()" }

def callsModule : Definition :=
  { name := "x", kind := .importRecord, filePath := "c.js", startLine := 3, endLine := 3
    code := "/*a*/let b=require('x')\x60,c()", moduleName := some "x", bindings := ["b"] }

theorem pairLines_calls :
    Blanking.pairLines calls.language calls.sourceLines = [callsFirst, callsTemplate, callsSecond] := by
  decide

theorem scan_calls : (scan calls ⟨1000, 160⟩).definitions = [callsFunction, callsModule] := by
  rw [scan, pairLines_calls]
  decide

theorem calls_first : ExpressionLine calls ⟨1000, 160⟩ [] callsFirst [callsTemplate, callsSecond] where
  split := pairLines_calls
  outside := by
    rw [scan_calls]
    decide
  identifier := ⟨'f', "unctionA".toList, by decide, by decide, by decide⟩
  word := by decide

theorem calls_second : ExpressionLine calls ⟨1000, 160⟩ [callsFirst, callsTemplate] callsSecond [] where
  split := pairLines_calls
  outside := by
    rw [scan_calls]
    decide
  identifier := ⟨'c', [], by decide, by decide, by decide⟩
  word := by decide

theorem expression_line_defines_nothing_iff_template :
    ExpressionLine calls ⟨1000, 160⟩ [callsFirst, callsTemplate] callsSecond [] ∧
      (((scan calls ⟨1000, 160⟩).definitions.filter fun definition => definition.startLine == 3) = [] ↔
        (∃ definition ∈ (scan calls ⟨1000, 160⟩).definitions, definition.Surrounds 3) ∨
          gluedName? callsSecond.cleaned = none ∧
            (StartsInCode .javascript [callsFirst, callsTemplate] ∨
              ¬ Spot.ReadsRecord ⟨"c.js", .javascript, 1000⟩
                ⟨2, bracesOf [callsFirst, callsTemplate], [callsSecond]⟩)) :=
  ⟨calls_second, (expression_line_defines_nothing_iff calls_second).1⟩

/-- The two calls are found as a function and as an import, the second although its source text starts with a word of
its own too. -/
theorem calls_found_as_definitions :
    ExpressionLine calls ⟨1000, 160⟩ [] callsFirst [callsTemplate, callsSecond] ∧
      ExpressionLine calls ⟨1000, 160⟩ [callsFirst, callsTemplate] callsSecond [] ∧
      (∀ word ∈ declarationWords, firstRun callsSecond.raw ≠ word.toList) ∧
      (∃ definition ∈ (scan calls ⟨1000, 160⟩).definitions, definition.startLine = 1 ∧ definition.kind = .function) ∧
      ∃ definition ∈ (scan calls ⟨1000, 160⟩).definitions,
        definition.startLine = 3 ∧ definition.kind = .importRecord := by
  refine ⟨calls_first, calls_second, by decide, ⟨callsFunction, ?_, rfl, rfl⟩, ⟨callsModule, ?_, rfl, rfl⟩⟩
  · rw [scan_calls]
    exact List.mem_cons_self
  · rw [scan_calls]
    exact List.mem_cons_of_mem _ List.mem_cons_self

end Outline
end Script
end CallAtlas

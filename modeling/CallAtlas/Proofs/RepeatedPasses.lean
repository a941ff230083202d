import CallAtlas.Proofs.HiddenText
import CallAtlas.Proofs.InsertedLines

/-! Passes over text that was passed before. Blanking strings, dropping comments and doing both are projections that
commute up to the blanks at the end of a line. The lines of a script can be cleaned again without a change; those of Ruby
can unless a heredoc that was blanked still shows where it opens. -/
namespace CallAtlas.Blanking

variable {language : Language} {style : Style} {state : State} {c d : Char} {blanks : List Char}

theorem isBlank_scan (blank : ∀ c ∈ blanks, Text.isBlank c = true) :
    ∀ c ∈ (scan language style state blanks).1, Text.isBlank c = true := by
  intro c member
  obtain ⟨column, here⟩ := List.mem_iff_getElem?.mp member
  rcases scan_shadows blanks column c here with rfl | same
  · decide
  · exact blank c (List.mem_of_getElem? same)

/-- A blank ahead is as good as nothing, unless it is escaped. -/
theorem step_blank_ahead (blank : Text.isBlank d = true) (unescaped : c = '\\' → ∀ quote, state.mode ≠ .quoted quote) :
    step language style state c (some d) = step language style state c none := by
  have other {mark : Char} (visible : Text.isBlank mark = false) : d ≠ mark := by
    rintro rfl
    rw [blank] at visible
    cases visible
  have star : d ≠ '*' := other (by decide)
  have slash : d ≠ '/' := other (by decide)
  have brace : d ≠ '{' := other (by decide)
  obtain ⟨mode, frames⟩ := state
  cases mode with
  | comment => simp [step, stepComment, slash]
  | quoted quote =>
    have plain : c ≠ '\\' := fun same => unescaped same quote rfl
    simp [step, stepQuoted, plain, brace]
  | code =>
    have same : startsLineComment language c (some d) = startsLineComment language c none := by
      cases ruby : language.isRubyLike with
      | true => simp [startsLineComment, ruby, bne_iff_ne.mpr (mt Option.some.inj brace)]
      | false => simp [startsLineComment, ruby, slash]
    simp [step, stepCode, stepPlain, same, star]

/-- A character with blanks behind it is scanned as it is alone, but for blanks behind. -/
theorem scan_cons_blanks (blank : ∀ c ∈ blanks, Text.isBlank c = true) (state : State) (c : Char) :
    ∃ tail, (∀ d ∈ tail, Text.isBlank d = true) ∧
      (scan language style state (c :: blanks)).1 = (scan language style state [c]).1 ++ tail := by
  cases blanks with
  | nil => exact ⟨[], by simp, by simp⟩
  | cons d blanks =>
    obtain ⟨first, others⟩ := List.forall_mem_cons.mp blank
    by_cases escape : c = '\\' ∧ ∃ quote, state.mode = .quoted quote
    · obtain ⟨mode, frames⟩ := state
      obtain ⟨rfl, quote, rfl⟩ := escape
      have alone : step language style ⟨.quoted quote, frames⟩ '\\' ([] : List Char).head? =
        .one (if style.blankStrings then ' ' else '\\') ⟨.quoted quote, frames⟩ := rfl
      have pair := step_escape language style quote d frames
      have second : Text.isBlank (if style.blankStrings then ' ' else d) = true := by
        split
        · decide
        · exact first
      refine ⟨_ :: (scan language style ⟨.quoted quote, frames⟩ blanks).1,
        List.forall_mem_cons.mpr ⟨second, isBlank_scan others⟩, ?_⟩
      rw [scan_two pair, scan_one alone]
      rfl
    · have same : step language style state c (d :: blanks).head? = step language style state c none := by
        apply step_blank_ahead first
        intro slash quote quoted
        exact escape ⟨slash, quote, quoted⟩
      have shadows := step_shadows language style state c (some d)
      cases moved : step language style state c ([] : List Char).head? with
      | one written later =>
        refine ⟨(scan language style later (d :: blanks)).1, isBlank_scan blank, ?_⟩
        rw [scan_one (same.trans moved), scan_one moved]
        rfl
      | two a b later =>
        rw [List.head?_cons, List.head?_nil.symm, moved] at same
        rw [same] at shadows
        have second : Text.isBlank b = true := by
          rcases shadows.2 d rfl with rfl | rfl
          · decide
          · exact first
        refine ⟨b :: (scan language style later blanks).1, List.forall_mem_cons.mpr ⟨second, isBlank_scan others⟩, ?_⟩
        rw [scan_two same, scan, moved]
        rfl
      | lineComment =>
        rw [scan_lineComment (same.trans moved), scan_lineComment moved]
        cases style.dropComments with
        | true => exact ⟨[], by simp, rfl⟩
        | false => exact ⟨d :: blanks, blank, rfl⟩

theorem scan_append_blanks (blank : ∀ c ∈ blanks, Text.isBlank c = true) (state : State) (text : List Char) :
    ∃ tail, (∀ c ∈ tail, Text.isBlank c = true) ∧
      (scan language style state (text ++ blanks)).1 = (scan language style state text).1 ++ tail := by
  -- A step reads one or two characters, so the induction is on how long the text is.
  induction length : text.length using Nat.strong_induction_on generalizing state text with
  | _ bound ih =>
    subst length
    cases text with
    | nil => exact ⟨_, isBlank_scan blank, rfl⟩
    | cons c rest =>
      cases rest with
      | nil => exact scan_cons_blanks blank state c
      | cons d rest =>
        have behind {text : List Char} (shorter : text.length ≤ (d :: rest).length) (state : State) :=
          ih text.length (Nat.lt_succ_of_le shorter) state text rfl
        have ahead : (d :: rest ++ blanks).head? = (d :: rest).head? := rfl
        cases moved : step language style state c (d :: rest).head? with
        | one written later =>
          obtain ⟨tail, blankTail, same⟩ := behind (Nat.le_refl _) later
          refine ⟨tail, blankTail, ?_⟩
          rw [scan_one moved, List.cons_append, scan_one (ahead ▸ moved), same]
          rfl
        | two a b later =>
          obtain ⟨tail, blankTail, same⟩ := behind (Nat.le_succ _) later
          refine ⟨tail, blankTail, ?_⟩
          rw [scan_two moved, List.cons_append, List.cons_append, scan_two moved, same]
          rfl
        | lineComment =>
          rw [scan_lineComment moved, List.cons_append, scan_lineComment (ahead ▸ moved)]
          cases style.dropComments with
          | true => exact ⟨[], by simp, rfl⟩
          | false => exact ⟨blanks, blank, rfl⟩

theorem trimEnd_scan_trimEnd (text : List Char) :
    Text.trimEnd (scan language style state (Text.trimEnd text)).1 = Text.trimEnd (scan language style state text).1 := by
  obtain ⟨blanks, split, blank⟩ := Text.exists_trimEnd_append text
  obtain ⟨tail, blankTail, same⟩ := scan_append_blanks blank state (Text.trimEnd text)
  rw [← split] at same
  rw [same, Text.trimEnd_append_blanks blankTail]

theorem stripStrings_stripStrings (language : Language) (line : List Char) :
    stripStrings language (stripStrings language line) = stripStrings language line :=
  congrArg Prod.fst (readsTwice ⟨true, false⟩ ⟨true, false⟩ (State.sound_start language) line)

theorem stripComments_stripComments (language : Language) (line : List Char) :
    stripComments language (stripComments language line) = stripComments language line := by
  have twice := readsTwice ⟨false, true⟩ ⟨false, true⟩ (State.sound_start language) line
  rw [stripComments, stripComments, trimEnd_scan_trimEnd]
  exact congrArg (fun found => Text.trimEnd found.1) twice

theorem stripStrings_stripComments (language : Language) (line : List Char) :
    Text.trimEnd (stripStrings language (stripComments language line)) =
      Text.trimEnd (scan language ⟨true, true⟩ {} line).1 := by
  have twice := readsTwice ⟨false, true⟩ ⟨true, false⟩ (State.sound_start language) line
  rw [stripStrings, stripComments, trimEnd_scan_trimEnd]
  exact congrArg (fun found => Text.trimEnd found.1) twice

theorem again_atLineEnd (script : language.isRubyLike = false) (style : Style) (state : State) :
    (state.again style).atLineEnd language = (state.atLineEnd language).again style := by
  obtain ⟨mode, frames⟩ := state
  cases mode with
  | code => simp [State.again, State.atLineEnd, script]
  | comment => cases drops : style.dropComments <;> simp [State.again, State.atLineEnd, script, drops]
  | quoted quote => by_cases template : quote = '\x60' <;> simp [State.again, State.atLineEnd, script, template]

theorem cleanAll_cleanAll (script : language.isRubyLike = false) {cleaner other : Cleaner}
    (sound : cleaner.state.Sound language) (same : other.state = cleaner.state.again ⟨true, true⟩)
    (lines : List (List Char)) :
    other.cleanAll language (cleaner.cleanAll language lines) = cleaner.cleanAll language lines := by
  induction lines generalizing cleaner other with
  | nil => rfl
  | cons line rest ih =>
    have twice := readsTwice ⟨true, true⟩ ⟨true, true⟩ sound line
    have reached : (cleaner.clean language line).2.state.Sound language := by
      rw [clean_script script]
      exact atLineEnd_sound (scan_sound sound line)
    rw [cleanAll_cons, cleanAll_cons, ih reached]
    · rw [clean_script script, clean_script script, same, twice]
      rfl
    · rw [clean_script script, clean_script script, same, twice]
      exact again_atLineEnd script _ _

/-- A line that cleaning leaves as it is, outside of heredocs and documentation blocks. -/
structure Blanked (language : Language) (line : List Char) : Prop where
  fixed : (scan language ⟨true, true⟩ {} line).1 = line
  code : Text.startsWith "=begin" line = false

theorem blanked_scan {line : List Char} (code : Text.startsWith "=begin" line = false) :
    Blanked language (scan language ⟨true, true⟩ {} line).1 where
  fixed := by
    have twice := readsTwice ⟨true, true⟩ ⟨true, true⟩ (State.sound_start language) line
    exact congrArg (fun found => found.1) twice
  code := by
    -- No blank is a part of the mark, so it is shown only where the line has it.
    by_contra shown
    obtain ⟨rest, found⟩ := Option.isSome_iff_exists.mp (Bool.not_eq_false _ ▸ shown)
    have visible : "=begin".toList <+: (scan language ⟨true, true⟩ {} line).1.drop 0 :=
      ⟨rest, (Text.after?_eq_some.mp found).symm⟩
    obtain ⟨more, same⟩ := (scan_shadows line).isPrefix_drop (by decide) visible
    rw [List.drop_zero] at same
    rw [← same, Text.startsWith, Text.after?_append] at code
    cases code

theorem blanked_of_mem_cleanAll (ruby : language.isRubyLike = true) {cleaner : Cleaner} (fresh : cleaner.state = {})
    {lines : List (List Char)} : ∀ line ∈ cleaner.cleanAll language lines, Blanked language line := by
  induction lines generalizing cleaner with
  | nil => simp [Cleaner.cleanAll]
  | cons line rest ih =>
    obtain ⟨next, shown⟩ := clean_rubyLike ruby fresh line
    intro cleaned member
    rw [cleanAll_cons] at member
    rcases List.mem_cons.mp member with rfl | member
    · rcases shown with none | ⟨code, same⟩
      · rw [none]
        exact ⟨rfl, rfl⟩
      · rw [same]
        exact blanked_scan code
    · exact ih next cleaned member

theorem keepsMark_of_heredocWord? {line word : List Char} {column : Nat}
    (reads : heredocWord? (line.drop column) = some word) : keepsMark line column = true := by
  unfold heredocWord? at reads
  split at reads
  · cases reads
  · rename_i rest found
    rw [keepsMark, Text.startsWith, found, Option.isSome_some]

/-- A line that shows where a heredoc opens opens it. -/
theorem openedHeredoc?_self (line : List Char) : openedHeredoc? line line = (firstHeredoc? line).map (·.2) := by
  cases found : firstHeredoc? line with
  | none =>
    rw [openedHeredoc?, found]
    rfl
  | some first =>
    obtain ⟨before, word⟩ := first
    obtain ⟨_, front, reads, _⟩ := firstHeredoc?_eq_some found
    refine (openedHeredoc?_eq_some found).mpr ⟨before.length, congrArg Text.byteLength front, ?_⟩
    exact keepsMark_of_heredocWord? reads

theorem clean_blanked (ruby : language.isRubyLike = true) {line : List Char} (blanked : Blanked language line) :
    ({} : Cleaner).clean language line = (line, { heredoc := (firstHeredoc? line).map (·.2) }) := by
  simp only [Cleaner.clean, ruby, if_true, blanked.code, Bool.false_eq_true, if_false, blanked.fixed, State.atLineEnd,
    openedHeredoc?_self]

/-- In a heredoc without an end all lines are blanked. -/
theorem cleanAll_heredoc (ruby : language.isRubyLike = true) {word : List Char} (filled : word ≠ [])
    (lines : List (List Char)) :
    ({ heredoc := some word } : Cleaner).cleanAll language lines = lines ↔ ∀ line ∈ lines, line = [] := by
  induction lines with
  | nil => simp [Cleaner.cleanAll]
  | cons line rest ih =>
    rw [cleanAll_cons, List.cons.injEq, List.forall_mem_cons, ← ih]
    simp only [Cleaner.clean, ruby, if_true]
    have goesOn : Text.trim [] ≠ word := Ne.symm filled
    constructor
    · intro same
      obtain ⟨rfl, later⟩ := same
      rw [if_neg goesOn] at later
      exact ⟨rfl, later⟩
    · intro empty
      obtain ⟨rfl, later⟩ := empty
      rw [if_neg goesOn]
      exact ⟨rfl, later⟩

/-- Whether a line shows where a heredoc opens. -/
def showsHeredoc (line : List Char) : Bool := (firstHeredoc? line).isSome

theorem cleanAll_blanked (ruby : language.isRubyLike = true) {lines : List (List Char)}
    (all : ∀ line ∈ lines, Blanked language line) :
    ({} : Cleaner).cleanAll language lines = lines ↔
      ∀ line ∈ (lines.dropWhile fun line => !showsHeredoc line).tail, line = [] := by
  induction lines with
  | nil => simp [Cleaner.cleanAll]
  | cons line rest ih =>
    obtain ⟨own, others⟩ := List.forall_mem_cons.mp all
    rw [cleanAll_cons, clean_blanked ruby own, List.cons.injEq, eq_self, true_and, List.dropWhile_cons, showsHeredoc]
    cases found : firstHeredoc? line with
    | none => exact ih others
    | some first =>
      have filled : first.2 ≠ [] := heredocWord?_ne_nil (firstHeredoc?_eq_some found).2.2.1
      exact cleanAll_heredoc ruby filled rest

/-- Passes over a line are projections that commute. Blanking strings and dropping comments can each be done again
without a change, and one after the other they show what a single pass shows that does both, up to blanks at the end. So
the lines of a script can be cleaned again without a change. Those of Ruby can exactly if all lines are empty behind the
first one that still shows where a heredoc opens. -/
theorem passes_are_projections (language : Language) :
    (∀ line : List Char,
      stripStrings language (stripStrings language line) = stripStrings language line ∧
      stripComments language (stripComments language line) = stripComments language line ∧
      Text.trimEnd (stripComments language (stripStrings language line)) =
        Text.trimEnd (scan language ⟨true, true⟩ {} line).1 ∧
      Text.trimEnd (stripStrings language (stripComments language line)) =
        Text.trimEnd (scan language ⟨true, true⟩ {} line).1) ∧
    (language.isRubyLike = false → ∀ lines : List (List Char),
      cleanLines language (cleanLines language lines) = cleanLines language lines) ∧
    (language.isRubyLike = true → ∀ lines : List (List Char),
      (cleanLines language (cleanLines language lines) = cleanLines language lines ↔
        ∀ line ∈ ((cleanLines language lines).dropWhile fun line => !showsHeredoc line).tail, line = [])) := by
  refine ⟨fun line => ?_, fun script lines => ?_, fun ruby lines => ?_⟩
  · refine ⟨stripStrings_stripStrings language line, stripComments_stripComments language line, ?_,
      stripStrings_stripComments language line⟩
    rw [stripComments_stripStrings, Text.trimEnd_trimEnd]
  · exact cleanAll_cleanAll script (State.sound_start language) rfl lines
  · exact cleanAll_blanked ruby (blanked_of_mem_cleanAll ruby rfl)

/-- A comment and a template that go on over lines of a script, and a heredoc of Ruby whose word is blanked with its
quotes' contents. -/
theorem passes_are_projections_lines :
    let script := ["/* a // b".toList, "c */ d(\x60e".toList, "$\x7bf('g')\x7d\\\x60 h\x60) // i".toList]
    let ruby := ["x = <<'A' # b".toList, "c".toList, "A".toList, "d(\"e\")".toList]
    cleanLines .javascript (cleanLines .javascript script) = cleanLines .javascript script ∧
      (∀ line ∈ ((cleanLines .ruby ruby).dropWhile fun line => !showsHeredoc line).tail, line = []) ∧
      cleanLines .ruby (cleanLines .ruby ruby) = cleanLines .ruby ruby := by
  intro script ruby
  have empty : ∀ line ∈ ((cleanLines .ruby ruby).dropWhile fun line => !showsHeredoc line).tail, line = [] := by
    decide +kernel
  have cleaned := (passes_are_projections .ruby).2.2 rfl ruby
  exact ⟨(passes_are_projections .javascript).2.1 rfl script, empty, cleaned.mpr empty⟩

/-- Templates are cleaned as Ruby is: a heredoc that was blanked still shows where it opens, but not where it ends. -/
theorem template_heredoc_reopens :
    let lines := ["x = <<A".toList, "b".toList, "A".toList, "c".toList]
    cleanLines .erb lines = ["x = <<A".toList, [], [], "c".toList] ∧
      cleanLines .erb (cleanLines .erb lines) ≠ cleanLines .erb lines := by
  decide +kernel

end CallAtlas.Blanking

import CallAtlas.Proofs.ScanSteps

/-! Passes of the scan over a line. A second pass over what a first one writes takes the same steps, so the two show
what a single pass shows that blanks as much as both. -/
namespace CallAtlas.Blanking

variable {language : Language} {style : Style} {state later : State} {frames : List Frame} {c d written : Char}
  {next : Option Char} {rest more : List Char}

/-- What two passes blank together. -/
def Style.both (first second : Style) : Style :=
  ⟨first.blankStrings || second.blankStrings, first.dropComments || second.dropComments⟩

@[simp] theorem Style.both_blankStrings (first second : Style) :
    (first.both second).blankStrings = (first.blankStrings || second.blankStrings) := rfl

@[simp] theorem Style.both_dropComments (first second : Style) :
    (first.both second).dropComments = (first.dropComments || second.dropComments) := rfl

/-- Where a second pass is when the first one is in `state`: of a comment that was dropped it sees blanks in code. -/
def State.again (first : Style) (state : State) : State :=
  if first.dropComments = true ∧ state.mode = .comment then { state with mode := .code } else state

theorem State.again_of_ne (first : Style) (outside : state.mode ≠ .comment) : state.again first = state :=
  if_neg fun both => outside both.2

theorem State.again_comment {first : Style} (drops : first.dropComments = true) :
    State.again first ⟨.comment, frames⟩ = ⟨.code, frames⟩ := if_pos ⟨drops, rfl⟩

theorem State.again_of_kept {first : Style} (keeps : first.dropComments = false) : state.again first = state :=
  if_neg fun both => by simp [keeps] at both

/-- A second pass over what a first one writes shows what one pass shows that blanks as much as both, and it is where
that pass is. -/
def ReadsTwice (language : Language) (first second : Style) (state : State) (line : List Char) : Prop :=
  scan language second (state.again first) (scan language first state line).1 =
    ((scan language (first.both second) state line).1, (scan language (first.both second) state line).2.again first)

/-- Code that no comment starts is written. -/
theorem head?_scan_code {text : List Char} (code : ∀ d ∈ text.head?, d ≠ commentSign language) :
    (scan language style ⟨.code, frames⟩ text).1.head? = text.head? := by
  cases text with
  | nil => rfl
  | cons d more =>
    have plain := code d rfl
    obtain ⟨later, steps⟩ := @step_writes language style frames d more.head? (startsLineComment_eq_false plain)
      (opensComment_eq_false plain)
    rw [scan_one steps]
    rfl

/-- Behind the sign of a comment that is code, what follows is written. -/
theorem head?_scan_sign (mark : c = commentSign language) (code : startsLineComment language c rest.head? = false) :
    (scan language style ⟨.code, frames⟩ rest).1.head? = rest.head? := by
  apply head?_scan_code
  intro d second same
  rw [Option.mem_def.mp second, mark, same] at code
  cases ruby : language.isRubyLike <;> simp [startsLineComment, commentSign, ruby] at code

theorem head?_scan_comment (keeps : style.dropComments = false) (text : List Char) :
    (scan language style ⟨.comment, frames⟩ text).1.head? = text.head? := by
  cases text with
  | nil => rfl
  | cons d more =>
    have steps := @step_comment_kept language style frames d more.head? keeps
    split at steps
    · rename_i ends
      simp only [Bool.and_eq_true, beq_iff_eq] at ends
      obtain ⟨rfl, second⟩ := ends
      obtain ⟨more, rfl⟩ := List.head?_eq_some_iff.mp second
      rw [scan_two steps]
      rfl
    · rw [scan_one steps]
      rfl

theorem head?_scan_quoted (keeps : style.blankStrings = false) (quote : Char) (text : List Char) :
    (scan language style ⟨.quoted quote, frames⟩ text).1.head? = text.head? := by
  cases text with
  | nil => rfl
  | cons d more =>
    have writes : ∃ later, step language style ⟨.quoted quote, frames⟩ d more.head? = .one d later ∨
        ∃ second, step language style ⟨.quoted quote, frames⟩ d more.head? = .two d second later := by
      simp only [step, stepQuoted, keeps, Bool.false_eq_true, if_false]
      split
      · split
        · exact ⟨_, .inr ⟨_, rfl⟩⟩
        · exact ⟨_, .inl rfl⟩
      · split
        · exact ⟨_, .inl rfl⟩
        · split
          · exact ⟨_, .inr ⟨_, rfl⟩⟩
          · exact ⟨_, .inl rfl⟩
    obtain ⟨later, one | ⟨second, two⟩⟩ := writes
    · rw [scan_one one]
      rfl
    · cases more with
      | nil => rw [scan, two]
      | cons e more =>
        rw [scan_two two]
        rfl

section

variable {first second : Style}

theorem readsTwice_one {shown : Char} (reads : step language first state c rest.head? = .one written later)
    (again : step language second (state.again first) written (scan language first later rest).1.head? =
      .one shown (later.again first))
    (once : step language (first.both second) state c rest.head? = .one shown later)
    (behind : ReadsTwice language first second later rest) : ReadsTwice language first second state (c :: rest) := by
  rw [ReadsTwice, scan_one reads, scan_one again, scan_one once, behind]

theorem readsTwice_two {a b shownFirst shownSecond : Char}
    (reads : step language first state c (some d) = .two a b later)
    (again : step language second (state.again first) a (some b) = .two shownFirst shownSecond (later.again first))
    (once : step language (first.both second) state c (some d) = .two shownFirst shownSecond later)
    (behind : ReadsTwice language first second later rest) :
    ReadsTwice language first second state (c :: d :: rest) := by
  rw [ReadsTwice, scan_two reads, scan_two again, scan_two once, behind]

/-- Two blanks that were written for a mark are read one by one. -/
theorem readsTwice_blanks (reads : step language first state c (some d) = .two ' ' ' ' later)
    (again : ∀ next, step language second (state.again first) ' ' next = .one ' ' (state.again first))
    (stays : state.again first = later.again first)
    (once : step language (first.both second) state c (some d) = .two ' ' ' ' later)
    (behind : ReadsTwice language first second later rest) :
    ReadsTwice language first second state (c :: d :: rest) := by
  rw [ReadsTwice, scan_two reads, scan_one (again _), scan_one (again _), scan_two once, stays, behind]

theorem readsTwice_lineComment (starts : startsLineComment language c rest.head? = true) :
    ReadsTwice language first second ⟨.code, frames⟩ (c :: rest) := by
  have stays : State.again first ⟨.code, frames⟩ = ⟨.code, frames⟩ := State.again_of_ne first (by simp)
  have steps (style : Style) := @step_lineComment language style frames c rest.head? starts
  rw [ReadsTwice, scan_lineComment (steps _), scan_lineComment (steps _), stays]
  cases drops : first.dropComments with
  | true => simp [drops, scan]
  | false => simp [drops, scan_lineComment (steps _)]

variable (behind : ∀ {state : State} {text : List Char}, state.Sound language → text.length ≤ rest.length →
  ReadsTwice language first second state text)

include behind

theorem readsTwice_opensComment (sound : State.Sound language ⟨.code, frames⟩)
    (opens : opensComment language c rest.head? = true) :
    ReadsTwice language first second ⟨.code, frames⟩ (c :: rest) := by
  have marks := opens
  simp only [opensComment, Bool.and_eq_true, beq_iff_eq] at marks
  obtain ⟨⟨_, rfl⟩, star⟩ := marks
  obtain ⟨more, rfl⟩ := List.head?_eq_some_iff.mp star
  cases drops : first.dropComments with
  | true =>
    have stays : State.again first ⟨.code, frames⟩ = ⟨.code, frames⟩ := State.again_of_ne first (by simp)
    have reads := @step_opensComment language first frames '/' (some '*') drops opens
    have inside := step_sound sound reads (.two _ _ _)
    refine readsTwice_blanks reads (fun next => ?_) ?_ (step_opensComment (by simp [drops]) opens)
      (behind inside (Nat.le_succ _))
    · rw [stays]
      exact step_space sound (by simp)
    · rw [stays, State.again_comment drops]
  | false =>
    have reads := @step_opensComment_kept language first frames '/' (some '*') drops opens
    have inside := step_sound sound reads (.two _ _ _)
    obtain ⟨a, b, again⟩ := @step_opensComment_two language second frames '/' (some '*') opens
    have once : step language (first.both second) ⟨.code, frames⟩ '/' (some '*') = .two a b ⟨.comment, frames⟩ := by
      rw [← again]
      exact step_style_outside (by simp) (by simp [drops])
    refine readsTwice_two reads ?_ once (behind inside (Nat.le_succ _))
    rw [State.again_of_kept drops, State.again_of_kept drops]
    exact again

theorem readsTwice_code (sound : State.Sound language ⟨.code, frames⟩) :
    ReadsTwice language first second ⟨.code, frames⟩ (c :: rest) := by
  cases starts : startsLineComment language c rest.head? with
  | true => exact readsTwice_lineComment starts
  | false =>
    cases opens : opensComment language c rest.head? with
    | true => exact readsTwice_opensComment behind sound opens
    | false =>
      -- Code is written as it stands, so both passes read the same characters.
      have stays : State.again first ⟨.code, frames⟩ = ⟨.code, frames⟩ := State.again_of_ne first (by simp)
      obtain ⟨later, reads⟩ := @step_writes language first frames c rest.head? starts opens
      have free (style : Style) : step language style ⟨.code, frames⟩ c rest.head? = .one c later := by
        rw [← reads]
        exact step_code_style starts opens _ _
      refine readsTwice_one reads ?_ (free _) (behind (step_sound sound reads (.one _ _)) (Nat.le_refl _))
      rw [stays, State.again_of_ne first (mode_ne_comment reads)]
      by_cases mark : c = commentSign language
      · cases step_code_mode mark reads
        rw [head?_scan_sign mark starts]
        exact free _
      · rw [step_code_next mark _ rest.head?]
        exact free _

theorem readsTwice_comment (sound : State.Sound language ⟨.comment, frames⟩) :
    ReadsTwice language first second ⟨.comment, frames⟩ (c :: rest) := by
  have code : State.Sound language ⟨.code, frames⟩ := ⟨by simp, by simp, sound.frames⟩
  cases drops : first.dropComments with
  | true =>
    have reads := @step_comment language first frames c rest.head? drops
    have once := @step_comment language (first.both second) frames c rest.head? (by simp [drops])
    have again (next : Option Char) : step language second (State.again first ⟨.comment, frames⟩) ' ' next =
        .one ' ' (State.again first ⟨.comment, frames⟩) := by
      rw [State.again_comment drops]
      exact step_space code (by simp)
    by_cases ends : (c == '*' && rest.head? == some '/') = true
    · rw [if_pos ends] at reads once
      simp only [Bool.and_eq_true, beq_iff_eq] at ends
      obtain ⟨more, rfl⟩ := List.head?_eq_some_iff.mp ends.2
      refine readsTwice_blanks reads again ?_ once (behind code (Nat.le_succ _))
      rw [State.again_comment drops, State.again_of_ne first (by simp)]
    · rw [if_neg ends] at reads once
      exact readsTwice_one reads (again _) once (behind sound (Nat.le_refl _))
  | false =>
    have reads := @step_comment_kept language first frames c rest.head? drops
    have once : step language (first.both second) ⟨.comment, frames⟩ c rest.head? =
        step language second ⟨.comment, frames⟩ c rest.head? :=
      step_style_outside (by simp) (by simp [drops])
    by_cases ends : (c == '*' && rest.head? == some '/') = true
    · rw [if_pos ends] at reads
      have again : ∃ a b, step language second ⟨.comment, frames⟩ c rest.head? = .two a b ⟨.code, frames⟩ := by
        simp only [step, stepComment, ends, if_true]
        split <;> exact ⟨_, _, rfl⟩
      obtain ⟨a, b, again⟩ := again
      rw [again] at once
      simp only [Bool.and_eq_true, beq_iff_eq] at ends
      obtain ⟨rfl, slash⟩ := ends
      obtain ⟨more, rfl⟩ := List.head?_eq_some_iff.mp slash
      refine readsTwice_two reads ?_ once (behind code (Nat.le_succ _))
      rw [State.again_of_kept drops, State.again_of_kept drops]
      exact again
    · rw [if_neg ends] at reads
      have again : ∃ a, step language second ⟨.comment, frames⟩ c rest.head? = .one a ⟨.comment, frames⟩ := by
        simp only [step, stepComment, ends, Bool.false_eq_true, if_false]
        exact ⟨_, rfl⟩
      obtain ⟨a, again⟩ := again
      rw [again] at once
      refine readsTwice_one reads ?_ once (behind sound (Nat.le_refl _))
      rw [State.again_of_kept drops, head?_scan_comment drops]
      exact again

/-- Text of a string that is blanked or kept as it stands. -/
theorem readsTwice_text {quote : Char} (sound : State.Sound language ⟨.quoted quote, frames⟩)
    (steps : ∀ style, step language style ⟨.quoted quote, frames⟩ c rest.head? =
      .one (if style.blankStrings then ' ' else c) ⟨.quoted quote, frames⟩) :
    ReadsTwice language first second ⟨.quoted quote, frames⟩ (c :: rest) := by
  have stays : State.again first ⟨.quoted quote, frames⟩ = ⟨.quoted quote, frames⟩ := State.again_of_ne first (by simp)
  have reads := steps first
  have once := steps (first.both second)
  refine readsTwice_one reads ?_ once (behind sound (Nat.le_refl _))
  rw [stays]
  cases kept : first.blankStrings with
  | true =>
    simp only [Style.both_blankStrings, kept, Bool.true_or, if_true]
    exact step_space sound (by simp)
  | false =>
    rw [head?_scan_quoted kept, if_neg (by simp), steps second]
    simp only [Style.both_blankStrings, kept, Bool.false_or]

/-- An escaped character leaves two blanks, or stays with its backslash. -/
theorem readsTwice_escape {quote : Char} (sound : State.Sound language ⟨.quoted quote, frames⟩)
    (shorter : more.length ≤ rest.length) :
    ReadsTwice language first second ⟨.quoted quote, frames⟩ ('\\' :: d :: more) := by
  have stays : State.again first ⟨.quoted quote, frames⟩ = ⟨.quoted quote, frames⟩ := State.again_of_ne first (by simp)
  have steps (style : Style) := step_escape language style quote d frames
  have reads := steps first
  have once := steps (first.both second)
  cases kept : first.blankStrings with
  | true =>
    simp only [Style.both_blankStrings, kept, Bool.true_or, if_true] at reads once
    refine readsTwice_blanks reads (fun next => ?_) rfl once (behind sound shorter)
    rw [stays]
    exact step_space sound (by simp)
  | false =>
    simp only [Style.both_blankStrings, kept, Bool.false_or, Bool.false_eq_true, if_false] at reads once
    refine readsTwice_two reads ?_ once (behind sound shorter)
    rw [stays]
    exact steps second

theorem readsTwice_quoted {quote : Char} (sound : State.Sound language ⟨.quoted quote, frames⟩) :
    ReadsTwice language first second ⟨.quoted quote, frames⟩ (c :: rest) := by
  have quotes := sound.quoted quote rfl
  have stays {state : State} (outside : state.mode ≠ .comment) : state.again first = state :=
    State.again_of_ne first outside
  by_cases escape : c = '\\'
  · subst escape
    cases rest with
    | nil => exact readsTwice_text behind sound fun style => rfl
    | cons d more => exact readsTwice_escape behind sound (Nat.le_succ _)
  · by_cases close : c = quote
    · subst close
      have steps (style : Style) (next : Option Char) := @step_closes language style frames next c quotes
      have code : State.Sound language ⟨.code, frames⟩ := step_sound sound (steps first none) (.one _ _)
      refine readsTwice_one (steps _ _) ?_ (steps _ _) (behind code (Nat.le_refl _))
      rw [stays (by simp), stays (by simp)]
      exact steps _ _
    · by_cases opens : c = sigil language ∧ rest.head? = some '{' ∧ interpolates language quote = true
      · obtain ⟨rfl, brace, interpolated⟩ := opens
        obtain ⟨more, rfl⟩ := List.head?_eq_some_iff.mp brace
        have steps (style : Style) := @step_interpolates language style frames quote escape close interpolated
        have code : State.Sound language ⟨.code, ⟨quote, 0⟩ :: frames⟩ := step_sound sound (steps first) (.two _ _ _)
        refine readsTwice_two (steps _) ?_ (steps _) (behind code (Nat.le_succ _))
        rw [stays (by simp), stays (by simp)]
        exact steps _
      · apply readsTwice_text behind sound
        intro style
        apply step_text escape close
        intro same brace
        by_contra interpolated
        exact opens ⟨same, brace, by simpa using interpolated⟩

theorem readsTwice_cons (sound : state.Sound language) : ReadsTwice language first second state (c :: rest) := by
  obtain ⟨mode, frames⟩ := state
  cases mode with
  | code => exact readsTwice_code behind sound
  | comment => exact readsTwice_comment behind sound
  | quoted quote => exact readsTwice_quoted behind sound

end

theorem readsTwice (first second : Style) (sound : state.Sound language) (line : List Char) :
    ReadsTwice language first second state line := by
  -- A step reads one or two characters, so the induction is on how long the line is.
  induction length : line.length using Nat.strong_induction_on generalizing state line with
  | _ bound ih =>
    subst length
    cases line with
    | nil => rfl
    | cons c rest =>
      apply readsTwice_cons _ sound
      intro state text sound shorter
      exact ih text.length (Nat.lt_succ_of_le shorter) sound text rfl

theorem stripComments_stripStrings (language : Language) (line : List Char) :
    stripComments language (stripStrings language line) = Text.trimEnd (scan language ⟨true, true⟩ {} line).1 := by
  have both := readsTwice ⟨true, false⟩ ⟨false, true⟩ (State.sound_start language) line
  exact congrArg (fun found => Text.trimEnd found.1) both

end CallAtlas.Blanking

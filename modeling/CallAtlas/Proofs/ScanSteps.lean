import CallAtlas.Proofs.Columns

/-! Steps of the scan over a line. What a step does in code, in strings and in comments, which states it leads to, and
how far it depends on the character ahead and on what is blanked. A line without quotes and comments is scanned as it
stands. -/
namespace CallAtlas.Blanking

variable {language : Language} {style : Style} {state later : State} {frames : List Frame} {c d written : Char}
  {next : Option Char} {rest more : List Char}

theorem scan_one (moved : step language style state c rest.head? = .one written later) :
    scan language style state (c :: rest) =
      (written :: (scan language style later rest).1, (scan language style later rest).2) := by
  rw [scan, moved]

theorem scan_two {first second : Char} (moved : step language style state c (some d) = .two first second later) :
    scan language style state (c :: d :: rest) =
      (first :: second :: (scan language style later rest).1, (scan language style later rest).2) := by
  rw [scan, List.head?_cons, moved]

theorem scan_lineComment (starts : step language style state c rest.head? = .lineComment) :
    scan language style state (c :: rest) = (if style.dropComments then [] else c :: rest, state) := by
  rw [scan, starts]

theorem length_scan_le (line : List Char) : (scan language style state line).1.length ≤ line.length := by
  fun_induction scan language style state line with
  | case1 => exact Nat.le_refl 0
  | case2 state c rest written next moved text last same ih =>
    rw [same] at ih
    exact Nat.succ_le_succ ih
  | case3 => exact Nat.le_refl 1
  | case4 state c first second next d rest text last same moved ih =>
    rw [same] at ih
    exact Nat.succ_le_succ (Nat.succ_le_succ ih)
  | case5 => split <;> simp

/-- A state that a scan can be in: every quote that it remembers is one, and only scripts have block comments. -/
structure State.Sound (language : Language) (state : State) : Prop where
  quoted : ∀ quote, state.mode = .quoted quote → Text.isQuote quote = true
  comment : state.mode = .comment → language.isRubyLike = false
  frames : ∀ frame ∈ state.frames, Text.isQuote frame.quote = true

theorem State.sound_start (language : Language) : State.Sound language {} := ⟨by simp, by simp, by simp⟩

/-- A step goes on in a state. -/
inductive Step.Reaches : Step → State → Prop
  | one (written : Char) (next : State) : Reaches (.one written next) next
  | two (first second : Char) (next : State) : Reaches (.two first second next) next

theorem stepPlain_sound (framed : ∀ frame ∈ frames, Text.isQuote frame.quote = true)
    (reaches : (stepPlain language style ⟨.code, frames⟩ c next).Reaches later) : later.Sound language := by
  unfold stepPlain at reaches
  split at reaches
  · cases reaches
  · split at reaches
    · rename_i opens
      have script : language.isRubyLike = false := by
        simp only [Bool.and_eq_true, Bool.not_eq_true'] at opens
        exact opens.1.1
      split at reaches <;>
      · cases reaches
        exact ⟨by simp, fun _ => script, framed⟩
    · split at reaches
      · rename_i quotes
        cases reaches
        refine ⟨?_, by simp, framed⟩
        intro quote same
        cases same
        exact quotes
      · cases reaches
        exact ⟨by simp, by simp, framed⟩

theorem stepCode_sound (framed : ∀ frame ∈ frames, Text.isQuote frame.quote = true)
    (reaches : (stepCode language style ⟨.code, frames⟩ c next).Reaches later) : later.Sound language := by
  cases frames with
  | nil => exact stepPlain_sound framed reaches
  | cons frame outer =>
    obtain ⟨own, others⟩ := List.forall_mem_cons.mp framed
    have counted (depth : Nat) : ∀ inner ∈ ⟨frame.quote, depth⟩ :: outer, Text.isQuote inner.quote = true :=
      List.forall_mem_cons.mpr ⟨own, others⟩
    simp only [stepCode] at reaches
    split at reaches
    · exact stepPlain_sound (counted _) reaches
    · split at reaches
      · split at reaches
        · cases reaches
          refine ⟨?_, by simp, others⟩
          intro quote same
          cases same
          exact own
        · exact stepPlain_sound (counted _) reaches
      · exact stepPlain_sound framed reaches

theorem stepQuoted_sound {quote : Char} (sound : State.Sound language ⟨.quoted quote, frames⟩)
    (reaches : (stepQuoted language style ⟨.quoted quote, frames⟩ quote c next).Reaches later) :
    later.Sound language := by
  unfold stepQuoted at reaches
  split at reaches
  · split at reaches
    · split at reaches <;>
      · cases reaches
        exact sound
    · cases reaches
      exact sound
  · split at reaches
    · cases reaches
      exact ⟨by simp, by simp, sound.frames⟩
    · split at reaches
      · cases reaches
        exact ⟨by simp, by simp, List.forall_mem_cons.mpr ⟨sound.quoted quote rfl, sound.frames⟩⟩
      · cases reaches
        exact sound

theorem step_sound (sound : state.Sound language) {moves : Step} (steps : step language style state c next = moves)
    (reaches : moves.Reaches later) : later.Sound language := by
  obtain ⟨mode, frames⟩ := state
  subst steps
  cases mode with
  | code => exact stepCode_sound sound.frames reaches
  | quoted quote => exact stepQuoted_sound sound reaches
  | comment =>
    simp only [step, stepComment] at reaches
    split at reaches
    · split at reaches <;>
      · cases reaches
        exact ⟨by simp, by simp, sound.frames⟩
    · cases reaches
      exact sound

theorem atLineEnd_sound (sound : state.Sound language) : (state.atLineEnd language).Sound language := by
  unfold State.atLineEnd
  split
  · exact ⟨by simp, by simp, by simp⟩
  · split
    · split
      · exact sound
      · exact ⟨by simp, by simp, sound.frames⟩
    · exact sound

theorem scan_sound (sound : state.Sound language) (line : List Char) :
    (scan language style state line).2.Sound language := by
  fun_induction scan language style state line with
  | case1 => exact sound
  | case2 state c rest written next steps text last same ih =>
    rw [same] at ih
    exact ih (step_sound sound steps (.one written next))
  | case3 state c first second next steps => exact step_sound sound steps (.two first second next)
  | case4 state c first second next d rest text last same steps ih =>
    rw [same] at ih
    exact ih (step_sound sound steps (.two first second next))
  | case5 => exact sound

/-- The character that comments start with. -/
def commentSign (language : Language) : Char := if language.isRubyLike then '#' else '/'

/-- Whether a comment starts that may go on in other lines. -/
def opensComment (language : Language) (c : Char) (next : Option Char) : Bool :=
  !language.isRubyLike && c == '/' && next == some '*'

theorem startsLineComment_eq_false (other : c ≠ commentSign language) : startsLineComment language c next = false := by
  cases ruby : language.isRubyLike <;> simp_all [startsLineComment, commentSign]

theorem opensComment_eq_false (other : c ≠ commentSign language) : opensComment language c next = false := by
  cases ruby : language.isRubyLike <;> simp_all [opensComment, commentSign]

theorem step_lineComment (starts : startsLineComment language c next = true) :
    step language style ⟨.code, frames⟩ c next = .lineComment := by
  have other : c ≠ '{' ∧ c ≠ '}' := by
    constructor <;>
    · rintro rfl
      simp [startsLineComment] at starts
  cases frames <;> simp [step, stepCode, stepPlain, starts, other]

theorem startsLineComment_of_step (starts : step language style state c next = .lineComment) :
    state.mode = .code ∧ startsLineComment language c next = true := by
  obtain ⟨mode, frames⟩ := state
  have plain {state : State} (starts : stepPlain language style state c next = .lineComment) :
      startsLineComment language c next = true := by
    unfold stepPlain at starts
    split at starts
    · assumption
    · split at starts
      · split at starts <;> cases starts
      · split at starts <;> cases starts
  cases mode with
  | comment =>
    simp only [step, stepComment] at starts
    split at starts
    · split at starts <;> cases starts
    · cases starts
  | quoted quote =>
    simp only [step, stepQuoted] at starts
    split at starts
    · split at starts
      · split at starts <;> cases starts
      · cases starts
    · split at starts
      · cases starts
      · split at starts <;> cases starts
  | code =>
    refine ⟨rfl, ?_⟩
    cases frames with
    | nil => exact plain starts
    | cons frame outer =>
      simp only [step, stepCode] at starts
      split at starts
      · exact plain starts
      · split at starts
        · split at starts
          · cases starts
          · exact plain starts
        · exact plain starts

theorem step_opensComment (drops : style.dropComments = true) (opens : opensComment language c next = true) :
    step language style ⟨.code, frames⟩ c next = .two ' ' ' ' ⟨.comment, frames⟩ := by
  simp only [opensComment, Bool.and_eq_true, Bool.not_eq_true', beq_iff_eq] at opens
  obtain ⟨⟨script, rfl⟩, rfl⟩ := opens
  cases frames <;> simp [step, stepCode, stepPlain, startsLineComment, script, drops]

theorem step_opensComment_kept (keeps : style.dropComments = false) (opens : opensComment language c next = true) :
    step language style ⟨.code, frames⟩ c next = .two '/' '*' ⟨.comment, frames⟩ := by
  simp only [opensComment, Bool.and_eq_true, Bool.not_eq_true', beq_iff_eq] at opens
  obtain ⟨⟨script, rfl⟩, rfl⟩ := opens
  cases frames <;> simp [step, stepCode, stepPlain, startsLineComment, script, keeps]

theorem step_opensComment_two (opens : opensComment language c next = true) :
    ∃ a b, step language style ⟨.code, frames⟩ c next = .two a b ⟨.comment, frames⟩ := by
  cases drops : style.dropComments with
  | true => exact ⟨_, _, step_opensComment drops opens⟩
  | false => exact ⟨_, _, step_opensComment_kept drops opens⟩

theorem step_comment (drops : style.dropComments = true) :
    step language style ⟨.comment, frames⟩ c next =
      if c == '*' && next == some '/' then .two ' ' ' ' ⟨.code, frames⟩ else .one ' ' ⟨.comment, frames⟩ := by
  simp [step, stepComment, drops]

theorem step_comment_kept (keeps : style.dropComments = false) :
    step language style ⟨.comment, frames⟩ c next =
      if c == '*' && next == some '/' then .two '*' '/' ⟨.code, frames⟩ else .one c ⟨.comment, frames⟩ := by
  simp [step, stepComment, keeps]

/-- Characters that the scan of code does not pass over. -/
def codeMarks : List Char := ['"', '\'', '\x60', '{', '}', '/', '#']

theorem not_mem_codeMarks_of_isBlank (blank : Text.isBlank c = true) : c ∉ codeMarks := by
  have others : ∀ mark ∈ codeMarks, Text.isBlank mark = false := by decide
  intro mark
  rw [others c mark] at blank
  cases blank

theorem step_unmarked (plain : c ∉ codeMarks) :
    step language style ⟨.code, frames⟩ c next = .one c ⟨.code, frames⟩ := by
  simp only [codeMarks, List.mem_cons, List.not_mem_nil, or_false, not_or] at plain
  cases frames <;> simp [step, stepCode, stepPlain, startsLineComment, Text.isQuote, plain]

/-- Where no comment starts the scan of code writes what it reads. -/
theorem step_writes (code : startsLineComment language c next = false) (inside : opensComment language c next = false) :
    ∃ later, step language style ⟨.code, frames⟩ c next = .one c later := by
  have plain (state : State) : ∃ later, stepPlain language style state c next = .one c later := by
    rw [opensComment] at inside
    rw [stepPlain, if_neg (by simp [code]), if_neg (by simp [inside])]
    split <;> exact ⟨_, rfl⟩
  cases frames with
  | nil => exact plain _
  | cons frame outer =>
    simp only [step, stepCode]
    split
    · exact plain _
    · split
      · rename_i closes
        split
        · exact ⟨_, by rw [beq_iff_eq.mp closes]⟩
        · exact plain _
      · exact plain _

/-- In code, the scan looks ahead only from the sign of a comment. -/
theorem step_code_next (plain : c ≠ commentSign language) (next other : Option Char) :
    step language style ⟨.code, frames⟩ c next = step language style ⟨.code, frames⟩ c other := by
  have inside (next : Option Char) : (!language.isRubyLike && c == '/' && next == some '*') = false :=
    opensComment_eq_false plain
  have same (state : State) : stepPlain language style state c next = stepPlain language style state c other := by
    simp only [stepPlain, startsLineComment_eq_false plain, inside]
  simp only [step, stepCode, same]

/-- Behind the sign of a comment that is code there is code. -/
theorem step_code_mode (mark : c = commentSign language)
    (steps : step language style ⟨.code, frames⟩ c next = .one written later) : later = ⟨.code, frames⟩ := by
  have known : c = '#' ∨ c = '/' := by
    rw [mark, commentSign]
    split <;> simp
  have plain : step language style ⟨.code, frames⟩ c next = stepPlain language style ⟨.code, frames⟩ c next := by
    rcases known with rfl | rfl <;> cases frames <;> rfl
  have unquoted : ¬ Text.isQuote c = true := by
    rcases known with rfl | rfl <;> decide
  rw [plain, stepPlain, if_neg unquoted] at steps
  split at steps
  · cases steps
  · split at steps
    · split at steps <;> cases steps
    · cases steps
      rfl

/-- No comment starts with a step over one character of code. -/
theorem mode_ne_comment (steps : step language style ⟨.code, frames⟩ c next = .one written later) :
    later.mode ≠ .comment := by
  have plain {frames : List Frame} (steps : stepPlain language style ⟨.code, frames⟩ c next = .one written later) :
      later.mode ≠ .comment := by
    unfold stepPlain at steps
    split at steps
    · cases steps
    · split at steps
      · split at steps <;> cases steps
      · split at steps <;>
        · cases steps
          simp
  cases frames with
  | nil => exact plain steps
  | cons frame outer =>
    simp only [step, stepCode] at steps
    split at steps
    · exact plain steps
    · split at steps
      · split at steps
        · cases steps
          simp
        · exact plain steps
      · exact plain steps

theorem ne_of_isQuote {quote mark : Char} (quotes : Text.isQuote quote = true) (other : Text.isQuote mark = false) :
    mark ≠ quote := by
  rintro rfl
  rw [quotes] at other
  cases other

/-- Text of a string is blanked unless it escapes a character, ends the string or starts code in it. -/
theorem step_text {quote : Char} (plain : c ≠ '\\') (inner : c ≠ quote)
    (closed : c = sigil language → next = some '{' → interpolates language quote = false) :
    step language style ⟨.quoted quote, frames⟩ c next =
      .one (if style.blankStrings then ' ' else c) ⟨.quoted quote, frames⟩ := by
  have opens : ¬ (interpolates language quote && c == sigil language && next == some '{') = true := by
    intro opens
    simp only [Bool.and_eq_true, beq_iff_eq] at opens
    have shut := closed opens.1.2 opens.2
    rw [opens.1.1] at shut
    cases shut
  simp only [step, stepQuoted]
  rw [if_neg (by simpa using plain), if_neg (by simpa using inner), if_neg opens]

/-- A quote ends its string. -/
theorem step_closes {quote : Char} (quotes : Text.isQuote quote = true) :
    step language style ⟨.quoted quote, frames⟩ quote next = .one quote ⟨.code, frames⟩ := by
  have plain : quote ≠ '\\' := (ne_of_isQuote quotes (by decide)).symm
  simp only [step, stepQuoted, beq_iff_eq, if_neg plain, if_true]

/-- Where strings hold code, their sign for it opens code. -/
theorem step_interpolates {quote : Char} (plain : sigil language ≠ '\\') (inner : sigil language ≠ quote)
    (interpolated : interpolates language quote = true) :
    step language style ⟨.quoted quote, frames⟩ (sigil language) (some '{') =
      .two (sigil language) '{' ⟨.code, ⟨quote, 0⟩ :: frames⟩ := by
  simp only [step, stepQuoted]
  rw [if_neg (by simpa using plain), if_neg (by simpa using inner), if_pos (by simp [interpolated])]

/-- A backslash in a string is read with the character that it escapes. -/
theorem step_escape (language : Language) (style : Style) (quote escaped : Char) (frames : List Frame) :
    step language style ⟨.quoted quote, frames⟩ '\\' (some escaped) =
      .two (if style.blankStrings then ' ' else '\\') (if style.blankStrings then ' ' else escaped)
        ⟨.quoted quote, frames⟩ := by
  cases blanks : style.blankStrings <;> simp [step, stepQuoted, blanks]

/-- A space is passed over in code and in strings. -/
theorem step_space (sound : state.Sound language) (outside : state.mode ≠ .comment) :
    step language style state ' ' next = .one ' ' state := by
  obtain ⟨mode, frames⟩ := state
  cases mode with
  | comment => exact absurd rfl outside
  | code => exact step_unmarked (by decide)
  | quoted quote =>
    rw [step_text (by decide) (ne_of_isQuote (sound.quoted quote rfl) (by decide)), ite_self]
    intro same
    cases language <;> cases same

/-- Where no comment starts, a step in code does not depend on what is blanked. -/
theorem step_code_style (code : startsLineComment language c next = false)
    (inside : opensComment language c next = false) (style other : Style) :
    step language style ⟨.code, frames⟩ c next = step language other ⟨.code, frames⟩ c next := by
  have plain (state : State) : stepPlain language style state c next = stepPlain language other state c next := by
    rw [opensComment] at inside
    simp only [stepPlain, code, inside, Bool.false_eq_true, if_false]
  simp only [step, stepCode, plain]

/-- Outside of strings, it does not matter whether strings are blanked. -/
theorem step_style_outside {other : Style} (outside : ∀ quote, state.mode ≠ .quoted quote)
    (same : style.dropComments = other.dropComments) :
    step language style state c next = step language other state c next := by
  obtain ⟨mode, frames⟩ := state
  cases mode with
  | quoted quote => exact absurd rfl (outside quote)
  | comment => simp only [step, stepComment, same]
  | code =>
    have plain (state : State) : stepPlain language style state c next = stepPlain language other state c next := by
      simp only [stepPlain, same]
    simp only [step, stepCode, plain]

/-- The characters with which strings and comments start. -/
def startSigns (language : Language) : List Char := ['"', '\'', '\x60', commentSign language]

theorem step_code_self (plain : c ∉ startSigns language) : step language style {} c next = .one c {} := by
  simp only [startSigns, List.mem_cons, List.not_mem_nil, or_false, not_or] at plain
  obtain ⟨double, single, back, sign⟩ := plain
  have inside : (!language.isRubyLike && c == '/' && next == some '*') = false := opensComment_eq_false sign
  simp [step, stepCode, stepPlain, startsLineComment_eq_false sign, inside, Text.isQuote, double, single, back]

/-- A line without quotes and comments is scanned as it stands. -/
theorem scan_eq_self (style : Style) {line : List Char} (plain : ∀ c ∈ line, c ∉ startSigns language) :
    scan language style {} line = (line, {}) := by
  induction line with
  | nil => rfl
  | cons c rest ih =>
    have later := ih fun other member => plain other (List.mem_cons_of_mem c member)
    rw [scan_one (step_code_self (plain c List.mem_cons_self)), later]

theorem cleanAll_cons (language : Language) (cleaner : Cleaner) (line : List Char) (rest : List (List Char)) :
    cleaner.cleanAll language (line :: rest) =
      (cleaner.clean language line).1 :: (cleaner.clean language line).2.cleanAll language rest := rfl

/-- Lines that cleaning keeps, and behind which nothing goes on, are read as they stand. -/
theorem pairLines_of_clean {lines : List (List Char)}
    (kept : ∀ line ∈ lines, Cleaner.clean language {} line = (line, {})) :
    pairLines language lines = lines.map fun line => ⟨line, line⟩ := by
  have clean : cleanLines language lines = lines := by
    rw [cleanLines]
    induction lines with
    | nil => rfl
    | cons line rest ih =>
      rw [cleanAll_cons, kept line List.mem_cons_self, ih fun other member => kept other (List.mem_cons_of_mem line member)]
  rw [pairLines, clean, List.zipWith_self]

end CallAtlas.Blanking

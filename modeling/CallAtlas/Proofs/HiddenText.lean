import CallAtlas.Proofs.ScanPasses
import Mathlib.Data.List.Forall2

/-! Text that blanking hides. The scan of a line tells the characters it goes by from those it only blanks: text of
strings and of block comments, and remarks behind the mark of a comment. A line in which hidden characters are replaced
by others is scanned in lock step with the line, as long as the new characters cannot be taken for marks. -/
namespace CallAtlas.Blanking

/-- What the scan takes a character of a line for. -/
inductive Role where
  /-- Code, or a mark: a quote, an escape with the character behind it, or what opens or closes code or a comment. -/
  | seen
  /-- Text of a string or of a block comment that is read one character at a time. -/
  | text
  /-- What follows the mark of a comment to the end of the line. -/
  | remark
  deriving DecidableEq, Repr

/-- Whether a character that is read alone is text, and neither an escape nor the end of a string. -/
def State.readsText (state : State) (c : Char) : Bool :=
  match state.mode with
  | .code => false
  | .comment => true
  | .quoted quote => c != '\\' && c != quote

/-- How many more characters the mark of a comment has that runs to the end of the line. -/
def markRest (language : Language) : Nat := if language.isRubyLike then 0 else 1

/-- The characters of a line, each with its role in the scan. -/
def roles (language : Language) : State → List Char → List (Role × Char)
  | _, [] => []
  | state, c :: rest =>
    match step language ⟨true, true⟩ state c rest.head? with
    | .one _ next => (if state.readsText c then .text else .seen, c) :: roles language next rest
    | .two _ _ next =>
      match rest with
      | [] => [(.seen, c)]
      | d :: rest => (.seen, c) :: (.seen, d) :: roles language next rest
    | .lineComment =>
      (.seen, c) :: ((rest.take (markRest language)).map (Prod.mk .seen) ++
        (rest.drop (markRest language)).map (Prod.mk .remark))

/-- The roles of all characters of a file that is cleaned line by line. -/
def fileRoles (language : Language) : Cleaner → List (List Char) → List (List (Role × Char))
  | _, [] => []
  | cleaner, line :: rest =>
    roles language cleaner.state line :: fileRoles language (cleaner.clean language line).2 rest

/-- Characters that can be marks, or parts of marks, in the strings and comments of scripts. -/
def scriptSigns : List Char := ['"', '\'', '\x60', '\\', '$', '{', '*', '/']

/-- Characters that can be marks, or parts of marks, in the strings and comments of a language. -/
def signs (language : Language) : List Char :=
  if language.isRubyLike then ['"', '\'', '\x60', '\\', '#', '{'] else scriptSigns

/-- A character may stand in the place of another one: it is the same, or the other one is hidden and the new one is no
sign. Behind the mark of a script's comment, any character may stand. -/
def Admits (language : Language) (place : Role × Char) (c : Char) : Prop :=
  c = place.2 ∨ place.1 = .text ∧ c ∉ signs language ∨
    place.1 = .remark ∧ (language.isRubyLike = true → c ∉ signs language)

instance (language : Language) (place : Role × Char) (c : Char) : Decidable (Admits language place c) :=
  inferInstanceAs (Decidable (_ ∨ _))

theorem Admits.eq_of_seen {language : Language} {c d : Char} (admits : Admits language (.seen, c) d) : d = c := by
  rcases admits with same | ⟨text, _⟩ | ⟨remark, _⟩
  · exact same
  · cases text
  · cases remark

theorem Admits.of_text {language : Language} {c d : Char} (admits : Admits language (.text, c) d) :
    d = c ∨ d ∉ signs language := by
  rcases admits with same | ⟨_, free⟩ | ⟨remark, _⟩
  · exact .inl same
  · exact .inr free
  · cases remark

variable {language : Language} {state later : State} {frames : List Frame} {c d written : Char}
  {rest edited : List Char}

/-- The first character of a text is no remark, and in code it is seen. -/
theorem exists_roles_cons (language : Language) (state : State) (c : Char) (rest : List Char) :
    ∃ role more, roles language state (c :: rest) = (role, c) :: more ∧ role ≠ .remark ∧
      (state.mode = .code → role = .seen) := by
  rw [roles]
  split
  · refine ⟨_, _, rfl, ?_, ?_⟩
    · split <;> simp
    · intro code
      simp [State.readsText, code]
  · split
    · exact ⟨.seen, [], rfl, by simp, fun _ => rfl⟩
    · exact ⟨.seen, _, rfl, by simp, fun _ => rfl⟩
  · exact ⟨.seen, _, rfl, by simp, fun _ => rfl⟩

theorem head?_of_code (code : state.mode = .code)
    (edits : List.Forall₂ (Admits language) (roles language state rest) edited) : edited.head? = rest.head? := by
  cases rest with
  | nil =>
    cases edits
    rfl
  | cons c rest =>
    obtain ⟨role, more, same, _, seen⟩ := exists_roles_cons language state c rest
    rw [same, seen code] at edits
    obtain ⟨d, others, admits, _, rfl⟩ := List.forall₂_cons_left_iff.mp edits
    exact congrArg some admits.eq_of_seen

/-- No edit puts a sign at the start of a text. -/
theorem head?_ne (sign : d ∈ signs language) (other : rest.head? ≠ some d)
    (edits : List.Forall₂ (Admits language) (roles language state rest) edited) : edited.head? ≠ some d := by
  cases rest with
  | nil =>
    cases edits
    exact other
  | cons c rest =>
    obtain ⟨role, more, same, read, _⟩ := exists_roles_cons language state c rest
    rw [same] at edits
    obtain ⟨new, others, admits, _, rfl⟩ := List.forall₂_cons_left_iff.mp edits
    rcases admits with same | ⟨_, free⟩ | ⟨remark, _⟩
    · rw [same]
      exact other
    · intro same
      cases same
      exact free sign
    · exact absurd remark read

theorem sigil_mem_signs (language : Language) : sigil language ∈ signs language := by
  cases language <;> decide

theorem mem_signs_of_isQuote (quotes : Text.isQuote c = true) : c ∈ signs language := by
  simp only [Text.isQuote, Bool.or_eq_true, beq_iff_eq] at quotes
  rcases quotes with (rfl | rfl) | rfl <;> cases language <;> decide

theorem escape_mem_signs (language : Language) : '\\' ∈ signs language := by
  cases language <;> decide

theorem brace_mem_signs (language : Language) : '{' ∈ signs language := by
  cases language <;> decide

theorem star_mem_signs (script : language.isRubyLike = false) : '*' ∈ signs language ∧ '/' ∈ signs language := by
  simp [signs, scriptSigns, script]

theorem step_edited_quoted {quote : Char} (quotes : Text.isQuote quote = true)
    (steps : step language ⟨true, true⟩ ⟨.quoted quote, frames⟩ c rest.head? = .one written later)
    (admits : Admits language (if State.readsText ⟨.quoted quote, frames⟩ c then .text else .seen, c) d)
    (edits : List.Forall₂ (Admits language) (roles language later rest) edited) :
    step language ⟨true, true⟩ ⟨.quoted quote, frames⟩ d edited.head? = .one written later := by
  by_cases read : State.readsText ⟨.quoted quote, frames⟩ c = true
  · rw [if_pos read] at admits
    simp only [State.readsText, Bool.and_eq_true, bne_iff_ne] at read
    have shut : c = sigil language → rest.head? = some '{' → interpolates language quote = false := by
      intro same opens
      by_contra interpolated
      subst same
      rw [opens, step_interpolates read.1 read.2 (by simpa using interpolated)] at steps
      cases steps
    rw [step_text read.1 read.2 shut, if_pos rfl] at steps
    rw [← steps]
    rcases admits.of_text with rfl | free
    · -- The sign for code may stand in the text, but no edit puts a brace behind it.
      apply step_text read.1 read.2
      intro same opens
      by_contra interpolated
      have other : rest.head? ≠ some '{' := fun opens => interpolated (shut same opens)
      exact head?_ne (brace_mem_signs language) other edits opens
    · apply step_text
      · exact fun same => free (same ▸ escape_mem_signs language)
      · exact fun same => free (same ▸ mem_signs_of_isQuote quotes)
      · exact fun same => absurd (same ▸ sigil_mem_signs language) free
  · rw [if_neg read] at admits
    cases admits.eq_of_seen
    simp only [State.readsText, Bool.and_eq_true, bne_iff_ne, not_and_or, not_not] at read
    rcases read with rfl | rfl
    · -- An escape is read alone only at the end of the line.
      cases rest with
      | nil =>
        cases edits
        exact steps
      | cons e rest => simp [step, stepQuoted] at steps
    · rw [step_closes quotes] at steps ⊢
      exact steps

/-- A step over one character is the same after an edit. -/
theorem step_edited (sound : state.Sound language)
    (steps : step language ⟨true, true⟩ state c rest.head? = .one written later)
    (admits : Admits language (if state.readsText c then .text else .seen, c) d)
    (edits : List.Forall₂ (Admits language) (roles language later rest) edited) :
    step language ⟨true, true⟩ state d edited.head? = .one written later := by
  obtain ⟨mode, frames⟩ := state
  cases mode with
  | quoted quote => exact step_edited_quoted (sound.quoted quote rfl) steps admits edits
  | comment =>
    obtain ⟨star, slash⟩ := star_mem_signs (sound.comment rfl)
    rw [step_comment rfl] at steps ⊢
    split at steps
    · cases steps
    · rename_i inside
      rw [if_neg]
      · exact steps
      · intro ends
        simp only [Bool.and_eq_true, beq_iff_eq] at inside ends
        rcases Admits.of_text admits with rfl | free
        · exact head?_ne slash (fun next => inside ⟨ends.1, next⟩) edits ends.2
        · exact free (ends.1 ▸ star)
  | code =>
    have same : d = c := Admits.eq_of_seen admits
    subst same
    -- Only the sign of a comment looks ahead, and behind it there is code, which no edit changes.
    by_cases mark : d = commentSign language
    · rw [step_code_mode mark steps] at edits
      rw [head?_of_code rfl edits]
      exact steps
    · rw [step_code_next mark _ rest.head?]
      exact steps

/-- No edit behind the first character of a comment's mark takes the mark away. -/
theorem startsLineComment_edited (starts : startsLineComment language c rest.head? = true)
    (edits : List.Forall₂ (Admits language) ((rest.take (markRest language)).map (Prod.mk .seen) ++
      (rest.drop (markRest language)).map (Prod.mk .remark)) edited) :
    startsLineComment language c edited.head? = true := by
  cases ruby : language.isRubyLike with
  | true =>
    simp only [markRest, ruby, if_true, List.take_zero, List.map_nil, List.nil_append, List.drop_zero,
      List.forall₂_map_left_iff] at edits
    simp only [startsLineComment, ruby, if_true, Bool.and_eq_true, beq_iff_eq, bne_iff_ne] at starts ⊢
    refine ⟨starts.1, ?_⟩
    cases edits with
    | nil => exact starts.2
    | cons admits _ =>
      rcases admits with same | ⟨text, _⟩ | ⟨_, free⟩
      · rw [same]
        exact starts.2
      · cases text
      · intro same
        cases same
        exact free ruby (brace_mem_signs language)
  | false =>
    simp only [startsLineComment, ruby, Bool.false_eq_true, if_false, Bool.and_eq_true, beq_iff_eq] at starts ⊢
    obtain ⟨more, rfl⟩ := List.head?_eq_some_iff.mp starts.2
    simp only [markRest, ruby, Bool.false_eq_true, if_false, List.take_succ_cons, List.take_zero, List.map_cons,
      List.map_nil, List.cons_append, List.nil_append, List.drop_succ_cons, List.drop_zero] at edits
    obtain ⟨second, others, admits, _, rfl⟩ := List.forall₂_cons_left_iff.mp edits
    exact ⟨starts.1, congrArg some admits.eq_of_seen⟩

/-- A scan goes through an edited line in lock step. -/
theorem scan_edited (sound : state.Sound language) {line : List Char}
    (edits : List.Forall₂ (Admits language) (roles language state line) edited) :
    scan language ⟨true, true⟩ state edited = scan language ⟨true, true⟩ state line := by
  fun_induction roles language state line generalizing edited with
  | case1 state =>
    cases edits
    rfl
  | case2 state c rest written next steps ih =>
    obtain ⟨d, others, admits, later, rfl⟩ := List.forall₂_cons_left_iff.mp edits
    have reached : next.Sound language := step_sound sound steps (.one written next)
    rw [scan_one (step_edited sound steps admits later), scan_one steps, ih reached later]
  | case3 state c first second next steps =>
    obtain ⟨d, others, admits, none, rfl⟩ := List.forall₂_cons_left_iff.mp edits
    cases none
    rw [admits.eq_of_seen]
  | case4 state c first second next d rest steps ih =>
    obtain ⟨newFirst, others, sameFirst, behind, rfl⟩ := List.forall₂_cons_left_iff.mp edits
    obtain ⟨newSecond, others, sameSecond, later, rfl⟩ := List.forall₂_cons_left_iff.mp behind
    cases sameFirst.eq_of_seen
    cases sameSecond.eq_of_seen
    have reached : next.Sound language := step_sound sound steps (.two first second next)
    rw [scan_two steps, scan_two steps, ih reached later]
  | case5 state c rest steps =>
    obtain ⟨d, others, admits, behind, rfl⟩ := List.forall₂_cons_left_iff.mp edits
    cases admits.eq_of_seen
    obtain ⟨mode, frames⟩ := state
    obtain ⟨code, starts⟩ := startsLineComment_of_step steps
    cases code
    rw [scan_lineComment steps, scan_lineComment (step_lineComment (startsLineComment_edited starts behind)), if_pos rfl,
      if_pos rfl]

theorem clean_script {cleaner : Cleaner} (script : language.isRubyLike = false) (line : List Char) :
    cleaner.clean language line =
      ((scan language ⟨true, true⟩ cleaner.state line).1,
        { cleaner with state := (scan language ⟨true, true⟩ cleaner.state line).2.atLineEnd language }) := by
  simp only [Cleaner.clean, script, Bool.false_eq_true, if_false]

theorem cleanAll_edited {cleaner : Cleaner} (script : language.isRubyLike = false)
    (sound : cleaner.state.Sound language) {lines edited : List (List Char)}
    (edits : List.Forall₂ (List.Forall₂ (Admits language)) (fileRoles language cleaner lines) edited) :
    cleaner.cleanAll language edited = cleaner.cleanAll language lines := by
  induction lines generalizing cleaner edited with
  | nil =>
    cases edits
    rfl
  | cons line rest ih =>
    obtain ⟨newLine, others, first, later, rfl⟩ := List.forall₂_cons_left_iff.mp edits
    have same : cleaner.clean language newLine = cleaner.clean language line := by
      rw [clean_script script, clean_script script, scan_edited sound first]
    have reached : (cleaner.clean language line).2.state.Sound language := by
      rw [clean_script script]
      exact atLineEnd_sound (scan_sound sound line)
    rw [cleanAll_cons, cleanAll_cons, same, ih reached later]

/-- Hidden text does not tell. Where text of strings and of comments is replaced by other text without signs, the lines
of a script are cleaned to the same lines, and what a line of any language shows without the contents of strings and
without comments is the same. -/
theorem hidden_text_replaceable (language : Language) :
    (language.isRubyLike = false → ∀ lines edited : List (List Char),
      List.Forall₂ (List.Forall₂ (Admits language)) (fileRoles language {} lines) edited →
        cleanLines language edited = cleanLines language lines) ∧
      ∀ line edited : List Char, List.Forall₂ (Admits language) (roles language {} line) edited →
        stripComments language (stripStrings language edited) =
          stripComments language (stripStrings language line) := by
  constructor
  · intro script lines edited edits
    exact cleanAll_edited script (State.sound_start language) edits
  · intro line edited edits
    rw [stripComments_stripStrings, stripComments_stripStrings, scan_edited (State.sound_start language) edits]

/-- A template and a block comment that go on over lines, and a line of Ruby with code in a string. -/
theorem hidden_text_replaceable_template :
    let lines := ["f(\x60a $b".toList, "c$\x7bd\x7d\\e\x60) // g".toList, "/* h".toList, "* i */ j('k')".toList]
    let newLines := ["f(\x60x#y+".toList, "z$\x7bd\x7d\\e\x60) //'/".toList, "/*xy".toList, "z i */ j('#')".toList]
    let line := "f(\"a #\x7bb\x7d c\") # d".toList
    let newLine := "f(\"x/#\x7bb\x7d*y\") #*/".toList
    (List.Forall₂ (List.Forall₂ (Admits .javascript)) (fileRoles .javascript {} lines) newLines ∧
        cleanLines .javascript newLines = cleanLines .javascript lines) ∧
      List.Forall₂ (Admits .ruby) (roles .ruby {} line) newLine ∧
        stripComments .ruby (stripStrings .ruby newLine) = stripComments .ruby (stripStrings .ruby line) := by
  intro lines newLines line newLine
  have edits : List.Forall₂ (List.Forall₂ (Admits .javascript)) (fileRoles .javascript {} lines) newLines := by
    decide +kernel
  have rubyEdits : List.Forall₂ (Admits .ruby) (roles .ruby {} line) newLine := by decide +kernel
  exact ⟨⟨edits, (hidden_text_replaceable .javascript).1 rfl lines newLines edits⟩,
    rubyEdits, (hidden_text_replaceable .ruby).2 line newLine rubyEdits⟩

/-- Templates are read as Ruby is: a hash sign can make code of a brace in a string, and text of a string can be taken
for the mark of a heredoc. -/
theorem template_text_tells :
    fileRoles .erb {} ["\"a\x7b\"".toList] = [[(.seen, '"'), (.text, 'a'), (.text, '{'), (.seen, '"')]] ∧
      '#' ∉ scriptSigns ∧ cleanLines .erb ["\"#\x7b\"".toList] ≠ cleanLines .erb ["\"a\x7b\"".toList] ∧
      (fileRoles .erb {} ["\"abc\"+<<D".toList]).map (List.take 4) =
        [[(.seen, '"'), (.text, 'a'), (.text, 'b'), (.text, 'c')]] ∧
      '<' ∉ scriptSigns ∧ 'A' ∉ scriptSigns ∧
      cleanLines .erb ["\"<<A\"+<<D".toList, "e".toList] ≠ cleanLines .erb ["\"abc\"+<<D".toList, "e".toList] := by
  decide +kernel

end CallAtlas.Blanking

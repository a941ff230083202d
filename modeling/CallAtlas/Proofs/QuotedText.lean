import CallAtlas.Proofs.ParameterLists
import CallAtlas.Proofs.ScanSteps

/-! Source text beside its blanked form. Two scans of a line, one that keeps the contents of strings and one that blanks
them, take the same steps; where the strings of the line are plain, every reader that knows of quotes sees the same
strings in both texts, and every reader that counts round brackets sees the same ones open. -/
namespace CallAtlas

namespace Text

theorem dropEndWhile_cons (drop : Char → Bool) (c : Char) (text : List Char) :
    dropEndWhile drop (c :: text) =
      if dropEndWhile drop text = [] ∧ drop c = true then [] else c :: dropEndWhile drop text := by
  simp only [dropEndWhile, List.reverse_cons, List.dropWhile_append, List.isEmpty_iff, List.reverse_eq_nil_iff]
  by_cases none : text.reverse.dropWhile drop = []
  · cases dropped : drop c with
    | true => simp [none, dropped]
    | false => simp [none, dropped]
  · simp [none]

theorem trimEnd_cons_of_filled {c : Char} {text : List Char} (filled : trimEnd text ≠ []) :
    trimEnd (c :: text) = c :: trimEnd text := by
  rw [trimEnd, dropEndWhile_cons, if_neg fun lost => filled lost.1, trimEnd]

theorem trimEnd_cons_of_visible {c : Char} (visible : isBlank c = false) (text : List Char) :
    trimEnd (c :: text) = c :: trimEnd text := by
  simp [trimEnd, dropEndWhile_cons, visible]

end Text

namespace Blanking

/-- The round brackets that are open after a character; none are left to be closed by one too many. -/
def bracketsAfter? (opened : Nat) (c : Char) : Option Nat :=
  if c = '(' then some (opened + 1)
  else if c = ')' then if opened = 0 then none else some (opened - 1)
  else some opened

/-- What matters of the text of a string that was read: the round brackets that are open in it, and whether an escaped
backslash is at its end. -/
structure Stretch where
  opened : Nat := 0
  slashed : Bool := false
  deriving DecidableEq, Repr

/-- The text of a string after a step of the scan. Its brackets have to be balanced where it ends and where code starts
in it, no closing quote may follow a backslash, and code in a string holds neither quotes nor backslashes. -/
def stretchAfter? (language : Language) (state : State) (stretch : Stretch) (c : Char) (next : Option Char) :
    Option Stretch :=
  match state.mode with
  | .comment => some stretch
  | .code => if !state.frames.isEmpty && (Text.isQuote c || c == '\\') then none else some stretch
  | .quoted quote =>
    if c == '\\' then
      next.bind fun escaped => (bracketsAfter? stretch.opened escaped).map fun opened => ⟨opened, escaped == '\\'⟩
    else if c == quote then if stretch = {} then some {} else none
    else if interpolates language quote && c == sigil language && next == some '{' then
      if stretch.opened = 0 then some {} else none
    else (bracketsAfter? stretch.opened c).map fun opened => ⟨opened, false⟩

/-- Whether the strings in so many columns of a line are plain. -/
def plainFrom (language : Language) : State → Stretch → (columns : Nat) → List Char → Bool
  | _, _, 0, _ => true
  | _, _, _ + 1, [] => true
  | state, stretch, columns + 1, c :: rest =>
    match stretchAfter? language state stretch c rest.head? with
    | none => false
    | some stretch =>
      match step language ⟨true, true⟩ state c rest.head? with
      | .one _ next => plainFrom language next stretch columns rest
      | .two _ _ next =>
        match columns, rest with
        | columns + 1, _ :: rest => plainFrom language next stretch columns rest
        | _, _ => false
      | .lineComment => true

def isPlain (language : Language) (columns : Nat) (line : List Char) : Bool := plainFrom language {} {} columns line

/-- A place in a text: outside of strings, or in a string. -/
inductive Place where
  | outside
  | inside (quote : Char) (stretch : Stretch)

/-- A source text and what blanking shows of it, both read from one place to another. The shown text may have blanks
before a line end that the source lacks. -/
inductive Veils : (first last : Place) → (source shown : List Char) → Prop
  | done {place : Place} : Veils place place [] []
  | code {last : Place} {c : Char} {source shown : List Char} (plain : Text.isQuote c = false)
      (rest : Veils .outside last source shown) : Veils .outside last (c :: source) (c :: shown)
  | padded {last : Place} {c : Char} {source shown : List Char} (blank : Text.isBlank c = true)
      (rest : Veils .outside last ('\n' :: source) shown) : Veils .outside last ('\n' :: source) (c :: shown)
  | opens {last : Place} {quote : Char} {source shown : List Char} (quotes : Text.isQuote quote = true)
      (rest : Veils (.inside quote {}) last source shown) : Veils .outside last (quote :: source) (quote :: shown)
  | closes {last : Place} {quote : Char} {source shown : List Char} (quotes : Text.isQuote quote = true)
      (rest : Veils .outside last source shown) : Veils (.inside quote {}) last (quote :: source) (quote :: shown)
  | kept {last : Place} {quote c : Char} {slashed : Bool} {source shown : List Char} (inner : c ≠ quote) (plain : c ≠ '\\')
      (rest : Veils (.inside quote {}) last source shown) :
      Veils (.inside quote ⟨0, slashed⟩) last (c :: source) (c :: shown)
  | blanked {last : Place} {quote c : Char} {stretch : Stretch} {next : Nat} {source shown : List Char} (inner : c ≠ quote)
      (plain : c ≠ '\\') (brackets : bracketsAfter? stretch.opened c = some next)
      (rest : Veils (.inside quote ⟨next, false⟩) last source shown) :
      Veils (.inside quote stretch) last (c :: source) (' ' :: shown)
  | escaped {last : Place} {quote c : Char} {stretch : Stretch} {next : Nat} {source shown : List Char}
      (brackets : bracketsAfter? stretch.opened c = some next)
      (rest : Veils (.inside quote ⟨next, c == '\\'⟩) last source shown) :
      Veils (.inside quote stretch) last ('\\' :: c :: source) (' ' :: ' ' :: shown)

/-- The place of the scan in a line with plain strings. -/
inductive State.At : State → Stretch → Place → Prop
  | code {mode : Mode} (plain : ∀ quote, mode ≠ .quoted quote) : At ⟨mode, []⟩ {} .outside
  | text {quote : Char} (stretch : Stretch) (quotes : Text.isQuote quote = true) :
      At ⟨.quoted quote, []⟩ stretch (.inside quote stretch)
  | interpolated {mode : Mode} {quote : Char} (depth : Nat) (plain : ∀ quote, mode ≠ .quoted quote)
      (quotes : Text.isQuote quote = true) : At ⟨mode, [⟨quote, depth⟩]⟩ {} (.inside quote {})

/-- Two steps at one character, by a scan that keeps strings and by one that blanks them. -/
inductive Step.Veils (place : Place) (stretch : Stretch) (next : Option Char) : (source shown : Step) → Prop
  | one {a b : Char} {state : State} {later : Place} (at_ : state.At stretch later)
      (veils : ∀ {last source shown}, Blanking.Veils later last source shown →
        Blanking.Veils place last (a :: source) (b :: shown)) : Veils place stretch next (.one a state) (.one b state)
  | two {a a' b b' : Char} {state : State} {later : Place} (more : next.isSome = true) (at_ : state.At stretch later)
      (veils : ∀ {last source shown}, Blanking.Veils later last source shown →
        Blanking.Veils place last (a :: a' :: source) (b :: b' :: shown)) :
      Veils place stretch next (.two a a' state) (.two b b' state)
  | lineComment : Veils place stretch next .lineComment .lineComment

variable {language : Language} {state : State} {stretch after : Stretch} {place : Place} {c : Char} {next : Option Char}

theorem stepComment_veils {frames : List Frame} (keeps : ∀ {last source shown}, Veils place last source shown →
    Veils place last (' ' :: source) (' ' :: shown)) (stays : ∀ {mode : Mode}, (∀ quote, mode ≠ .quoted quote) →
    State.At ⟨mode, frames⟩ stretch place) :
    Step.Veils place stretch next (stepComment ⟨false, true⟩ ⟨.comment, frames⟩ c next)
      (stepComment ⟨true, true⟩ ⟨.comment, frames⟩ c next) := by
  unfold stepComment
  split
  · rename_i ends
    have more : next = some '/' := by simpa using (Bool.and_eq_true_iff.mp ends).2
    exact .two (by simp [more]) (stays (by simp)) fun rest => keeps (keeps rest)
  · exact .one (stays (by simp)) keeps

theorem stepPlain_veils {frames : List Frame} (free : Text.isQuote c = false)
    (keeps : ∀ {d : Char} {last source shown}, (d = ' ' ∨ d = c) → Veils place last source shown →
      Veils place last (d :: source) (d :: shown)) (stays : ∀ {mode : Mode}, (∀ quote, mode ≠ .quoted quote) →
    State.At ⟨mode, frames⟩ stretch place) :
    Step.Veils place stretch next (stepPlain language ⟨false, true⟩ ⟨.code, frames⟩ c next)
      (stepPlain language ⟨true, true⟩ ⟨.code, frames⟩ c next) := by
  unfold stepPlain
  split
  · exact .lineComment
  · split
    · rename_i begins
      have more : next = some '*' := by simpa using (Bool.and_eq_true_iff.mp begins).2
      exact .two (by simp [more]) (stays (by simp)) fun rest => keeps (.inl rfl) (keeps (.inl rfl) rest)
    · rw [if_neg (by simp [free])]
      exact .one (stays (by simp)) (keeps (.inr rfl))

theorem Veils.code_of_blank {d : Char} {last : Place} {source shown : List Char} (plain : Text.isQuote c = false)
    (same : d = ' ' ∨ d = c) (rest : Veils .outside last source shown) :
    Veils .outside last (d :: source) (d :: shown) := by
  rcases same with rfl | rfl
  · exact .code (by decide) rest
  · exact .code plain rest

/-- Outside of strings, a quote opens one and all else is code. -/
theorem step_veils_code {mode : Mode} (plain : ∀ quote, mode ≠ .quoted quote) :
    Step.Veils .outside {} next (step language ⟨false, true⟩ ⟨mode, []⟩ c next)
      (step language ⟨true, true⟩ ⟨mode, []⟩ c next) := by
  cases mode with
  | quoted quote => exact absurd rfl (plain quote)
  | comment => exact stepComment_veils (.code (by decide)) .code
  | code =>
    cases quotes : Text.isQuote c with
    | false => exact stepPlain_veils quotes (Veils.code_of_blank quotes) .code
    | true =>
      have hash : c ≠ '#' := (ne_of_isQuote quotes (by decide)).symm
      have slash : c ≠ '/' := (ne_of_isQuote quotes (by decide)).symm
      simp only [step, stepCode, stepPlain, startsLineComment, quotes, beq_eq_false_iff_ne.mpr hash,
        beq_eq_false_iff_ne.mpr slash, Bool.false_and, Bool.and_false, ite_self, if_true, Bool.false_eq_true, if_false]
      exact .one (.text {} quotes) (.opens quotes)

/-- In the text of a string, a character is blanked unless it ends the text. -/
theorem step_veils_text {quote : Char} (quotes : Text.isQuote quote = true)
    (plain : stretchAfter? language ⟨.quoted quote, []⟩ stretch c next = some after) :
    Step.Veils (.inside quote stretch) after next (step language ⟨false, true⟩ ⟨.quoted quote, []⟩ c next)
      (step language ⟨true, true⟩ ⟨.quoted quote, []⟩ c next) := by
  simp only [stretchAfter?] at plain
  simp only [step, stepQuoted]
  split at plain
  · rename_i escapes
    obtain ⟨escaped, rfl, fits⟩ := Option.bind_eq_some_iff.mp plain
    obtain ⟨opened, brackets, rfl⟩ := Option.map_eq_some_iff.mp fits
    rw [if_pos escapes, if_pos escapes, beq_iff_eq.mp escapes]
    exact .two rfl (.text _ quotes) (.escaped brackets)
  · rename_i single
    have unescaped : c ≠ '\\' := by simpa using single
    rw [if_neg single, if_neg single]
    split at plain
    · rename_i closes
      split at plain
      · rename_i balanced
        cases plain
        cases balanced
        rw [if_pos closes, if_pos closes, beq_iff_eq.mp closes]
        exact .one (.code (by simp)) (.closes quotes)
      · cases plain
    · rename_i inner
      have other : c ≠ quote := by simpa using inner
      rw [if_neg inner, if_neg inner]
      split at plain
      · rename_i begins
        split at plain
        · rename_i balanced
          cases plain
          have more : next = some '{' := by simpa using (Bool.and_eq_true_iff.mp begins).2
          rw [if_pos begins, if_pos begins]
          refine .two (by simp [more]) (.interpolated 0 (by simp) quotes) fun rest => ?_
          cases stretch with
          | mk opened slashed =>
            cases balanced
            exact .kept other unescaped (.kept (ne_of_isQuote quotes (by decide)) (by decide) rest)
        · cases plain
      · rename_i stays
        obtain ⟨opened, brackets, rfl⟩ := Option.map_eq_some_iff.mp plain
        rw [if_neg stays, if_neg stays]
        exact .one (.text _ quotes) (.blanked other unescaped brackets)

/-- Code in a string is kept, and so are the blanks that stand for its comments. -/
theorem step_veils_interpolated {quote : Char} {depth : Nat} (quotes : Text.isQuote quote = true)
    (free : Text.isQuote c = false) (unescaped : c ≠ '\\') :
    Step.Veils (.inside quote {}) {} next (step language ⟨false, true⟩ ⟨.code, [⟨quote, depth⟩]⟩ c next)
      (step language ⟨true, true⟩ ⟨.code, [⟨quote, depth⟩]⟩ c next) := by
  have keeps {d : Char} {last : Place} {source shown : List Char} (same : d = ' ' ∨ d = c)
      (rest : Veils (.inside quote {}) last source shown) : Veils (.inside quote {}) last (d :: source) (d :: shown) := by
    rcases same with rfl | rfl
    · exact .kept (ne_of_isQuote quotes (by decide)) (by decide) rest
    · exact .kept (ne_of_isQuote quotes free) unescaped rest
  simp only [step, stepCode]
  split
  · exact stepPlain_veils free keeps fun plain => .interpolated (depth + 1) plain quotes
  · split
    · split
      · exact .one (.text {} quotes) (.kept (ne_of_isQuote quotes (by decide)) (by decide))
      · exact stepPlain_veils free keeps fun plain => .interpolated (depth - 1) plain quotes
    · exact stepPlain_veils free keeps fun plain => .interpolated depth plain quotes

theorem step_veils_comment {quote : Char} (depth : Nat) (quotes : Text.isQuote quote = true) :
    Step.Veils (.inside quote {}) {} next (step language ⟨false, true⟩ ⟨.comment, [⟨quote, depth⟩]⟩ c next)
      (step language ⟨true, true⟩ ⟨.comment, [⟨quote, depth⟩]⟩ c next) :=
  stepComment_veils (.kept (ne_of_isQuote quotes (by decide)) (by decide)) fun plain => .interpolated depth plain quotes

theorem step_veils (at_ : state.At stretch place) (plain : stretchAfter? language state stretch c next = some after) :
    Step.Veils place after next (step language ⟨false, true⟩ state c next)
      (step language ⟨true, true⟩ state c next) := by
  cases at_ with
  | @code mode notQuoted =>
    have none : after = {} := by
      cases mode with
      | quoted quote => exact absurd rfl (notQuoted quote)
      | comment => exact (Option.some.inj plain).symm
      | code => exact (Option.some.inj plain).symm
    exact none ▸ step_veils_code notQuoted
  | text stretch quotes => exact step_veils_text quotes plain
  | @interpolated mode quote depth notQuoted quotes =>
    cases mode with
    | quoted quote => exact absurd rfl (notQuoted quote)
    | comment => exact Option.some.inj plain ▸ step_veils_comment depth quotes
    | code =>
      simp only [stretchAfter?] at plain
      split at plain
      · cases plain
      · rename_i free
        simp only [List.isEmpty_cons, Bool.not_false, Bool.true_and, Bool.or_eq_true, not_or, Bool.not_eq_true,
          beq_eq_false_iff_ne] at free
        exact Option.some.inj plain ▸ step_veils_interpolated quotes free.1 free.2

/-- In columns with plain strings, the two scans of a line write a text and its veiled form. -/
theorem scan_veils {columns : Nat} {line : List Char} (at_ : state.At stretch place)
    (plain : plainFrom language state stretch columns line = true) :
    ∃ last, Veils place last ((scan language ⟨false, true⟩ state line).1.take columns)
        ((scan language ⟨true, true⟩ state line).1.take columns) ∧
      (line.length ≤ columns → ∃ stretch, (scan language ⟨true, true⟩ state line).2.At stretch last) := by
  fun_induction plainFrom language state stretch columns line generalizing place with
  | case1 state stretch line =>
    refine ⟨place, by simpa using .done, fun whole => ⟨stretch, ?_⟩⟩
    cases List.length_eq_zero_iff.mp (Nat.le_zero.mp whole)
    exact at_
  | case2 state stretch columns => exact ⟨place, by simpa [scan] using .done, fun _ => ⟨stretch, at_⟩⟩
  | case3 => cases plain
  | case4 state stretch columns c rest after brackets written next moved ih =>
    have steps := step_veils at_ brackets
    rw [moved] at steps
    generalize kept : step language ⟨false, true⟩ state c rest.head? = source at steps
    cases steps with
    | one later veils =>
      obtain ⟨last, rest, ends⟩ := ih later plain
      rw [scan_one kept, scan_one moved]
      exact ⟨last, veils rest, fun whole => ends (Nat.le_of_succ_le_succ whole)⟩
  | case5 state stretch c after first second next columns d rest brackets moved ih =>
    have steps := step_veils at_ brackets
    rw [moved] at steps
    generalize kept : step language ⟨false, true⟩ state c (d :: rest).head? = source at steps
    cases steps with
    | two more later veils =>
      obtain ⟨last, rest, ends⟩ := ih later plain
      rw [scan_two kept, scan_two moved]
      exact ⟨last, veils rest, fun whole => ends (Nat.le_of_succ_le_succ (Nat.le_of_succ_le_succ whole))⟩
  | case6 => cases plain
  | case7 state stretch columns c rest after brackets moved =>
    have steps := step_veils at_ brackets
    rw [moved] at steps
    generalize kept : step language ⟨false, true⟩ state c rest.head? = source at steps
    cases steps with
    | lineComment =>
      rw [scan, scan, kept, moved]
      exact ⟨place, .done, fun _ => ⟨stretch, at_⟩⟩

/-- A closing bracket at the end of the shown text stands at the end of the source. -/
theorem Veils.getLastD {first last : Place} {source shown : List Char} (veils : Veils first last source shown)
    {before before' : Char} (same : before' = ')' → before = ')') (ends : shown.getLastD before' = ')') :
    source.getLastD before = ')' := by
  have never {c : Char} (blank : Text.isBlank c = true) {d : Char} (closes : c = ')') : d = ')' := by
    cases closes
    cases blank
  induction veils generalizing before before' with
  | done => exact same ends
  | padded blank _ ih =>
    rw [List.getLastD_cons] at ends
    exact ih (never blank) ends
  | code _ _ ih | opens _ _ ih | closes _ _ ih | kept _ _ _ ih =>
    rw [List.getLastD_cons] at ends ⊢
    exact ih id ends
  | blanked _ _ _ _ ih =>
    rw [List.getLastD_cons] at ends ⊢
    exact ih (never (by decide)) ends
  | escaped _ _ ih =>
    rw [List.getLastD_cons, List.getLastD_cons] at ends ⊢
    exact ih (never (by decide)) ends

theorem isBlank_of_isQuote {quote : Char} (quotes : Text.isQuote quote = true) : Text.isBlank quote = false := by
  simp only [Text.isQuote, Bool.or_eq_true, beq_iff_eq] at quotes
  rcases quotes with (rfl | rfl) | rfl <;> decide

/-- A line that ends outside of strings may lose the blanks at its end, in the source alone. -/
theorem Veils.line {first middle last : Place} {source shown source' shown' : List Char}
    (veils : Veils first middle source shown) (ends : middle = .outside) (more : Veils .outside last source' shown') :
    Veils first last (Text.trimEnd source ++ '\n' :: source') (shown ++ '\n' :: shown') ∧
      (Text.trimEnd source = [] → first = .outside) := by
  induction veils with
  | done =>
    cases ends
    exact ⟨.code (by decide) more, fun _ => rfl⟩
  | @code _ c source shown plain _ ih =>
    have later := (ih ends).1
    refine ⟨?_, fun _ => rfl⟩
    rw [Text.trimEnd, Text.dropEndWhile_cons]
    split
    · rename_i lost
      rw [Text.trimEnd, lost.1] at later
      exact .padded lost.2 later
    · exact .code plain later
  | @padded _ c source shown blank _ ih =>
    have later := (ih ends).1
    refine ⟨?_, fun _ => rfl⟩
    rw [Text.trimEnd, Text.dropEndWhile_cons] at later ⊢
    by_cases lost : Text.dropEndWhile Text.isBlank source = [] ∧ Text.isBlank '\n' = true
    · rw [if_pos lost] at later ⊢
      exact .padded blank later
    · rw [if_neg lost] at later ⊢
      exact .padded blank later
  | opens quotes _ ih =>
    rw [Text.trimEnd_cons_of_visible (isBlank_of_isQuote quotes)]
    exact ⟨.opens quotes (ih ends).1, fun _ => rfl⟩
  | closes quotes _ ih =>
    rw [Text.trimEnd_cons_of_visible (isBlank_of_isQuote quotes)]
    exact ⟨.closes quotes (ih ends).1, fun none => by cases none⟩
  | kept inner plain _ ih =>
    rw [Text.trimEnd_cons_of_filled fun none => absurd ((ih ends).2 none) (by simp)]
    exact ⟨.kept inner plain (ih ends).1, fun none => by cases none⟩
  | blanked inner plain brackets _ ih =>
    rw [Text.trimEnd_cons_of_filled fun none => absurd ((ih ends).2 none) (by simp)]
    exact ⟨.blanked inner plain brackets (ih ends).1, fun none => by cases none⟩
  | escaped brackets _ ih =>
    rw [Text.trimEnd_cons_of_visible (by decide),
      Text.trimEnd_cons_of_filled fun none => absurd ((ih ends).2 none) (by simp)]
    exact ⟨.escaped brackets (ih ends).1, fun none => by cases none⟩

/-- The brackets of the source that the shown text does not have. -/
def Place.surplus : Place → Nat
  | .outside => 0
  | .inside _ stretch => stretch.opened

/-- A character of a text in plain brackets is passed at any depth. -/
theorem close?_of_bracketsAfter? {opened next depth : Nat} {c : Char} (brackets : bracketsAfter? opened c = some next)
    (deep : 0 < depth) (rest : List Char) :
    Bracket.close? '(' ')' (depth + opened) (c :: rest) =
      (Bracket.close? '(' ')' (depth + next) rest).map fun found => (c :: found.1, found.2) := by
  unfold bracketsAfter? at brackets
  split at brackets
  · cases brackets
    rename_i opens
    rw [Bracket.close?, if_pos opens]
    rfl
  · rename_i other
    split at brackets
    · rename_i closes
      split at brackets
      · cases brackets
      · cases brackets
        rw [Bracket.close?, if_neg other, if_pos closes, if_neg (by omega)]
        rw [show depth + opened - 1 = depth + (opened - 1) by omega]
    · cases brackets
      rename_i inner
      rw [Bracket.close?, if_neg other, if_neg inner]

/-- A character that both texts have is read alike, whatever it is. -/
theorem close?_cons {first next : Place} {c : Char} {source shown list rest : List Char} {depth : Nat} (deep : 0 < depth)
    (keeps : ∀ {middle written list}, Veils next middle written list → Veils first middle (c :: written) (c :: list))
    (later : ∀ {depth list}, 0 < depth → Bracket.close? '(' ')' depth shown = some (list, rest) →
      ∃ written left middle, Bracket.close? '(' ')' depth source = some (written, left) ∧ Veils next middle written list)
    (closed : Bracket.close? '(' ')' depth (c :: shown) = some (list, rest)) :
    ∃ written left middle, Bracket.close? '(' ')' depth (c :: source) = some (written, left) ∧
      Veils first middle written list := by
  have extend {depth : Nat} (deep : 0 < depth)
      (closed : (Bracket.close? '(' ')' depth shown).map (fun found => (c :: found.1, found.2)) = some (list, rest)) :
      ∃ written left middle,
        (Bracket.close? '(' ')' depth source).map (fun found => (c :: found.1, found.2)) = some (written, left) ∧
          Veils first middle written list := by
    obtain ⟨found, inner, same⟩ := Option.map_eq_some_iff.mp closed
    cases same
    obtain ⟨written, left, middle, reads, veils⟩ := later deep inner
    exact ⟨c :: written, left, middle, by rw [reads]; rfl, keeps veils⟩
  rw [Bracket.close?] at closed ⊢
  split
  · rename_i opens
    rw [if_pos opens] at closed
    exact extend (Nat.succ_pos depth) closed
  · rename_i other
    rw [if_neg other] at closed
    split
    · rename_i closes
      rw [if_pos closes] at closed
      split
      · rename_i last
        rw [if_pos last] at closed
        cases closed
        exact ⟨[], source, first, rfl, .done⟩
      · rename_i more
        rw [if_neg more] at closed
        exact extend (by omega) closed
    · rename_i inner
      rw [if_neg inner] at closed
      exact extend deep closed

theorem close?_blank {c : Char} {shown list rest : List Char} {depth : Nat} (blank : Text.isBlank c = true)
    (closed : Bracket.close? '(' ')' depth (c :: shown) = some (list, rest)) :
    ∃ later, Bracket.close? '(' ')' depth shown = some (later, rest) ∧ list = c :: later := by
  have opener : c ≠ '(' := by
    rintro rfl
    cases blank
  have closer : c ≠ ')' := by
    rintro rfl
    cases blank
  rw [Bracket.close?, if_neg opener, if_neg closer] at closed
  obtain ⟨found, inner, same⟩ := Option.map_eq_some_iff.mp closed
  cases same
  exact ⟨found.1, inner, rfl⟩

/-- A bracket that is closed in the shown text is closed in the source at the same place. -/
theorem Veils.close? {first last : Place} {source shown list rest : List Char} {depth : Nat}
    (veils : Veils first last source shown) (deep : 0 < depth)
    (closed : Bracket.close? '(' ')' depth shown = some (list, rest)) :
    ∃ written left middle, Bracket.close? '(' ')' (depth + first.surplus) source = some (written, left) ∧
      Veils first middle written list := by
  induction veils generalizing depth list with
  | done => cases closed
  | code plain _ ih => exact close?_cons deep (.code plain) ih closed
  | opens quotes _ ih => exact close?_cons deep (.opens quotes) ih closed
  | closes quotes _ ih => exact close?_cons deep (.closes quotes) ih closed
  | kept inner plain _ ih => exact close?_cons deep (.kept inner plain) ih closed
  | padded blank _ ih =>
    obtain ⟨later, inner, rfl⟩ := close?_blank blank closed
    obtain ⟨written, left, middle, reads, veils⟩ := ih deep inner
    refine ⟨written, left, middle, reads, ?_⟩
    cases written with
    | nil => cases Bracket.close?_eq_some reads
    | cons d written =>
      cases Bracket.close?_eq_some reads
      exact .padded blank veils
  | blanked inner plain brackets _ ih =>
    obtain ⟨later, inside, rfl⟩ := close?_blank (by decide) closed
    obtain ⟨written, left, middle, reads, veils⟩ := ih deep inside
    rw [Place.surplus, close?_of_bracketsAfter? brackets deep]
    exact ⟨_ :: written, left, middle, by rw [Place.surplus] at reads; rw [reads]; rfl,
      .blanked inner plain brackets veils⟩
  | escaped brackets _ ih =>
    obtain ⟨_, next, rfl⟩ := close?_blank (by decide) closed
    obtain ⟨later, inside, rfl⟩ := close?_blank (by decide) next
    obtain ⟨written, left, middle, reads, veils⟩ := ih deep inside
    rw [Place.surplus, close?_of_bracketsAfter? (rfl : bracketsAfter? _ '\\' = some _) deep,
      close?_of_bracketsAfter? brackets deep]
    exact ⟨'\\' :: _ :: written, left, middle, by rw [Place.surplus] at reads; rw [reads]; rfl,
      .escaped brackets veils⟩

end Blanking
end CallAtlas

import CallAtlas.Proofs.HeaderStarts
import CallAtlas.Proofs.ParameterShape
import CallAtlas.Ruby.Definitions
import CallAtlas.Script.Outline

/-! The parameters of a method or function are read from the source of its header, whose brackets are found without
regard to strings. Plain strings do not change them: they are as many as those of the cleaned text, and have their
names. -/
namespace CallAtlas

namespace Text

variable {front : List Char} {c : Char}

theorem trimStart_append_cons (visible : isBlank c = false) (rest : List Char) :
    trimStart (front ++ c :: rest) = trimStart front ++ c :: rest := by
  rw [trimStart, List.dropWhile_append, trimStart]
  split
  · rename_i none
    rw [List.isEmpty_iff.mp none, List.dropWhile_cons_of_neg (by simp [visible]), List.nil_append]
  · rfl

theorem trimEnd_append_cons (visible : isBlank c = false) (rest : List Char) :
    trimEnd (front ++ c :: rest) = front ++ c :: trimEnd rest := by
  have last := trimEnd_cons_of_visible visible rest
  rw [trimEnd_append (by simp [last]), last]

variable (head list after : List Char)

theorem trimEnd_listed :
    trimEnd (head ++ '(' :: (list ++ ')' :: after)) = head ++ '(' :: (list ++ ')' :: trimEnd after) := by
  rw [trimEnd_append_cons (by decide), trimEnd_append_cons (by decide)]

/-- Trimming does not reach into a list. -/
theorem trim_listed :
    trim (head ++ '(' :: (list ++ ')' :: after)) = trimStart (head ++ '(' :: (list ++ ')' :: trimEnd after)) := by
  rw [trim, trimStart_append_cons (by decide), trimEnd_listed, ← trimStart_append_cons (by decide)]

end Text

namespace Bracket

theorem map_cons_eq_some {found : Option (List Char × List Char)} {c : Char} {inside after : List Char} :
    (found.map fun found => (c :: found.1, found.2)) = some (c :: inside, after) ↔ found = some (inside, after) := by
  rw [Option.map_eq_some_iff]
  constructor
  · intro ends
    obtain ⟨_, reached, same⟩ := ends
    cases same
    exact reached
  · intro reached
    exact ⟨_, reached, rfl⟩

/-- What follows a closed bracket does not matter. -/
theorem close?_other {opener closer : Char} {depth : Nat} {inside after : List Char}
    (closed : close? opener closer depth (inside ++ closer :: after) = some (inside, after)) (other : List Char) :
    close? opener closer depth (inside ++ closer :: other) = some (inside, other) := by
  induction inside generalizing depth with
  | nil =>
    rw [List.nil_append, close?] at closed ⊢
    split_ifs at closed ⊢ with opens same last
    · simp at closed
    · rfl
    · simp at closed
    · exact absurd rfl same
  | cons c inside ih =>
    rw [List.cons_append, close?] at closed ⊢
    split_ifs at closed ⊢ with opens closes last
    · exact map_cons_eq_some.mpr (ih (map_cons_eq_some.mp closed))
    · cases closed
    · exact map_cons_eq_some.mpr (ih (map_cons_eq_some.mp closed))
    · exact map_cons_eq_some.mpr (ih (map_cons_eq_some.mp closed))

end Bracket

namespace Blanking

/-- A line of Ruby is scanned on its own, unless it is in a heredoc or a documentation block. -/
theorem clean_rubyLike {language : Language} (ruby : language.isRubyLike = true) {cleaner : Cleaner}
    (fresh : cleaner.state = {}) (line : List Char) :
    (cleaner.clean language line).2.state = {} ∧
      ((cleaner.clean language line).1 = [] ∨ Text.startsWith "=begin" line = false ∧
        (cleaner.clean language line).1 = (scan language ⟨true, true⟩ {} line).1) := by
  unfold Cleaner.clean
  simp only [ruby, if_true, fresh, State.atLineEnd]
  split
  · refine ⟨?_, .inl rfl⟩
    split
    · rfl
    · exact fresh
  · split
    · refine ⟨?_, .inl rfl⟩
      split
      · rfl
      · exact fresh
    · split
      · exact ⟨rfl, .inl rfl⟩
      · rename_i code
        exact ⟨rfl, .inr ⟨by simpa using code, rfl⟩⟩

theorem scanned_of_mem_pairLines {texts : List (List Char)} {line : Line} (member : line ∈ pairLines .ruby texts)
    (filled : line.cleaned ≠ []) : line.cleaned = (scan .ruby ⟨true, true⟩ {} line.raw).1 := by
  have each (cleaner : Cleaner) (fresh : cleaner.state = {}) (texts : List (List Char)) :
      ∀ line ∈ List.zipWith Line.mk texts (cleaner.cleanAll .ruby texts), line.cleaned ≠ [] →
        line.cleaned = (scan .ruby ⟨true, true⟩ {} line.raw).1 := by
    induction texts generalizing cleaner with
    | nil => simp
    | cons raw rest ih =>
      intro line member filled
      have scanned := clean_rubyLike (rfl : Language.ruby.isRubyLike = true) fresh raw
      rcases List.mem_cons.mp member with rfl | member
      · exact (scanned.2.resolve_left filled).2
      · exact ih _ scanned.1 line member filled
  exact each {} rfl texts line member filled

end Blanking

namespace Parameters

open Blanking (Place Veils)
open Text (isBlank isQuote)

/-- A text whose first brackets are closed and hold a parameter list, with no string in front of them. -/
structure Lists (text head list after : List Char) : Prop where
  split : text = head ++ '(' :: (list ++ ')' :: after)
  front : ∀ c ∈ head, (c == '(') = false ∧ isQuote c = false
  closes : Bracket.close? '(' ')' 1 (list ++ ')' :: after) = some (list, after)

/-- What is shown of a text up to its first bracket starts like the text. -/
theorem starts_of_veils {last : Place} {source head tail : List Char}
    (front : ∀ c ∈ head, (c == '(') = false ∧ isQuote c = false)
    (veils : Veils .outside last source (head ++ '(' :: tail)) :
    ∃ start rest, source = start ++ '(' :: rest ∧ Veils .outside last rest tail ∧
      ∀ x y, Starts x y (start ++ '(' :: x) (head ++ '(' :: y) := by
  induction head generalizing source with
  | nil =>
    cases veils with
    | code _ rest => exact ⟨[], _, rfl, rest, fun x y => .base ⟨rfl, rfl⟩⟩
    | padded blank => cases blank
    | opens quotes => cases quotes
  | cons c head ih =>
    obtain ⟨other, free⟩ := front c List.mem_cons_self
    have later : ∀ c ∈ head, (c == '(') = false ∧ isQuote c = false :=
      fun d member => front d (List.mem_cons_of_mem c member)
    cases veils with
    | code _ more =>
      obtain ⟨start, rest, rfl, veils, starts⟩ := ih later more
      exact ⟨c :: start, rest, rfl, veils, fun x y => .code c other (starts x y)⟩
    | padded blank more =>
      obtain ⟨start, rest, same, veils, starts⟩ := ih later more
      cases start with
      | nil => cases same
      | cons d start =>
        cases same
        exact ⟨'\n' :: start, rest, rfl, veils, fun x y => .padded blank (starts x y)⟩
    | opens quotes =>
      rw [free] at quotes
      cases quotes

/-- A source text has a list at the place where its veiled form has one. -/
theorem Lists.source {text head list after front : List Char} (lists : Lists text head list after) {last : Place}
    (veils : Veils .outside last front (head ++ '(' :: (list ++ [')']))) (more : List Char) :
    ∃ start written left middle, front ++ more = start ++ '(' :: (written ++ ')' :: left) ∧
      Bracket.close? '(' ')' 1 (written ++ ')' :: left) = some (written, left) ∧ Veils .outside middle written list ∧
        ∀ x y, Starts x y (start ++ '(' :: x) (head ++ '(' :: y) := by
  obtain ⟨start, rest, rfl, inside, starts⟩ := starts_of_veils lists.front veils
  obtain ⟨written, left, middle, closed, listed⟩ := inside.close? Nat.one_pos (Bracket.close?_other lists.closes [])
  cases Bracket.close?_eq_some closed
  exact ⟨start, written, left ++ more, middle, by simp, Bracket.close?_other closed _, listed, starts⟩

/-- The names of two parameters are the same, unless the second one is a pattern with a string or a line end in it. -/
def SameName (written shown : Parameter) : Prop :=
  (∀ c ∈ shown.name.toList, isQuote c = false ∧ c ≠ '\n') → written.name = shown.name

theorem NamedAlike.sameName {written shown : Parameter} (alike : NamedAlike written shown) : SameName written shown :=
  fun free => String.toList_inj.mp (alike.eq free)

theorem signature_brackets {inside list body : List Char}
    (closed : Bracket.close? '(' ')' 1 inside = some (list, body)) :
    Ruby.Header.signature ('(' :: inside) = (some list, body) := by
  have reads : Bracket.enclosed? ('(' :: inside) = some (list, body) := closed
  rw [Ruby.Header.signature, reads]

/-- A list without brackets and the body make up what follows a name. -/
theorem signature_append {rest list body : List Char} (other : rest.head? ≠ some '(')
    (reads : Ruby.Header.signature rest = (some list, body)) : list ++ body = rest := by
  unfold Ruby.Header.signature at reads
  split at reads
  · exact absurd rfl other
  · split at reads
    · cases reads
    · cases reads
    · cases reads
    · cases reads
      exact List.takeWhile_append_dropWhile

/-- A header that ends with its list and body has brackets around the list. -/
theorem signature_listed {before list body : List Char} (outside : '(' ∉ before)
    (reads : Ruby.Header.signature (before ++ '(' :: (list ++ ')' :: body)) = (some list, body)) : before = [] := by
  by_contra filled
  have other : (before ++ '(' :: (list ++ ')' :: body)).head? ≠ some '(' := by
    rw [List.head?_append_of_ne_nil _ filled]
    exact fun first => outside (List.mem_of_head? first)
  have lengths := congrArg List.length (signature_append other reads)
  simp only [List.length_append, List.length_cons] at lengths
  omega

/-- The line of a method whose parameter list is closed on the cleaned line, with plain strings up to there. -/
structure MethodLine (line : Blanking.Line) (header : Ruby.Header) (head list after : List Char) : Prop where
  reads : Ruby.Header.read? (Text.trim line.cleaned) = some header
  parameters : header.parameters = some list
  body : header.body = Text.trimEnd after
  lists : Lists line.cleaned head list after
  plain : Blanking.isPlain .ruby (head.length + list.length + 2) line.raw = true

theorem MethodLine.source {line : Blanking.Line} {header : Ruby.Header} {head list after : List Char}
    (method : MethodLine line header head list after)
    (scanned : line.cleaned = (Blanking.scan .ruby ⟨true, true⟩ {} line.raw).1) :
    ∃ other written middle, Ruby.Header.read? (Text.trim (Blanking.stripComments .ruby line.raw)) = some other ∧
      other.parameters = some written ∧ Veils .outside middle written list := by
  obtain ⟨reads, parameters, body, lists, plain⟩ := method
  obtain ⟨last, veils, _⟩ := Blanking.scan_veils (.code (by simp)) plain
  have shown : line.cleaned.take (head.length + list.length + 2) = head ++ '(' :: (list ++ [')']) := by
    have whole : line.cleaned = (head ++ '(' :: (list ++ [')'])) ++ after := by simp [lists.split]
    rw [whole]
    exact List.take_left' (by simp; omega)
  rw [← scanned, shown] at veils
  obtain ⟨start, written, left, middle, split, closed, listed, starts⟩ :=
    lists.source veils ((Blanking.scan .ruby ⟨false, true⟩ {} line.raw).1.drop (head.length + list.length + 2))
  rw [List.take_append_drop] at split
  have both := (starts (written ++ ')' :: Text.trimEnd left) (list ++ ')' :: Text.trimEnd after)).trimStart.read?
  rw [← Text.trim_listed head, ← lists.split, reads] at both
  rw [Blanking.stripComments, split, Text.trimEnd_listed, Text.trim_listed, Text.trimEnd_trimEnd]
  generalize Ruby.Header.read? (Text.trimStart (start ++ '(' :: (written ++ ')' :: Text.trimEnd left))) = found at both
  cases both with
  | @some other _ signatures =>
    obtain ⟨rest, rest', same, first, second⟩ := signatures
    obtain ⟨before, before', rfl, rfl, empty, _, outside⟩ := same.split
    rw [parameters, body] at second
    cases empty.mpr (signature_listed outside second)
    rw [List.nil_append, signature_brackets (Bracket.close?_other closed _)] at first
    exact ⟨other, written, middle, rfl, (congrArg Prod.fst first).symm, listed⟩

theorem MethodLine.parameters_sameName {line : Blanking.Line} {header : Ruby.Header} {head list after : List Char}
    (method : MethodLine line header head list after)
    (scanned : line.cleaned = (Blanking.scan .ruby ⟨true, true⟩ {} line.raw).1) :
    List.Forall₂ SameName (Ruby.parametersOf line.raw header) (parse .ruby list) := by
  obtain ⟨other, written, middle, reads, writes, veils⟩ := method.source scanned
  have named : List.Forall₂ NamedAlike (parse .ruby written) (parse .ruby list) :=
    parse_namedAlike veils fun script => by cases script
  unfold Ruby.parametersOf
  rw [reads]
  by_cases same : other.name = header.name
  · simp only [if_pos same, writes, Option.some_or]
    exact named.imp fun _ _ => NamedAlike.sameName
  · simp only [if_neg same, method.parameters]
    exact List.forall₂_same.mpr fun _ _ _ => rfl

theorem inBrackets?_append {before inside list rest : List Char} (outside : '(' ∉ before)
    (closed : Bracket.close? '(' ')' 1 inside = some (list, rest)) :
    Script.Pattern.inBrackets? (before ++ '(' :: inside) = some list := by
  have reads : Bracket.enclosed? ('(' :: inside) = some (list, rest) := closed
  have front : (before ++ '(' :: inside).dropWhile (· != '(') = '(' :: inside := by
    have passes : ∀ c ∈ before, (c != '(') = true := fun c member => bne_iff_ne.mpr fun same => outside (same ▸ member)
    rw [List.dropWhile_append_of_pos passes]
    rfl
  rw [Script.Pattern.inBrackets?, front, reads]
  rfl

/-- A line of a script without unfinished strings and comments, whose strings are plain. -/
structure WholeLine (language : Language) (line : Blanking.Line) : Prop where
  scanned : Blanking.scan language ⟨true, true⟩ {} line.raw = (line.cleaned, {})
  plain : Blanking.isPlain language line.raw.length line.raw = true

theorem WholeLine.veils {language : Language} {line : Blanking.Line} (whole : WholeLine language line) :
    Veils .outside .outside (Blanking.scan language ⟨false, true⟩ {} line.raw).1 line.cleaned := by
  obtain ⟨last, veils, ends⟩ := Blanking.scan_veils (.code (by simp)) whole.plain
  rw [List.take_of_length_le (Blanking.length_scan_le _), List.take_of_length_le (Blanking.length_scan_le _)] at veils
  obtain ⟨opened, at_⟩ := ends (Nat.le_refl _)
  rw [whole.scanned] at veils at_
  cases at_
  exact veils

theorem joinLines_cons {lines : List (List Char)} (filled : lines ≠ []) (line : List Char) :
    Text.joinLines (line :: lines) = line ++ '\n' :: Text.joinLines lines := by
  cases lines with
  | nil => exact absurd rfl filled
  | cons => simp [Text.joinLines, List.intercalate, List.intersperse]

theorem joinLines_append (lines more : List (List Char)) (front rest : List Char) :
    Text.joinLines (lines ++ (front ++ rest) :: more) =
      Text.joinLines (lines ++ [front]) ++ Text.joinLines (rest :: more) := by
  induction lines with
  | nil => cases more <;> simp [Text.joinLines, List.intercalate, List.intersperse]
  | cons line lines ih =>
    rw [List.cons_append, List.cons_append, joinLines_cons (by simp), joinLines_cons (by simp), ih]
    simp

/-- Whole lines in front of a text, joined with it. -/
theorem joinLines_veils {language : Language} {lines : List Blanking.Line} {last : Place} {source shown : List Char}
    (whole : ∀ line ∈ lines, WholeLine language line) (veils : Veils .outside last source shown) :
    Veils .outside last
      (Text.joinLines (lines.map (fun line => Blanking.stripComments language line.raw) ++ [source]))
      (Text.joinLines (lines.map (·.cleaned) ++ [shown])) := by
  induction lines with
  | nil => simpa [Text.joinLines, List.intercalate] using veils
  | cons line lines ih =>
    have later := ih fun line member => whole line (List.mem_cons_of_mem _ member)
    have first := (whole line List.mem_cons_self).veils
    rw [List.map_cons, List.map_cons, List.cons_append, List.cons_append, joinLines_cons (by simp),
      joinLines_cons (by simp)]
    exact (first.line rfl later).1

/-- The lines of a function up to the end of its parameter list, which is closed on the cleaned lines. -/
structure FunctionLines (context : Script.Outline.Context) (spot : Script.Outline.Spot) (last : Nat)
    (lines : List Blanking.Line) (line : Blanking.Line) (part head list after : List Char) : Prop where
  here : lines ++ [line] <+: spot.through last
  whole : ∀ line ∈ lines, WholeLine context.language line
  scanned : line.cleaned = (Blanking.scan context.language ⟨true, true⟩ {} line.raw).1
  ends : line.cleaned = part ++ ')' :: after
  plain : Blanking.isPlain context.language (part.length + 1) line.raw = true
  lists : Lists (Text.joinLines ((lines ++ [line]).map (·.cleaned))) head list after
  reads : (Script.Pattern.function? (spot.cleanedStatement last)).isSome = true
  unmodified : Unmodified context.language list

variable {context : Script.Outline.Context} {spot : Script.Outline.Spot} {last : Nat} {lines : List Blanking.Line}
  {line : Blanking.Line} {part head list after : List Char}

/-- The cleaned lines up to the closing bracket, joined. -/
theorem FunctionLines.shown (function : FunctionLines context spot last lines line part head list after) :
    Text.joinLines (lines.map (·.cleaned) ++ [part ++ [')']]) = head ++ '(' :: (list ++ [')']) := by
  have ends : line.cleaned = (part ++ [')']) ++ after := by simp [function.ends]
  have whole := function.lists.split
  rw [List.map_append, List.map_singleton, ends, joinLines_append] at whole
  refine List.append_cancel_right (?_ : _ ++ after = _ ++ after)
  simpa [Text.joinLines, List.intercalate] using whole

/-- The source and the cleaned text of a statement correspond up to the closing bracket. -/
theorem FunctionLines.texts (function : FunctionLines context spot last lines line part head list after) :
    ∃ place front more more', Veils .outside place front (head ++ '(' :: (list ++ [')'])) ∧
      spot.rawStatement context last = Text.trimStart (front ++ more) ∧
        spot.cleanedStatement last = Text.trimStart (head ++ '(' :: (list ++ [')']) ++ more') := by
  obtain ⟨later, through⟩ := function.here
  obtain ⟨place, veils, _⟩ := Blanking.scan_veils (.code (by simp)) function.plain
  have ends : line.cleaned = (part ++ [')']) ++ after := by simp [function.ends]
  rw [← function.scanned, ends, List.take_left' (by simp)] at veils
  have written := List.take_append_drop (part.length + 1) (Blanking.scan context.language ⟨false, true⟩ {} line.raw).1
  generalize (Blanking.scan context.language ⟨false, true⟩ {} line.raw).1.take (part.length + 1) = front at veils written
  generalize (Blanking.scan context.language ⟨false, true⟩ {} line.raw).1.drop (part.length + 1) = rest at written
  have closes : front.getLastD ' ' = ')' := veils.getLastD id (by simp)
  have stripped : Blanking.stripComments context.language line.raw = front ++ Text.trimEnd rest := by
    rcases List.eq_nil_or_concat front with rfl | ⟨before, mark, rfl⟩
    · cases closes
    · have bracket : mark = ')' := by simpa using closes
      rw [Blanking.stripComments, ← written, List.concat_eq_append, bracket, List.append_assoc, List.singleton_append,
        Text.trimEnd_append_cons (by decide), List.append_assoc, List.singleton_append]
  let strip (line : Blanking.Line) := Blanking.stripComments context.language line.raw
  refine ⟨place, Text.joinLines (lines.map strip ++ [front]), Text.joinLines (Text.trimEnd rest :: later.map strip),
    Text.joinLines (after :: later.map (·.cleaned)), ?_, ?_, ?_⟩
  · rw [← function.shown]
    exact joinLines_veils function.whole veils
  · rw [Script.Outline.Spot.rawStatement, ← through, List.append_assoc, List.map_append, List.singleton_append,
      List.map_cons, stripped, joinLines_append]
  · rw [Script.Outline.Spot.cleanedStatement, ← through, List.append_assoc, List.map_append, List.singleton_append,
      List.map_cons, ends, joinLines_append, function.shown]

theorem FunctionLines.parameters_sameName
    (function : FunctionLines context spot last lines line part head list after) :
    ((Script.Pattern.function? (spot.cleanedStatement last)).map (·.2)).bind Script.Pattern.inBrackets? = some list ∧
      List.Forall₂ SameName
        (spot.parametersAfter context (fun text => (Script.Pattern.function? text).map (·.2)) last)
        (parse context.language list) := by
  obtain ⟨place, front, more, more', veils, raw, cleaned⟩ := function.texts
  obtain ⟨start, written, left, middle, split, closed, listed, starts⟩ := function.lists.source veils more
  have closed' := Bracket.close?_other function.lists.closes more'
  rw [split] at raw
  rw [List.append_assoc, List.cons_append, List.append_assoc, List.singleton_append] at cleaned
  have both := (starts (written ++ ')' :: left) (list ++ ')' :: more')).trimStart.function?
  rw [← raw, ← cleaned] at both
  have reads := function.reads
  have found : ((Script.Pattern.function? (spot.rawStatement context last)).map (·.2)).bind Script.Pattern.inBrackets? =
      some written ∧
      ((Script.Pattern.function? (spot.cleanedStatement last)).map (·.2)).bind Script.Pattern.inBrackets? = some list := by
    generalize Script.Pattern.function? (spot.rawStatement context last) = first at both ⊢
    generalize Script.Pattern.function? (spot.cleanedStatement last) = second at both reads ⊢
    cases both with
    | none => cases reads
    | @some first second same =>
      obtain ⟨before, before', rest, rest', _, outside, outside'⟩ := same.2.split
      rw [Option.map_some, Option.map_some, Option.bind_some, Option.bind_some, rest, rest']
      exact ⟨inBrackets?_append outside closed, inBrackets?_append outside' closed'⟩
  refine ⟨found.2, ?_⟩
  unfold Script.Outline.Spot.parametersAfter
  simp only [found.1, Option.some_or]
  exact (parse_namedAlike listed function.unmodified).imp fun _ _ => NamedAlike.sameName

/-- Strings do not change the parameters of a method or function, as long as they are plain: what is read from the
source has as many parameters as what is read from the cleaned text, in the same order and with the same names. Two
cases are left open. Two names may differ where that of the cleaned text holds a quote or a line end, as the name of a
pattern with a string in it does; and no parameter of a script starts with a modifier such as `public`. -/
theorem plain_strings_keep_parameters (texts : List (List Char)) (context : Script.Outline.Context)
    (spot : Script.Outline.Spot) (last : Nat) (head list after : List Char) :
    (∀ line ∈ Blanking.pairLines .ruby texts, ∀ header, MethodLine line header head list after →
      List.Forall₂ SameName (Ruby.parametersOf line.raw header) (parse .ruby list)) ∧
    ∀ lines line part, FunctionLines context spot last lines line part head list after →
      ((Script.Pattern.function? (spot.cleanedStatement last)).map (·.2)).bind Script.Pattern.inBrackets? = some list ∧
      List.Forall₂ SameName
        (spot.parametersAfter context (fun text => (Script.Pattern.function? text).map (·.2)) last)
        (parse context.language list) := by
  refine ⟨?_, fun _ _ _ => FunctionLines.parameters_sameName⟩
  intro line member header method
  apply method.parameters_sameName
  apply Blanking.scanned_of_mem_pairLines member
  simp [method.lists.split]

/-- The line of a method, with a comment behind the list. -/
def methodLine : Blanking.Line :=
  ⟨"def total(mark = \"(\\\\d,):\", rate: 1) # sum".toList, "def total(mark = \"       \", rate: 1) ".toList⟩

def methodHeader : Ruby.Header := ⟨"total".toList, false, none, some "mark = \"       \", rate: 1".toList, []⟩

/-- The first line of a function whose list goes on, with a blank at its end. -/
def functionLine : Blanking.Line :=
  ⟨"function total(mark = \"(,):\", ".toList, "function total(mark = \"    \", ".toList⟩

def listLine : Blanking.Line := ⟨"  rate = 1) \x7b\x7d".toList, "  rate = 1) \x7b\x7d".toList⟩

/-- A function at the start of a script. -/
def scriptSpot (texts : List String) : Script.Outline.Spot :=
  ⟨0, 0, Blanking.pairLines .javascript (texts.map String.toList)⟩

def scriptContext : Script.Outline.Context := ⟨"total.js", .javascript, 10⟩

theorem plain_strings_keep_parameters_total :
    let spot := scriptSpot ["function total(mark = \"(,):\", ", "  rate = 1) \x7b\x7d"]
    MethodLine methodLine methodHeader "def total".toList "mark = \"       \", rate: 1".toList [' '] ∧
      List.Forall₂ SameName (Ruby.parametersOf methodLine.raw methodHeader)
        (parse .ruby "mark = \"       \", rate: 1".toList) ∧
      FunctionLines scriptContext spot 1 [functionLine] listLine "  rate = 1".toList "function total".toList
        "mark = \"    \", \n  rate = 1".toList " \x7b\x7d".toList ∧
      List.Forall₂ SameName
        (spot.parametersAfter scriptContext (fun text => (Script.Pattern.function? text).map (·.2)) 1)
        (parse .javascript "mark = \"    \", \n  rate = 1".toList) := by
  intro spot
  have method : MethodLine methodLine methodHeader "def total".toList "mark = \"       \", rate: 1".toList [' '] :=
    ⟨by decide, by decide, by decide, ⟨by decide, by decide, by decide⟩, by decide⟩
  have function : FunctionLines scriptContext spot 1 [functionLine] listLine "  rate = 1".toList
      "function total".toList "mark = \"    \", \n  rate = 1".toList " \x7b\x7d".toList :=
    { here := by decide
      whole := List.forall_mem_singleton.mpr ⟨by decide, by decide⟩
      scanned := by decide
      ends := by decide
      plain := by decide
      lists := ⟨by decide, by decide, by decide⟩
      reads := by decide
      unmodified := fun _ => by decide }
  have methods := (plain_strings_keep_parameters [methodLine.raw] scriptContext spot 1 "def total".toList
    "mark = \"       \", rate: 1".toList [' ']).1
  have functions := (plain_strings_keep_parameters [] scriptContext spot 1 "function total".toList
    "mark = \"    \", \n  rate = 1".toList " \x7b\x7d".toList).2
  exact ⟨method, methods methodLine (by decide) methodHeader method, function, (functions _ _ _ function).2⟩

/-- The names of the parameters of a method, read from the source line and from the cleaned line. -/
def methodNames? (raw : String) : Option (List String × List String) :=
  (Ruby.Header.read? (Text.trim (Blanking.scan .ruby ⟨true, true⟩ {} raw.toList).1)).bind fun header =>
    header.parameters.map fun list =>
      ((Ruby.parametersOf raw.toList header).map (·.name), (parse .ruby list).map (·.name))

/-- The names of the parameters of a function in a line, read from the source and from the cleaned text. -/
def functionNames? (raw : String) : Option (List String × List String) :=
  let spot := scriptSpot [raw]
  (((Script.Pattern.function? (spot.cleanedStatement 0)).map (·.2)).bind Script.Pattern.inBrackets?).map fun list =>
    ((spot.parametersAfter scriptContext (fun text => (Script.Pattern.function? text).map (·.2)) 0).map (·.name),
      (parse .javascript list).map (·.name))

/-- A closing bracket in a string ends the list of the source, an escaped backslash before a closing quote hides the
quote, and the quote of a string in a string ends the outer one. -/
theorem string_contents_change_parameters :
    methodNames? "def total(mark = \")\", rate = 1)" = some (["mark"], ["mark", "rate"]) ∧
    functionNames? "function total(mark = \")\", rate = 1) \x7b\x7d" = some (["mark"], ["mark", "rate"]) ∧
    methodNames? "def total(mark = \"\\\\\", rate = 1)" = some (["mark"], ["mark", "rate"]) ∧
    methodNames? "def total(mark = \"#\x7bpick(\"a, b: c\")\x7d\", rate = 1)" =
      some (["mark", "b", "rate"], ["mark", "rate"]) := by
  decide +kernel

end Parameters
end CallAtlas

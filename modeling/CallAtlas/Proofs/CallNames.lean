import CallAtlas.Proofs.Columns
import CallAtlas.Proofs.Confinement
import CallAtlas.Proofs.ParameterLists
import CallAtlas.Ruby.Header
import CallAtlas.Script.Outline
import CallAtlas.Template

/-! Where the names of calls stand. What the readers take for a call is an identifier, and it stands as a whole word
at a column of the text that is searched: a cleaned line, the end of a cleaned line behind the header of a method,
or the code of one line of a tag. -/
namespace CallAtlas

namespace Ruby

open Token (continuesName)

/-- A name that a call in Ruby can have: a word, and a question or exclamation mark if one belongs to it. -/
def IsCallName (name : List Char) : Prop :=
  ∃ first more mark, name = first :: (more ++ mark) ∧ Text.startsName first = true ∧
    (∀ c ∈ more, continuesName c = true) ∧ mark ∈ [[], ['?'], ['!']]

theorem continuesName_of_startsName {c : Char} (starts : Text.startsName c = true) : continuesName c = true := by
  simp only [Text.startsName, Bool.or_eq_true] at starts
  simp only [continuesName, Bool.or_eq_true]
  exact starts.imp_left Or.inl

theorem ascii_of_continuesName {c : Char} (joins : continuesName c = true) : c.toNat < 0x80 := by
  simp only [continuesName, Text.isLetter, Text.isUpper, Text.isLower, Text.isDigit, Bool.or_eq_true,
    Bool.and_eq_true, decide_eq_true_eq, Char.le_def, UInt32.le_iff_toNat_le, beq_iff_eq] at joins
  rcases joins with ((upper | lower) | digit) | rfl
  · exact Nat.lt_of_le_of_lt upper.2 (by decide)
  · exact Nat.lt_of_le_of_lt lower.2 (by decide)
  · exact Nat.lt_of_le_of_lt digit.2 (by decide)
  · decide

theorem isWord_of_continuesName {c : Char} (joins : continuesName c = true) : Text.isWord c = true := by
  rw [Text.isWord, if_pos (ascii_of_continuesName joins)]
  exact joins

theorem continuesName_of_isWord {c : Char} (other : Text.isWord c = false) : continuesName c = false := by
  by_contra joins
  rw [isWord_of_continuesName (by simpa using joins)] at other
  cases other

theorem continuesName_of_isBlank {c : Char} (blank : Text.isBlank c = true) : continuesName c = false :=
  continuesName_of_isWord (Text.isWord_of_isBlank blank)

namespace IsCallName

variable {name : List Char}

theorem starts (isName : IsCallName name) : name.head?.any continuesName = true := by
  obtain ⟨first, more, mark, rfl, starts, _⟩ := isName
  exact continuesName_of_startsName starts

theorem visible (isName : IsCallName name) : ∀ c ∈ name, c ≠ ' ' := by
  rintro c member rfl
  obtain ⟨first, more, mark, rfl, starts, joins, marks⟩ := isName
  rcases List.mem_cons.mp member with rfl | member
  · cases starts
  · rcases List.mem_append.mp member with inside | last
    · cases joins ' ' inside
    · simp only [List.mem_cons, List.not_mem_nil, or_false] at marks
      rcases marks with rfl | rfl | rfl <;> simp at last

end IsCallName

namespace Token

/-- A mark that belongs to a name is the last character of the name; without one the name is the word. -/
theorem marked_cases (word rest : List Char) :
    marked word rest = (word, rest) ∨
      ∃ mark after, (mark = '?' ∨ mark = '!') ∧ rest = mark :: after ∧ marked word rest = (word ++ [mark], after) := by
  unfold marked
  split
  · split
    · rename_i mark after belongs
      exact .inr ⟨mark, after, belongs.1, rfl, rfl⟩
    · exact .inl rfl
  · exact .inl rfl

theorem read?_name {before word rest : List Char} {token : Token} (read : read? before word rest = some token) :
    before.head?.any continuesName = false ∧ token.name.toList = (marked word rest).1 := by
  unfold read? at read
  simp only at read
  split at read
  · cases read
  · rename_i free
    refine ⟨by simpa using free, ?_⟩
    split at read
    · cases read
    · split at read
      · cases read
      · split at read
        · cases read
        · cases read
          exact String.toList_ofList

end Token

/-- A token is an identifier at a column of the text. -/
theorem mem_tokens {text : List Char} {token : Token} (member : token ∈ tokens text) :
    IsCallName token.name.toList ∧ ∃ column, Text.StandsAt continuesName token.name.toList column text := by
  obtain ⟨found, present, same⟩ := List.mem_filterMap.mp member
  obtain ⟨front, rest, left, rfl, reads⟩ := Text.mem_occurrences present
  obtain rfl : found = some token := same
  unfold Token.pattern at reads
  split at reads
  · rename_i c more
    split at reads
    · rename_i starts
      obtain ⟨read, -⟩ := Prod.mk.inj (Option.some.inj reads)
      obtain ⟨before, named⟩ := Token.read?_name read
      have whole : c :: more =
          (c :: more.takeWhile continuesName) ++ more.dropWhile continuesName := by
        rw [List.cons_append, List.takeWhile_append_dropWhile]
      have joins : ∀ d ∈ more.takeWhile continuesName, continuesName d = true :=
        fun _ inside => List.mem_takeWhile_imp inside
      rw [List.head?_reverse] at before
      rcases Token.marked_cases (c :: more.takeWhile continuesName) (more.dropWhile continuesName) with
        plain | ⟨mark, after, either, follows, marked⟩
      · rw [plain] at named
        rw [named, whole]
        exact ⟨⟨c, _, [], by simp, starts, joins, by simp⟩, _,
          Text.standsAt_append before fun _ => Text.any_head?_dropWhile continuesName more⟩
      · rw [marked] at named
        rw [named, whole, follows]
        refine ⟨⟨c, _, [mark], rfl, starts, joins, by rcases either with rfl | rfl <;> simp⟩, front.length, ?_⟩
        have split : front ++ ((c :: more.takeWhile continuesName) ++ mark :: after) =
            front ++ ((c :: more.takeWhile continuesName ++ [mark]) ++ after) := by simp
        rw [split]
        refine Text.standsAt_append before fun ends => ?_
        rw [List.getLast?_concat] at ends
        rcases either with rfl | rfl <;> cases ends
    · cases reads
  · cases reads

theorem mem_callNames {accepts : String → Bool} {locals : List String} {text : List Char} {name : String}
    (member : name ∈ callNames accepts locals text) :
    accepts name = true ∧ IsCallName name.toList ∧
      ∃ column, Text.StandsAt continuesName name.toList column text := by
  rw [callNames_eq_distinct, Edge.mem_distinct] at member
  obtain ⟨token, chosen, rfl⟩ := List.mem_map.mp member
  obtain ⟨present, called⟩ := List.mem_filter.mp chosen
  exact ⟨(Bool.and_eq_true_iff.mp called).2, mem_tokens present⟩

namespace Header

open Text (Leaves)

theorem trimStart_leaves (text : List Char) : Leaves continuesName text (Text.trimStart text) := by
  obtain ⟨blanks, split, blank⟩ := Text.exists_trimStart_append text
  refine ⟨blanks, split, fun joined => ?_⟩
  obtain ⟨c, last, joins⟩ := (Option.any_eq_true _ _).mp joined
  rw [continuesName_of_isBlank (blank c (List.mem_of_getLast? last))] at joins
  cases joins

theorem afterSpacedWord?_leaves {word : String} {text rest : List Char}
    (found : Text.afterSpacedWord? word text = some rest) : Leaves continuesName text rest := by
  obtain ⟨middle, reads, skips⟩ := Option.bind_eq_some_iff.mp found
  obtain rfl := Text.after?_eq_some.mp reads
  unfold Text.afterBlank? at skips
  split at skips
  · cases skips
  · split at skips
    · rename_i c more blank
      cases skips
      exact (Leaves.behind word.toList (continuesName_of_isBlank blank) more).trans (trimStart_leaves more)
    · cases skips

theorem visibilityWord?_leaves {text rest : List Char} {visibility : Visibility}
    (found : visibilityWord? text = some (visibility, rest)) : Leaves continuesName text rest := by
  unfold visibilityWord? at found
  split at found
  · rename_i reads
    cases found
    exact afterSpacedWord?_leaves reads
  · split at found
    · rename_i reads
      cases found
      exact afterSpacedWord?_leaves reads
    · obtain ⟨left, reads, same⟩ := Option.map_eq_some_iff.mp found
      cases same
      exact afterSpacedWord?_leaves reads

/-- A name and what follows it, which does not go on with the name. -/
theorem name?_eq_some {text name rest : List Char} (found : name? text = some (name, rest)) :
    text = name ++ rest ∧ (name.getLast?.any continuesName = true → rest.head?.any continuesName = false) := by
  unfold name? at found
  split at found
  · cases found
  · rename_i c more
    split at found
    · have whole : more.takeWhile Text.isWord ++ more.dropWhile Text.isWord = more :=
        List.takeWhile_append_dropWhile
      have stops := Text.any_head?_dropWhile Text.isWord more
      split at found
      · rename_i mark after follows
        rw [follows] at whole stops
        have other : continuesName mark = false := continuesName_of_isWord stops
        split at found
        · cases found
          refine ⟨?_, fun ends => ?_⟩
          · rw [List.append_assoc, List.cons_append, List.singleton_append, whole]
          · rw [List.getLast?_concat, Option.any_some, other] at ends
            cases ends
        · cases found
          exact ⟨by rw [List.cons_append, whole], fun _ => other⟩
      · rename_i follows
        cases found
        rw [follows] at whole
        exact ⟨by rw [List.cons_append, whole], fun _ => rfl⟩
    · cases found

theorem signature_leaves (rest : List Char) : Leaves continuesName rest (signature rest).2 := by
  unfold signature
  split
  · split
    · rename_i inside _ list body found
      exact Bracket.close?_eq_some found ▸ Leaves.behind ('(' :: list) (by decide) body
    · exact ⟨_, (List.append_nil _).symm, fun _ => rfl⟩
  · split
    · exact .refl rest
    · exact .refl rest
    · exact .refl rest
    · refine ⟨rest.takeWhile (· != ';'), List.takeWhile_append_dropWhile.symm, fun _ => ?_⟩
      have stops := Text.any_head?_dropWhile (· != ';') rest
      refine (Option.any_eq_false _ _).mpr fun c first => ?_
      obtain rfl : c = ';' := by simpa using (Option.any_eq_false _ _).mp stops c first
      decide

theorem finish_leaves {visibility : Option Visibility} {onSelf : Bool} {name rest : List Char}
    (apart : name.getLast?.any continuesName = true → rest.head?.any continuesName = false) :
    Leaves continuesName (name ++ rest) (finish visibility onSelf name rest).body := by
  have settled : Leaves continuesName (name ++ rest) (settle name rest).2 := by
    unfold settle
    split
    · rename_i setter
      refine ⟨name.dropLast, ?_, fun _ => rfl⟩
      have whole : name.dropLast ++ ['='] = name := List.dropLast_append_getLast? _ setter.1
      nth_rewrite 1 [← whole]
      simp
    · exact ⟨name, rfl, apart⟩
  exact settled.trans (signature_leaves _)

/-- The body of a header is the end of its line. -/
theorem read?_leaves {line : List Char} {header : Header} (found : read? line = some header) :
    Leaves continuesName line header.body := by
  have named {text name rest : List Char} {visibility : Option Visibility} {onSelf : Bool}
      (read : name? text = some (name, rest)) :
      Leaves continuesName text (finish visibility onSelf name rest).body := by
    obtain ⟨rfl, apart⟩ := name?_eq_some read
    exact finish_leaves apart
  unfold read? at found
  split at found
  rename_i start worded
  have begins : Leaves continuesName line start := by
    split at worded
    · rename_i reads
      cases worded
      exact visibilityWord?_leaves reads
    · cases worded
      exact .refl line
  split at found
  · cases found
  · rename_i text reads
    refine begins.trans ((afterSpacedWord?_leaves reads).trans ?_)
    split at found
    · rename_i bound
      cases found
      obtain ⟨own, onSelf, read⟩ := Option.bind_eq_some_iff.mp bound
      rw [Text.after?_eq_some.mp onSelf]
      exact (Leaves.behind ['s', 'e', 'l', 'f'] (by decide) own).trans (named read)
    · obtain ⟨⟨name, rest⟩, read, same⟩ := Option.map_eq_some_iff.mp found
      cases same
      exact named read

end Header

/-- A name behind the header of a method stands on the line of the header. -/
theorem standsAt_of_header {line name : List Char} {header : Header} (isName : IsCallName name)
    (read : Header.read? (Text.trim line) = some header) {column : Nat}
    (stands : Text.StandsAt continuesName name column header.body) :
    ∃ place, Text.StandsAt continuesName name place line := by
  obtain ⟨inner, trimmed⟩ := (Header.read?_leaves read).standsAt isName.starts stands
  obtain ⟨blanks, split, blank⟩ := Text.exists_trimEnd_append (Text.trimStart line)
  have filled : name ≠ [] := by
    obtain ⟨first, more, mark, rfl, _⟩ := isName
    exact List.cons_ne_nil _ _
  have apart : blanks.head?.any continuesName = false := by
    cases blanks with
    | nil => rfl
    | cons c blanks => exact continuesName_of_isBlank (blank c List.mem_cons_self)
  have untrimmed := trimmed.append_right filled apart
  exact (Header.trimStart_leaves line).standsAt isName.starts (split ▸ untrimmed)

end Ruby

namespace Script

open Pattern (startsIdentifier continuesIdentifier)

/-- A name that a call in a script can have. -/
def IsIdentifier (name : List Char) : Prop :=
  ∃ first more, name = first :: more ∧ startsIdentifier first = true ∧ ∀ c ∈ more, continuesIdentifier c = true

/-- The characters of ASCII that go on with an identifier. -/
def joinsIdentifier (c : Char) : Bool := Ruby.Token.continuesName c || c == '$'

theorem IsIdentifier.visible {name : List Char} (isName : IsIdentifier name) : ∀ c ∈ name, c ≠ ' ' := by
  rintro c member rfl
  obtain ⟨first, more, rfl, starts, joins⟩ := isName
  rcases List.mem_cons.mp member with rfl | inside
  · cases starts
  · cases joins ' ' inside

theorem continuesIdentifier_of_joins {c : Char} (joins : joinsIdentifier c = true) :
    continuesIdentifier c = true := by
  rcases Bool.or_eq_true_iff.mp joins with word | dollar
  · exact Bool.or_eq_true_iff.mpr (.inl (Ruby.isWord_of_continuesName word))
  · exact Bool.or_eq_true_iff.mpr (.inr dollar)

theorem isWordBefore_of_joins {before : Option Char} (joined : before.any joinsIdentifier = true) :
    Outline.isWordBefore before = true := by
  obtain ⟨c, rfl, joins⟩ := (Option.any_eq_true _ _).mp joined
  rcases Bool.or_eq_true_iff.mp joins with word | dollar
  · refine Bool.or_eq_true_iff.mpr (.inl ?_)
    rw [Text.isAlphanumeric, if_pos (Ruby.ascii_of_continuesName word)]
    exact word
  · exact Bool.or_eq_true_iff.mpr (.inr dollar)

namespace Pattern

/-- An identifier that a text starts with ends where no identifier goes on. -/
theorem identifier?_eq_some {text name rest : List Char} (found : identifier? text = some (name, rest)) :
    text = name ++ rest ∧ IsIdentifier name ∧ rest.head?.any continuesIdentifier = false := by
  unfold identifier? at found
  split at found
  · cases found
  · rename_i c more
    split at found
    · rename_i starts
      cases found
      refine ⟨?_, ⟨c, _, rfl, starts, fun d inside => List.mem_takeWhile_imp inside⟩,
        Text.any_head?_dropWhile continuesIdentifier more⟩
      rw [List.cons_append, List.takeWhile_append_dropWhile]
    · cases found

theorem standsAt_identifier {front text name rest : List Char} (found : identifier? text = some (name, rest))
    (before : front.getLast?.any joinsIdentifier = false) :
    IsIdentifier name ∧ Text.StandsAt joinsIdentifier name front.length (front ++ text) := by
  obtain ⟨rfl, isName, stops⟩ := identifier?_eq_some found
  refine ⟨isName, Text.standsAt_append before fun _ => ?_⟩
  refine (Option.any_eq_false _ _).mpr fun c first => ?_
  have other := (Option.any_eq_false _ _).mp stops c first
  by_contra joins
  rw [continuesIdentifier_of_joins (by simpa using joins)] at other
  cases other

theorem mem_call {line : List Char} {found : Option Char × List Char} (member : found ∈ Text.occurrences call line)
    (free : Outline.isWordBefore found.1 = false) :
    IsIdentifier found.2 ∧ ∃ column, Text.StandsAt joinsIdentifier found.2 column line := by
  obtain ⟨front, rest, left, rfl, reads⟩ := Text.mem_occurrences member
  simp only [call, Option.bind_eq_bind, Option.bind_eq_some_iff, Option.pure_def, Option.some.injEq,
    Prod.mk.injEq] at reads
  obtain ⟨⟨name, after⟩, read, _, _, rfl, _⟩ := reads
  have before : front.getLast?.any joinsIdentifier = false := by
    by_contra joined
    rw [List.head?_reverse, isWordBefore_of_joins (by simpa using joined)] at free
    cases free
  obtain ⟨isName, stands⟩ := standsAt_identifier read before
  exact ⟨isName, _, stands⟩

theorem mark?_eq_some {mark : Char} {text rest : List Char} (marked : mark? mark text = some rest) :
    text = mark :: rest := by
  unfold mark? at marked
  split at marked
  · cases marked
  · split at marked
    · rename_i same
      cases marked
      rw [same]
    · cases marked

theorem mem_element {line : List Char} {found : Option Char × List Char}
    (member : found ∈ Text.occurrences element line) :
    IsIdentifier found.2 ∧ ∃ column, Text.StandsAt joinsIdentifier found.2 column line := by
  obtain ⟨front, rest, left, rfl, reads⟩ := Text.mem_occurrences member
  simp only [element, Option.bind_eq_bind, Option.bind_eq_some_iff] at reads
  obtain ⟨inner, marked, ⟨name, after⟩, read, chosen⟩ := reads
  have split : front ++ rest = (front ++ ['<']) ++ inner := by simp [mark?_eq_some marked]
  have before : (front ++ ['<']).getLast?.any joinsIdentifier = false := by
    rw [List.getLast?_concat]
    decide
  obtain ⟨isName, stands⟩ := standsAt_identifier read before
  split at chosen
  · cases chosen
    exact ⟨isName, _, split ▸ stands⟩
  · cases chosen

end Pattern

namespace Outline

open Blanking (Line)

theorem mem_callsBeyond {headers : List String} {found : List (Option Char × List Char)} {name : String}
    (member : name ∈ callsBeyond headers found) :
    ∃ entry ∈ found, isWordBefore entry.1 = false ∧ name = String.ofList entry.2 := by
  induction found generalizing headers with
  | nil => cases member
  | cons entry rest ih =>
    have later {headers : List String} (member : name ∈ callsBeyond headers rest) :
        ∃ other ∈ entry :: rest, isWordBefore other.1 = false ∧ name = String.ofList other.2 := by
      obtain ⟨other, present, holds⟩ := ih member
      exact ⟨other, List.mem_cons_of_mem entry present, holds⟩
    rw [callsBeyond] at member
    split at member
    · exact later member
    · rename_i free
      split at member
      · exact later member
      · rcases List.mem_cons.mp member with rfl | member
        · exact ⟨entry, List.mem_cons_self, by simpa using free, rfl⟩
        · exact later member

/-- A candidate is an identifier at a column of the cleaned line. -/
theorem mem_candidatesOn {number : Nat} {headers : List String} {line : List Char} {candidate : Candidate}
    (member : candidate ∈ candidatesOn number headers line) :
    candidate.line = number ∧ IsIdentifier candidate.name.toList ∧
      ∃ column, Text.StandsAt joinsIdentifier candidate.name.toList column line := by
  obtain ⟨name, present, rfl⟩ := List.mem_map.mp member
  refine ⟨rfl, ?_⟩
  rcases List.mem_append.mp present with called | opened
  · obtain ⟨entry, found, free, rfl⟩ := mem_callsBeyond called
    rw [String.toList_ofList]
    exact Pattern.mem_call found free
  · obtain ⟨entry, chosen, rfl⟩ := List.mem_map.mp opened
    rw [String.toList_ofList]
    exact Pattern.mem_element (List.mem_filter.mp chosen).1

theorem mem_read_candidates {context : Context} {containers : List Container} {index : Nat} {depth : Int}
    {lines : List Line} {candidate : Candidate}
    (member : candidate ∈ (read context containers index depth lines).candidates) :
    ∃ offset line headers, lines[offset]? = some line ∧
      candidate ∈ candidatesOn (index + offset + 1) headers line.cleaned := by
  induction lines generalizing containers index depth with
  | nil => cases member
  | cons line rest ih =>
    rcases List.mem_append.mp member with own | later
    · exact ⟨0, line, _, rfl, own⟩
    · obtain ⟨offset, other, headers, present, found⟩ := ih later
      refine ⟨offset + 1, other, headers, present, ?_⟩
      rwa [Nat.add_assoc index 1 offset, Nat.add_comm 1 offset] at found

end Outline
end Script

namespace Template

open Ruby.Token (continuesName)

/-- What was read of a tag on the current line. -/
def Place.held : Place → List Char
  | .inside _ held => held.reverse
  | _ => []

theorem readLine_held (line tag : Nat) (place : Place) (text : List Char) :
    (readLine line tag place text).2.2.held = [] := by
  fun_induction readLine line tag place text with
  | case1 | case2 | case3 => rfl
  | case10 _ _ _ _ _ _ same ih =>
    rw [same] at ih
    exact ih
  | case4 | case5 | case6 | case7 | case8 | case9 | case11 => assumption

theorem body_isPrefix (held : List Char) : body held <+: held.reverse := by
  have suffix : held.dropWhile (· == '-') <:+ held := List.dropWhile_suffix _
  exact List.reverse_prefix.mpr suffix

/-- The code of a segment stands on its line, or began in what was held before. -/
theorem readLine_code {line tag : Nat} {place : Place} {text : List Char} {segment : Segment}
    (member : segment ∈ (readLine line tag place text).1) : segment.code <:+: place.held ++ text := by
  have own {tag : Nat} {comment : Bool} {code : List Char}
      (member : segment ∈ (segment? line tag comment code).toList) : segment.code = code := by
    unfold segment? at member
    split at member
    · cases member
    · cases Option.mem_toList.mp member
      rfl
  fun_induction readLine line tag place text with
  | case1 | case2 => cases member
  | case3 tag comment held =>
    rw [own member, List.append_nil]
    exact List.infix_rfl
  | case4 _ rest ih => exact (ih member).trans (List.IsSuffix.isInfix ⟨['<', '%', '%'], rfl⟩)
  | case5 _ rest _ ih => exact (ih member).trans (List.IsSuffix.isInfix ⟨['<', '%'], rfl⟩)
  | case6 _ _ _ _ _ ih | case8 _ _ _ _ _ _ ih => exact (ih member).trans (List.suffix_cons _ _).isInfix
  | case7 _ _ _ ih => exact (ih member).trans (List.IsSuffix.isInfix ⟨['%', '>'], rfl⟩)
  | case9 _ _ _ _ _ _ ih => exact ih member
  | case10 _ _ held rest _ _ same ih =>
    rw [same] at ih
    rcases List.mem_append.mp member with first | later
    · rw [own first]
      exact (body_isPrefix held).isInfix.trans (List.prefix_append _ _).isInfix
    · exact (ih later).trans (List.IsSuffix.isInfix ⟨held.reverse ++ ['%', '>'], by simp [Place.held]⟩)
  | case11 _ _ held c rest _ ih =>
    have moved : (Place.inside false (c :: held)).held ++ rest = held.reverse ++ c :: rest := by simp [Place.held]
    exact moved ▸ ih member

theorem segmentsFrom_code {line tag : Nat} {place : Place} {lines : List (List Char)} {segment : Segment}
    (member : segment ∈ segmentsFrom line tag place lines) (fresh : place.held = []) :
    ∃ offset raw, lines[offset]? = some raw ∧ segment.line = line + offset ∧ segment.code <:+: raw := by
  induction lines generalizing line tag place with
  | nil => cases member
  | cons text rest ih =>
    rcases List.mem_append.mp member with own | later
    · have code := readLine_code own
      rw [fresh] at code
      exact ⟨0, text, rfl, readLine_line own, code⟩
    · obtain ⟨offset, raw, present, sameLine, code⟩ := ih later (readLine_held line tag place text)
      exact ⟨offset + 1, raw, present, by omega, code⟩

/-- A cleaned segment belongs to a segment of the same line, of which it is a shadow. -/
theorem mem_cleanedFrom {tag : Nat} {cleaner : Blanking.Cleaner} {segments : List Segment}
    {entry : Nat × List Char} (member : entry ∈ cleanedFrom tag cleaner segments) :
    ∃ segment, (segment, entry) ∈ segments.zip (cleanedFrom tag cleaner segments) ∧ segment.line = entry.1 ∧
      Blanking.Shadows entry.2 segment.code := by
  induction segments generalizing tag cleaner with
  | nil => cases member
  | cons segment rest ih =>
    have shadow : Blanking.Shadows ((if segment.tag = tag then cleaner else {}).clean .erb segment.code).1
        segment.code := Blanking.clean_shadows _ _
    rcases List.mem_cons.mp member with rfl | later
    · exact ⟨segment, List.mem_cons_self, rfl, shadow⟩
    · obtain ⟨other, paired, holds⟩ := ih later
      exact ⟨other, List.mem_cons_of_mem _ paired, holds⟩

theorem mem_callsFrom {accepts : String → Bool} {locals : List String} {entries : List (Nat × List Char)}
    {call : Nat × String} (member : call ∈ callsFrom accepts locals entries) :
    ∃ text, (call.1, text) ∈ entries ∧ ∃ known, call.2 ∈ Ruby.callNames accepts known text := by
  induction entries generalizing locals with
  | nil => cases member
  | cons entry rest ih =>
    rcases List.mem_append.mp member with own | later
    · obtain ⟨name, called, rfl⟩ := List.mem_map.mp own
      exact ⟨entry.2, List.mem_cons_self, locals, called⟩
    · obtain ⟨text, present, holds⟩ := ih later
      exact ⟨text, List.mem_cons_of_mem entry present, holds⟩

end Template
end CallAtlas

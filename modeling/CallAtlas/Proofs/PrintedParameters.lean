import CallAtlas.Proofs.ParameterNames
import Mathlib.Data.List.Basic

/-! Printed parameters. A parameter is printed by the rules of its language, and a list of them is read back: the splitter
finds the fragments again, and no mark inside a type or a default value is taken for the one in front of it. Ruby has
one gap. The name of a keyword parameter may hold letters, digits and underscores only, so a name with a combining mark
is not read back. -/
namespace CallAtlas.Parameters

open Text (isBlank isQuote)

theorem whole_iff {nesting : Nesting} {text : List Char} : Whole nesting text ↔ pieces nesting text = [text] := by
  constructor
  · exact Whole.pieces_eq
  · intro one
    rcases exists_whole nesting text with whole | ⟨front, rest, rfl, whole, ends⟩
    · exact whole
    · rw [whole.pieces_comma ends, List.cons.injEq] at one
      exact absurd one.2 (pieces_ne_nil _ rest)

instance (nesting : Nesting) (text : List Char) : Decidable (Whole nesting text) := decidable_of_iff' _ whole_iff

instance (text : List Char) : Decidable (Closed text) :=
  decidable_of_iff (Whole {} text ∧ (Nesting.after {} text).depth = 0 ∧ (Nesting.after {} text).quote = none)
    ⟨fun all => ⟨all.1, all.2.1, all.2.2⟩, fun closed => ⟨closed.whole, closed.depth, closed.quote⟩⟩

theorem Nesting.previous_after (nesting : Nesting) (text : List Char) :
    (nesting.after text).previous = text.getLast?.getD nesting.previous := by
  induction text generalizing nesting with
  | nil => rfl
  | cons c text ih =>
    have moved : (nesting.next c).previous = c := by
      rw [next]
      split <;> rfl
    rw [after_cons, ih, moved, List.getLast?_cons, Option.getD_some]

theorem Closed.append {front text : List Char} (closed : Closed front) (fresh : (Nesting.after {} front).Fresh)
    (next : Closed text) : Closed (front ++ text) := by
  have level : Nesting.Level {} (Nesting.after {} front) := Nesting.fresh_start.level fresh closed.depth
  refine ⟨whole_append.mpr ⟨closed.whole, next.whole.level level⟩, ?_, ?_⟩
  · rw [Nesting.after_append, (level.after text).depth, next.depth]
  · rw [Nesting.after_append, (level.after text).quote, next.quote]

theorem Closed.append_plain {front mark : List Char} (closed : Closed front) (plain : ∀ c ∈ mark, c ∉ brackets)
    (whole : ',' ∉ mark) : Closed (front ++ mark) := by
  obtain ⟨depth, quote⟩ := Nesting.after_plain closed.quote plain
  refine ⟨whole_append.mpr ⟨closed.whole, whole_of_not_mem _ whole⟩, ?_, ?_⟩
  · rw [Nesting.after_append, depth, closed.depth]
  · rw [Nesting.after_append, quote]

/-- A text that a list can be made of. Commas stand in brackets or quotes only, and both are closed. -/
structure Entry (text : List Char) : Prop where
  filled : text ≠ []
  trimmed : Text.trim text = text
  closed : Closed text

namespace Entry

variable {head mark text : List Char}

theorem visible (entry : Entry text) : ∀ c ∈ text.head?, isBlank c = false := by
  intro c first
  rw [← entry.trimmed, Text.trim] at first
  exact Text.visible_head?_trimStart text c (Text.head?_trimEnd first)

theorem visible_append (entry : Entry head) (rest : List Char) : ∀ c ∈ (head ++ rest).head?, isBlank c = false := by
  obtain ⟨c, more, rfl⟩ := List.exists_cons_of_ne_nil entry.filled
  exact entry.visible

/-- A mark behind a text. -/
theorem marked (entry : Entry head) {c : Char} (visible : isBlank c = false) (plain : c ∉ brackets) (whole : c ≠ ',') :
    Entry (head ++ [c]) where
  filled := by simp
  trimmed := by
    apply Text.trim_append (entry.visible_append [c]) (List.cons_ne_nil c [])
    rw [Text.trim, Text.trimStart_eq_self (by simpa using visible)]
    exact Text.trimEnd_concat visible []
  closed := entry.closed.append_plain (by simpa using plain) (by simpa using whole.symm)

/-- A text behind another one and a mark that ends with a blank. -/
theorem joined (entry : Entry head) (plain : ∀ c ∈ mark, c ∉ brackets) (whole : ',' ∉ mark)
    (spaced : mark.getLast? = some ' ') (next : Entry text) : Entry (head ++ mark ++ text) where
  filled := by simp [next.filled]
  trimmed := by
    apply Text.trim_append _ next.filled next.trimmed
    rw [List.append_assoc]
    exact entry.visible_append (mark ++ text)
  closed := by
    have closed := entry.closed.append_plain plain whole
    have blank : (Nesting.after {} (head ++ mark)).previous = ' ' := by
      rw [Nesting.previous_after, List.getLast?_append, spaced]
      rfl
    exact closed.append ⟨closed.quote, blank ▸ by decide, blank ▸ by decide⟩ next.closed

/-- A text behind a sign. -/
theorem signed {sign : List Char} (closed : Closed sign) (fresh : (Nesting.after {} sign).Fresh)
    (visible : ∀ c ∈ sign, isBlank c = false) (entry : Entry text) : Entry (sign ++ text) where
  filled := by simp [entry.filled]
  trimmed := by
    apply Text.trim_append _ entry.filled entry.trimmed
    intro c first
    cases sign with
    | nil => exact entry.visible c first
    | cons d sign =>
      cases first
      exact visible _ List.mem_cons_self
  closed := closed.append fresh entry.closed

theorem trim_space (entry : Entry text) : Text.trim (text ++ [' ']) = text := by
  rw [Text.trim, Text.trimStart_eq_self (entry.visible_append [' ']), Text.trimEnd_append_blanks (by decide)]
  exact Text.trimEnd_of_trim entry.trimmed

theorem classify? (entry : Entry text) (language : Language) :
    Parameters.classify? language text =
      some (if language.isRubyLike then rubyParameter text else scriptParameter text) := by
  have filled : text.isEmpty = false := List.isEmpty_eq_false_iff.mpr entry.filled
  simp only [Parameters.classify?, entry.trimmed, filled, Bool.false_eq_true, if_false]
  split <;> rfl

end Entry

theorem parse_listed (language : Language) {texts : List (List Char)} (entries : ∀ text ∈ texts, Entry text) :
    parse language (listed texts) =
      texts.map fun text => if language.isRubyLike then rubyParameter text else scriptParameter text := by
  have fragments : split (listed texts) = texts := by
    apply split_of_splits (splits_of_closed (fun text member => (entries text member).closed) Nesting.fresh_start rfl)
    intro text member
    exact ⟨(entries text member).filled, (entries text member).trimmed⟩
  rw [parse, fragments, List.filterMap_eq_map_iff_forall_eq_some]
  intro text member
  exact (entries text member).classify? language

namespace Search

/-- The search behind a text. -/
def after (search : Search) (text : List Char) : Search := text.foldl next search

theorem after_cons (search : Search) (c : Char) (text : List Char) :
    search.after (c :: text) = (search.next c).after text := rfl

theorem after_append (search : Search) (front rest : List Char) :
    search.after (front ++ rest) = (search.after front).after rest := List.foldl_append

theorem previous_after (search : Search) (text : List Char) :
    (search.after text).previous = text.getLast?.or search.previous := by
  induction text generalizing search with
  | nil => rfl
  | cons c text ih =>
    have moved : (search.next c).previous = some c := by
      rw [next]
      split <;> rfl
    rw [after_cons, ih, moved, List.getLast?_cons]
    cases text.getLast? <;> rfl

theorem after_plain {search : Search} {text : List Char} (outside : search.quote = none)
    (plain : ∀ c ∈ text, c ∉ brackets) :
    (search.after text).depth = search.depth ∧ (search.after text).quote = none := by
  induction text generalizing search with
  | nil => exact ⟨rfl, outside⟩
  | cons c text ih =>
    obtain ⟨first, others⟩ := List.forall_mem_cons.mp plain
    simp only [brackets, List.mem_cons, List.not_mem_nil, or_false, not_or] at first
    have moved : search.next c = { search with previous := some c } := by
      simp [next, outside, isQuote, first]
    rw [after_cons, moved]
    exact ih outside others

/-- A search that knows what the splitter knows. -/
structure Follows (search : Search) (nesting : Nesting) : Prop where
  depth : search.depth = nesting.depth
  quote : search.quote = nesting.quote
  arrow : search.previous = some '=' ↔ nesting.previous = '='
  escape : nesting.previous ≠ '\\'

namespace Follows

variable {search : Search} {nesting : Nesting}

/-- Without backslashes the search and the splitter close quotes alike. -/
theorem next (follows : Follows search nesting) {c : Char} (unescaped : c ≠ '\\') :
    Follows (search.next c) (nesting.next c) := by
  have quote := follows.quote
  cases open_ : nesting.quote with
  | none =>
    rw [open_] at quote
    rw [Nesting.next_outside open_, Search.next, quote]
    refine ⟨?_, rfl, by simp, unescaped⟩
    simp only [Nesting.depthAfter, follows.depth, ne_eq, follows.arrow]
  | some mark =>
    rw [open_] at quote
    rw [Nesting.next, open_, Search.next, quote]
    exact ⟨follows.depth, by simp [follows.escape], by simp, unescaped⟩

theorem after (follows : Follows search nesting) {text : List Char} (unescaped : '\\' ∉ text) :
    Follows (search.after text) (nesting.after text) := by
  induction text generalizing search nesting with
  | nil => exact follows
  | cons c text ih =>
    rw [List.mem_cons, not_or] at unescaped
    exact ih (follows.next (Ne.symm unescaped.1)) unescaped.2

end Follows

end Search

/-- A mark stands nowhere in a text, but for the equals sign of an arrow. -/
def hides (mark : Char) : List Char → Bool
  | [] => true
  | c :: rest => (c != mark || mark == '=' && rest.head? == some '>') && hides mark rest

section Marks

variable {mark : Char} {search : Search} {front rest text : List Char}

theorem hides_of_not_mem (absent : mark ∉ text) : hides mark text = true := by
  induction text with
  | nil => rfl
  | cons c text ih =>
    rw [List.mem_cons, not_or] at absent
    rw [hides, ih absent.2, bne_iff_ne.mpr (Ne.symm absent.1)]
    rfl

theorem hides_append (first : hides mark front = true) (second : hides mark rest = true) :
    hides mark (front ++ rest) = true := by
  induction front with
  | nil => exact second
  | cons c front ih =>
    rw [hides, Bool.and_eq_true] at first
    rw [List.cons_append, hides, ih first.2, Bool.and_true]
    cases front with
    | nil =>
      simp only [List.head?_nil, Bool.or_eq_true, Bool.and_eq_true] at first
      rcases first.1 with other | ⟨_, arrow⟩
      · rw [other]
        rfl
      · cases arrow
    | cons d front => exact first.1

/-- A search passes over a text in which the mark is hidden. -/
theorem cut?_append (hidden : hides mark front = true) (rest : List Char) :
    cut? mark search (front ++ rest) =
      (cut? mark (search.after front) rest).map fun found => (front ++ found.1, found.2) := by
  induction front generalizing search with
  | nil => exact Option.map_id'.symm
  | cons c front ih =>
    rw [hides, Bool.and_eq_true] at hidden
    have missed : search.hits mark c (front ++ rest).head? = false := by
      rw [Bool.or_eq_true, bne_iff_ne, Bool.and_eq_true, beq_iff_eq, beq_iff_eq] at hidden
      rcases hidden.1 with other | ⟨equals, arrow⟩
      · simp [Search.hits, other]
      · simp [Search.hits, Search.inOperator, equals, arrow]
    rw [List.cons_append, cut?, missed, if_neg Bool.false_ne_true, ih hidden.2, Search.after_cons, Option.map_map]
    rfl

theorem cut?_eq_none (hidden : hides mark text = true) : cut? mark search text = none := by
  have passed := @cut?_append mark search text hidden []
  rw [List.append_nil] at passed
  rw [passed]
  rfl

theorem cut?_eq_some (hidden : hides mark front = true)
    (hits : (search.after front).hits mark mark rest.head? = true) :
    cut? mark search (front ++ mark :: rest) = some (front, rest) := by
  rw [cut?_append hidden, cut?, if_pos hits, Option.map_some, List.append_nil]

end Marks

/-- A value is found behind the equals sign with blanks around it. -/
theorem cut?_assigned {head : List Char} (hidden : hides '=' head = true) (level : (Search.after {} head).depth = 0)
    (outside : (Search.after {} head).quote = none) (value : List Char) :
    cut? '=' {} (head ++ [' ', '=', ' '] ++ value) = some (head ++ [' '], ' ' :: value) := by
  have line : head ++ [' ', '=', ' '] ++ value = (head ++ [' ']) ++ '=' :: ' ' :: value := by simp
  rw [line]
  apply cut?_eq_some (hides_append hidden (by decide))
  have behind : Search.after {} (head ++ [' ']) = ⟨0, none, some ' '⟩ := by
    rw [Search.after_append]
    generalize Search.after {} head = search at level outside
    obtain ⟨depth, quote, previous⟩ := search
    cases level
    cases outside
    rfl
  rw [behind]
  rfl

/-- A character of a name. -/
def isNameChar (c : Char) : Bool := Text.isWord c || c == '$'

/-- The name of a parameter. -/
structure ParameterName extends Text.Identifier isNameChar isNameChar

/-- The text of a default value. -/
structure Value where
  text : List Char
  entry : Entry text

/-- The text of a type. -/
structure Annotation extends Value where
  arrows : hides '=' text = true
  unescaped : '\\' ∉ text

namespace ParameterName

variable (name : ParameterName)

theorem visible : ∀ c ∈ name.text, isBlank c = false := by
  intro c member
  have named := name.chars c member
  rw [isNameChar, Bool.or_eq_true, beq_iff_eq] at named
  rcases named with word | rfl
  · exact Text.isBlank_of_isWord word
  · decide

theorem plain : ∀ c ∈ name.text, c ∉ brackets := by
  have other : ∀ mark ∈ brackets, isNameChar mark = false := by decide
  intro c member bracket
  exact name.avoids (other c bracket) member

theorem trim_text : Text.trim name.text = name.text := Text.trim_eq_self name.visible

theorem entry : Entry name.text :=
  ⟨name.ne_nil, name.trim_text, closed_plain name.plain (name.avoids (by decide))⟩

theorem hides {mark : Char} (other : isNameChar mark = false) : hides mark name.text = true :=
  hides_of_not_mem (name.avoids other)

theorem search : (Search.after {} name.text).depth = 0 ∧ (Search.after {} name.text).quote = none :=
  Search.after_plain rfl name.plain

end ParameterName

theorem Value.trim_space (value : Value) : Text.trim (' ' :: value.text) = value.text :=
  (Text.trim_blanks_append (by decide : ∀ c ∈ [' '], isBlank c = true) value.text).trans value.entry.trimmed

theorem Value.nonempty_text (value : Value) : nonempty value.text = some (string value.text) := by
  simp [nonempty, value.entry.filled]

/-- A parameter as Ruby has it. -/
inductive RubyForm where
  | required (name : ParameterName)
  | defaulted (name : ParameterName) (value : Value)
  | keyword (name : ParameterName) (value : Option Value)
  | splat (name : ParameterName)
  | doubleSplat (name : ParameterName)
  | block (name : ParameterName)

namespace RubyForm

/-- The parameter as it is written: `n`, `n = d`, `n:`, `n: d`, `*n`, `**n` or `&n`. -/
def print : RubyForm → List Char
  | required name => name.text
  | defaulted name value => name.text ++ [' ', '=', ' '] ++ value.text
  | keyword name value => name.text ++ ':' :: value.elim [] fun value => ' ' :: value.text
  | splat name => ['*'] ++ name.text
  | doubleSplat name => ['*', '*'] ++ name.text
  | block name => ['&'] ++ name.text

/-- The parameter as it is to be read. -/
def parameter : RubyForm → Parameter
  | required name => { name := string name.text }
  | defaulted name value =>
    { name := string name.text, defaultValue := some (string value.text), passing := some .defaulted }
  | keyword name value =>
    { name := string name.text, defaultValue := value.map fun value => string value.text, passing := some .keyword }
  | splat name => { name := string name.text, passing := some .splat }
  | doubleSplat name => { name := string name.text, passing := some .doubleSplat }
  | block name => { name := string name.text, passing := some .block }

/-- The name of a keyword has letters, digits and underscores only. -/
def Readable : RubyForm → Prop
  | keyword name _ => ∀ c ∈ name.text, Text.isAlphanumeric c = true ∨ c = '_'
  | _ => True

theorem entry (form : RubyForm) : Entry form.print := by
  cases form with
  | required name => exact name.entry
  | defaulted name value => exact name.entry.joined (by decide) (by decide) rfl value.entry
  | keyword name value =>
    cases value with
    | none => exact name.entry.marked (by decide) (by decide) (by decide)
    | some value =>
      have entry := name.entry.joined (by decide : ∀ c ∈ [':', ' '], c ∉ brackets) (by decide) rfl value.entry
      rwa [List.append_assoc] at entry
  | splat name => exact .signed (by decide) ⟨rfl, by decide, by decide⟩ (by decide) name.entry
  | doubleSplat name => exact .signed (by decide) ⟨rfl, by decide, by decide⟩ (by decide) name.entry
  | block name => exact .signed (by decide) ⟨rfl, by decide, by decide⟩ (by decide) name.entry

end RubyForm

theorem ParameterName.isKeywordName_iff (name : ParameterName) :
    isKeywordName name.text = true ↔ ∀ c ∈ name.text, Text.isAlphanumeric c = true ∨ c = '_' := by
  simp [isKeywordName, name.ne_nil]

theorem prefixed_name (name : ParameterName) (sign : String) (passing : Parameter.Passing) :
    prefixed sign name.text passing = { name := string name.text, passing := some passing } := by
  simp [prefixed, name.trim_text, name.ne_nil]

theorem ParameterName.cutAt?_colon (name : ParameterName) (value : List Char) :
    Text.cutAt? ":" (name.text ++ ':' :: value) = some (name.text, value) :=
  cutAtChars?_eq_some.mpr ⟨name.avoids (by decide), rfl⟩

theorem ParameterName.rubyParameter_append (name : ParameterName) (rest : List Char) :
    rubyParameter (name.text ++ rest) =
      ((Text.cutAt? ":" (name.text ++ rest)).filter fun cut => isKeywordName cut.1).elim (rubyPlain (name.text ++ rest))
        fun cut => { name := string cut.1, defaultValue := nonempty (Text.trim cut.2), passing := some .keyword } :=
  rubyParameter_unsigned (name.head?_append_ne (by decide) rest) (name.head?_append_ne (by decide) rest)

theorem rubyParameter_keyword (name : ParameterName) (keyword : isKeywordName name.text = true) (value : List Char) :
    rubyParameter (name.text ++ ':' :: value) =
      { name := string name.text, defaultValue := nonempty (Text.trim value), passing := some .keyword } := by
  rw [name.rubyParameter_append, name.cutAt?_colon, Option.filter_some, if_pos keyword]
  rfl

/-- What has no name of a keyword is read as a name with or without a value. -/
theorem rubyParameter_plain (name : ParameterName) {rest : List Char} (other : keywordName? (name.text ++ rest) = none) :
    rubyParameter (name.text ++ rest) = rubyPlain (name.text ++ rest) := by
  rw [name.rubyParameter_append]
  rw [keywordName?] at other
  cases cut : Text.cutAt? ":" (name.text ++ rest) with
  | none => rfl
  | some found =>
    rw [cut, Option.bind_some] at other
    by_cases keyword : isKeywordName found.1 = true
    · rw [if_pos keyword] at other
      cases other
    · simp [Option.filter_some, keyword]

theorem ParameterName.keywordName?_eq_none (name : ParameterName) {rest : List Char} (colon : rest.head? ≠ some ':')
    (blank : ∀ c ∈ rest.head?, isBlank c = true) : keywordName? (name.text ++ rest) = none := by
  rw [Option.eq_none_iff_forall_ne_some]
  intro found named
  rw [keywordName?_eq_some, Option.isSome_iff_exists] at named
  obtain ⟨keyword, value, after⟩ := named
  have split := Text.afterChars?_eq_some.mp after
  obtain ⟨_, visible⟩ := keywordName_plain keyword
  rw [List.append_assoc] at split
  -- The colon would stand in the name, or the blank behind the name in front of the colon.
  rcases List.append_eq_append_iff.mp split with ⟨more, longer, behind⟩ | ⟨more, longer, behind⟩
  · cases more with
    | nil =>
      rw [behind] at colon
      exact colon rfl
    | cons c more =>
      have inside : c ∈ found := longer ▸ List.mem_append_right _ List.mem_cons_self
      have first := blank c (by rw [behind]; rfl)
      rw [(visible c inside).1] at first
      cases first
  · cases more with
    | nil =>
      rw [List.nil_append] at behind
      exact colon (behind ▸ rfl)
    | cons c more =>
      cases behind
      exact name.avoids (by decide : isNameChar ':' = false) (longer ▸ List.mem_append_right _ List.mem_cons_self)

theorem rubyPlain_passing (fragment : List Char) : (rubyPlain fragment).passing ≠ some .keyword := by
  unfold rubyPlain
  split <;> simp

/-- A name and an equals sign are read as a name with a value, and a name alone as a name. -/
theorem rubyPlain_assigned (name : ParameterName) (value : Value) :
    rubyPlain (name.text ++ [' ', '=', ' '] ++ value.text) = (RubyForm.defaulted name value).parameter := by
  obtain ⟨level, outside⟩ := name.search
  rw [rubyPlain, cut?_assigned (name.hides (by decide)) level outside]
  simp only [value.trim_space, name.entry.trim_space, RubyForm.parameter]

theorem rubyParameter_print (form : RubyForm) : rubyParameter form.print = form.parameter ↔ form.Readable := by
  cases form with
  | required name =>
    apply iff_of_true _ trivial
    have alone : keywordName? (name.text ++ []) = none := name.keywordName?_eq_none (by simp) (by simp)
    have plain := rubyParameter_plain name alone
    rw [List.append_nil] at plain
    rw [RubyForm.print, plain, rubyPlain, cut?_eq_none (name.hides (by decide))]
    rfl
  | defaulted name value =>
    apply iff_of_true _ trivial
    have spaced : keywordName? (name.text ++ ([' ', '=', ' '] ++ value.text)) = none := by
      apply name.keywordName?_eq_none
      · simp
      · intro c first
        cases first
        rfl
    have plain := rubyParameter_plain name spaced
    rw [← List.append_assoc] at plain
    rw [RubyForm.print, plain, rubyPlain_assigned]
  | keyword name value =>
    rw [RubyForm.Readable, ← name.isKeywordName_iff, RubyForm.print]
    by_cases keyword : isKeywordName name.text = true
    · apply iff_of_true _ keyword
      rw [rubyParameter_keyword name keyword]
      cases value with
      | none => rfl
      | some value => simp only [Option.elim_some, value.trim_space, value.nonempty_text, RubyForm.parameter, Option.map_some]
    · apply iff_of_false _ keyword
      intro same
      have unnamed : keywordName? (name.text ++ ':' :: value.elim [] fun value => ' ' :: value.text) = none := by
        rw [keywordName?, name.cutAt?_colon, Option.bind_some, if_neg keyword]
      rw [rubyParameter_plain name unnamed] at same
      exact rubyPlain_passing _ (congrArg Parameter.passing same)
  | splat name =>
    apply iff_of_true _ trivial
    have single := name.head?_append_ne (by decide : isNameChar '*' = false) []
    rw [List.append_nil] at single
    exact (rubyParameter_star single).trans (prefixed_name name "*" .splat)
  | doubleSplat name => exact iff_of_true ((rubyParameter_stars _).trans (prefixed_name name "**" .doubleSplat)) trivial
  | block name => exact iff_of_true ((rubyParameter_ampersand _).trans (prefixed_name name "&" .block)) trivial

/-- A name that is no modifier. -/
structure ScriptName extends ParameterName where
  unreserved : ∀ word ∈ modifiers, text ++ [' '] ≠ word.toList

/-- A name or a text, with its type if it has one. -/
def annotated (head : List Char) (type : Option Annotation) : List Char :=
  type.elim head fun type => head ++ [':', ' '] ++ type.text

/-- A parameter as a script has it. -/
inductive ScriptForm where
  | plain (name : ScriptName) (type : Option Annotation)
  | optional (name : ScriptName) (type : Annotation)
  | defaulted (name : ScriptName) (type : Option Annotation) (value : Value)
  | rest (name : ScriptName) (type : Option Annotation)

namespace ScriptForm

/-- The parameter as it is written: `n`, `n: T`, `n?: T`, `n = d`, `n: T = d`, `...n` or `...n: T`. -/
def print : ScriptForm → List Char
  | plain name type => annotated name.text type
  | optional name type => annotated (name.text ++ ['?']) (some type)
  | defaulted name type value => annotated name.text type ++ [' ', '=', ' '] ++ value.text
  | rest name type => ['.', '.', '.'] ++ annotated name.text type

/-- The parameter as it is to be read. -/
def parameter : ScriptForm → Parameter
  | plain name type => { name := string name.text, type := type.map fun type => string type.text }
  | optional name type => { name := string name.text, type := some (string type.text), passing := some .optional }
  | defaulted name type value =>
    { name := string name.text, type := type.map fun type => string type.text,
      defaultValue := some (string value.text), passing := some .defaulted }
  | rest name type =>
    { name := string name.text, type := type.map fun type => string type.text, passing := some .rest }

end ScriptForm

/-- What stands in front of a value: a name, with the marks and the type behind it. -/
structure Head (head : List Char) : Prop where
  entry : Entry head
  named : ∃ (name : ScriptName) (more : List Char), head = name.text ++ more ∧ more.head?.any isNameChar = false
  hidden : hides '=' head = true
  level : (Search.after {} head).depth = 0
  outside : (Search.after {} head).quote = none

theorem ScriptName.head (name : ScriptName) : Head name.text where
  entry := name.entry
  named := ⟨name, [], (List.append_nil _).symm, rfl⟩
  hidden := name.hides (by decide)
  level := name.search.1
  outside := name.search.2

namespace Head

variable {head rest : List Char}

theorem optional (name : ScriptName) : Head (name.text ++ ['?']) := by
  obtain ⟨level, outside⟩ := name.search
  have plain := Search.after_plain outside (by decide : ∀ c ∈ ['?'], c ∉ brackets)
  refine ⟨name.entry.marked (by decide) (by decide) (by decide), ⟨name, ['?'], rfl, by decide⟩,
    hides_append (name.hides (by decide)) (by decide), ?_, ?_⟩
  · rw [Search.after_append, plain.1, level]
  · rw [Search.after_append, plain.2]

/-- Behind a type, the search for a mark is where the splitter is: outside of brackets and quotes. -/
theorem typed (ahead : Head head) (type : Annotation) : Head (head ++ [':', ' '] ++ type.text) := by
  obtain ⟨level, outside⟩ := Search.after_plain ahead.outside (by decide : ∀ c ∈ [':', ' '], c ∉ brackets)
  have blank : (Search.after {} (head ++ [':', ' '])).previous = some ' ' := by
    rw [Search.previous_after, List.getLast?_append]
    rfl
  rw [← Search.after_append] at level outside
  have start : Search.Follows (Search.after {} (head ++ [':', ' '])) {} :=
    ⟨level.trans ahead.level, outside, by simp [blank], by decide⟩
  have follows := start.after type.unescaped
  refine ⟨ahead.entry.joined (by decide) (by decide) rfl type.entry, ?_,
    hides_append (hides_append ahead.hidden (by decide)) type.arrows, ?_, ?_⟩
  · obtain ⟨name, more, rfl, stop⟩ := ahead.named
    refine ⟨name, more ++ [':', ' '] ++ type.text, by simp, ?_⟩
    cases more with
    | nil => rfl
    | cons c more => exact stop
  · rw [Search.after_append, follows.depth, type.entry.closed.depth]
  · rw [Search.after_append, follows.quote, type.entry.closed.quote]

theorem head?_append (ahead : Head head) {mark : Char} (other : isNameChar mark = false) (rest : List Char) :
    (head ++ rest).head? ≠ some mark := by
  obtain ⟨name, more, rfl, _⟩ := ahead.named
  rw [List.append_assoc]
  exact name.head?_append_ne other (more ++ rest)

/-- The name is none of the modifiers, so none is stripped. -/
theorem withoutModifiers_append (ahead : Head head) (stop : rest.head?.any isNameChar = false) :
    withoutModifiers (head ++ rest) = head ++ rest := by
  have spaced : ∀ word ∈ modifiers, ∃ letters, word.toList = letters ++ [' '] ∧ ∀ c ∈ letters, isNameChar c = true := by
    intro word member
    refine ⟨word.toList.dropLast, ?_, ?_⟩ <;> revert word <;> decide
  have first {text rest : List Char} (all : ∀ c ∈ text, isNameChar c = true)
      (stop : rest.head?.any isNameChar = false) : (text ++ rest).takeWhile isNameChar = text := by
    have outside : ∀ c ∈ rest.head?, isNameChar c = false := by
      intro c found
      rwa [Option.mem_def.mp found] at stop
    rw [List.takeWhile_append_of_pos all, (Text.takeWhile_outside outside).1, List.append_nil]
  apply withoutModifiers_eq_self
  intro word member
  by_contra starts
  rw [Bool.not_eq_false, Text.startsWith, Option.isSome_iff_exists] at starts
  obtain ⟨left, after⟩ := starts
  obtain ⟨letters, letter, all⟩ := spaced word member
  obtain ⟨name, more, rfl, ends⟩ := ahead.named
  have split := Text.after?_eq_some.mp after
  rw [letter, List.append_assoc, List.append_assoc] at split
  have stop' : (more ++ rest).head?.any isNameChar = false := by
    cases more with
    | nil => exact stop
    | cons c more => exact ends
  -- Both are the run of name characters at the start of the fragment.
  have same : name.text = letters := by
    rw [← first name.chars stop', split, first all rfl]
  exact name.unreserved word member (by rw [same, letter])

theorem annotated (ahead : Head head) (type : Option Annotation) : Head (annotated head type) := by
  cases type with
  | none => exact ahead
  | some type => exact ahead.typed type

/-- A name starts with neither dots nor a bracket. -/
theorem undotted (ahead : Head head) :
    Text.after? "..." head = none ∧ Text.startsWith "\x7b" head = false ∧ Text.startsWith "[" head = false := by
  have none {mark : Char} (other : isNameChar mark = false) (word : List Char) :
      Text.afterChars? (mark :: word) head = none := by
    have first := ahead.head?_append other []
    rw [List.append_nil] at first
    exact Text.afterChars?_eq_none first
  exact ⟨none (by decide) ['.', '.'], congrArg Option.isSome (none (by decide) []),
    congrArg Option.isSome (none (by decide) [])⟩

/-- A fragment without a value and without dots has a name, a mark and a type. -/
theorem scriptParameter_eq (ahead : Head head) :
    scriptParameter head =
      { name := string (Text.trim (Text.dropEndWhile (· == '?') (cutName ':' head))),
        type := (cut? ':' {} head).bind fun cut => nonempty (Text.trim cut.2),
        passing := if Text.endsWith "?" (cutName ':' head) then some .optional else none } := by
  have bare := ahead.withoutModifiers_append (rfl : [].head?.any isNameChar = false)
  rw [List.append_nil] at bare
  obtain ⟨dots, brace, bracket⟩ := ahead.undotted
  simp only [scriptParameter, bare, cut?_eq_none ahead.hidden, dots, brace, bracket, cutName]
  rcases Option.eq_none_or_eq_some (cut? ':' {} head) with found | ⟨cut, found⟩ <;> simp [found]

/-- A value adds itself to what stands in front of it. -/
theorem scriptParameter_assigned (ahead : Head head) (value : Value) :
    scriptParameter (head ++ [' ', '=', ' '] ++ value.text) =
      { scriptParameter head with defaultValue := some (string value.text), passing := some .defaulted } := by
  have bare := ahead.withoutModifiers_append (rfl : ([' ', '=', ' '] ++ value.text).head?.any isNameChar = false)
  rw [← List.append_assoc] at bare
  obtain ⟨dots, brace, bracket⟩ := ahead.undotted
  rw [ahead.scriptParameter_eq]
  simp only [scriptParameter, bare, cut?_assigned ahead.hidden ahead.level ahead.outside, ahead.entry.trim_space,
    value.trim_space, dots, brace, bracket, cutName]
  rcases Option.eq_none_or_eq_some (cut? ':' {} head) with found | ⟨cut, found⟩ <;> simp [found]

/-- Dots make a rest parameter of what stands behind them. -/
theorem scriptParameter_dots (ahead : Head head) :
    scriptParameter (['.', '.', '.'] ++ head) = { scriptParameter head with passing := some .rest } := by
  have bare : withoutModifiers (['.', '.', '.'] ++ head) = ['.', '.', '.'] ++ head := by
    apply withoutModifiers_eq_self
    intro word member
    simp only [modifiers, List.mem_cons, List.not_mem_nil, or_false] at member
    rcases member with rfl | rfl | rfl | rfl | rfl <;> rfl
  have hidden : hides '=' (['.', '.', '.'] ++ head) = true := hides_append (by decide) ahead.hidden
  have dots : Text.after? "..." (['.', '.', '.'] ++ head) = some head := rfl
  rw [ahead.scriptParameter_eq]
  simp only [scriptParameter, bare, cut?_eq_none hidden, dots, ahead.entry.trimmed, cutName]
  rcases Option.eq_none_or_eq_some (cut? ':' {} head) with found | ⟨cut, found⟩ <;> simp [found]

/-- The first colon of a fragment stands in front of its type. -/
theorem cut?_annotated (ahead : Head head) (colon : ':' ∉ head) (type : Option Annotation) :
    cut? ':' {} (Parameters.annotated head type) = type.map fun type => (head, ' ' :: type.text) := by
  cases type with
  | none => exact cut?_eq_none (hides_of_not_mem colon)
  | some type =>
    have line : Parameters.annotated head (some type) = head ++ ':' :: ' ' :: type.text := List.append_assoc _ _ _
    rw [line, Option.map_some]
    apply cut?_eq_some (hides_of_not_mem colon)
    simp [Search.hits, ahead.level, ahead.outside]

theorem scriptParameter_annotated (ahead : Head head) (colon : ':' ∉ head) (type : Option Annotation) :
    scriptParameter (Parameters.annotated head type) =
      { name := string (Text.trim (Text.dropEndWhile (· == '?') head)),
        type := type.map fun type => string type.text,
        passing := if Text.endsWith "?" head then some .optional else none } := by
  rw [(ahead.annotated type).scriptParameter_eq, cutName, ahead.cut?_annotated colon type]
  cases type with
  | none => rfl
  | some type =>
    simp only [Option.map_some, Option.getD_some, Option.bind_some, ahead.entry.trimmed, type.trim_space,
      type.nonempty_text]

end Head

namespace ScriptName

variable (name : ScriptName)

theorem without_marks : Text.trim (Text.dropEndWhile (· == '?') name.text) = name.text := by
  rw [Text.dropEndWhile_eq_self, name.trim_text]
  intro c member
  rw [beq_eq_false_iff_ne]
  rintro rfl
  exact name.avoids (by decide) member

theorem scriptParameter_annotated (type : Option Annotation) :
    scriptParameter (annotated name.text type) = (ScriptForm.plain name type).parameter := by
  have unmarked : Text.endsWith "?" name.text = false := by
    have last : name.text.reverse.head? ≠ some '?' := by
      intro first
      exact name.avoids (by decide) (List.mem_reverse.mp (List.mem_of_mem_head? first))
    exact congrArg Option.isSome (@Text.afterChars?_eq_none '?' [] _ last)
  rw [name.head.scriptParameter_annotated (name.avoids (by decide)), unmarked, name.without_marks]
  rfl

theorem scriptParameter_optional (type : Annotation) :
    scriptParameter (annotated (name.text ++ ['?']) (some type)) = (ScriptForm.optional name type).parameter := by
  have colon : ':' ∉ name.text ++ ['?'] := by simpa using name.avoids (by decide)
  have marked : Text.endsWith "?" (name.text ++ ['?']) = true := by simp [Text.endsWith, Text.afterChars?]
  have dropped : Text.dropEndWhile (· == '?') (name.text ++ ['?']) = Text.dropEndWhile (· == '?') name.text := by
    simp [Text.dropEndWhile]
  rw [(Head.optional name).scriptParameter_annotated colon, marked, dropped, name.without_marks]
  rfl

end ScriptName

namespace ScriptForm

theorem entry (form : ScriptForm) : Entry form.print := by
  cases form with
  | plain name type => exact (name.head.annotated type).entry
  | optional name type => exact ((Head.optional name).annotated (some type)).entry
  | defaulted name type value => exact (name.head.annotated type).entry.joined (by decide) (by decide) rfl value.entry
  | rest name type =>
    exact .signed (by decide) ⟨rfl, by decide, by decide⟩ (by decide) (name.head.annotated type).entry

theorem scriptParameter_print (form : ScriptForm) : scriptParameter form.print = form.parameter := by
  cases form with
  | plain name type => exact name.scriptParameter_annotated type
  | optional name type => exact name.scriptParameter_optional type
  | defaulted name type value =>
    rw [print, (name.head.annotated type).scriptParameter_assigned, name.scriptParameter_annotated]
    rfl
  | rest name type =>
    rw [print, (name.head.annotated type).scriptParameter_dots, name.scriptParameter_annotated]
    rfl

end ScriptForm

/-- Printed parameters are read back, with their names, types, default values and kinds. A script gives back every list of
its parameters. Ruby does so exactly if the names of all keywords are made of letters, digits and underscores; other
word characters, such as combining marks, do no harm in the other names. -/
theorem parse_printed (language : Language) :
    (language.isRubyLike = true → ∀ forms : List RubyForm,
      (parse language (listed (forms.map RubyForm.print)) = forms.map RubyForm.parameter ↔
        ∀ form ∈ forms, form.Readable)) ∧
    (language.isRubyLike = false → ∀ forms : List ScriptForm,
      parse language (listed (forms.map ScriptForm.print)) = forms.map ScriptForm.parameter) := by
  constructor
  · intro ruby forms
    have entries : ∀ text ∈ forms.map RubyForm.print, Entry text :=
      List.forall_mem_map.mpr fun form _ => form.entry
    rw [parse_listed language entries, List.map_map, List.map_inj_left]
    apply forall₂_congr
    intro form _
    simp only [Function.comp_apply, ruby, if_true, rubyParameter_print]
  · intro script forms
    have entries : ∀ text ∈ forms.map ScriptForm.print, Entry text :=
      List.forall_mem_map.mpr fun form _ => form.entry
    rw [parse_listed language entries, List.map_map, List.map_inj_left]
    intro form _
    simp only [Function.comp_apply, script, Bool.false_eq_true, if_false, form.scriptParameter_print]

/-- Commas, colons and arrows inside of types and values. -/
theorem parse_printed_nested :
    parse .ruby "rates = \x7ba: 1, b: [2, 3]\x7d, mark: ', ', **more".toList =
        [{ name := "rates", defaultValue := some "\x7ba: 1, b: [2, 3]\x7d", passing := some .defaulted },
          { name := "mark", defaultValue := some "', '", passing := some .keyword },
          { name := "more", passing := some .doubleSplat }] ∧
      parse .typescript "run: (a: A) => Map<K, V> = (a) => f(a, 1), ...more: T[]".toList =
        [{ name := "run", type := some "(a: A) => Map<K, V>", defaultValue := some "(a) => f(a, 1)",
           passing := some .defaulted },
          { name := "more", type := some "T[]", passing := some .rest }] := by
  have ruby := ((parse_printed .ruby).1 rfl
    [.defaulted ⟨⟨"rates".toList, by decide, by decide⟩⟩ ⟨"\x7ba: 1, b: [2, 3]\x7d".toList, by decide, by decide, by decide⟩,
      .keyword ⟨⟨"mark".toList, by decide, by decide⟩⟩ (some ⟨"', '".toList, by decide, by decide, by decide⟩),
      .doubleSplat ⟨⟨"more".toList, by decide, by decide⟩⟩]).mpr (by simp [RubyForm.Readable]; decide)
  have script := (parse_printed .typescript).2 rfl
    [.defaulted ⟨⟨⟨"run".toList, by decide, by decide⟩⟩, by decide⟩
        (some ⟨⟨"(a: A) => Map<K, V>".toList, by decide, by decide, by decide⟩, by decide, by decide⟩)
        ⟨"(a) => f(a, 1)".toList, by decide, by decide, by decide⟩,
      .rest ⟨⟨⟨"more".toList, by decide, by decide⟩⟩, by decide⟩
        (some ⟨⟨"T[]".toList, by decide, by decide, by decide⟩, by decide, by decide⟩)]
  exact ⟨ruby, script⟩

/-- A name with a combining mark is the name of a keyword, and its colon is read as a part of it. -/
theorem accented_keyword_positional :
    let form : RubyForm := .keyword ⟨"e\u0301".toList, by decide, by decide +kernel⟩ none
    form.print = "e\u0301:".toList ∧ form.parameter = { name := "e\u0301", passing := some .keyword } ∧
      parse .ruby form.print = [{ name := "e\u0301:" }] := by
  refine ⟨rfl, rfl, ?_⟩
  decide +kernel

end CallAtlas.Parameters

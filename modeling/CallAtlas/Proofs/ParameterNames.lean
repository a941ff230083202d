import CallAtlas.Proofs.QuotedText

/-! Names of parameters. A name is read from what stands before the first quote of its fragment, so two fragments that
agree up to there, or up to where blanks stand before a line end, have names that agree so too. -/
namespace CallAtlas

namespace Text

theorem takeWhile_outside {takes : Char → Bool} {text : List Char} (outside : ∀ c ∈ text.head?, takes c = false) :
    text.takeWhile takes = [] ∧ text.dropWhile takes = text := by
  cases text with
  | nil => exact ⟨rfl, rfl⟩
  | cons c text => simp [outside c rfl]

theorem afterChars?_eq_none {c : Char} {word text : List Char} (other : text.head? ≠ some c) :
    afterChars? (c :: word) text = none := by
  cases text with
  | nil => rfl
  | cons d text =>
    rw [afterChars?, if_neg]
    rintro rfl
    exact other rfl

end Text

namespace Parameters

open Text (isBlank isQuote)

/-- Two texts that have the same characters up to where a base case holds of their rests. The second one may have blanks
before a line end that the first one lacks. -/
inductive Alike (stop : Char → Bool) (Base : List Char → List Char → Prop) : List Char → List Char → Prop
  | base {a b : List Char} (same : Base a b) : Alike stop Base a b
  | code {a b : List Char} (c : Char) (free : stop c = false) (rest : Alike stop Base a b) :
      Alike stop Base (c :: a) (c :: b)
  | padded {a b : List Char} {c : Char} (blank : isBlank c = true) (rest : Alike stop Base ('\n' :: a) b) :
      Alike stop Base ('\n' :: a) (c :: b)

/-- The rests of two texts start alike, at a character where reading stops; blanks are none of these. -/
structure Bounds (stop : Char → Bool) (Base : List Char → List Char → Prop) : Prop where
  head : ∀ {a b}, Base a b → a.head? = b.head?
  stops : ∀ {a b c}, Base a b → a.head? = some c → stop c = true
  visible : ∀ {c}, stop c = true → isBlank c = false

/-- Two texts of which nothing is left, or which both start with the same quote. -/
def Quoted (a b : List Char) : Prop :=
  (a = [] ∧ b = []) ∨ ∃ quote x y, isQuote quote = true ∧ a = quote :: x ∧ b = quote :: y

namespace Alike

variable {stop : Char → Bool} {Base : List Char → List Char → Prop} {a b : List Char}

section Bounds

variable (bounds : Bounds stop Base)
include bounds

theorem trimStart (alike : Alike stop Base a b) : Alike stop Base (Text.trimStart a) (Text.trimStart b) := by
  induction alike with
  | @base a b same =>
    have visible : ∀ c ∈ a.head?, isBlank c = false := fun c first => bounds.visible (bounds.stops same first)
    rw [Text.trimStart_eq_self visible, Text.trimStart_eq_self (bounds.head same ▸ visible)]
    exact .base same
  | @code a b c free rest ih =>
    by_cases blank : isBlank c = true
    · rw [Text.trimStart, Text.trimStart, List.dropWhile_cons_of_pos blank, List.dropWhile_cons_of_pos blank]
      exact ih
    · rw [Text.trimStart, Text.trimStart, List.dropWhile_cons_of_neg blank, List.dropWhile_cons_of_neg blank]
      exact .code c free rest
  | @padded a b c blank _ ih =>
    have dropped : Text.trimStart (c :: b) = Text.trimStart b := List.dropWhile_cons_of_pos blank
    rwa [dropped]

/-- A character that is not blank and does not stop a reading starts both texts or none. -/
theorem head?_iff (alike : Alike stop Base a b) {c : Char} (visible : isBlank c = false) :
    a.head? = some c ↔ b.head? = some c := by
  have line : isBlank '\n' = true := by decide
  cases alike with
  | base same => rw [bounds.head same]
  | code d free rest => simp
  | @padded a b d blank rest =>
    have first : '\n' ≠ c := by
      rintro rfl
      rw [line] at visible
      cases visible
    have second : d ≠ c := by
      rintro rfl
      rw [blank] at visible
      cases visible
    simp [first, second]

theorem uncons (alike : Alike stop Base a b) {c : Char} (first : a.head? = some c) (visible : isBlank c = false)
    (free : stop c = false) : ∃ x y, a = c :: x ∧ b = c :: y ∧ Alike stop Base x y := by
  cases alike with
  | base same =>
    rw [bounds.stops same first] at free
    cases free
  | code d _ rest =>
    cases first
    exact ⟨_, _, rfl, rfl, rest⟩
  | padded =>
    cases first
    cases visible

/-- A text of characters that are neither blank nor stop a reading starts both texts or none. -/
theorem afterChars? {word : List Char} (free : ∀ c ∈ word, isBlank c = false ∧ stop c = false)
    (alike : Alike stop Base a b) :
    Option.Rel (Alike stop Base) (Text.afterChars? word a) (Text.afterChars? word b) := by
  induction word generalizing a b with
  | nil => exact .some alike
  | cons c word ih =>
    obtain ⟨⟨visible, free⟩, others⟩ := List.forall_mem_cons.mp free
    by_cases first : a.head? = some c
    · obtain ⟨x, y, rfl, rfl, rest⟩ := alike.uncons bounds first visible free
      rw [Text.afterChars?, if_pos rfl, Text.afterChars?, if_pos rfl]
      exact ih others rest
    · rw [Text.afterChars?_eq_none first, Text.afterChars?_eq_none (mt (alike.head?_iff bounds visible).mpr first)]
      exact .none

theorem after? {word : String} (free : ∀ c ∈ word.toList, isBlank c = false ∧ stop c = false)
    (alike : Alike stop Base a b) : Option.Rel (Alike stop Base) (Text.after? word a) (Text.after? word b) :=
  alike.afterChars? bounds free

/-- A run of characters that are neither blank nor stop a reading is the same in both texts. -/
theorem dropWhile {takes : Char → Bool} (free : ∀ c, takes c = true → isBlank c = false ∧ stop c = false)
    (alike : Alike stop Base a b) :
    a.takeWhile takes = b.takeWhile takes ∧ Alike stop Base (a.dropWhile takes) (b.dropWhile takes) := by
  induction alike with
  | @base a b same =>
    have outside : ∀ c ∈ a.head?, takes c = false := fun c first =>
      Bool.eq_false_iff.mpr fun taken => by simpa [bounds.stops same first] using (free c taken).2
    obtain ⟨none, whole⟩ := Text.takeWhile_outside outside
    obtain ⟨none', whole'⟩ := Text.takeWhile_outside (bounds.head same ▸ outside)
    rw [none, whole, none', whole']
    exact ⟨rfl, .base same⟩
  | @code a b c unstopped rest ih =>
    by_cases taken : takes c = true
    · simp only [List.takeWhile_cons, List.dropWhile_cons, taken, if_true]
      exact ⟨congrArg (c :: ·) ih.1, ih.2⟩
    · simp only [List.takeWhile_cons, List.dropWhile_cons, taken, Bool.false_eq_true, if_false]
      exact ⟨trivial, .code c unstopped rest⟩
  | @padded a b c blank rest _ =>
    have outside {d : Char} (blank : isBlank d = true) : takes d = false :=
      Bool.eq_false_iff.mpr fun taken => by simpa [blank] using (free d taken).1
    simp only [List.takeWhile_cons, List.dropWhile_cons, outside blank, outside (by decide : isBlank '\n' = true),
      Bool.false_eq_true, if_false]
    exact ⟨trivial, .padded blank rest⟩

end Bounds

theorem bounds_quoted : Bounds isQuote Quoted where
  head := by
    rintro a b (⟨rfl, rfl⟩ | ⟨quote, x, y, _, rfl, rfl⟩)
    · rfl
    · rfl
  stops := by
    rintro a b c (⟨rfl, rfl⟩ | ⟨quote, x, y, quotes, rfl, rfl⟩) first
    · cases first
    · cases first
      exact quotes
  visible := Blanking.isBlank_of_isQuote

theorem nil_iff (alike : Alike isQuote Quoted a b) : a = [] ↔ b = [] := by
  cases alike with
  | base same =>
    rcases same with ⟨rfl, rfl⟩ | ⟨quote, x, y, _, rfl, rfl⟩
    · rfl
    · simp
  | code => simp
  | padded => simp

theorem nil : Alike isQuote Quoted [] [] := .base (.inl ⟨rfl, rfl⟩)

theorem quote {c : Char} (quotes : isQuote c = true) (x y : List Char) : Alike isQuote Quoted (c :: x) (c :: y) :=
  .base (.inr ⟨c, x, y, quotes, rfl, rfl⟩)

/-- Dropping at the end reaches no quote, and drops all blanks or none. -/
theorem dropEndWhile {drop : Char → Bool} (kept : ∀ c, isQuote c = true → drop c = false)
    (uniform : ∀ c, isBlank c = true → drop c = drop '\n') (alike : Alike isQuote Quoted a b) :
    Alike isQuote Quoted (Text.dropEndWhile drop a) (Text.dropEndWhile drop b) := by
  induction alike with
  | base same =>
    rcases same with ⟨rfl, rfl⟩ | ⟨c, x, y, quotes, rfl, rfl⟩
    · exact nil
    · simp only [Text.dropEndWhile_cons, kept c quotes, Bool.false_eq_true, and_false, if_false]
      exact quote quotes _ _
  | @code a b c free rest ih =>
    rw [Text.dropEndWhile_cons, Text.dropEndWhile_cons]
    by_cases lost : Text.dropEndWhile drop a = [] ∧ drop c = true
    · rw [if_pos lost, if_pos ⟨ih.nil_iff.mp lost.1, lost.2⟩]
      exact nil
    · rw [if_neg lost, if_neg fun other => lost ⟨ih.nil_iff.mpr other.1, other.2⟩]
      exact .code c free ih
  | @padded a b c blank rest ih =>
    rw [Text.dropEndWhile_cons drop c b]
    rw [Text.dropEndWhile_cons] at ih ⊢
    by_cases lost : Text.dropEndWhile drop a = [] ∧ drop '\n' = true
    · rw [if_pos lost] at ih ⊢
      rw [if_pos ⟨ih.nil_iff.mp rfl, (uniform c blank).trans lost.2⟩]
      exact nil
    · rw [if_neg lost] at ih ⊢
      rw [if_neg fun other => absurd (ih.nil_iff.mpr other.1) (by simp)]
      exact .padded blank ih

theorem trim (alike : Alike isQuote Quoted a b) : Alike isQuote Quoted (Text.trim a) (Text.trim b) :=
  (alike.trimStart bounds_quoted).dropEndWhile (fun _ => Blanking.isBlank_of_isQuote) fun c blank => by
    rw [blank]
    decide

theorem refl (text : List Char) : Alike isQuote Quoted text text := by
  induction text with
  | nil => exact nil
  | cons c text ih =>
    cases quotes : isQuote c with
    | true => exact quote quotes text text
    | false => exact .code c quotes ih

/-- What starts the first of two texts starts the second one, up to a quote or a line end. -/
theorem append_left {word rest : List Char} (free : ∀ c ∈ word, isQuote c = false ∧ c ≠ '\n')
    (alike : Alike isQuote Quoted (word ++ rest) b) : ∃ rest', b = word ++ rest' ∧ Alike isQuote Quoted rest rest' := by
  induction word generalizing b with
  | nil => exact ⟨b, rfl, alike⟩
  | cons c word ih =>
    obtain ⟨⟨plain, inner⟩, others⟩ := List.forall_mem_cons.mp free
    rw [List.cons_append] at alike
    cases alike with
    | base same =>
      rcases same with ⟨none, _⟩ | ⟨quote, x, y, quotes, first, _⟩
      · cases none
      · cases first
        rw [plain] at quotes
        cases quotes
    | code _ _ rest =>
      obtain ⟨rest', rfl, later⟩ := ih others rest
      exact ⟨rest', rfl, later⟩
    | padded => exact absurd rfl inner

/-- Without quotes and line ends, texts that are alike are the same. -/
theorem eq (alike : Alike isQuote Quoted a b) (free : ∀ c ∈ b, isQuote c = false ∧ c ≠ '\n') : a = b := by
  induction alike with
  | base same =>
    rcases same with ⟨rfl, rfl⟩ | ⟨c, x, y, quotes, rfl, rfl⟩
    · rfl
    · rw [(free c List.mem_cons_self).1] at quotes
      cases quotes
  | code c _ rest ih => rw [ih fun d member => free d (List.mem_cons_of_mem c member)]
  | @padded a b c blank rest ih =>
    have same := ih fun d member => free d (List.mem_cons_of_mem c member)
    exact absurd rfl (free '\n' (same ▸ List.mem_cons_of_mem c List.mem_cons_self)).2

end Alike

/-- What stands before the first mark outside of brackets and quotes, or the whole text. -/
def before (mark : Char) (search : Search) (text : List Char) : List Char :=
  ((cut? mark search text).map (·.1)).getD text

theorem before_cons (mark : Char) (search : Search) (c : Char) (text : List Char) :
    before mark search (c :: text) =
      if search.hits mark c text.head? then [] else c :: before mark (search.next c) text := by
  rw [before, cut?]
  split
  · rfl
  · rw [before]
    cases cut? mark (search.next c) text <;> rfl

/-- A search that is in no string, or in one with a real quote. -/
def Search.Sound (search : Search) : Prop := ∀ quote ∈ search.quote, isQuote quote = true

namespace Search

variable {search : Search} {c : Char}

theorem Sound.next (sound : search.Sound) : (search.next c).Sound := by
  intro quote found
  unfold Search.next at found
  split at found
  · rename_i open_ known
    simp only [Option.mem_def] at found
    split at found
    · cases found
    · cases found
      exact sound _ known
  · simp only [Option.mem_def] at found
    split at found
    · rename_i quotes
      cases found
      exact quotes
    · cases found

theorem next_blank (sound : search.Sound) (blank : isBlank c = true) :
    search.next c = { search with previous := some c } := by
  have other {mark : Char} (visible : isBlank mark = false) : c ≠ mark := by
    rintro rfl
    rw [blank] at visible
    cases visible
  have plain : isQuote c = false := Bool.eq_false_iff.mpr fun quotes => by
    rw [Blanking.isBlank_of_isQuote quotes] at blank
    cases blank
  unfold Search.next
  split
  · rename_i quote known
    rw [if_neg (other (Blanking.isBlank_of_isQuote (sound quote known))), known]
  · rename_i none
    simp [other, plain, none, show ∀ mark ∈ ['(', '{', '[', '<', ')', '}', ']', '>'], isBlank mark = false by decide]

/-- A mark is hit whatever follows, but for an operator. -/
theorem hits_congr {mark : Char} {following following' : Option Char}
    (same : ∀ d, isBlank d = false → (following = some d ↔ following' = some d)) :
    search.hits mark c following = search.hits mark c following' := by
  have arrow : (following == some '>') = (following' == some '>') := by
    rw [Bool.eq_iff_iff, beq_iff_eq, beq_iff_eq]
    exact same '>' (by decide)
  have equals : (following == some '=') = (following' == some '=') := by
    rw [Bool.eq_iff_iff, beq_iff_eq, beq_iff_eq]
    exact same '=' (by decide)
  rw [hits, hits, inOperator, inOperator, arrow, equals]

end Search

theorem Alike.before {mark : Char} (marks : mark ∈ ['=', ':']) {search : Search} (sound : search.Sound)
    {a b : List Char} (alike : Alike isQuote Quoted a b) :
    Alike isQuote Quoted (before mark search a) (before mark search b) := by
  have unhit {c : Char} {following : Option Char} (search : Search) (other : isBlank c = true ∨ isQuote c = true) :
      search.hits mark c following = false := by
    have known : ∀ mark ∈ ['=', ':'], isBlank mark = false ∧ isQuote mark = false := by decide
    have differ : c ≠ mark := by
      rintro rfl
      simp [known c marks] at other
    simp [Search.hits, differ]
  induction alike generalizing search with
  | base same =>
    rcases same with ⟨rfl, rfl⟩ | ⟨c, x, y, quotes, rfl, rfl⟩
    · exact nil
    · rw [before_cons, before_cons, unhit search (.inr quotes), unhit search (.inr quotes)]
      exact quote quotes _ _
  | @code a b c free rest ih =>
    rw [before_cons, before_cons, Search.hits_congr fun d visible => rest.head?_iff bounds_quoted visible]
    split
    · exact nil
    · exact .code c free (ih sound.next)
  | @padded a b c blank rest ih =>
    have later := ih (sound.next (c := c))
    rw [before_cons, unhit _ (.inl (by decide)), if_neg (by decide), Search.next_blank sound.next (by decide),
      Search.next_blank sound blank] at later
    rw [before_cons, before_cons, unhit _ (.inl (by decide)), unhit _ (.inl blank), if_neg (by decide), if_neg (by decide),
      Search.next_blank sound (by decide), Search.next_blank sound blank]
    exact .padded blank later

/-- What stands before a mark, trimmed. -/
def cutName (mark : Char) (text : List Char) : List Char :=
  ((cut? mark {} text).map fun cut => Text.trim cut.1).getD text

theorem cutName_eq {mark : Char} {text : List Char} (trimmed : Text.trim text = text) :
    cutName mark text = Text.trim (before mark {} text) := by
  rw [cutName, before]
  cases cut? mark {} text with
  | none => exact trimmed.symm
  | some cut => rfl

theorem Alike.cutName {mark : Char} (marks : mark ∈ ['=', ':']) {a b : List Char} (alike : Alike isQuote Quoted a b)
    (trimmed : Text.trim a = a) (trimmed' : Text.trim b = b) :
    Alike isQuote Quoted (cutName mark a) (cutName mark b) := by
  rw [cutName_eq trimmed, cutName_eq trimmed']
  exact (alike.before marks (by rintro _ ⟨⟩)).trim

theorem trim_cutName {mark : Char} {text : List Char} (trimmed : Text.trim text = text) :
    Text.trim (cutName mark text) = cutName mark text := by
  rw [cutName_eq trimmed, Text.trim_trim]

/-- A name without the dots of a rest parameter. -/
def restName (text : List Char) : List Char := ((Text.after? "..." text).map Text.trim).getD text

theorem Alike.restName {a b : List Char} (alike : Alike isQuote Quoted a b) :
    Alike isQuote Quoted (restName a) (restName b) := by
  have found := alike.after? bounds_quoted (by decide : ∀ c ∈ "...".toList, isBlank c = false ∧ isQuote c = false)
  rw [Parameters.restName, Parameters.restName]
  generalize Text.after? "..." a = first at found ⊢
  generalize Text.after? "..." b = second at found ⊢
  cases found with
  | none => exact alike
  | some inner => exact inner.trim

theorem trim_restName {text : List Char} (trimmed : Text.trim text = text) :
    Text.trim (restName text) = restName text := by
  rw [restName]
  cases Text.after? "..." text with
  | none => exact trimmed
  | some name => exact Text.trim_trim name

theorem scriptParameter_name (fragment : List Char) :
    (scriptParameter fragment).name = string (Text.trim (Text.dropEndWhile (· == '?')
      (cutName ':' (restName (cutName '=' (withoutModifiers fragment)))))) := by
  simp only [scriptParameter, cutName, restName]
  cases cut? '=' {} (withoutModifiers fragment) with
  | none =>
    simp only [Option.map_none, Option.getD_none]
    cases Text.after? "..." (withoutModifiers fragment) with
    | none =>
      simp only [Option.map_none, Option.getD_none]
      cases cut? ':' {} (withoutModifiers fragment) <;> rfl
    | some name =>
      simp only [Option.map_some, Option.getD_some]
      cases cut? ':' {} (Text.trim name) <;> rfl
  | some cut =>
    simp only [Option.map_some, Option.getD_some]
    cases Text.after? "..." (Text.trim cut.1) with
    | none =>
      simp only [Option.map_none, Option.getD_none]
      cases cut? ':' {} (Text.trim cut.1) <;> rfl
    | some name =>
      simp only [Option.map_some, Option.getD_some]
      cases cut? ':' {} (Text.trim name) <;> rfl

theorem withoutModifiers_eq_self {fragment : List Char}
    (free : ∀ word ∈ modifiers, Text.startsWith word fragment = false) : withoutModifiers fragment = fragment := by
  have each {strip : List Char → String → List Char} (words : List String)
      (stays : ∀ word ∈ words, strip fragment word = fragment) : words.foldl strip fragment = fragment := by
    induction words with
    | nil => rfl
    | cons word words ih =>
      obtain ⟨same, others⟩ := List.forall_mem_cons.mp stays
      rw [List.foldl_cons, same]
      exact ih others
  unfold withoutModifiers
  apply each
  intro word member
  have none := free word member
  rw [Text.startsWith, Option.isSome_eq_false_iff, Option.isNone_iff_eq_none] at none
  simp only [none]

/-- A modifier in front of one of two fragments is a modifier in front of the other. -/
theorem Alike.startsWith_modifier {a b : List Char} (alike : Alike isQuote Quoted a b) {word : String}
    (member : word ∈ modifiers) (free : Text.startsWith word b = false) : Text.startsWith word a = false := by
  have plain : ∀ word ∈ modifiers, ∀ c ∈ word.toList, isQuote c = false ∧ c ≠ '\n' := by decide
  rw [Text.startsWith, Option.isSome_eq_false_iff, Option.isNone_iff_eq_none] at free ⊢
  cases found : Text.after? word a with
  | none => rfl
  | some rest =>
    rw [Text.after?_eq_some.mp found] at alike
    obtain ⟨rest', rfl, _⟩ := alike.append_left (plain word member)
    rw [Text.after?_append] at free
    cases free

/-- Two names that agree up to a quote, or up to blanks before a line end. -/
def NamedAlike (written shown : Parameter) : Prop := Alike isQuote Quoted written.name.toList shown.name.toList

theorem scriptParameter_namedAlike {a b : List Char} (alike : Alike isQuote Quoted a b)
    (trimmed : Text.trim a = a) (trimmed' : Text.trim b = b)
    (free : ∀ word ∈ modifiers, Text.startsWith word b = false) :
    NamedAlike (scriptParameter a) (scriptParameter b) := by
  have free' : ∀ word ∈ modifiers, Text.startsWith word a = false := fun word member =>
    alike.startsWith_modifier member (free word member)
  rw [NamedAlike, scriptParameter_name, scriptParameter_name, withoutModifiers_eq_self free,
    withoutModifiers_eq_self free', string, string, String.toList_ofList, String.toList_ofList]
  have valued := alike.cutName (by decide : '=' ∈ ['=', ':']) trimmed trimmed'
  have typed := valued.restName.cutName (by decide : ':' ∈ ['=', ':']) (trim_restName (trim_cutName trimmed))
    (trim_restName (trim_cutName trimmed'))
  have other {c : Char} (free : isBlank c = true ∨ isQuote c = true) : (c == '?') = false := by
    rw [beq_eq_false_iff_ne]
    rintro rfl
    rcases free with blank | quotes
    · cases blank
    · cases quotes
  exact (typed.dropEndWhile (fun c quotes => other (.inr quotes)) fun c blank => (other (.inl blank)).trans rfl).trim

theorem cutAtChars?_eq_some {mark : Char} {text before after : List Char} :
    Text.cutAtChars? [mark] text = some (before, after) ↔ mark ∉ before ∧ text = before ++ mark :: after := by
  induction text generalizing before with
  | nil => simp [Text.cutAtChars?]
  | cons c text ih =>
    by_cases same : mark = c
    · subst same
      simp only [Text.cutAtChars?, Text.afterChars?, if_true, Option.some.injEq, Prod.mk.injEq]
      cases before with
      | nil => simp
      | cons d before => grind
    · simp only [Text.cutAtChars?, Text.afterChars?, if_neg same]
      cases before with
      | nil => simp [Ne.symm same]
      | cons d before =>
        simp only [Option.map_eq_some_iff, Prod.exists]
        grind

/-- The name of a keyword parameter. -/
def keywordName? (fragment : List Char) : Option (List Char) :=
  (Text.cutAt? ":" fragment).bind fun cut => if isKeywordName cut.1 then some cut.1 else none

theorem keywordName_plain {name : List Char} (keyword : isKeywordName name = true) :
    ':' ∉ name ∧ ∀ c ∈ name, isBlank c = false ∧ isQuote c = false := by
  have each : ∀ c ∈ name, (Text.isAlphanumeric c || c == '_') = true :=
    List.all_eq_true.mp (Bool.and_eq_true_iff.mp keyword).2
  have blanks : ∀ point ∈ Text.blankPoints,
      (Text.isAlphanumeric (Char.ofNat point) || Char.ofNat point == '_') = false := by decide +kernel
  refine ⟨fun member => absurd (each ':' member) (by decide), fun c member => ⟨?_, ?_⟩⟩
  · refine Bool.eq_false_iff.mpr fun blank => ?_
    have other := blanks c.toNat (Text.mem_blankPoints blank)
    rw [Char.ofNat_toNat, each c member] at other
    cases other
  · refine Bool.eq_false_iff.mpr fun quotes => ?_
    have own := each c member
    simp only [isQuote, Bool.or_eq_true, beq_iff_eq] at quotes
    rcases quotes with (rfl | rfl) | rfl <;> exact absurd own (by decide)

theorem keywordName?_eq_some {fragment name : List Char} :
    keywordName? fragment = some name ↔
      isKeywordName name = true ∧ (Text.afterChars? (name ++ [':']) fragment).isSome = true := by
  rw [keywordName?, Option.bind_eq_some_iff, Option.isSome_iff_exists]
  constructor
  · rintro ⟨⟨found, value⟩, cut, named⟩
    have colon : Text.cutAtChars? [':'] fragment = some (found, value) := cut
    obtain ⟨_, rfl⟩ := cutAtChars?_eq_some.mp colon
    split at named
    · rename_i keyword
      cases named
      exact ⟨keyword, value, Text.afterChars?_eq_some.mpr (by simp)⟩
    · cases named
  · rintro ⟨keyword, value, after⟩
    have split : fragment = name ++ ':' :: value := by simpa using Text.afterChars?_eq_some.mp after
    exact ⟨(name, value), cutAtChars?_eq_some.mpr ⟨(keywordName_plain keyword).1, split⟩, if_pos keyword⟩

theorem Alike.keywordName? {a b : List Char} (alike : Alike isQuote Quoted a b) :
    keywordName? a = keywordName? b := by
  apply Option.ext
  intro name
  rw [keywordName?_eq_some, keywordName?_eq_some]
  refine and_congr_right fun keyword => ?_
  have free : ∀ c ∈ name ++ [':'], isBlank c = false ∧ isQuote c = false :=
    List.forall_mem_append.mpr ⟨(keywordName_plain keyword).2, by decide⟩
  have found := alike.afterChars? bounds_quoted free
  generalize Text.afterChars? (name ++ [':']) a = first at found ⊢
  generalize Text.afterChars? (name ++ [':']) b = second at found ⊢
  cases found <;> rfl

/-- A fragment without a sign is a keyword if a name and a colon start it. -/
theorem rubyParameter_unsigned {fragment : List Char} (star : fragment.head? ≠ some '*')
    (ampersand : fragment.head? ≠ some '&') :
    rubyParameter fragment =
      ((Text.cutAt? ":" fragment).filter fun cut => isKeywordName cut.1).elim (rubyPlain fragment) fun cut =>
        { name := string cut.1, defaultValue := nonempty (Text.trim cut.2), passing := some .keyword } := by
  unfold rubyParameter
  split
  · exact absurd rfl star
  · exact absurd rfl star
  · exact absurd rfl ampersand
  · cases Text.cutAt? ":" fragment with
    | none => rfl
    | some cut =>
      by_cases keyword : isKeywordName cut.1 = true
      · simp [Option.filter_some, keyword]
      · simp [Option.filter_some, keyword]

theorem rubyParameter_name {fragment : List Char} (star : fragment.head? ≠ some '*')
    (ampersand : fragment.head? ≠ some '&') :
    (rubyParameter fragment).name = string ((keywordName? fragment).getD (cutName '=' fragment)) := by
  have plain : (rubyPlain fragment).name = string (cutName '=' fragment) := by
    rw [rubyPlain, cutName]
    cases cut? '=' {} fragment <;> rfl
  rw [rubyParameter_unsigned star ampersand, keywordName?]
  cases Text.cutAt? ":" fragment with
  | none => exact plain
  | some cut =>
    by_cases keyword : isKeywordName cut.1 = true
    · simp [Option.filter_some, keyword]
    · simp [Option.filter_some, keyword, plain]

theorem rubyParameter_stars (rest : List Char) :
    rubyParameter ('*' :: '*' :: rest) = prefixed "**" rest .doubleSplat := rfl

theorem rubyParameter_ampersand (rest : List Char) : rubyParameter ('&' :: rest) = prefixed "&" rest .block := rfl

theorem rubyParameter_star {rest : List Char} (single : rest.head? ≠ some '*') :
    rubyParameter ('*' :: rest) = prefixed "*" rest .splat := by
  cases rest with
  | nil => rfl
  | cons c rest =>
    unfold rubyParameter
    split
    · rename_i same
      cases same
      exact absurd rfl single
    · rename_i same
      cases same
      rfl
    · rename_i same
      cases same
    · rename_i other _
      exact absurd rfl (other _)

/-- The name after a sign, or the sign itself. -/
theorem prefixed_namedAlike {a b : List Char} (alike : Alike isQuote Quoted a b) (sign : String)
    (passing : Parameter.Passing) : NamedAlike (prefixed sign a passing) (prefixed sign b passing) := by
  have trimmed := alike.trim
  simp only [NamedAlike, prefixed, List.isEmpty_iff]
  by_cases none : Text.trim a = []
  · rw [if_pos none, if_pos (trimmed.nil_iff.mp none)]
    exact .refl _
  · rw [if_neg none, if_neg (mt trimmed.nil_iff.mpr none), string, string, String.toList_ofList, String.toList_ofList]
    exact trimmed

theorem rubyParameter_namedAlike {a b : List Char} (alike : Alike isQuote Quoted a b)
    (trimmed : Text.trim a = a) (trimmed' : Text.trim b = b) : NamedAlike (rubyParameter a) (rubyParameter b) := by
  by_cases star : a.head? = some '*'
  · obtain ⟨a, b, rfl, rfl, rest⟩ := alike.uncons Alike.bounds_quoted star (by decide) (by decide)
    by_cases second : a.head? = some '*'
    · obtain ⟨a, b, rfl, rfl, inner⟩ := rest.uncons Alike.bounds_quoted second (by decide) (by decide)
      rw [rubyParameter_stars, rubyParameter_stars]
      exact prefixed_namedAlike inner _ _
    · rw [rubyParameter_star second, rubyParameter_star (mt (rest.head?_iff Alike.bounds_quoted (by decide)).mpr second)]
      exact prefixed_namedAlike rest _ _
  · by_cases ampersand : a.head? = some '&'
    · obtain ⟨a, b, rfl, rfl, rest⟩ := alike.uncons Alike.bounds_quoted ampersand (by decide) (by decide)
      rw [rubyParameter_ampersand, rubyParameter_ampersand]
      exact prefixed_namedAlike rest _ _
    · have others {c : Char} (visible : isBlank c = false) := mt (alike.head?_iff Alike.bounds_quoted (c := c) visible).mpr
      rw [NamedAlike, rubyParameter_name star ampersand, rubyParameter_name (others (by decide) star)
        (others (by decide) ampersand), ← alike.keywordName?]
      cases keywordName? a with
      | some name => exact .refl _
      | none =>
        simp only [Option.getD_none, string, String.toList_ofList]
        exact alike.cutName (by decide) trimmed trimmed'

end Parameters
end CallAtlas

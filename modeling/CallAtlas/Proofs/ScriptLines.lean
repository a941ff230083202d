import CallAtlas.Proofs.ScanSteps
import CallAtlas.Proofs.ScriptGrammar

/-! Lines of structured scripts. They hold code alone, so they are read as they stand; each changes the nesting of
brackets by what it opens or closes; and the names used like calls on a line are those that it calls. -/
namespace CallAtlas.Script.Structured

open Pattern (startsIdentifier continuesIdentifier)

theorem ne_of_joins {c mark : Char} (joins : joinsIdentifier c = true) (other : joinsIdentifier mark = false) :
    c ≠ mark := by
  rintro rfl
  rw [joins] at other
  cases other

theorem joins_of_starts {c : Char} (starts : startsIdentifier c = true) : joinsIdentifier c = true := by
  simp only [startsIdentifier, Bool.or_eq_true] at starts
  simp only [joinsIdentifier, Ruby.Token.continuesName, Bool.or_eq_true]
  tauto

theorem isBlank_of_joins {c : Char} (joins : joinsIdentifier c = true) : Text.isBlank c = false := by
  rcases Bool.or_eq_true_iff.mp joins with word | dollar
  · exact Text.isBlank_of_isWord (Ruby.isWord_of_continuesName word)
  · rw [beq_iff_eq.mp dollar]
    decide

namespace Identifier

variable (identifier : Identifier)

theorem continues : ∀ c ∈ identifier.text, continuesIdentifier c = true :=
  fun c member => continuesIdentifier_of_joins (identifier.chars c member)

end Identifier

namespace Expression

mutual

theorem mem_text {c : Char} : (expression : Expression) → c ∈ expression.text →
    joinsIdentifier c = true ∨ c ∈ ['(', ')', ',', ' ']
  | name identifier, member => .inl (identifier.chars c member)
  | call callee arguments, member => by
    rw [text, List.mem_append, List.mem_cons, List.mem_append, List.mem_singleton] at member
    rcases member with own | rfl | inside | rfl
    · exact .inl (callee.chars c own)
    · exact .inr (by decide)
    · rcases Parameters.mem_listed inside with ⟨text, listed, member⟩ | mark
      · exact mem_texts arguments listed member
      · exact .inr (List.mem_cons_of_mem _ (List.mem_cons_of_mem _ mark))
    · exact .inr (by decide)

theorem mem_texts {c : Char} {text : List Char} : (expressions : List Expression) → text ∈ texts expressions →
    c ∈ text → joinsIdentifier c = true ∨ c ∈ ['(', ')', ',', ' ']
  | [], listed, _ => by
    rw [texts] at listed
    cases listed
  | first :: rest, listed, member => by
    rw [texts] at listed
    rcases List.mem_cons.mp listed with rfl | later
    · exact mem_text first member
    · exact mem_texts rest later member

end

theorem exists_cons (expression : Expression) :
    ∃ first rest, expression.text = first :: rest ∧ startsIdentifier first = true := by
  cases expression with
  | name identifier =>
    rw [text]
    exact identifier.exists_cons
  | call callee arguments =>
    obtain ⟨first, rest, same, starts⟩ := callee.exists_cons
    rw [text, same]
    exact ⟨first, _, rfl, starts⟩

end Expression

/-- The characters of a line behind its indentation. -/
def isCode (c : Char) : Bool := joinsIdentifier c || c ∈ ['(', ')', ',', ' ', '{', '}', '=', '>', ';']

theorem Expression.isCode_text (expression : Expression) : ∀ c ∈ expression.text, isCode c = true := by
  intro c member
  have marks : ∀ c ∈ ['(', ')', ',', ' '], isCode c = true := by decide
  rcases expression.mem_text member with joins | mark
  · exact Bool.or_eq_true_iff.mpr (.inl joins)
  · exact marks c mark

theorem Identifier.isCode_text (identifier : Identifier) : ∀ c ∈ identifier.text, isCode c = true :=
  fun c member => Bool.or_eq_true_iff.mpr (.inl (identifier.chars c member))

theorem Header.isCode_bracketed (parameters : List Identifier) : ∀ c ∈ bracketed parameters, isCode c = true := by
  intro c member
  have marks : ∀ c ∈ [',', ' '], isCode c = true := by decide
  rw [bracketed, List.mem_cons, List.mem_append, List.mem_singleton] at member
  rcases member with rfl | inside | rfl
  · decide
  · rcases Parameters.mem_listed inside with ⟨text, listed, member⟩ | mark
    · obtain ⟨parameter, _, rfl⟩ := List.mem_map.mp listed
      exact parameter.isCode_text c member
    · exact marks c mark
  · decide

theorem Header.isCode_text (header : Header) : ∀ c ∈ header.text, isCode c = true := by
  cases header with
  | function name parameters =>
    simp only [text, List.forall_mem_append]
    exact ⟨by decide, name.isCode_text, isCode_bracketed parameters, by decide⟩
  | arrow name parameters =>
    simp only [text, List.forall_mem_append]
    exact ⟨by decide, name.isCode_text, by decide, isCode_bracketed parameters, by decide⟩
  | branch condition =>
    simp only [text, List.forall_mem_append]
    exact ⟨by decide, condition.isCode_text, by decide⟩

/-- A text with code and nothing else, visible at both ends: what follows the indentation of a line. -/
structure IsStatement (text : List Char) : Prop where
  code : ∀ c ∈ text, isCode c = true
  first : ∃ c rest, text = c :: rest ∧ (startsIdentifier c = true ∨ c = '}')
  last : Text.trimEnd text = text

theorem Header.isStatement_text (header : Header) : IsStatement header.text := by
  refine ⟨header.isCode_text, ?_, ?_⟩
  · cases header with
    | function name parameters => exact ⟨'f', _, rfl, .inl (by decide)⟩
    | arrow name parameters => exact ⟨'c', _, rfl, .inl (by decide)⟩
    | branch condition => exact ⟨'i', _, rfl, .inl (by decide)⟩
  · have ends : ∃ front, header.text = front ++ ['{'] := by
      cases header with
      | function name parameters =>
        exact ⟨functionWord ++ (name.text ++ (bracketed parameters ++ [' '])), by simp [text]⟩
      | arrow name parameters =>
        exact ⟨constantWord ++ (name.text ++ ([' ', '=', ' '] ++ (bracketed parameters ++ [' ', '=', '>', ' ']))),
          by simp [text]⟩
      | branch condition => exact ⟨conditionWord ++ (condition.text ++ [')', ' ']), by simp [text]⟩
    obtain ⟨front, same⟩ := ends
    rw [same]
    exact Text.trimEnd_concat (by decide) front

theorem Header.isStatement_closing (header : Header) : IsStatement header.closing := by
  have brace : IsStatement ['}'] := ⟨by decide, ⟨'}', [], rfl, .inr rfl⟩, by decide⟩
  have ended : IsStatement ['}', ';'] := ⟨by decide, ⟨'}', [';'], rfl, .inr rfl⟩, by decide⟩
  cases header with
  | function name parameters => exact brace
  | arrow name parameters => exact ended
  | branch condition => exact brace

theorem Expression.isStatement_text (expression : Expression) : IsStatement (expression.text ++ [';']) := by
  obtain ⟨first, rest, same, starts⟩ := expression.exists_cons
  refine ⟨List.forall_mem_append.mpr ⟨expression.isCode_text, by decide⟩, ?_, Text.trimEnd_concat (by decide) _⟩
  exact ⟨first, rest ++ [';'], by rw [same, List.cons_append], .inl starts⟩

namespace IsStatement

variable {text : List Char} (statement : IsStatement text) (indent : Indent)
include statement

theorem visible : ∀ c ∈ text.head?, Text.isBlank c = false := by
  obtain ⟨first, rest, rfl, starts⟩ := statement.first
  rintro c ⟨⟩
  rcases starts with starts | rfl
  · exact isBlank_of_joins (joins_of_starts starts)
  · decide

theorem filled : text ≠ [] := by
  obtain ⟨first, rest, rfl, _⟩ := statement.first
  exact List.cons_ne_nil first rest

theorem trimStart_line (rest : List Char) : Text.trimStart (indent.blanks ++ (text ++ rest)) = text ++ rest := by
  refine Text.trimStart_append indent.blank fun c first => statement.visible c ?_
  rwa [List.head?_append_of_ne_nil _ statement.filled] at first

theorem trimEnd_line : Text.trimEnd (indent.blanks ++ text) = indent.blanks ++ text := by
  rw [Text.trimEnd_append (by rw [statement.last]; exact statement.filled), statement.last]

theorem trim_line : Text.trim (indent.blanks ++ text) = text := by
  have start := statement.trimStart_line indent []
  rw [List.append_nil] at start
  rw [Text.trim, start, statement.last]

end IsStatement

/-- A line of a structured script. -/
def IsLine (line : List Char) : Prop :=
  ∃ (indent : Indent) (text : List Char), line = indent.blanks ++ text ∧ IsStatement text

theorem Program.isLine (program : Program) : ∀ line ∈ program.lines, IsLine line := by
  induction program with
  | done => simp [lines]
  | evaluate indent value rest ih =>
    rw [lines, List.forall_mem_cons]
    exact ⟨⟨indent, _, rfl, value.isStatement_text⟩, ih⟩
  | block indent header body closing rest inner later =>
    rw [lines, List.forall_mem_cons, List.forall_mem_append, List.forall_mem_cons]
    exact ⟨⟨indent, _, rfl, header.isStatement_text⟩, inner, ⟨closing, _, rfl, header.isStatement_closing⟩, later⟩

section Cleaning

open Blanking

variable {language : Language}

/-- Nothing in a line starts a string, a comment or an element. -/
theorem IsLine.plain {line : List Char} (isLine : IsLine line) : ∀ c ∈ line, c ∉ ['"', '\'', '\x60', '/', '<'] := by
  obtain ⟨indent, text, rfl, statement⟩ := isLine
  have other : ∀ mark ∈ ['"', '\'', '\x60', '/', '<'], Text.isBlank mark = false ∧ isCode mark = false := by decide
  intro c member special
  rcases List.mem_append.mp member with front | inside
  · have blank := indent.blank c front
    rw [(other c special).1] at blank
    cases blank
  · have code := statement.code c inside
    rw [(other c special).2] at code
    cases code

theorem scan_plain (script : language.isRubyLike = false) (style : Style) {line : List Char}
    (plain : ∀ c ∈ line, c ∉ ['"', '\'', '\x60', '/', '<']) : Blanking.scan language style {} line = (line, {}) := by
  have known : ∀ c ∈ startSigns language, c ∈ ['"', '\'', '\x60', '/', '<'] := by
    rw [startSigns, commentSign, if_neg (by simp [script])]
    decide
  exact scan_eq_self style fun c member sign => plain c member (known c sign)

/-- A line that is read as it stands. -/
def asRead (line : List Char) : Line := ⟨line, line⟩

theorem pairLines_plain (script : language.isRubyLike = false) {lines : List (List Char)}
    (isLine : ∀ line ∈ lines, IsLine line) : pairLines language lines = lines.map asRead := by
  refine pairLines_of_clean fun line member => ?_
  simp [Cleaner.clean, script, scan_plain script _ (isLine line member).plain, State.atLineEnd]

theorem stripComments_line (script : language.isRubyLike = false) {line : List Char} (isLine : IsLine line) :
    stripComments language line = line := by
  rw [stripComments, scan_plain script _ isLine.plain]
  obtain ⟨indent, text, rfl, statement⟩ := isLine
  exact statement.trimEnd_line indent

end Cleaning

theorem Identifier.delta_text (identifier : Identifier) : Bracket.delta identifier.text = 0 := by
  have others : ∀ mark ∈ ['{', '(', '[', '}', ')', ']'], joinsIdentifier mark = false := by decide
  refine Bracket.delta_eq_zero fun c member => ?_
  have plain : ∀ mark ∈ ['{', '(', '[', '}', ')', ']'], c ≠ mark :=
    fun mark listed => ne_of_joins (identifier.chars c member) (others mark listed)
  simp only [List.forall_mem_cons] at plain
  simp [Bracket.weight, plain]

theorem Indent.delta_blanks (indent : Indent) : Bracket.delta indent.blanks = 0 := by
  have others : ∀ mark ∈ ['{', '(', '[', '}', ')', ']'], Text.isBlank mark = false := by decide
  refine Bracket.delta_eq_zero fun c member => ?_
  have plain : ∀ mark ∈ ['{', '(', '[', '}', ')', ']'], c ≠ mark := by
    rintro mark listed rfl
    have blank := indent.blank c member
    rw [others c listed] at blank
    cases blank
  simp only [List.forall_mem_cons] at plain
  simp [Bracket.weight, plain]

namespace Expression

mutual

theorem delta_text : (expression : Expression) → Bracket.delta expression.text = 0
  | name identifier => by
    rw [text]
    exact identifier.delta_text
  | call callee arguments => by
    have whole : (call callee arguments).text =
        callee.text ++ (['('] ++ (Parameters.listed (texts arguments) ++ [')'])) := by
      rw [text]
      rfl
    rw [whole, Bracket.delta_append, Bracket.delta_append, Bracket.delta_append, callee.delta_text,
      Parameters.delta_listed fun _ listed => delta_texts arguments listed]
    decide

theorem delta_texts {text : List Char} : (expressions : List Expression) → text ∈ texts expressions →
    Bracket.delta text = 0
  | [], listed => by
    rw [texts] at listed
    cases listed
  | first :: rest, listed => by
    rw [texts] at listed
    rcases List.mem_cons.mp listed with rfl | later
    · exact delta_text first
    · exact delta_texts rest later

end

/-- Names are the plainest expressions. -/
theorem texts_names (identifiers : List Identifier) :
    texts (identifiers.map name) = identifiers.map (·.text) := by
  induction identifiers with
  | nil => rw [List.map_nil, texts, List.map_nil]
  | cons identifier rest ih => rw [List.map_cons, texts, text, ih, List.map_cons]

theorem callsIn_names (identifiers : List Identifier) : callsIn (identifiers.map name) = [] := by
  induction identifiers with
  | nil => rw [List.map_nil, callsIn]
  | cons identifier rest ih => rw [List.map_cons, callsIn, calls, ih, List.append_nil]

end Expression

namespace Header

theorem delta_bracketed (parameters : List Identifier) : Bracket.delta (bracketed parameters) = 0 := by
  have whole : bracketed parameters = ['('] ++ (Parameters.listed (parameters.map (·.text)) ++ [')']) := rfl
  have inside : Bracket.delta (Parameters.listed (parameters.map (·.text))) = 0 := by
    refine Parameters.delta_listed fun text listed => ?_
    obtain ⟨parameter, _, rfl⟩ := List.mem_map.mp listed
    exact parameter.delta_text
  rw [whole, Bracket.delta_append, Bracket.delta_append, inside]
  decide

/-- A header opens one bracket more than it closes. -/
theorem delta_text (header : Header) : Bracket.delta header.text = 1 := by
  cases header with
  | function name parameters =>
    simp only [text, Bracket.delta_append, name.delta_text, delta_bracketed]
    decide
  | arrow name parameters =>
    simp only [text, Bracket.delta_append, name.delta_text, delta_bracketed]
    decide
  | branch condition =>
    simp only [text, Bracket.delta_append, condition.delta_text]
    decide

theorem delta_line (header : Header) (indent : Indent) : Bracket.delta (indent.blanks ++ header.text) = 1 := by
  rw [Bracket.delta_append, indent.delta_blanks, header.delta_text]
  rfl

theorem delta_closingLine (header : Header) (indent : Indent) :
    Bracket.delta (indent.blanks ++ header.closing) = -1 := by
  have closes : Bracket.delta header.closing = -1 := by cases header <;> rfl
  rw [Bracket.delta_append, indent.delta_blanks, closes]
  rfl

end Header

theorem Expression.delta_line (expression : Expression) (indent : Indent) :
    Bracket.delta (indent.blanks ++ (expression.text ++ [';'])) = 0 := by
  rw [Bracket.delta_append, Bracket.delta_append, indent.delta_blanks, expression.delta_text]
  rfl

open Outline (isWordBefore)
open Text (occurrencesFrom)

/-- A search for calls passes a text and goes on with the rest, having found these names and no part of a longer
one. It has to start at the start of a word, if the text starts with one. -/
def Passes (text rest : List Char) (names : List (List Char)) : Prop :=
  ∀ before : List Char, (isWordBefore before.head? = true → text.head?.any startsIdentifier = false) →
    ∃ found, occurrencesFrom Pattern.call before 0 (text ++ rest) =
        found ++ occurrencesFrom Pattern.call (text.reverse ++ before) 0 rest ∧
      found.map (·.2) = names ∧ ∀ entry ∈ found, isWordBefore entry.1 = false

namespace Passes

variable {first second rest : List Char} {names more : List (List Char)}

theorem append (passed : Passes first (second ++ rest) names) (later : Passes second rest more)
    (apart : isWordBefore first.getLast? = true → second.head?.any startsIdentifier = false) :
    Passes (first ++ second) rest (names ++ more) := by
  intro before starts
  have front : isWordBefore before.head? = true → first.head?.any startsIdentifier = false := by
    intro word
    have whole := starts word
    cases first with
    | nil => rfl
    | cons c first => exact whole
  have between : isWordBefore (first.reverse ++ before).head? = true → second.head?.any startsIdentifier = false := by
    rw [List.head?_append, List.head?_reverse]
    cases last : first.getLast? with
    | some c =>
      rw [last] at apart
      exact apart
    | none =>
      cases List.getLast?_eq_none_iff.mp last
      exact starts
  obtain ⟨found, passes, names, free⟩ := passed before front
  obtain ⟨others, passesOn, moreNames, moreFree⟩ := later (first.reverse ++ before) between
  refine ⟨found ++ others, ?_, ?_, ?_⟩
  · rw [List.append_assoc, passes, passesOn, List.reverse_append, List.append_assoc, List.append_assoc]
  · rw [List.map_append, names, moreNames]
  · exact List.forall_mem_append.mpr ⟨free, moreFree⟩

/-- Behind a mark anything may follow. -/
theorem behind {mark : Char} (passed : Passes (first ++ [mark]) (second ++ rest) names)
    (later : Passes second rest more) (other : isWordBefore (some mark) = false) :
    Passes ((first ++ [mark]) ++ second) rest (names ++ more) := by
  refine passed.append later ?_
  rw [List.getLast?_concat, other]
  exact fun word => absurd word Bool.false_ne_true

theorem marks {text : List Char} (plain : ∀ c ∈ text, startsIdentifier c = false) : Passes text rest [] := by
  intro before _
  refine ⟨[], ?_, rfl, by simp⟩
  rw [List.nil_append]
  refine Text.occurrencesFrom_append fun front suffix split nonempty => ?_
  cases suffix with
  | nil => exact absurd rfl nonempty
  | cons c suffix =>
    have other := plain c (by simp [split])
    simp [Pattern.call, Pattern.identifier?, other]

/-- A word is no call when neither an argument list nor type arguments follow it. -/
theorem word {text : List Char} (word : ∀ c ∈ text, continuesIdentifier c = true)
    (stop : rest.head?.any continuesIdentifier = false)
    (plain : ∀ c ∈ (Text.trimStart rest).head?, c ≠ '(' ∧ c ≠ '<') : Passes text rest [] := by
  intro before _
  refine ⟨[], ?_, rfl, by simp⟩
  rw [List.nil_append]
  refine Text.occurrencesFrom_append fun front suffix split nonempty => ?_
  cases suffix with
  | nil => exact absurd rfl nonempty
  | cons c suffix =>
    have inside : ∀ d ∈ suffix, continuesIdentifier d = true := fun d member => word d (by simp [split, member])
    have taken : (suffix ++ rest).takeWhile continuesIdentifier = suffix ∧
        (suffix ++ rest).dropWhile continuesIdentifier = rest := by
      rw [List.takeWhile_append_of_pos inside, List.dropWhile_append_of_pos inside]
      cases rest with
      | nil => simp
      | cons d rest =>
        have other : continuesIdentifier d = false := stop
        simp [other]
    have none : Pattern.mark? '(' (Pattern.skipTypeArguments (Text.trimStart rest)) = none := by
      cases shown : Text.trimStart rest with
      | nil => rfl
      | cons d left =>
        rw [shown] at plain
        obtain ⟨round, angle⟩ := plain d rfl
        have kept : Pattern.skipTypeArguments (d :: left) = d :: left := by
          unfold Pattern.skipTypeArguments
          split
          · rename_i same
            exact absurd (List.cons.inj same).1 angle
          · rfl
        rw [kept, Pattern.mark?, if_neg round]
    rw [List.cons_append]
    simp only [Pattern.call, Pattern.identifier?, taken]
    split
    · simp [none]
    · rfl

theorem callee (identifier : Identifier) : Passes (identifier.text ++ ['(']) rest [identifier.text] := by
  intro before starts
  obtain ⟨first, more, same, begins⟩ := identifier.exists_cons
  have inside : ∀ c ∈ more, continuesIdentifier c = true := by
    intro c member
    exact identifier.continues c (by simp [same, member])
  have free : isWordBefore before.head? = false := by
    by_contra word
    have other := starts (by simpa using word)
    rw [same] at other
    exact absurd (begins.symm.trans other) (by simp)
  have hit : Pattern.call before (first :: ((more ++ ['(']) ++ rest)) = some ((before.head?, first :: more), rest) := by
    have read : Pattern.identifier? (first :: ((more ++ ['(']) ++ rest)) = some (first :: more, '(' :: rest) := by
      have bracket : continuesIdentifier '(' = false := by decide
      rw [List.append_assoc, List.singleton_append, Pattern.identifier?, if_pos begins,
        List.takeWhile_append_of_pos inside, List.dropWhile_append_of_pos inside]
      simp [bracket]
    simp only [Pattern.call, read]
    rfl
  refine ⟨[(before.head?, first :: more)], ?_, by simp [same], by simpa using free⟩
  have shape : identifier.text ++ ['('] ++ rest = first :: ((more ++ ['(']) ++ rest) := by simp [same]
  rw [shape, Text.occurrencesFrom_hit hit, same]
  simp

end Passes

theorem starts_of_isBlank {c : Char} (blank : Text.isBlank c = true) : startsIdentifier c = false := by
  by_contra starts
  rw [isBlank_of_joins (joins_of_starts (by simpa using starts))] at blank
  cases blank

theorem isAlphanumeric_of_isBlank {c : Char} (blank : Text.isBlank c = true) : Text.isAlphanumeric c = false := by
  have word := Text.isWord_of_isBlank blank
  have numeric : ∀ point ∈ Text.blankPoints, Text.CodePoints.within Text.CodePoints.numeric point = false := by
    decide
  rw [Text.isWord] at word
  rw [Text.isAlphanumeric]
  by_cases ascii : c.toNat < 0x80
  · rw [if_pos ascii] at word ⊢
    exact (Bool.or_eq_false_iff.mp word).1
  · rw [if_neg ascii] at word ⊢
    rw [(Bool.or_eq_false_iff.mp word).1, numeric c.toNat (Text.mem_blankPoints blank)]
    rfl

theorem isWordBefore_of_isBlank {c : Char} (blank : Text.isBlank c = true) : isWordBefore (some c) = false := by
  have visible : ∀ mark ∈ ['_', '$'], Text.isBlank mark = false := by decide
  have other (mark : Char) (listed : mark ∈ ['_', '$']) : (c == mark) = false := by
    apply beq_eq_false_iff_ne.mpr
    rintro rfl
    rw [visible c listed] at blank
    cases blank
  rw [isWordBefore, Option.any_some, isAlphanumeric_of_isBlank blank, other '_' (by decide), other '$' (by decide)]
  rfl

namespace Expression

mutual

/-- Before a comma, a bracket or the end of a statement an expression calls what it calls. -/
theorem passes_text {c : Char} (stop : c ∈ [',', ')', ';']) (rest : List Char) :
    (expression : Expression) → Passes expression.text (c :: rest) expression.calls
  | name identifier => by
    have ends : ∀ c ∈ [',', ')', ';'], continuesIdentifier c = false ∧ Text.isBlank c = false ∧ c ≠ '(' ∧ c ≠ '<' := by
      decide
    obtain ⟨other, visible, plain⟩ := ends c stop
    rw [text, calls]
    refine .word identifier.continues other fun d first => ?_
    have whole : Text.trimStart (c :: rest) = c :: rest := by simp [Text.trimStart, visible]
    rw [whole] at first
    cases first
    exact plain
  | call callee arguments => by
    have shape : (call callee arguments).text =
        (callee.text ++ ['(']) ++ (Parameters.listed (texts arguments) ++ [')']) := by
      rw [text]
      simp
    have names : (call callee arguments).calls = [callee.text] ++ (callsIn arguments ++ []) := by
      rw [calls, List.append_nil]
      rfl
    have closed : Passes [')'] (c :: rest) [] := .marks (by decide)
    rw [shape, names]
    exact .behind (.callee callee) (.append (passes_listed (c :: rest) arguments) closed fun _ => rfl) (by decide)

theorem passes_listed (rest : List Char) : (expressions : List Expression) →
    Passes (Parameters.listed (texts expressions)) (')' :: rest) (callsIn expressions)
  | [] => by
    rw [texts, callsIn]
    exact .marks (by simp [Parameters.listed])
  | [last] => by
    rw [texts, texts, callsIn, callsIn, List.append_nil]
    exact passes_text (by decide) rest last
  | first :: next :: more => by
    have shape : Parameters.listed (texts (first :: next :: more)) =
        first.text ++ ([',', ' '] ++ Parameters.listed (texts (next :: more))) := by
      rw [texts, texts]
      rfl
    have names : callsIn (first :: next :: more) = first.calls ++ ([] ++ callsIn (next :: more)) := by
      rw [callsIn]
      rfl
    have between : Passes [',', ' '] (Parameters.listed (texts (next :: more)) ++ ')' :: rest) [] := .marks (by decide)
    rw [shape, names]
    refine .append (passes_text (by decide) _ first) (.append between (passes_listed rest (next :: more)) ?_)
      fun _ => rfl
    exact fun word => absurd word Bool.false_ne_true

end

end Expression

/-- The names before argument lists on a line, none of them part of a longer one. -/
def Reads (line : List Char) (names : List (List Char)) : Prop :=
  (Text.occurrences Pattern.call line).map (·.2) = names ∧
    ∀ entry ∈ Text.occurrences Pattern.call line, isWordBefore entry.1 = false

/-- Behind any indentation a text reads as it is passed. -/
theorem Passes.reads {text : List Char} {names : List (List Char)} (passed : Passes text [] names) (indent : Indent) :
    Reads (indent.blanks ++ text) names := by
  have blanks : Passes indent.blanks (text ++ []) [] := .marks fun c member => starts_of_isBlank (indent.blank c member)
  have apart : isWordBefore indent.blanks.getLast? = false := by
    cases last : indent.blanks.getLast? with
    | none => rfl
    | some c => exact isWordBefore_of_isBlank (indent.blank c (List.mem_of_getLast? last))
  have whole : Passes (indent.blanks ++ text) [] ([] ++ names) := blanks.append passed (by simp [apart])
  obtain ⟨found, passes, same, free⟩ := whole [] (by simp [isWordBefore])
  rw [List.append_nil, occurrencesFrom, List.append_nil] at passes
  rw [Reads, Text.occurrences, passes]
  exact ⟨same, free⟩

theorem Expression.reads_line (expression : Expression) (indent : Indent) :
    Reads (indent.blanks ++ (expression.text ++ [';'])) expression.calls := by
  have ended : Passes [';'] [] [] := .marks (by decide)
  have whole := (expression.passes_text (by decide) []).append ended fun _ => by decide
  rw [List.append_nil] at whole
  exact whole.reads indent

namespace Header

theorem reads_closing (header : Header) (indent : Indent) : Reads (indent.blanks ++ header.closing) [] := by
  have plain : ∀ c ∈ header.closing, startsIdentifier c = false := by
    have brace : ∀ c ∈ ['}'], startsIdentifier c = false := by decide
    have ended : ∀ c ∈ ['}', ';'], startsIdentifier c = false := by decide
    cases header with
    | function name parameters => exact brace
    | arrow name parameters => exact ended
    | branch condition => exact brace
  exact (Passes.marks plain).reads indent

theorem passes_parameters (parameters : List Identifier) (rest : List Char) :
    Passes (Parameters.listed (parameters.map (·.text)) ++ [')']) rest [] := by
  have inside := Expression.passes_listed rest (parameters.map .name)
  rw [Expression.callsIn_names, Expression.texts_names] at inside
  have closed : Passes [')'] rest [] := .marks (by decide)
  exact inside.append closed fun _ => rfl

/-- The names that are read on the line of a header: one that it defines, or those of its condition. -/
def readNames : Header → List (List Char)
  | function name _ => [name.text]
  | arrow _ _ => []
  | branch condition => ['i', 'f'] :: condition.calls

/-- A keyword in front of a name is no call. -/
theorem passes_keyword {word : List Char} (chars : ∀ c ∈ word, continuesIdentifier c = true) (name : Identifier)
    (rest : List Char) : Passes (word ++ [' ']) (name.text ++ rest) [] := by
  have blank : Passes [' '] (name.text ++ rest) [] := .marks (by decide)
  refine Passes.append (.word chars rfl fun c first => ?_) blank fun _ => rfl
  obtain ⟨start, more, same, starts⟩ := name.exists_cons
  have shown : Text.trimStart ([' '] ++ (name.text ++ rest)) = name.text ++ rest := by
    refine Text.trimStart_append (by decide) fun d leads => ?_
    rw [same] at leads
    cases leads
    exact isBlank_of_joins (joins_of_starts starts)
  rw [shown, same] at first
  cases first
  exact ⟨ne_of_joins (joins_of_starts starts) (by decide), ne_of_joins (joins_of_starts starts) (by decide)⟩

theorem passes_condition (rest : List Char) : Passes conditionWord rest [['i', 'f']] := by
  intro before starts
  have free : isWordBefore before.head? = false := by
    by_contra word
    exact absurd (starts (by simpa using word)) (by decide)
  have hit : Pattern.call before ('i' :: (['f', ' ', '('] ++ rest)) = some ((before.head?, ['i', 'f']), rest) := rfl
  exact ⟨[(before.head?, ['i', 'f'])], Text.occurrencesFrom_hit hit, rfl, by simpa using free⟩

theorem reads_line (header : Header) (indent : Indent) : Reads (indent.blanks ++ header.text) header.readNames := by
  refine Passes.reads ?_ indent
  cases header with
  | function name parameters =>
    have brace : Passes [' ', '{'] [] [] := .marks (by decide)
    have tail := (passes_parameters parameters _).append brace fun _ => rfl
    have rest := Passes.behind (.callee name) tail (by decide)
    have word : ∀ c ∈ functionWord.dropLast, continuesIdentifier c = true := by decide
    have whole := Passes.behind (by simpa using passes_keyword word name _) rest (by decide)
    simpa [text, functionWord, bracketed, readNames] using whole
  | arrow name parameters =>
    have brace : Passes [' ', '=', '>', ' ', '{'] [] [] := .marks (by decide)
    have tail := (passes_parameters parameters _).append brace fun _ => rfl
    have equals (rest : List Char) : Passes ([' ', '=', ' '] ++ ['(']) rest [] := .marks (by decide)
    have value := (equals _).behind tail (by decide)
    have named := Passes.append (.word name.continues rfl (by rintro c ⟨⟩; decide)) value fun _ => rfl
    have word : ∀ c ∈ constantWord.dropLast, continuesIdentifier c = true := by decide
    have whole := Passes.behind (by simpa using passes_keyword word name _) named (by decide)
    simpa [text, constantWord, bracketed, readNames] using whole
  | branch condition =>
    have brace : Passes [')', ' ', '{'] [] [] := .marks (by decide)
    have tested := (condition.passes_text (by decide) _).append brace fun _ => rfl
    have whole := (passes_condition _).append tested fun word => absurd word (by decide)
    simpa [text, readNames] using whole

end Header

end CallAtlas.Script.Structured

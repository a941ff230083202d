import CallAtlas.Proofs.BlockWords
import CallAtlas.Proofs.CodeLines
import CallAtlas.Proofs.RubyGrammar

/-! What the lines of a well-nested program do: each is read as it is printed, and its form decides how it changes
the nesting of blocks. -/
namespace CallAtlas.Ruby.Grammar

open Block
open Text (words atWordEnd)

variable {parts : List Part} {known : List String}

theorem mem_of_isBalanced {opened : Nat} {text : List Char} (positive : 0 < opened)
    (balanced : isBalanced opened text = true) : ')' ∈ text := by
  induction text generalizing opened with
  | nil =>
    simp [isBalanced] at balanced
    omega
  | cons c rest ih =>
    rw [isBalanced] at balanced
    split at balanced
    · exact List.mem_cons_of_mem c (ih (Nat.succ_pos opened) balanced)
    · split at balanced
      · next same => simp [same]
      · exact List.mem_cons_of_mem c (ih positive balanced)

/-- Every bracket that is opened is closed further on. -/
theorem mem_of_isBalanced_append {opened : Nat} {front rest : List Char}
    (balanced : isBalanced opened (front ++ '(' :: rest) = true) : ')' ∈ rest := by
  induction front generalizing opened with
  | nil => exact mem_of_isBalanced (Nat.succ_pos opened) (by simpa [isBalanced] using balanced)
  | cons c front ih =>
    rw [List.cons_append, isBalanced] at balanced
    split at balanced
    · exact ih balanced
    · split at balanced
      · exact ih (Bool.and_eq_true_iff.mp balanced).2
      · exact ih balanced

theorem isBalanced_append_blanks {opened : Nat} {text : List Char} (count : Nat) :
    isBalanced opened (text ++ List.replicate count ' ') = isBalanced opened text := by
  induction text generalizing opened with
  | nil =>
    induction count with
    | zero => rfl
    | succ count ih => simpa [List.replicate_succ, isBalanced] using ih
  | cons c text ih => simp only [List.cons_append, isBalanced, ih]

theorem isWord_of_startsWord {c : Char} (starts : startsWord c = true) : Text.isWord c = true :=
  (Bool.and_eq_true_iff.mp starts).1

namespace IsExpression

variable {text : List Char}

theorem exists_cons (valid : IsExpression text) :
    ∃ first rest, text = first :: rest ∧ startsWord first = true := by
  have starts := valid.starts
  cases text with
  | nil => simp at starts
  | cons first rest => exact ⟨first, rest, rfl, by simpa using starts⟩

theorem blank_eq (valid : IsExpression text) {c : Char} (member : c ∈ text) (blank : Text.isBlank c = true) : c = ' ' := by
  rcases valid.chars c member with name | mark
  · rw [Text.isBlank_of_isWord name] at blank
    cases blank
  · simp only [List.mem_cons, List.not_mem_nil, or_false] at mark
    rcases mark with rfl | rfl | rfl | rfl
    · cases blank
    · rfl
    · cases blank
    · cases blank

/-- An expression without the blanks at its end is an expression. -/
theorem trimEnd (valid : IsExpression text) : IsExpression (Text.trimEnd text) := by
  obtain ⟨blanks, split, blank⟩ := Text.exists_trimEnd_append text
  have spaces : blanks = List.replicate blanks.length ' ' :=
    List.eq_replicate_of_mem fun c member =>
      valid.blank_eq (by rw [split]; exact List.mem_append_right _ member) (blank c member)
  rw [spaces] at split
  refine ⟨?_, ?_, ?_, ?_⟩
  · obtain ⟨first, rest, same, starts⟩ := valid.exists_cons
    cases kept : Text.trimEnd text with
    | nil =>
      -- Nothing but blanks would be left, and a name does not start with one.
      have member : first ∈ List.replicate blanks.length ' ' := by
        rw [kept, List.nil_append] at split
        rw [← split, same]
        exact List.mem_cons_self
      rw [List.eq_of_mem_replicate member] at starts
      cases starts
    | cons c more =>
      rw [kept, same, List.cons_append] at split
      rw [← (List.cons.inj split).1]
      simpa using starts
  · intro c member
    exact valid.chars c (by rw [split]; exact List.mem_append_left _ member)
  · intro word member
    apply valid.free word
    rw [split]
    cases blanks.length with
    | zero => simpa using member
    | succ count =>
      rw [List.replicate_succ, Text.words_append_cons _ (by decide)]
      exact List.mem_append_left _ member
  · rw [← isBalanced_append_blanks blanks.length, ← split]
    exact valid.balanced

end IsExpression

theorem Keyword.made (keyword : Keyword) : ∀ c ∈ keyword.text.toList, Text.isWord c = true := by
  cases keyword <;> decide

theorem Keyword.mem_all (keyword : Keyword) : keyword ∈ Keyword.all := by
  cases keyword <;> decide

theorem spaced_cons_cons (part next : Part) (rest : List Part) :
    spaced (part :: next :: rest) = part.text ++ ' ' :: spaced (next :: rest) := rfl

/-- Every word of a text is free or one of some given words. -/
def Spelled (text : List Char) (known : List String) : Prop :=
  ∀ word ∈ words text, isFree word = true ∨ ∃ other ∈ known, word = other.toList

namespace Spelled

variable {text rest : List Char}

theorem absent (spelled : Spelled text known) {word : String} (reserved : isFree word.toList = false)
    (missing : word ∉ known) : word.toList ∉ words text := by
  intro member
  rcases spelled _ member with free | ⟨other, listed, same⟩
  · rw [reserved] at free
    cases free
  · exact missing (String.toList_inj.mp same ▸ listed)

theorem nil : Spelled [] known := by
  intro word member
  rw [words, List.mem_singleton] at member
  exact .inl (member ▸ by decide)

theorem append_cons (spelled : Spelled text known) {mark : Char} (other : Text.isWord mark = false)
    (later : Spelled rest known) : Spelled (text ++ mark :: rest) known := by
  intro word member
  rw [Text.words_append_cons text other, List.mem_append] at member
  exact member.elim (spelled word) (later word)

theorem name (name : Name) : Spelled name.text known := by
  intro word member
  rw [Text.words_eq_singleton name.chars, List.mem_singleton] at member
  exact .inl (member ▸ name.free)

theorem value (value : Expression) : Spelled value.text known := fun word member =>
  .inl (value.valid.free word member)

theorem word {word : String} (made : ∀ c ∈ word.toList, Text.isWord c = true) (listed : word ∈ known) :
    Spelled word.toList known := by
  intro other member
  rw [Text.words_eq_singleton made, List.mem_singleton] at member
  exact .inr ⟨word, listed, member⟩

theorem part {part : Part} (listed : ∀ keyword, part = .word keyword → keyword.text ∈ known) :
    Spelled part.text known := by
  cases part with
  | word keyword => exact word keyword.made (listed keyword rfl)
  | name identifier => exact .name identifier
  | value expression => exact .value expression
  | equals => exact nil.append_cons (by decide) .nil
  | bound identifier => exact nil.append_cons (by decide) ((Spelled.name identifier).append_cons (by decide) .nil)

/-- The words of a line are those of its parts. -/
theorem spaced (listed : ∀ keyword, .word keyword ∈ parts → keyword.text ∈ known) : Spelled (spaced parts) known := by
  induction parts with
  | nil => exact nil
  | cons first parts ih =>
    have own : Spelled first.text known := part fun keyword same => listed keyword (by simp [same])
    cases parts with
    | nil => exact own
    | cons next parts =>
      exact own.append_cons (by decide) (ih fun keyword member => listed keyword (List.mem_cons_of_mem first member))

/-- A text without the words of openers that can be used holds none. -/
theorem inline (spelled : Spelled text known) (missing : ∀ word ∈ inlineOpeners, word ∉ known) :
    (Text.occurrences inlineOpener text).length = 0 := by
  have reserved : ∀ word ∈ inlineOpeners, isFree word.toList = false := by decide
  have absent : ∀ word ∈ inlineOpeners, word.toList ∉ words text := fun word member =>
    spelled.absent (reserved word member) (missing word member)
  rw [occurrences_inlineOpener absent, List.length_nil]

/-- A text without `do` and `end` adds its openers to the nesting. -/
theorem delta (spelled : Spelled text known) (missing : ∀ word ∈ ["do", "end"], word ∉ known) {opened : Bool} {used : Nat}
    (opens : startsWithOpener text = opened) (full : (Header.read? text).any Header.isEndless = false)
    (inline : (Text.occurrences inlineOpener text).length = used) : Block.delta text = opened.toNat + used := by
  have iterates : keywordCount "do" text = 0 :=
    keywordCount_eq_zero (by decide) (spelled.absent (by decide) (missing "do" (by decide)))
  have ends : keywordCount "end" text = 0 :=
    keywordCount_eq_zero (by decide) (spelled.absent (by decide) (missing "end" (by decide)))
  rw [delta_eq opens full inline (by rw [iterates, ite_self]) ends]
  simp

end Spelled

/-- No line of parts is read as a header or as a change of visibility. -/
theorem unscoped_spaced (parts : List Part) : Unscoped (spaced parts) := by
  have spelled : Spelled (spaced parts) (Keyword.all.map Keyword.text) :=
    .spaced fun keyword _ => List.mem_map_of_mem keyword.mem_all
  have reserved : ∀ word ∈ visibilityWords, isFree word.toList = false := by decide
  have missing : ∀ word ∈ visibilityWords, word ∉ Keyword.all.map Keyword.text := by decide
  refine ⟨fun word member head => ?_, fun head => ?_⟩
  · exact spelled.absent (reserved word member) (missing word member) (List.mem_of_mem_head? head)
  · exact spelled.absent (by decide) (by decide) (List.mem_of_mem_head? head)

theorem head?_words_spaced (part : Part) (rest : List Part) :
    (words (spaced (part :: rest))).head? = (words part.text).head? := by
  cases rest with
  | nil => rfl
  | cons next rest =>
    obtain ⟨word, more, pieces⟩ := List.exists_cons_of_ne_nil (Text.words_ne_nil part.text)
    rw [spaced_cons_cons, Text.words_append_cons part.text (by decide), pieces, List.cons_append, List.head?_cons,
      List.head?_cons]

/-- A line opens a block by its first word only if a word that opens blocks comes first. -/
theorem startsWithOpener_eq_false {part : Part} (rest : List Part)
    (other : ∀ keyword, part = .word keyword → keyword.text ∉ openers) :
    startsWithOpener (spaced (part :: rest)) = false := by
  have reserved : ∀ word ∈ openers, isFree word.toList = false := by decide
  have spelled : Spelled part.text ((Keyword.all.map Keyword.text).filter (· ∉ openers)) :=
    .part fun keyword same =>
      List.mem_filter.mpr ⟨List.mem_map_of_mem keyword.mem_all, decide_eq_true (other keyword same)⟩
  refine (unscoped_spaced _).startsWithOpener fun word member head => ?_
  rw [head?_words_spaced] at head
  refine spelled.absent (reserved word member) (fun listed => ?_) (List.mem_of_mem_head? head)
  exact of_decide_eq_true (List.mem_filter.mp listed).2 member

theorem startsWithOpener_eq_true {keyword : Keyword} (opens : keyword.text ∈ openers) (rest : List Part) :
    startsWithOpener (spaced (.word keyword :: rest)) = true := by
  cases rest with
  | nil =>
    have alone := startsWithOpener_append opens (show atWordEnd [] = true from rfl)
    rwa [List.append_nil] at alone
  | cons next rest => exact startsWithOpener_append opens (show atWordEnd (' ' :: spaced (next :: rest)) = true from rfl)

theorem Name.unmarked (name : Name) : ∀ c ∈ name.text, c ∉ marks :=
  fun c member mark => name.avoids (isWord_marks c mark) member

theorem Keyword.unmarked (keyword : Keyword) : ∀ c ∈ keyword.text.toList, c ∉ marks :=
  fun c member mark => Text.ne_of_isWord (keyword.made c member) (isWord_marks c mark) rfl

theorem Expression.head?_not_mark (value : Expression) : ∀ c ∈ value.text.head?, c ∈ marks → c = '(' := by
  intro c head mark
  obtain ⟨first, rest, same, starts⟩ := value.valid.exists_cons
  rw [same, List.head?_cons] at head
  cases head
  exact absurd rfl (Text.ne_of_isWord (isWord_of_startsWord starts) (isWord_marks c mark))

/-- No opener in an expression is used, and none starts there. -/
theorem occurrencesFrom_expression (value : Expression) {rest : List Char} (before : List Char)
    (stop : atWordEnd rest = true) (next : ∀ c ∈ rest.head?, c ∈ marks → c = '(') :
    Text.occurrencesFrom inlineOpener before 0 (value.text ++ rest) =
      Text.occurrencesFrom inlineOpener (value.text.reverse ++ before) 0 rest := by
  have reserved : ∀ word ∈ inlineOpeners, isFree word.toList = false := by decide
  have spelled : Spelled value.text [] := .value value
  refine occurrencesFrom_inlineOpener before ?_ ?_ stop next
  · exact fun word member => spelled.absent (reserved word member) List.not_mem_nil
  · intro front mark member after split hidden
    -- Of the marks an expression holds brackets only, and a bracket is closed before the expression ends.
    have bracket : mark = '(' := by
      rcases value.valid.chars mark (by simp [split]) with name | other
      · exact absurd rfl (Text.ne_of_isWord name (isWord_marks mark member))
      · have only : ∀ c ∈ ['.', ' ', '(', ')'], c ∈ marks → c = '(' := by decide
        exact only mark other member
    rw [bracket] at split
    have closed : ')' ∈ after := mem_of_isBalanced_append (split ▸ value.valid.balanced)
    cases List.dropWhile_eq_nil_iff.mp hidden ')' closed

/-- An expression after a text without marks. -/
theorem occurrencesFrom_unmarked_expression {text : List Char} (unmarked : ∀ c ∈ text, c ∉ marks) (value : Expression)
    (before : List Char) : Text.occurrencesFrom inlineOpener before 0 (text ++ value.text) = [] := by
  rw [occurrencesFrom_inlineOpener_unmarked before unmarked value.head?_not_mark]
  exact Text.occurrencesFrom_eq_nil (occurrencesFrom_expression value _ rfl (by simp))

/-- A word before an expression is no opener that is used. -/
theorem inline_word_value (keyword : Keyword) (value : Expression) :
    (Text.occurrences inlineOpener (spaced [.word keyword, .value value])).length = 0 := by
  have unmarked : ∀ c ∈ keyword.text.toList ++ [' '], c ∉ marks :=
    List.forall_mem_append.mpr ⟨keyword.unmarked, by decide⟩
  have passed := occurrencesFrom_unmarked_expression unmarked value []
  rw [List.append_assoc] at passed
  exact List.length_eq_zero_iff.mpr passed

/-- Nor is a word between two expressions. -/
theorem inline_guarded (value condition : Expression) (keyword : Keyword) :
    (Text.occurrences inlineOpener (spaced [.value value, .word keyword, .value condition])).length = 0 := by
  have unmarked : ∀ c ∈ ' ' :: (keyword.text.toList ++ [' ']), c ∉ marks :=
    List.forall_mem_cons.mpr ⟨by decide, List.forall_mem_append.mpr ⟨keyword.unmarked, by decide⟩⟩
  have line : spaced [.value value, .word keyword, .value condition] =
      value.text ++ (' ' :: (keyword.text.toList ++ [' ']) ++ condition.text) := by
    simp [spaced, Part.text]
  rw [line, Text.occurrences, occurrencesFrom_expression value [] rfl (by simp [marks]),
    occurrencesFrom_unmarked_expression unmarked, List.length_nil]

/-- An opener whose value is assigned is used, once. -/
theorem inline_assigned (target : Name) (condition : Expression) :
    (Text.occurrences inlineOpener
      (spaced [.name target, .equals, .word .ifWord, .value condition])).length = 1 := by
  have line : spaced [.name target, .equals, .word .ifWord, .value condition] =
      target.text ++ ' ' :: ("= if".toList ++ ([' '] ++ condition.text)) := by
    simp [spaced, Part.text, Keyword.text]
  have hit (before : List Char) : inlineOpener before (' ' :: ("= if".toList ++ ([' '] ++ condition.text))) =
      some ((), [' '] ++ condition.text) := rfl
  rw [line, Text.occurrences, occurrencesFrom_inlineOpener_unmarked [] target.unmarked (by simp [marks]),
    Text.occurrencesFrom_hit (hit _), occurrencesFrom_unmarked_expression (by decide), List.length_singleton]

/-- Of the expressions, those that start with a loop word and a mark are taken for headers of loops. -/
theorem startsWithLoop_expression (value : Expression) {rest : List Char} (stop : atWordEnd rest = true) :
    startsWithLoop (value.text ++ rest) = startsMarkedLoop value.text := by
  have made : ∀ word ∈ loops, ∀ c ∈ word.toList, Text.isWord c = true := by decide
  have reserved : ∀ word ∈ loops, isFree word.toList = false := by decide
  rw [startsWithLoop, startsMarkedLoop, Bool.eq_iff_iff, List.any_eq_true, List.any_eq_true]
  refine exists_congr fun word => and_congr_right fun member => Bool.eq_iff_iff.mp ?_
  cases own : Text.after? word value.text with
  | none =>
    cases found : Text.after? word (value.text ++ rest) with
    | none => rfl
    | some left =>
      obtain ⟨more, same, _⟩ := Text.append_eq_append_word (Text.after?_eq_some.mp found) (made word member) stop
      rw [Text.after?_eq_some.mpr same] at own
      cases own
  | some more =>
    have same := Text.after?_eq_some.mp own
    have found : Text.after? word (value.text ++ rest) = some (more ++ rest) := by
      rw [same, List.append_assoc, Text.after?_append]
    -- The word goes on in the expression, since it is none of its words.
    have inside : atWordEnd more = false := by
      by_contra ends
      have head := Text.head?_words_of_after? (made word member) own (Bool.not_eq_false _ ▸ ends : atWordEnd more = true)
      have free := value.valid.free word.toList (List.mem_of_mem_head? head)
      rw [reserved word member] at free
      cases free
    cases more with
    | nil => cases inside
    | cons c more =>
      have wordChar : Text.isWord c = true := by simpa [atWordEnd] using inside
      simp [found, wordChar]

/-- The `do` after an expression counts once. -/
theorem keywordCount_iteration (value : Expression) (bound : Name) :
    keywordCount "do" (spaced [.value value, .word .doWord, .bound bound]) = 1 := by
  have spelled : Spelled (' ' :: Part.text (.bound bound)) [] :=
    Spelled.nil.append_cons (by decide) (.part fun keyword same => by cases same)
  generalize last : ' ' :: Part.text (.bound bound) = rest at spelled
  have line : spaced [.value value, .word .doWord, .bound bound] = value.text ++ ' ' :: 'd' :: (['o'] ++ rest) := by
    rw [← last]
    rfl
  have own : Spelled value.text [] := .value value
  have front : Text.occurrencesFrom (keyword "do") [] 0 (value.text ++ ' ' :: 'd' :: (['o'] ++ rest)) =
      Text.occurrencesFrom (keyword "do") (value.text.reverse ++ []) 0 (' ' :: 'd' :: (['o'] ++ rest)) :=
    occurrencesFrom_keyword [] (by decide) (own.absent (by decide) List.not_mem_nil) rfl
  have back (before : List Char) : Text.occurrencesFrom (keyword "do") before 0 rest = [] :=
    Text.occurrencesFrom_eq_nil
      (occurrencesFrom_keyword before (by decide) (spelled.absent (by decide) List.not_mem_nil) rfl)
  have blank (before : List Char) : keyword "do" before (' ' :: 'd' :: (['o'] ++ rest)) = none := rfl
  have hit (before : List Char) : keyword "do" (' ' :: before) ('d' :: (['o'] ++ rest)) = some (true, rest) := by
    rw [← last]
    rfl
  rw [keywordCount, Text.occurrences, line, front, Text.occurrencesFrom, blank]
  simp only
  rw [Text.occurrencesFrom_hit (hit _), back]
  rfl

/-- The keywords of a line are among some given ones. -/
def Uses (parts : List Part) (keywords : List Keyword) : Prop := ∀ keyword, .word keyword ∈ parts → keyword ∈ keywords

namespace Uses

variable {keywords : List Keyword}

theorem spelled (uses : Uses parts keywords) : Spelled (spaced parts) (keywords.map Keyword.text) :=
  .spaced fun keyword member => List.mem_map_of_mem (uses keyword member)

/-- A line without `do` and `end` adds its openers to the nesting. -/
theorem delta (uses : Uses parts keywords) (missing : ∀ word ∈ ["do", "end"], word ∉ keywords.map Keyword.text)
    {opened : Bool} {used : Nat} (opens : startsWithOpener (spaced parts) = opened)
    (inline : (Text.occurrences inlineOpener (spaced parts)).length = used) :
    Block.delta (spaced parts) = opened.toNat + used := by
  refine uses.spelled.delta missing opens ?_ inline
  rw [(unscoped_spaced parts).read?]
  rfl

end Uses

theorem Plain.delta_parts (line : Plain) : delta (spaced line.parts) = 0 := by
  cases line with
  | statement value =>
    have uses : Uses [.value value] [] := by simp [Uses]
    exact uses.delta (by decide) (startsWithOpener_eq_false _ (by simp)) (uses.spelled.inline (by decide))
  | assignment target value =>
    have uses : Uses [.name target, .equals, .value value] [] := by simp [Uses]
    exact uses.delta (by decide) (startsWithOpener_eq_false _ (by simp)) (uses.spelled.inline (by decide))
  | guarded value word known condition =>
    have uses : Uses [.value value, .word word, .value condition] [.ifWord, .unlessWord] := by simpa [Uses] using known
    exact uses.delta (by decide) (startsWithOpener_eq_false _ (by simp)) (inline_guarded value condition word)
  | guardedReturn condition =>
    have uses : Uses [.word .returnWord, .word .ifWord, .value condition] [.returnWord, .ifWord] := by simp [Uses]
    have unmarked : ∀ c ∈ "return if ".toList, c ∉ marks := by decide
    have inline : (Text.occurrences inlineOpener
        (spaced [.word .returnWord, .word .ifWord, .value condition])).length = 0 :=
      List.length_eq_zero_iff.mpr (occurrencesFrom_unmarked_expression unmarked condition [])
    exact uses.delta (by decide) (startsWithOpener_eq_false _ (by rintro _ ⟨⟩; decide)) inline
  | otherwise => decide
  | branch word known condition =>
    have uses : Uses [.word word, .value condition] [.elsifWord, .whenWord] := by simpa [Uses] using known
    have closed : ∀ word ∈ [Keyword.elsifWord, .whenWord], word.text ∉ openers := by decide
    exact uses.delta (by decide) (startsWithOpener_eq_false _ (by rintro _ ⟨⟩; exact closed word known))
      (inline_word_value word condition)

/-- An opener opens one block, unless its `do` is hidden. -/
theorem Opener.delta_parts (line : Opener) : delta (spaced line.parts) = 1 - line.isHidden.toNat := by
  cases line with
  | conditional word known condition =>
    have uses : Uses [.word word, .value condition] [.ifWord, .unlessWord, .whileWord, .untilWord, .caseWord] := by
      simpa [Uses] using known
    have opens : ∀ word ∈ [Keyword.ifWord, .unlessWord, .whileWord, .untilWord, .caseWord], word.text ∈ openers := by
      decide
    exact uses.delta (by decide) (startsWithOpener_eq_true (opens word known) _) (inline_word_value word condition)
  | sequence => decide
  | iteration value bound =>
    have uses : Uses [.value value, .word .doWord, .bound bound] [.doWord] := by simp [Uses]
    have loop : startsWithLoop (spaced [.value value, .word .doWord, .bound bound]) = startsMarkedLoop value.text :=
      startsWithLoop_expression value rfl
    have ends : keywordCount "end" (spaced [.value value, .word .doWord, .bound bound]) = 0 :=
      keywordCount_eq_zero (by decide) (uses.spelled.absent (by decide) (by decide))
    rw [parts, delta_eq (startsWithOpener_eq_false _ (by simp)) (by rw [(unscoped_spaced _).read?]; rfl)
      (uses.spelled.inline (by decide)) (by rw [loop, keywordCount_iteration]) ends]
    cases hidden : startsMarkedLoop value.text <;> simp [isHidden, hidden]
  | assignment target condition =>
    have uses : Uses [.name target, .equals, .word .ifWord, .value condition] [.ifWord] := by simp [Uses]
    exact uses.delta (by decide) (startsWithOpener_eq_false _ (by simp)) (inline_assigned target condition)

theorem delta_end : delta (spaced [.word .endWord]) = -1 := by decide

theorem Part.exists_cons (part : Part) : ∃ first rest, part.text = first :: rest ∧ Text.isBlank first = false := by
  cases part with
  | word keyword => cases keyword <;> exact ⟨_, _, rfl, by decide⟩
  | name identifier =>
    obtain ⟨first, rest, same, starts⟩ := identifier.exists_cons
    exact ⟨first, rest, same, Text.isBlank_of_isWord (isWord_of_startsWord starts)⟩
  | value expression =>
    obtain ⟨first, rest, same, starts⟩ := expression.valid.exists_cons
    exact ⟨first, rest, same, Text.isBlank_of_isWord (isWord_of_startsWord starts)⟩
  | equals => exact ⟨_, _, rfl, by decide⟩
  | bound identifier => exact ⟨_, _, rfl, by decide⟩

theorem exists_spaced_eq_cons (part : Part) (rest : List Part) :
    ∃ first more, spaced (part :: rest) = first :: more ∧ part.text.head? = some first ∧ Text.isBlank first = false := by
  obtain ⟨first, more, same, visible⟩ := part.exists_cons
  cases rest with
  | nil => exact ⟨first, more, same, by rw [same, List.head?_cons], visible⟩
  | cons next rest =>
    exact ⟨first, more ++ ' ' :: spaced (next :: rest), by rw [spaced_cons_cons, same, List.cons_append],
      by rw [same, List.head?_cons], visible⟩

/-- An expression without the blanks at its end. -/
def Expression.tidy (value : Expression) : Expression := ⟨Text.trimEnd value.text, value.valid.trimEnd⟩

def Part.tidy : Part → Part
  | value expression => .value expression.tidy
  | part => part

/-- Parts of which the last has no blanks at its end. -/
def tidied : List Part → List Part
  | [] => []
  | [part] => [part.tidy]
  | part :: rest => part :: tidied rest

theorem tidied_cons_cons (part next : Part) (rest : List Part) :
    tidied (part :: next :: rest) = part :: tidied (next :: rest) := rfl

theorem Name.visible (name : Name) : ∀ c ∈ name.text, Text.isBlank c = false :=
  fun c member => Text.isBlank_of_isWord (name.chars c member)

theorem Part.trimEnd_text (part : Part) : Text.trimEnd part.text = part.tidy.text := by
  cases part with
  | word keyword => cases keyword <;> decide
  | name identifier => exact Text.dropEndWhile_eq_self identifier.visible
  | value expression => rfl
  | equals => decide
  | bound identifier => exact Text.trimEnd_concat (by decide) ('|' :: identifier.text)

theorem spaced_ne_nil {parts : List Part} (nonempty : parts ≠ []) : spaced parts ≠ [] := by
  cases parts with
  | nil => exact absurd rfl nonempty
  | cons part rest =>
    obtain ⟨first, more, same, _⟩ := exists_spaced_eq_cons part rest
    simp [same]

theorem tidied_ne_nil {parts : List Part} (nonempty : parts ≠ []) : tidied parts ≠ [] := by
  cases parts with
  | nil => exact absurd rfl nonempty
  | cons part rest => cases rest <;> simp [tidied]

/-- The blanks at the end of a line are those at the end of its last part. -/
theorem trimEnd_spaced (parts : List Part) : Text.trimEnd (spaced parts) = spaced (tidied parts) := by
  induction parts with
  | nil => rfl
  | cons part rest ih =>
    cases rest with
    | nil => exact part.trimEnd_text
    | cons next rest =>
      have some : tidied (next :: rest) ≠ [] := tidied_ne_nil (by simp)
      have visible : Text.trimEnd (spaced (next :: rest)) ≠ [] := ih ▸ spaced_ne_nil some
      obtain ⟨first, more, same⟩ := List.exists_cons_of_ne_nil some
      have front : spaced (part :: next :: rest) = (part.text ++ [' ']) ++ spaced (next :: rest) := by
        simp [spaced_cons_cons]
      rw [front, Text.trimEnd_append visible, ih, tidied_cons_cons, same, spaced_cons_cons, List.append_assoc,
        List.singleton_append]

/-- A line is trimmed to its parts. -/
theorem trim_line (indent : Indent) (parts : List Part) : Text.trim (indent.line parts) = spaced (tidied parts) := by
  have blank : ∀ c ∈ indent.blanks, Text.isBlank c = true := fun c member => (indent.blank c member).1
  have visible : ∀ c ∈ (spaced parts).head?, Text.isBlank c = false := by
    cases parts with
    | nil => simp [spaced]
    | cons part rest =>
      obtain ⟨first, more, same, _, visible⟩ := exists_spaced_eq_cons part rest
      rw [same]
      rintro c ⟨⟩
      exact visible
  rw [Text.trim, Indent.line, Text.trimStart_append blank visible, trimEnd_spaced]

/-- Words, and the marks that stand between them. -/
def Printable (text : List Char) : Prop :=
  ∀ c ∈ text, Text.isWord c = true ∨ c ∈ ['.', ' ', '(', ')', '=', '|', ',']

namespace Printable

theorem append {text rest : List Char} (printable : Printable text) (later : Printable rest) :
    Printable (text ++ rest) := List.forall_mem_append.mpr ⟨printable, later⟩

theorem made {text : List Char} (all : ∀ c ∈ text, Text.isWord c = true) : Printable text :=
  fun c member => .inl (all c member)

theorem marks {text : List Char} (all : ∀ c ∈ text, c ∈ ['.', ' ', '(', ')', '=', '|', ',']) : Printable text :=
  fun c member => .inr (all c member)

theorem part (part : Part) : Printable part.text := by
  cases part with
  | word keyword => exact made keyword.made
  | name identifier => exact made identifier.chars
  | value expression =>
    have marks : ∀ c ∈ ['.', ' ', '(', ')'], c ∈ ['.', ' ', '(', ')', '=', '|', ','] := by decide
    exact fun c member => (expression.valid.chars c member).imp_right (marks c)
  | equals => exact marks (by decide)
  | bound identifier =>
    exact (marks (by decide : ∀ c ∈ ['|'], _)).append ((made identifier.chars).append (marks (by decide)))

theorem spaced (parts : List Part) : Printable (spaced parts) := by
  induction parts with
  | nil => exact marks (by decide)
  | cons first parts ih =>
    cases parts with
    | nil => exact part first
    | cons next parts => exact (part first).append ((marks (by decide : ∀ c ∈ [' '], _)).append ih)

end Printable

theorem Printable.not_special {text : List Char} (printable : Printable text) : ∀ c ∈ text, c ∉ specials := by
  have words : ∀ c ∈ specials, Text.isWord c = false := by decide
  have marks : ∀ c ∈ ['.', ' ', '(', ')', '=', '|', ','], c ∉ specials := by decide
  intro c member
  rcases printable c member with word | mark
  · exact fun special => Text.ne_of_isWord word (words c special) rfl
  · exact marks c mark

theorem Indent.not_special (indent : Indent) : ∀ c ∈ indent.blanks, c ∉ specials := by
  have visible : ∀ c ∈ specials, Text.isBlank c = true → c = '\n' := by decide
  intro c member special
  obtain ⟨blank, other⟩ := indent.blank c member
  exact other (visible c special blank)

/-- A printed text after an indentation is code. -/
theorem Printable.code {text : List Char} (printable : Printable text) (indent : Indent) (nonempty : text ≠ [])
    (head : text.head? ≠ some '=') : Code (indent.blanks ++ text) := by
  refine ⟨List.forall_mem_append.mpr ⟨indent.not_special, printable.not_special⟩, ?_, ?_⟩
  · cases blanks : indent.blanks with
    | nil => exact head
    | cons c more =>
      have blank : Text.isBlank c = true := (indent.blank c (by simp [blanks])).1
      rintro ⟨⟩
      cases blank
  · rcases List.eq_nil_or_concat text with none | ⟨front, last, same⟩
    · exact absurd none nonempty
    · rw [List.concat_eq_append] at same
      rw [same, ← List.append_assoc, List.getLast?_concat]
      rintro ⟨⟩
      have known := printable '\r' (by simp [same])
      revert known
      decide

theorem code_line (indent : Indent) {part : Part} (other : part ≠ .equals) (rest : List Part) :
    Code (indent.line (part :: rest)) := by
  refine (Printable.spaced (part :: rest)).code indent (spaced_ne_nil (by simp)) ?_
  obtain ⟨first, more, same, head, _⟩ := exists_spaced_eq_cons part rest
  rw [same, List.head?_cons]
  rintro ⟨⟩
  cases part with
  | word keyword => cases keyword <;> cases head
  | name identifier =>
    have starts := identifier.begins
    rw [show identifier.text.head? = some '=' from head] at starts
    cases starts
  | value expression =>
    have starts := expression.valid.starts
    rw [show expression.text.head? = some '=' from head] at starts
    cases starts
  | equals => exact other rfl
  | bound identifier => cases head

end CallAtlas.Ruby.Grammar

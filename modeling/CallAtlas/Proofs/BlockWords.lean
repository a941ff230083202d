import CallAtlas.Proofs.Words
import CallAtlas.Ruby.Definitions

/-! How a line changes the nesting of blocks, told by its words. A word that opens or closes a block is found where
it stands as a word of the line, so a line without such words changes nothing. -/
namespace CallAtlas.Ruby.Block

open Text

theorem wholeWord?_eq_none {known : List String} {line : List Char}
    (made : ∀ word ∈ known, ∀ c ∈ word.toList, isWord c = true)
    (other : ∀ word ∈ known, (words line).head? ≠ some word.toList) : wholeWord? known line = none := by
  rw [wholeWord?, List.findSome?_eq_none_iff]
  intro word member
  cases found : after? word line with
  | none => rfl
  | some rest =>
    have inside : atWordEnd rest = false := by
      by_contra stop
      exact other word member (head?_words_of_after? (made word member) found (by simpa using stop))
    simp [inside]

theorem wholeWord?_isSome {known : List String} {word : String} {rest : List Char} (member : word ∈ known)
    (stop : atWordEnd rest = true) : (wholeWord? known (word.toList ++ rest)).isSome = true := by
  rw [wholeWord?, List.findSome?_isSome_iff]
  exact ⟨word, member, by simp [after?_append, stop]⟩

theorem exists_of_wholeWord? {known : List String} {line left : List Char} (found : wholeWord? known line = some left) :
    ∃ word ∈ known, line = word.toList ++ left ∧ atWordEnd left = true := by
  obtain ⟨word, member, read⟩ := List.exists_of_findSome?_eq_some found
  split at read
  · next rest after =>
    split at read
    · next stop =>
      cases read
      exact ⟨word, member, after?_eq_some.mp after, stop⟩
    · cases read
  · cases read

/-- A keyword starts nowhere in a text of which it is no word. -/
theorem occurrencesFrom_keyword {word : String} {text rest : List Char} (before : List Char)
    (made : ∀ c ∈ word.toList, isWord c = true) (absent : word.toList ∉ words text) (stop : atWordEnd rest = true) :
    occurrencesFrom (keyword word) before 0 (text ++ rest) =
      occurrencesFrom (keyword word) (text.reverse ++ before) 0 rest := by
  apply occurrencesFrom_append
  intro front suffix split nonempty
  unfold keyword
  cases found : after? word (suffix ++ rest) with
  | none => rfl
  | some left =>
    simp only
    rw [if_neg]
    intro bounds
    obtain ⟨start, ends⟩ := Bool.and_eq_true_iff.mp bounds
    obtain ⟨more, same, beyond⟩ := append_eq_append_word (after?_eq_some.mp found) made stop
    -- Both boundaries lie in the text, so the word would be one of its words.
    apply absent
    rw [split, same]
    refine mem_words made ?_ (atWordEnd_left (beyond ▸ ends))
    cases reversed : front.reverse with
    | nil => rfl
    | cons c others =>
      rw [reversed] at start
      exact start

theorem keywordCount_eq_zero {word : String} {line : List Char} (made : ∀ c ∈ word.toList, isWord c = true)
    (absent : word.toList ∉ words line) : keywordCount word line = 0 := by
  rw [keywordCount, occurrences, occurrencesFrom_eq_nil (occurrencesFrom_keyword [] made absent rfl), List.countP_nil]

theorem isWord_inlineOpeners : ∀ word ∈ inlineOpeners, ∀ c ∈ word.toList, isWord c = true := by decide

theorem nonempty_inlineOpeners : ∀ word ∈ inlineOpeners, word.toList ≠ [] := by decide

theorem exists_of_openerAfter? {rest : List Char} (found : (openerAfter? rest).isSome = true) :
    ∃ word ∈ inlineOpeners, ∃ left, trimStart rest = word.toList ++ left ∧ atWordEnd left = true := by
  rw [openerAfter?, Option.isSome_map] at found
  obtain ⟨left, read⟩ := Option.isSome_iff_exists.mp found
  obtain ⟨word, member, same, stop⟩ := exists_of_wholeWord? read
  exact ⟨word, member, left, same, stop⟩

/-- Marks that an opener can follow when its value is used. -/
def marks : List Char := ['=', '(', '|', '&']

theorem isWord_marks : ∀ mark ∈ marks, isWord mark = false := by decide

/-- A used opener follows a mark, which is the first character or the second. -/
theorem exists_of_inlineOpener {before text : List Char} (found : (inlineOpener before text).isSome = true) :
    ∃ mark ∈ marks, ∃ rest, (openerAfter? rest).isSome = true ∧
      (text = mark :: rest ∨ mark ≠ '(' ∧ ∃ first, text = first :: mark :: rest) := by
  unfold inlineOpener at found
  split at found
  · next assigned =>
    unfold afterAssignment? at assigned
    split at assigned
    · next first rest =>
      split at assigned
      · cases assigned
      · exact ⟨'=', by decide, rest, by simp [assigned], .inr ⟨by decide, first, rfl⟩⟩
    · cases assigned
  · unfold afterOperator? at found
    split at found
    · exact ⟨'(', by decide, _, found, .inl rfl⟩
    · exact ⟨'|', by decide, _, found, .inr ⟨by decide, _, rfl⟩⟩
    · exact ⟨'&', by decide, _, found, .inr ⟨by decide, _, rfl⟩⟩
    · cases found

/-- Where no such mark but a bracket can come next, the mark of an opener that starts in a text is in the text. -/
theorem mark_of_inlineOpener {before text rest : List Char} (nonempty : text ≠ [])
    (next : ∀ c ∈ rest.head?, c ∈ marks → c = '(') (found : (inlineOpener before (text ++ rest)).isSome = true) :
    ∃ front, ∃ mark ∈ marks, ∃ after, text = front ++ mark :: after ∧ (openerAfter? (after ++ rest)).isSome = true := by
  obtain ⟨mark, member, beyond, opener, place⟩ := exists_of_inlineOpener found
  cases text with
  | nil => exact absurd rfl nonempty
  | cons first text =>
    rcases place with same | ⟨other, second, same⟩
    · obtain ⟨rfl, rfl⟩ := List.cons.inj same
      exact ⟨[], first, member, text, rfl, opener⟩
    · obtain ⟨rfl, tail⟩ := List.cons.inj same
      cases text with
      | nil =>
        change rest = mark :: beyond at tail
        exact absurd (next mark (by simp [tail]) member) other
      | cons c text =>
        obtain ⟨rfl, rfl⟩ := List.cons.inj tail
        exact ⟨[first], c, member, text, rfl, opener⟩

/-- A text without marks holds no used opener, whatever follows. -/
theorem occurrencesFrom_inlineOpener_unmarked {text rest : List Char} (before : List Char)
    (unmarked : ∀ c ∈ text, c ∉ marks) (next : ∀ c ∈ rest.head?, c ∈ marks → c = '(') :
    occurrencesFrom inlineOpener before 0 (text ++ rest) =
      occurrencesFrom inlineOpener (text.reverse ++ before) 0 rest := by
  apply occurrencesFrom_append
  intro front suffix split nonempty
  by_contra found
  obtain ⟨inside, mark, member, after, same, _⟩ :=
    mark_of_inlineOpener nonempty next (Option.isSome_iff_ne_none.mpr found)
  exact unmarked mark (by simp [split, same]) member

/-- A text without the words of openers holds none that is used, if what follows a mark follows it in the text. -/
theorem occurrencesFrom_inlineOpener {text rest : List Char} (before : List Char)
    (absent : ∀ word ∈ inlineOpeners, word.toList ∉ words text)
    (reach : ∀ front, ∀ mark ∈ marks, ∀ after, text = front ++ mark :: after → trimStart after = [] → rest = [])
    (stop : atWordEnd rest = true) (next : ∀ c ∈ rest.head?, c ∈ marks → c = '(') :
    occurrencesFrom inlineOpener before 0 (text ++ rest) =
      occurrencesFrom inlineOpener (text.reverse ++ before) 0 rest := by
  apply occurrencesFrom_append
  intro front suffix split nonempty
  by_contra found
  obtain ⟨inside, mark, member, after, same, opener⟩ :=
    mark_of_inlineOpener nonempty next (Option.isSome_iff_ne_none.mpr found)
  obtain ⟨word, known, left, read, ends⟩ := exists_of_openerAfter? opener
  have whole : text = (front ++ inside) ++ mark :: after := by rw [split, same, List.append_assoc]
  by_cases hidden : trimStart after = []
  -- With blanks alone after the mark, the opener would have to stand in what follows the text.
  · have none : trimStart (after ++ rest) = [] := by
      rw [reach _ mark member after whole hidden, List.append_nil, hidden]
    rw [none] at read
    exact nonempty_inlineOpeners word known (List.append_eq_nil_iff.mp read.symm).1
  · rw [trimStart_append_of_visible hidden] at read
    obtain ⟨more, trimmed, beyond⟩ := append_eq_append_word read (isWord_inlineOpeners word known) stop
    obtain ⟨blanks, parts, blank⟩ := exists_trimStart_append after
    apply absent word known
    rw [whole, parts, trimmed, ← List.cons_append, ← List.append_assoc]
    exact mem_words (isWord_inlineOpeners word known)
      (atWordStart_blanks _ (isWord_marks mark member) blank) (atWordEnd_left (beyond ▸ ends))

/-- A line without the words of openers holds none that is used. -/
theorem occurrences_inlineOpener {line : List Char} (absent : ∀ word ∈ inlineOpeners, word.toList ∉ words line) :
    occurrences inlineOpener line = [] :=
  occurrencesFrom_eq_nil (occurrencesFrom_inlineOpener [] absent (fun _ _ _ _ _ _ => rfl) rfl (by simp))

/-- Words before a definition that decide who may call it. -/
def visibilityWords : List String := ["private", "protected", "public"]

theorem afterSpacedWord?_eq_none {word : String} {line : List Char} (made : ∀ c ∈ word.toList, isWord c = true)
    (other : (words line).head? ≠ some word.toList) : afterSpacedWord? word line = none := by
  rw [afterSpacedWord?]
  cases found : after? word line with
  | none => rfl
  | some rest =>
    cases rest with
    | nil => rfl
    | cons c rest =>
      have visible : isBlank c = false := by
        by_contra blank
        have stop : atWordEnd (c :: rest) = true := by simp [atWordEnd, isWord_of_isBlank (by simpa using blank)]
        exact other (head?_words_of_after? made found stop)
      simp [afterBlank?, visible]

/-- The first word of a line says nothing about visibility. -/
def KeepsVisibility (line : List Char) : Prop := ∀ word ∈ visibilityWords, (words line).head? ≠ some word.toList

namespace KeepsVisibility

variable {line : List Char} (keeps : KeepsVisibility line)
include keeps

theorem visibilityWord? : Header.visibilityWord? line = none := by
  have missing (word : String) (member : word ∈ visibilityWords) : afterSpacedWord? word line = none := by
    have made : ∀ word ∈ visibilityWords, ∀ c ∈ word.toList, isWord c = true := by decide
    exact afterSpacedWord?_eq_none (made word member) (keeps word member)
  simp [Header.visibilityWord?, missing "private" (by decide), missing "protected" (by decide),
    missing "public" (by decide)]

theorem visibilityList? : visibilityList? line = none := by
  simp [Ruby.visibilityList?, keeps.visibilityWord?]

theorem visibilityAfter : visibilityAfter .publicScope line = .publicScope := by
  have other : line ≠ "private".toList := by
    intro same
    have alone : words "private".toList = ["private".toList] := words_eq_singleton (by decide)
    exact keeps "private" (by decide) (by rw [same, alone, List.head?_cons])
  rw [Ruby.visibilityAfter, if_neg other]
  simp only [ite_self]

end KeepsVisibility

/-- The first word of a line keeps it from being read as a header or as a change of visibility. -/
structure Unscoped (line : List Char) : Prop where
  visibility : KeepsVisibility line
  header : (words line).head? ≠ some "def".toList

namespace Unscoped

variable {line : List Char} (unscoped : Unscoped line)
include unscoped

theorem read? : Header.read? line = none := by
  simp [Header.read?, unscoped.visibility.visibilityWord?, afterSpacedWord?_eq_none (by decide) unscoped.header]

theorem startsWithOpener (other : ∀ word ∈ openers, (words line).head? ≠ some word.toList) :
    startsWithOpener line = false := by
  simp [Block.startsWithOpener, unscoped.visibility.visibilityWord?, wholeWord?_eq_none (by decide) other]

end Unscoped

theorem startsWithOpener_append {word : String} {rest : List Char} (member : word ∈ openers)
    (stop : atWordEnd rest = true) : startsWithOpener (word.toList ++ rest) = true := by
  simp [startsWithOpener, wholeWord?_isSome member stop]

theorem name?_cons (name : Identifier startsName isWord) {mark : Char} (other : isWord mark = false) (rest : List Char) :
    Header.name? (name.text ++ mark :: rest) =
      if mark ∈ ['?', '!', '='] then some (name.text ++ [mark], rest) else some (name.text, mark :: rest) := by
  obtain ⟨first, more, same, starts⟩ := name.exists_cons
  have inside : ∀ c ∈ more, isWord c = true := fun c member => name.chars c (by simp [same, member])
  rw [same, List.cons_append, Header.name?, if_pos starts, List.takeWhile_append_of_pos inside,
    List.dropWhile_append_of_pos inside]
  simp only [List.takeWhile_cons, List.dropWhile_cons, other, Bool.false_eq_true, if_false, List.append_nil,
    List.cons_append]

/-- A name is read up to what stands behind it. -/
theorem name?_append (name : Identifier startsName isWord) {rest : List Char}
    (stop : ∀ c ∈ rest.head?, c ∈ ['(', ' ', ';']) : Header.name? (name.text ++ rest) = some (name.text, rest) := by
  cases rest with
  | nil =>
    obtain ⟨first, more, same, starts⟩ := name.exists_cons
    have inside : ∀ c ∈ more, isWord c = true := fun c member => name.chars c (by simp [same, member])
    rw [List.append_nil, same, Header.name?, if_pos starts, List.takeWhile_eq_self_iff.mpr inside,
      List.dropWhile_eq_nil_iff.mpr inside]
  | cons c rest =>
    have ends : ∀ c ∈ ['(', ' ', ';'], isWord c = false ∧ c ∉ ['?', '!', '='] := by decide
    obtain ⟨other, unmarked⟩ := ends c (stop c rfl)
    rw [name?_cons name other, if_neg unmarked]

/-- A mark belongs to the name that it follows. -/
theorem name?_append_mark (name : Identifier startsName isWord) {mark : Char} (known : mark ∈ ['?', '!', '='])
    (rest : List Char) : Header.name? (name.text ++ mark :: rest) = some (name.text ++ [mark], rest) := by
  have marks : ∀ c ∈ ['?', '!', '='], isWord c = false := by decide
  rw [name?_cons name (marks mark known), if_pos known]

theorem startsSingleton_eq_false {line : List Char} (plain : '<' ∉ line) : startsSingleton line = false := by
  unfold startsSingleton
  split
  · rfl
  · next rest read =>
    split
    · rfl
    · next more angle =>
      obtain ⟨blanks, parts, _⟩ := exists_trimStart_append rest
      rw [after?_eq_some.mp angle] at parts
      rw [after?_eq_some.mp read, parts] at plain
      simp at plain

/-- What a line adds to the nesting, by its parts. -/
theorem delta_eq {line : List Char} {opened : Bool} {used done : Nat} (opens : startsWithOpener line = opened)
    (full : (Header.read? line).any Header.isEndless = false) (inline : (occurrences inlineOpener line).length = used)
    (loop : (if startsWithLoop line then 0 else keywordCount "do" line) = done)
    (closed : keywordCount "end" line = 0) : delta line = opened.toNat + used + done := by
  cases opened <;> simp [delta, opens, full, inline, loop, closed]

end CallAtlas.Ruby.Block

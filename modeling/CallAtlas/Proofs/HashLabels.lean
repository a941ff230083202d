import CallAtlas.Proofs.BlockWords
import CallAtlas.Proofs.CallNames

/-! Labels at the start of a line. A word in front of a colon is a label, whichever word it is; but a word that opens
blocks is counted as an opener there too. How far this moves the nesting is told exactly: by one block, less the
`do` words of the line where the word is a loop. -/
namespace CallAtlas

namespace Text

/-- A pattern that looks back at one character at most. -/
def Pattern.Near {α : Type} (pattern : Pattern α) : Prop :=
  ∀ c first second text, pattern (c :: first) text = pattern (c :: second) text

variable {α : Type} {pattern : Pattern α}

theorem occurrencesFrom_near (near : pattern.Near) (c : Char) (first second : List Char) (skip : Nat)
    (text : List Char) :
    occurrencesFrom pattern (c :: first) skip text = occurrencesFrom pattern (c :: second) skip text := by
  induction text generalizing c first second skip with
  | nil => cases skip <;> rfl
  | cons d text ih =>
    cases skip with
    | succ skip =>
      rw [occurrencesFrom, occurrencesFrom]
      exact ih d _ _ skip
    | zero =>
      rw [occurrencesFrom, occurrencesFrom, near c first second]
      split
      · rw [ih d (c :: first) (c :: second)]
      · exact ih d _ _ 0

/-- Behind a character at which the pattern reads the same, everything is found the same. -/
theorem occurrencesFrom_before (near : pattern.Near) {c : Char} {first second rest : List Char}
    (same : pattern first (c :: rest) = pattern second (c :: rest)) :
    occurrencesFrom pattern first 0 (c :: rest) = occurrencesFrom pattern second 0 (c :: rest) := by
  rw [occurrencesFrom, occurrencesFrom, same]
  split
  · rw [occurrencesFrom_near near c first second]
  · exact occurrencesFrom_near near c first second 0 rest

end Text

namespace Ruby.Block

open Text
open Token (continuesName)

/-- An identifier in front of a colon that no keyword is. -/
structure Label extends Identifier startsName continuesName where
  free : isKeyword .ruby (String.ofList text) = false

/-- A word that stands as a label, and may be a keyword. -/
structure IsLabel (word : List Char) : Prop where
  filled : word ≠ []
  chars : ∀ c ∈ word, continuesName c = true

theorem Label.isLabel (label : Label) : IsLabel label.text := ⟨label.ne_nil, label.chars⟩

theorem isLabel_of_mem_openers : ∀ word ∈ openers, IsLabel word.toList := by
  have known : ∀ word ∈ openers, word.toList ≠ [] ∧ ∀ c ∈ word.toList, continuesName c = true := by decide
  exact fun word member => ⟨(known word member).1, (known word member).2⟩

theorem Label.ne_keyword (label : Label) {word : String} (keyword : isKeyword .ruby word = true) :
    label.text ≠ word.toList := by
  intro same
  have free := label.free
  rw [same, String.ofList_toList, keyword] at free
  cases free

namespace IsLabel

variable {word : List Char} (isLabel : IsLabel word) (tail : List Char)
include isLabel

theorem isWord : ∀ c ∈ word, Text.isWord c = true := fun c member => isWord_of_continuesName (isLabel.chars c member)

theorem head?_words : (words (word ++ ':' :: tail)).head? = some word := Text.head?_words isLabel.isWord rfl

/-- No blank follows a word that a label starts with. -/
theorem afterSpacedWord? {known : String} (made : ∀ c ∈ known.toList, Text.isWord c = true) :
    Text.afterSpacedWord? known (word ++ ':' :: tail) = none := by
  rw [Text.afterSpacedWord?]
  cases found : after? known (word ++ ':' :: tail) with
  | none => rfl
  | some rest =>
    obtain ⟨more, split, rfl⟩ := append_eq_append_word (after?_eq_some.mp found) made rfl
    cases more with
    | nil => rfl
    | cons c more =>
      have joined : Text.isWord c = true := isLabel.isWord c (by simp [split])
      simp [afterBlank?, isBlank_of_isWord joined]

theorem visibilityWord? : Header.visibilityWord? (word ++ ':' :: tail) = none := by
  simp [Header.visibilityWord?, isLabel.afterSpacedWord? tail (by decide : ∀ c ∈ "private".toList, _),
    isLabel.afterSpacedWord? tail (by decide : ∀ c ∈ "protected".toList, _),
    isLabel.afterSpacedWord? tail (by decide : ∀ c ∈ "public".toList, _)]

theorem read? : Header.read? (word ++ ':' :: tail) = none := by
  simp [Header.read?, isLabel.visibilityWord? tail, isLabel.afterSpacedWord? tail (by decide : ∀ c ∈ "def".toList, _)]

/-- A line that starts with a label starts with a loop if the label is the word of one. -/
theorem startsWithLoop : Block.startsWithLoop (word ++ ':' :: tail) = loops.any fun loop => loop.toList == word := by
  have made : ∀ loop ∈ loops, ∀ c ∈ loop.toList, Text.isWord c = true := by decide
  rw [Block.startsWithLoop, Bool.eq_iff_iff, List.any_eq_true, List.any_eq_true]
  refine exists_congr fun loop => and_congr_right fun member => ?_
  cases found : after? loop (word ++ ':' :: tail) with
  | none =>
    have other : loop.toList ≠ word := by
      intro same
      rw [← same, after?_append] at found
      cases found
    simp [other]
  | some rest =>
    obtain ⟨more, split, rfl⟩ := append_eq_append_word (after?_eq_some.mp found) (made loop member) rfl
    cases more with
    | nil =>
      have same : loop.toList = word := by rw [split, List.append_nil]
      have colon : isAlphanumeric ':' = false := by decide
      simp [same, colon]
    | cons c more =>
      have joins : continuesName c = true := isLabel.chars c (by simp [split])
      have other : loop.toList ≠ word := by
        intro same
        rw [same] at split
        simp at split
      have goesOn : (isAlphanumeric c || c == '_') = true := by
        rw [isAlphanumeric, if_pos (ascii_of_continuesName joins)]
        exact joins
      simp [other, goesOn]

/-- A label that is not the keyword itself is passed in a search for the keyword. -/
theorem occurrences_keyword {known : String} (made : ∀ c ∈ known.toList, Text.isWord c = true)
    (other : word ≠ known.toList) :
    occurrences (keyword known) (word ++ ':' :: tail) = occurrencesFrom (keyword known) word.reverse 0 (':' :: tail) := by
  have absent : known.toList ∉ words word := by
    rw [words_eq_singleton isLabel.isWord, List.mem_singleton]
    exact other.symm
  rw [occurrences, occurrencesFrom_keyword [] made absent rfl, List.append_nil]

theorem occurrences_inlineOpener :
    occurrences inlineOpener (word ++ ':' :: tail) = occurrencesFrom inlineOpener word.reverse 0 (':' :: tail) := by
  have unmarked : ∀ c ∈ word, c ∉ marks := by
    intro c member mark
    exact ne_of_isWord (isLabel.isWord c member) (isWord_marks c mark) rfl
  have next : ∀ c ∈ (':' :: tail).head?, c ∈ marks → c = '(' := by
    rintro c ⟨⟩
    decide
  rw [occurrences, occurrencesFrom_inlineOpener_unmarked [] unmarked next, List.append_nil]

end IsLabel

theorem keyword_near (known : String) : (keyword known).Near := fun _ _ _ _ => rfl

theorem inlineOpener_near : inlineOpener.Near := fun _ _ _ _ => rfl

section

variable {first second : List Char} (isFirst : IsLabel first) (isSecond : IsLabel second) (tail : List Char)
include isFirst isSecond

theorem keywordCount_label {known : String} (made : ∀ c ∈ known.toList, isWord c = true)
    (filled : known.toList ≠ []) (otherFirst : first ≠ known.toList)
    (otherSecond : second ≠ known.toList) :
    keywordCount known (first ++ ':' :: tail) = keywordCount known (second ++ ':' :: tail) := by
  have nowhere : after? known (':' :: tail) = none := by
    cases found : after? known (':' :: tail) with
    | none => rfl
    | some rest =>
      have same := after?_eq_some.mp found
      obtain ⟨c, more, split⟩ := List.exists_cons_of_ne_nil filled
      rw [split, List.cons_append] at same
      have colon : c = ':' := (List.cons.inj same).1.symm
      have word := made c (by simp [split])
      rw [colon] at word
      cases word
  have here (before : List Char) : keyword known before (':' :: tail) = none := by
    simp [keyword, nowhere]
  rw [keywordCount, keywordCount, isFirst.occurrences_keyword tail made otherFirst,
    isSecond.occurrences_keyword tail made otherSecond,
    occurrencesFrom_before (keyword_near known) ((here _).trans (here _).symm)]

theorem inlineOpeners_label :
    occurrences inlineOpener (first ++ ':' :: tail) = occurrences inlineOpener (second ++ ':' :: tail) := by
  rw [isFirst.occurrences_inlineOpener, isSecond.occurrences_inlineOpener]
  exact occurrencesFrom_before inlineOpener_near rfl

end

/-- The blocks that a word opens in front of a colon, less those of an ordinary label there: one, and where the word is
that of a loop, none of the `do` words of the line. -/
def shift (word : String) (line : List Char) : Int := if word ∈ loops then 1 - (keywordCount "do" line : Nat) else 1

/-- A word that opens blocks moves the nesting also where it is a label. -/
theorem delta_label {word : String} (member : word ∈ openers) (label : Label) (tail : List Char) :
    delta (word.toList ++ ':' :: tail) =
      delta (label.text ++ ':' :: tail) + shift word (label.text ++ ':' :: tail) := by
  have isWord := isLabel_of_mem_openers word member
  have isLabel := label.isLabel
  have others : ∀ word ∈ openers, word.toList ≠ "do".toList ∧ word.toList ≠ "end".toList := by decide
  have reserved : ∀ word ∈ "do" :: "end" :: openers ++ loops, isKeyword .ruby word = true := by decide
  have opens : startsWithOpener (word.toList ++ ':' :: tail) = true := startsWithOpener_append member rfl
  have idle : startsWithOpener (label.text ++ ':' :: tail) = false := by
    have other : ∀ word ∈ openers, (words (label.text ++ ':' :: tail)).head? ≠ some word.toList := by
      intro word member same
      rw [isLabel.head?_words] at same
      exact label.ne_keyword (reserved word (by simp [member])) (Option.some.inj same)
    rw [startsWithOpener, isLabel.visibilityWord? tail, wholeWord?_eq_none (by decide) other]
    rfl
  have noLoop : startsWithLoop (label.text ++ ':' :: tail) = false := by
    rw [isLabel.startsWithLoop, List.any_eq_false]
    intro loop known same
    exact label.ne_keyword (reserved loop (by simp [known])) (beq_iff_eq.mp same).symm
  have loop : startsWithLoop (word.toList ++ ':' :: tail) = decide (word ∈ loops) := by
    have known : ∀ word ∈ openers, (loops.any fun loop => loop.toList == word.toList) = decide (word ∈ loops) := by decide
    rw [isWord.startsWithLoop, known word member]
  have done : keywordCount "do" (word.toList ++ ':' :: tail) = keywordCount "do" (label.text ++ ':' :: tail) :=
    keywordCount_label isWord isLabel tail (by decide) (by decide) (others word member).1
      (label.ne_keyword (reserved "do" (by decide)))
  have closed : keywordCount "end" (word.toList ++ ':' :: tail) = keywordCount "end" (label.text ++ ':' :: tail) :=
    keywordCount_label isWord isLabel tail (by decide) (by decide) (others word member).2
      (label.ne_keyword (reserved "end" (by decide)))
  have used : occurrences inlineOpener (word.toList ++ ':' :: tail) = occurrences inlineOpener (label.text ++ ':' :: tail) :=
    inlineOpeners_label isWord isLabel tail
  simp only [delta, shift, opens, idle, isWord.read?, isLabel.read?, loop, noLoop, done, closed, used]
  by_cases known : word ∈ loops <;> simp [known] <;> omega

theorem follow_label {word line tail : List Char} (isLabel : IsLabel word) (trimmed : trim line = word ++ ':' :: tail)
    (interruptible : Bool) (depth : Int) (index : Nat) (rest : List (List Char)) :
    follow interruptible depth index (line :: rest) =
      if depth + delta (word ++ ':' :: tail) ≤ 0 then .closed index
      else follow interruptible (depth + delta (word ++ ':' :: tail)) (index + 1) rest := by
  simp [follow, trimmed, isLabel.filled, isLabel.read?]

/-- A search for the end of a block is over on a line, or goes on behind it at some depth. -/
theorem follow_cons (interruptible : Bool) (depth : Int) (index : Nat) (line : List Char) :
    (∃ ended, ∀ rest, follow interruptible depth index (line :: rest) = ended) ∨
      ∃ reached, ∀ rest, follow interruptible depth index (line :: rest) =
        follow interruptible reached (index + 1) rest := by
  simp only [follow]
  split
  · exact .inr ⟨depth, fun rest => rfl⟩
  · split
    · exact .inl ⟨_, fun rest => rfl⟩
    · split
      · exact .inl ⟨_, fun rest => rfl⟩
      · exact .inr ⟨_, fun rest => rfl⟩

theorem follow_append (interruptible : Bool) (depth : Int) (index : Nat) (front : List (List Char)) :
    (∃ ended, ∀ rest, follow interruptible depth index (front ++ rest) = ended) ∨
      ∃ reached, ∀ rest, follow interruptible depth index (front ++ rest) =
        follow interruptible reached (index + front.length) rest := by
  induction front generalizing depth index with
  | nil => exact .inr ⟨depth, fun rest => rfl⟩
  | cons line front ih =>
    rcases follow_cons interruptible depth index line with ⟨ended, settles⟩ | ⟨next, goesOn⟩
    · exact .inl ⟨ended, fun rest => settles (front ++ rest)⟩
    · simp only [List.cons_append, goesOn, List.length_cons, Nat.add_comm front.length, ← Nat.add_assoc]
      exact ih next (index + 1)

/-- An ordinary label in place of a word that opens blocks: the search goes on as if the blocks that the word opens
had been open before. -/
theorem follow_shift {word : String} (member : word ∈ openers) (label : Label) {tail line other : List Char}
    (trimmed : trim line = word.toList ++ ':' :: tail) (ordinary : trim other = label.text ++ ':' :: tail)
    (interruptible : Bool) (depth : Int) (index : Nat) (rest : List (List Char)) :
    follow interruptible depth index (line :: rest) =
      follow interruptible (depth + shift word (trim other)) index (other :: rest) := by
  have moved : depth + delta (word.toList ++ ':' :: tail) =
      depth + shift word (trim other) + delta (label.text ++ ':' :: tail) := by
    rw [delta_label member label, ordinary]
    omega
  rw [follow_label (isLabel_of_mem_openers word member) trimmed, follow_label label.isLabel ordinary, moved]

/-- The block around a line with such a label ends before the line, and then with an ordinary label too, or it is
followed from the line on with as many blocks more open as the word opens. -/
theorem findEnd_label {word : String} (member : word ∈ openers) (label : Label) {tail line other : List Char}
    (trimmed : trim line = word.toList ++ ':' :: tail) (ordinary : trim other = label.text ++ ':' :: tail)
    (limit : UInt64) (index : Nat) (first : List Char) (front rest : List (List Char)) :
    findEnd limit index first (front ++ line :: rest) = findEnd limit index first (front ++ other :: rest) ∨
      ∃ depth,
        findEnd limit index first (front ++ other :: rest) =
          follow (Header.read? (trim first)).isSome depth (index + 1 + front.length)
            (other :: rest.take (Limits.window limit index - 2 - front.length)) ∧
        findEnd limit index first (front ++ line :: rest) =
          follow (Header.read? (trim first)).isSome (depth + shift word (trim other)) (index + 1 + front.length)
            (other :: rest.take (Limits.window limit index - 2 - front.length)) := by
  by_cases single : delta (trim first) ≤ 0
  · left
    simp [findEnd, single]
  by_cases unseen : Limits.window limit index - 1 ≤ front.length
  · left
    simp only [findEnd, List.take_append_of_le_length unseen]
  have seen (line : List Char) :
      (front ++ line :: rest).take (Limits.window limit index - 1) =
        front ++ line :: rest.take (Limits.window limit index - 2 - front.length) := by
    obtain ⟨more, same⟩ : ∃ more, Limits.window limit index - 1 = front.length + (more + 1) :=
      ⟨Limits.window limit index - 2 - front.length, by omega⟩
    have left : Limits.window limit index - 2 - front.length = more := by omega
    rw [same, List.take_length_add_append, List.take_succ_cons, left]
  simp only [findEnd, if_neg single, seen]
  rcases follow_append (Header.read? (trim first)).isSome (delta (trim first)) (index + 1) front with
    ⟨ended, settled⟩ | ⟨depth, reaches⟩
  · exact .inl (by rw [settled, settled])
  · exact .inr ⟨depth, reaches _, by rw [reaches, follow_shift member label trimmed ordinary]⟩

/-- A label that is a word for blocks changes the nesting by the shift of the word more than an ordinary label does.
That is nothing exactly for a loop with one `do` behind it; otherwise the block around the line is followed from the
line on at another depth. -/
theorem label_opens_block {word : String} (member : word ∈ openers) (label : Label) (tail : List Char) :
    delta (word.toList ++ ':' :: tail) =
        delta (label.text ++ ':' :: tail) + shift word (label.text ++ ':' :: tail) ∧
    (delta (word.toList ++ ':' :: tail) = delta (label.text ++ ':' :: tail) ↔
      word ∈ loops ∧ keywordCount "do" (label.text ++ ':' :: tail) = 1) ∧
    ∀ (limit : UInt64) (index : Nat) (first line other : List Char) (front rest : List (List Char)),
      trim line = word.toList ++ ':' :: tail → trim other = label.text ++ ':' :: tail →
        findEnd limit index first (front ++ line :: rest) = findEnd limit index first (front ++ other :: rest) ∨
        ∃ depth,
          findEnd limit index first (front ++ other :: rest) =
            follow (Header.read? (trim first)).isSome depth (index + 1 + front.length)
              (other :: rest.take (Limits.window limit index - 2 - front.length)) ∧
          findEnd limit index first (front ++ line :: rest) =
            follow (Header.read? (trim first)).isSome (depth + shift word (trim other)) (index + 1 + front.length)
              (other :: rest.take (Limits.window limit index - 2 - front.length)) := by
  have moved := delta_label member label tail
  refine ⟨moved, ?_, fun limit index first line other front rest trimmed ordinary =>
    findEnd_label member label trimmed ordinary limit index first front rest⟩
  rw [moved, shift]
  by_cases loop : word ∈ loops
  · simp only [loop, if_true, true_and]
    omega
  · simp only [loop, if_false, false_and, iff_false]
    omega

/-- The label `key`. -/
def Label.key : Label := ⟨⟨"key".toList, by decide, by decide⟩, by decide⟩

theorem label_opens_block_class :
    "class" ∈ openers ∧ trim "    class: title)".toList = "class".toList ++ ':' :: " title)".toList ∧
      trim "    key: title)".toList = Label.key.text ++ ':' :: " title)".toList ∧
      delta "class: title)".toList = delta "key: title)".toList + shift "class" "key: title)".toList ∧
      (delta "class: title)".toList = delta "key: title)".toList ↔
        "class" ∈ loops ∧ keywordCount "do" "key: title)".toList = 1) ∧
      (findEnd 9 0 "def link".toList (["tag(name,".toList] ++ "    class: title)".toList :: ["end".toList]) =
          findEnd 9 0 "def link".toList (["tag(name,".toList] ++ "    key: title)".toList :: ["end".toList]) ∨
        ∃ depth,
          findEnd 9 0 "def link".toList (["tag(name,".toList] ++ "    key: title)".toList :: ["end".toList]) =
            follow true depth 2 ("    key: title)".toList :: ["end".toList]) ∧
          findEnd 9 0 "def link".toList (["tag(name,".toList] ++ "    class: title)".toList :: ["end".toList]) =
            follow true (depth + shift "class" (trim "    key: title)".toList)) 2
              ("    key: title)".toList :: ["end".toList])) := by
  have opener : "class" ∈ openers := by decide
  have trimmed : trim "    class: title)".toList = "class".toList ++ ':' :: " title)".toList := by decide
  have ordinary : trim "    key: title)".toList = Label.key.text ++ ':' :: " title)".toList := by decide
  obtain ⟨moved, same, ends⟩ := label_opens_block opener Label.key " title)".toList
  exact ⟨opener, trimmed, ordinary, moved, same, ends 9 0 _ _ _ _ _ trimmed ordinary⟩

/-- A method with the label `class` on a line of its own is still open where it should end. -/
theorem class_label_hides_end :
    delta "class: title)".toList ≠ delta "key: title)".toList ∧
      findEnd 9 0 "def link".toList
          ["tag(name,".toList, "key: title)".toList, "end".toList, [], "def other".toList, "end".toList] = .closed 3 ∧
      findEnd 9 0 "def link".toList
          ["tag(name,".toList, "class: title)".toList, "end".toList, [], "def other".toList, "end".toList] =
        .interrupted 4 := by
  decide

end Ruby.Block
end CallAtlas

import CallAtlas.Text.Occurrences
import Mathlib.Data.List.TakeWhile

/-! Words of a text, and what a search for a word finds. A text splits at every character that no word is made of;
whatever stands between two word boundaries is one of the pieces, so a word that is no piece is found nowhere. -/
namespace CallAtlas.Text

/-- A property of all characters of a text is decided along the text. -/
instance decidableForallMem (text : List Char) (holds : Char → Prop) [DecidablePred holds] :
    Decidable (∀ c ∈ text, holds c) := List.decidableBAll holds text

/-- The code points of blanks. -/
def blankPoints : List Nat :=
  [0x9, 0xA, 0xB, 0xC, 0xD, 0x20, 0x85, 0xA0, 0x1680, 0x2000, 0x2001, 0x2002, 0x2003, 0x2004, 0x2005, 0x2006, 0x2007,
   0x2008, 0x2009, 0x200A, 0x2028, 0x2029, 0x202F, 0x205F, 0x3000]

theorem mem_blankPoints {c : Char} (blank : isBlank c = true) : c.toNat ∈ blankPoints := by
  simp only [isBlank] at blank
  simp only [blankPoints, List.mem_cons]
  split at blank <;> simp at blank <;> omega

/-- No word is made of blanks. -/
theorem isWord_of_isBlank {c : Char} (blank : isBlank c = true) : isWord c = false := by
  have known : ∀ point ∈ blankPoints, isWord (Char.ofNat point) = false := by decide +kernel
  have found := known c.toNat (mem_blankPoints blank)
  rwa [Char.ofNat_toNat] at found

theorem isBlank_of_isWord {c : Char} (word : isWord c = true) : isBlank c = false := by
  by_contra blank
  rw [isWord_of_isBlank (by simpa using blank)] at word
  cases word

theorem ne_of_isWord {c mark : Char} (word : isWord c = true) (other : isWord mark = false) : c ≠ mark := by
  rintro rfl
  rw [word] at other
  cases other

theorem isWord_of_startsName {c : Char} (starts : startsName c = true) : isWord c = true := by
  have ascii : c.toNat < 0x80 := by
    simp only [startsName, isLetter, isUpper, isLower, Bool.or_eq_true, Bool.and_eq_true, decide_eq_true_eq, Char.le_def,
      UInt32.le_iff_toNat_le, beq_iff_eq] at starts
    rcases starts with (upper | lower) | rfl
    · exact Nat.lt_of_le_of_lt upper.2 (by decide)
    · exact Nat.lt_of_le_of_lt lower.2 (by decide)
    · decide
  simp only [startsName, Bool.or_eq_true] at starts
  simp only [isWord, ascii, if_true, Bool.or_eq_true]
  exact starts.imp_left Or.inl

/-- An identifier, by the characters that it may start with and those that it is made of. -/
structure Identifier (starts joins : Char → Bool) where
  text : List Char
  begins : text.head?.any starts = true
  chars : ∀ c ∈ text, joins c = true

namespace Identifier

variable {starts joins : Char → Bool} (name : Identifier starts joins)

theorem exists_cons : ∃ first rest, name.text = first :: rest ∧ starts first = true := by
  have begins := name.begins
  cases same : name.text with
  | nil =>
    rw [same] at begins
    cases begins
  | cons first rest =>
    rw [same] at begins
    exact ⟨first, rest, rfl, begins⟩

theorem ne_nil : name.text ≠ [] := by
  obtain ⟨first, rest, same, _⟩ := name.exists_cons
  exact same ▸ List.cons_ne_nil first rest

theorem avoids {mark : Char} (other : joins mark = false) : mark ∉ name.text := by
  intro member
  rw [name.chars mark member] at other
  cases other

theorem head?_append_ne {mark : Char} (other : joins mark = false) (rest : List Char) :
    (name.text ++ rest).head? ≠ some mark := by
  obtain ⟨first, more, same, _⟩ := name.exists_cons
  intro head
  rw [same] at head
  cases head
  exact name.avoids other (same ▸ List.mem_cons_self)

/-- A name of visible characters is visible where it starts, whatever follows it. -/
theorem visible_head? (visible : ∀ c ∈ name.text, isBlank c = false) (rest : List Char) :
    ∀ c ∈ (name.text ++ rest).head?, isBlank c = false := by
  obtain ⟨first, more, same, _⟩ := name.exists_cons
  rw [same]
  rintro c ⟨⟩
  exact visible _ (same ▸ List.mem_cons_self)

end Identifier

/-- The pieces of a text between the characters that no word is made of. Pieces may be empty. -/
def words : List Char → List (List Char)
  | [] => [[]]
  | c :: rest =>
    match words rest with
    | [] => [[c]]
    | word :: more => if isWord c then (c :: word) :: more else [] :: word :: more

theorem words_ne_nil (text : List Char) : words text ≠ [] := by
  cases text with
  | nil => simp [words]
  | cons c rest =>
    rw [words]
    split
    · simp
    · split <;> simp

theorem words_eq_singleton {word : List Char} (all : ∀ c ∈ word, isWord c = true) : words word = [word] := by
  induction word with
  | nil => rfl
  | cons c rest ih =>
    rw [words, ih fun other member => all other (List.mem_cons_of_mem c member)]
    simp [all c List.mem_cons_self]

/-- A text splits at a character that no word is made of. -/
theorem words_append_cons (front : List Char) {mark : Char} (other : isWord mark = false) (rest : List Char) :
    words (front ++ mark :: rest) = words front ++ words rest := by
  induction front with
  | nil =>
    obtain ⟨word, more, pieces⟩ := List.exists_cons_of_ne_nil (words_ne_nil rest)
    simp [words, pieces, other]
  | cons c front ih =>
    obtain ⟨word, more, pieces⟩ := List.exists_cons_of_ne_nil (words_ne_nil front)
    rw [List.cons_append, words, ih, words, pieces, List.cons_append]
    simp only
    split <;> rfl

theorem head?_words {word rest : List Char} (all : ∀ c ∈ word, isWord c = true) (stop : atWordEnd rest = true) :
    (words (word ++ rest)).head? = some word := by
  cases rest with
  | nil => rw [List.append_nil, words_eq_singleton all, List.head?_cons]
  | cons mark rest =>
    have other : isWord mark = false := by simpa [atWordEnd] using stop
    rw [words_append_cons word other, words_eq_singleton all, List.singleton_append, List.head?_cons]

/-- What stands between two word boundaries is a piece of the text. -/
theorem mem_words {front word rest : List Char} (all : ∀ c ∈ word, isWord c = true)
    (start : atWordStart front.reverse = true) (stop : atWordEnd rest = true) :
    word ∈ words (front ++ (word ++ rest)) := by
  have member : word ∈ words (word ++ rest) := List.mem_of_head? (head?_words all stop)
  rcases List.eq_nil_or_concat front with rfl | ⟨before, mark, rfl⟩
  · exact member
  · have other : isWord mark = false := by simpa [atWordStart] using start
    rw [List.concat_eq_append, List.append_assoc, List.singleton_append, words_append_cons before other]
    exact List.mem_append_right _ member

theorem exists_trimEnd_append (text : List Char) :
    ∃ blanks, text = trimEnd text ++ blanks ∧ ∀ c ∈ blanks, isBlank c = true := by
  refine ⟨(text.reverse.takeWhile isBlank).reverse, ?_, ?_⟩
  · rw [trimEnd, dropEndWhile, ← List.reverse_append, List.takeWhile_append_dropWhile, List.reverse_reverse]
  · intro c member
    exact List.mem_takeWhile_imp (List.mem_reverse.mp member)

theorem trimEnd_append {front text : List Char} (visible : trimEnd text ≠ []) :
    trimEnd (front ++ text) = front ++ trimEnd text := by
  have some : (text.reverse.dropWhile isBlank).isEmpty = false := by
    simpa [trimEnd, dropEndWhile] using visible
  rw [trimEnd, dropEndWhile, List.reverse_append, List.dropWhile_append, some]
  simp [trimEnd, dropEndWhile]

theorem trimEnd_concat {last : Char} (visible : isBlank last = false) (front : List Char) :
    trimEnd (front ++ [last]) = front ++ [last] := by
  simp [trimEnd, dropEndWhile, visible]

theorem trimStart_append {blanks text : List Char} (blank : ∀ c ∈ blanks, isBlank c = true)
    (visible : ∀ c ∈ text.head?, isBlank c = false) : trimStart (blanks ++ text) = text := by
  rw [trimStart, List.dropWhile_append_of_pos blank]
  cases text with
  | nil => rfl
  | cons c text => simp [visible c rfl]

theorem exists_trimStart_append (text : List Char) :
    ∃ blanks, text = blanks ++ trimStart text ∧ ∀ c ∈ blanks, isBlank c = true :=
  ⟨text.takeWhile isBlank, List.takeWhile_append_dropWhile.symm, fun _ member => List.mem_takeWhile_imp member⟩

/-- What is left of a trimmed text stands between blanks. -/
theorem exists_trim_append (text : List Char) :
    ∃ blanks after, text = blanks ++ (trim text ++ after) ∧ (∀ c ∈ blanks, isBlank c = true) ∧
      ∀ c ∈ after, isBlank c = true := by
  obtain ⟨blanks, front, before⟩ := exists_trimStart_append text
  obtain ⟨after, back, behind⟩ := exists_trimEnd_append (trimStart text)
  exact ⟨blanks, after, by rw [trim, ← back, ← front], before, behind⟩

theorem trimStart_eq_self {text : List Char} (visible : ∀ c ∈ text.head?, isBlank c = false) :
    trimStart text = text := by
  cases text with
  | nil => rfl
  | cons c text => exact List.dropWhile_cons_of_neg (by simp [visible c rfl])

theorem visible_head?_trimStart (text : List Char) : ∀ c ∈ (trimStart text).head?, isBlank c = false := by
  intro c first
  have stops := List.head?_dropWhile_not isBlank text
  rw [trimStart, Option.mem_def] at first
  rw [first] at stops
  exact stops

theorem trimEnd_trimEnd (text : List Char) : trimEnd (trimEnd text) = trimEnd text := by
  rw [trimEnd, dropEndWhile, trimEnd, dropEndWhile, List.reverse_reverse]
  exact congrArg List.reverse (trimStart_eq_self (visible_head?_trimStart text.reverse))

theorem head?_trimEnd {text : List Char} {c : Char} (first : (trimEnd text).head? = some c) : text.head? = some c := by
  obtain ⟨blanks, split, _⟩ := exists_trimEnd_append text
  rw [split, List.head?_append, first, Option.some_or]

theorem trim_trim (text : List Char) : trim (trim text) = trim text := by
  have start : trimStart (trim text) = trim text :=
    trimStart_eq_self fun c first => visible_head?_trimStart text c (head?_trimEnd first)
  rw [trim, start]
  exact trimEnd_trimEnd _

theorem trimEnd_append_blanks {blanks : List Char} (blank : ∀ c ∈ blanks, isBlank c = true) (text : List Char) :
    trimEnd (text ++ blanks) = trimEnd text := by
  have reversed : ∀ c ∈ blanks.reverse, isBlank c = true := by simpa using blank
  rw [trimEnd, dropEndWhile, List.reverse_append, List.dropWhile_append_of_pos reversed, trimEnd, dropEndWhile]

theorem trim_blanks_append {blanks : List Char} (blank : ∀ c ∈ blanks, isBlank c = true) (text : List Char) :
    trim (blanks ++ text) = trim text := by
  rw [trim, trimStart, List.dropWhile_append_of_pos blank, trim, trimStart]

theorem dropEndWhile_eq_self {drop : Char → Bool} {text : List Char} (kept : ∀ c ∈ text, drop c = false) :
    dropEndWhile drop text = text := by
  cases reversed : text.reverse with
  | nil => simp [dropEndWhile, List.reverse_eq_nil_iff.mp reversed]
  | cons c rest =>
    have last : c ∈ text := List.mem_reverse.mp (reversed ▸ List.mem_cons_self)
    rw [dropEndWhile, reversed, List.dropWhile_cons_of_neg (by simp [kept c last]), ← reversed, List.reverse_reverse]

theorem trim_eq_self {text : List Char} (visible : ∀ c ∈ text, isBlank c = false) : trim text = text := by
  rw [trim, trimStart_eq_self fun c first => visible c (List.mem_of_mem_head? first)]
  exact dropEndWhile_eq_self visible

theorem trimEnd_of_trim {text : List Char} (trimmed : trim text = text) : trimEnd text = text := by
  rw [← trimmed, trim, trimEnd_trimEnd]

theorem trim_append {front text : List Char} (first : ∀ c ∈ (front ++ text).head?, isBlank c = false) (filled : text ≠ [])
    (trimmed : trim text = text) : trim (front ++ text) = front ++ text := by
  have last := trimEnd_of_trim trimmed
  rw [trim, trimStart_eq_self first, trimEnd_append (last.symm ▸ filled), last]

theorem trimStart_append_of_visible {text : List Char} (visible : trimStart text ≠ []) (rest : List Char) :
    trimStart (text ++ rest) = trimStart text ++ rest := by
  have some : (text.dropWhile isBlank).isEmpty = false := List.isEmpty_eq_false_iff.mpr visible
  rw [trimStart, List.dropWhile_append, some]
  rfl

theorem atWordStart_blanks (front : List Char) {mark : Char} {blanks : List Char} (other : isWord mark = false)
    (blank : ∀ c ∈ blanks, isBlank c = true) : atWordStart (front ++ mark :: blanks).reverse = true := by
  rcases List.eq_nil_or_concat blanks with rfl | ⟨more, last, rfl⟩
  · simp [atWordStart, other]
  · simp [atWordStart, isWord_of_isBlank (blank last (by simp))]

/-- A comma and a blank between parts is a comma between parts that start with a blank. -/
theorem intercalate_spaced (first : List Char) (rest : List (List Char)) :
    [',', ' '].intercalate (first :: rest) = [','].intercalate (first :: rest.map (' ' :: ·)) := by
  induction rest generalizing first with
  | nil => simp
  | cons next rest ih =>
    rw [List.map_cons, List.intercalate_cons_cons, List.intercalate_cons_cons, ih next]
    cases rest <;> simp [List.intercalate_cons_cons]

/-- Parts without commas are found again between the commas of their list. -/
theorem splitOn_listed {first : List Char} {rest : List (List Char)} (whole : ∀ part ∈ first :: rest, ',' ∉ part) :
    ([',', ' '].intercalate (first :: rest)).splitOn ',' = first :: rest.map (' ' :: ·) := by
  rw [intercalate_spaced]
  apply List.splitOn_intercalate
  · intro piece listed
    rcases List.mem_cons.mp listed with rfl | later
    · exact whole _ List.mem_cons_self
    · obtain ⟨part, member, rfl⟩ := List.mem_map.mp later
      simp [whole part (List.mem_cons_of_mem _ member)]
  · simp

theorem afterChars?_eq_some {head text rest : List Char} : afterChars? head text = some rest ↔ text = head ++ rest := by
  induction head generalizing text with
  | nil => simp [afterChars?, eq_comm]
  | cons h head ih =>
    cases text with
    | nil => simp [afterChars?]
    | cons c text =>
      by_cases same : h = c
      · simp [afterChars?, same, ih]
      · simp [afterChars?, same, Ne.symm same]

theorem after?_eq_some {head : String} {text rest : List Char} :
    after? head text = some rest ↔ text = head.toList ++ rest := afterChars?_eq_some

theorem after?_append (head : String) (rest : List Char) : after? head (head.toList ++ rest) = some rest :=
  after?_eq_some.mpr rfl

/-- A word read at the start of a text is the first piece of the text. -/
theorem head?_words_of_after? {word : String} {text rest : List Char} (all : ∀ c ∈ word.toList, isWord c = true)
    (found : after? word text = some rest) (stop : atWordEnd rest = true) :
    (words text).head? = some word.toList := by
  rw [after?_eq_some.mp found]
  exact head?_words all stop

/-- A word and a blank before a text that starts with something else are read off. -/
theorem afterSpacedWord?_append (word : String) {rest : List Char} (visible : ∀ c ∈ rest.head?, isBlank c = false) :
    afterSpacedWord? word (word.toList ++ ' ' :: rest) = some rest := by
  rw [afterSpacedWord?, after?_append, Option.bind_eq_bind, Option.bind_some, afterBlank?, if_pos (by decide),
    trimStart_eq_self visible]

/-- A word that is read across two texts, the second of which starts at a word end, stands in the first. -/
theorem append_eq_append_word {text rest word left : List Char} (same : text ++ rest = word ++ left)
    (all : ∀ c ∈ word, isWord c = true) (stop : atWordEnd rest = true) :
    ∃ more, text = word ++ more ∧ left = more ++ rest := by
  rcases List.append_eq_append_iff.mp same with ⟨beyond, longer, split⟩ | ⟨more, longer, split⟩
  · cases beyond with
    | nil => exact ⟨[], by simpa using longer.symm, by simpa using split.symm⟩
    | cons c beyond =>
      -- The second text would start in the middle of the word.
      have member : isWord c = true := all c (by simp [longer])
      rw [split] at stop
      simp [atWordEnd, member] at stop
  · exact ⟨more, longer, split⟩

theorem atWordEnd_left {text rest : List Char} (stop : atWordEnd (text ++ rest) = true) : atWordEnd text = true := by
  cases text with
  | nil => rfl
  | cons c text => exact stop

/-- A search for a mark passes over a text without the mark's first character. -/
theorem cutAtChars?_append {m : Char} {more front : List Char} (absent : m ∉ front) (rest : List Char) :
    cutAtChars? (m :: more) (front ++ rest) =
      (cutAtChars? (m :: more) rest).map fun cut => (front ++ cut.1, cut.2) := by
  induction front with
  | nil => simp
  | cons c front ih =>
    rw [List.mem_cons, not_or] at absent
    have here : afterChars? (m :: more) (c :: (front ++ rest)) = none := if_neg absent.1
    rw [List.cons_append, cutAtChars?, here, ih absent.2]
    cases cutAtChars? (m :: more) rest <;> rfl

theorem cutAtChars?_head {m : Char} (more rest : List Char) :
    cutAtChars? (m :: more) (m :: (more ++ rest)) = some ([], rest) := by
  have here : afterChars? (m :: more) (m :: (more ++ rest)) = some rest := afterChars?_eq_some.mpr rfl
  rw [cutAtChars?, here]

theorem cutAtChars?_absent {m : Char} {more text : List Char} (absent : m ∉ text) :
    cutAtChars? (m :: more) text = none := by
  have passed : cutAtChars? (m :: more) (text ++ []) = none := cutAtChars?_append absent []
  rwa [List.append_nil] at passed

/-- A search passes over a text in which the pattern starts nowhere. -/
theorem occurrencesFrom_append {α : Type} {pattern : Pattern α} {text before rest : List Char}
    (nowhere : ∀ front suffix, text = front ++ suffix → suffix ≠ [] →
      pattern (front.reverse ++ before) (suffix ++ rest) = none) :
    occurrencesFrom pattern before 0 (text ++ rest) = occurrencesFrom pattern (text.reverse ++ before) 0 rest := by
  induction text generalizing before with
  | nil => rfl
  | cons c text ih =>
    have here : pattern before (c :: (text ++ rest)) = none := nowhere [] (c :: text) rfl (by simp)
    rw [List.cons_append, occurrencesFrom, here]
    simp only
    rw [ih, List.reverse_cons, List.append_assoc, List.singleton_append]
    intro front suffix split nonempty
    have later := nowhere (c :: front) suffix (by rw [split, List.cons_append]) nonempty
    rwa [List.reverse_cons, List.append_assoc, List.singleton_append] at later

/-- A search goes on after what an earlier find has taken. -/
theorem occurrencesFrom_skip {α : Type} (pattern : Pattern α) (taken before rest : List Char) :
    occurrencesFrom pattern before taken.length (taken ++ rest) =
      occurrencesFrom pattern (taken.reverse ++ before) 0 rest := by
  induction taken generalizing before with
  | nil => rfl
  | cons c taken ih =>
    rw [List.length_cons, List.cons_append, occurrencesFrom, ih, List.reverse_cons, List.append_assoc,
      List.singleton_append]

/-- A text that is passed whole holds nothing. -/
theorem occurrencesFrom_eq_nil {α : Type} {pattern : Pattern α} {text before : List Char}
    (passed : occurrencesFrom pattern before 0 (text ++ []) = occurrencesFrom pattern (text.reverse ++ before) 0 []) :
    occurrencesFrom pattern before 0 text = [] := by
  rwa [List.append_nil, occurrencesFrom] at passed

/-- After an occurrence the search goes on behind it. -/
theorem occurrencesFrom_hit {α : Type} {pattern : Pattern α} {found : α} {first : Char} {taken before rest : List Char}
    (hit : pattern before (first :: (taken ++ rest)) = some (found, rest)) :
    occurrencesFrom pattern before 0 (first :: (taken ++ rest)) =
      found :: occurrencesFrom pattern (taken.reverse ++ first :: before) 0 rest := by
  rw [occurrencesFrom, hit]
  simp only
  rw [List.length_append, Nat.add_sub_cancel, occurrencesFrom_skip]

end CallAtlas.Text

import CallAtlas.Proofs.BlockWords
import CallAtlas.Proofs.VisibilityLines

/-! Lines of a class body, and what each of them says about visibility: words that stand alone, lists of names, headers
with or without a word of their own, and lines that say nothing. -/
namespace CallAtlas.Ruby.ClassBody

open Block (KeepsVisibility visibilityWords)

/-- A line that changes no visibility. -/
structure Idle (text : List Char) : Prop where
  keeps : ∀ current, visibilityAfter current text = current
  silent : requestsOn text = []

/-- Only a class, a module or a word that stands alone changes the visibility of what follows. -/
theorem visibilityAfter_of_ordinary {text : List Char} (ordinary : startsContainer text = false)
    (other : ∀ word ∈ visibilityWords, text ≠ word.toList) (current : Visibility) :
    visibilityAfter current text = current := by
  have others : ¬ (text = "public".toList ∨ text = "protected".toList) :=
    fun same => same.elim (other "public" (by decide)) (other "protected" (by decide))
  rw [visibilityAfter, if_neg (Bool.eq_false_iff.mp ordinary), if_neg (other "private" (by decide)), if_neg others]

theorem visibilityAfter_eq_self {first : Char} {rest : List Char} (other : first ∉ ['c', 'm']) (spaced : ' ' ∈ rest)
    (current : Visibility) : visibilityAfter current (first :: rest) = current := by
  have ordinary : startsContainer (first :: rest) = false := by
    rw [List.mem_cons, List.mem_singleton, not_or] at other
    have noClass : Text.afterSpacedWord? "class" (first :: rest) = none := by
      simp [Text.afterSpacedWord?, Text.after?, Text.afterChars?, Ne.symm other.1]
    have noModule : Text.afterSpacedWord? "module" (first :: rest) = none := by
      simp [Text.afterSpacedWord?, Text.after?, Text.afterChars?, Ne.symm other.2]
    rw [startsContainer, noClass, noModule]
    rfl
  have unspaced : ∀ word ∈ visibilityWords, ' ' ∉ word.toList := by decide
  apply visibilityAfter_of_ordinary ordinary
  intro word member same
  exact unspaced word member (same ▸ List.mem_cons_of_mem first spaced)

theorem startsSingleton_eq_false {first : Char} {rest : List Char} (other : first ≠ 'c') :
    startsSingleton (first :: rest) = false := by
  have missing : Text.after? "class" (first :: rest) = none := if_neg other.symm
  rw [startsSingleton, missing]

theorem symbolName?_eq_none {c : Char} {rest : List Char} (visible : Text.isBlank c = false) (other : c ≠ ':') :
    symbolName? (c :: rest) = none := by
  have start : Text.trimStart (c :: rest) = c :: rest := Text.trimStart_eq_self (by rintro d ⟨⟩; exact visible)
  unfold symbolName?
  split
  · rename_i name trimmed
    rw [Text.trim, start] at trimmed
    have first := Text.head?_trimEnd (show (Text.trimEnd (c :: rest)).head? = some ':' by rw [trimmed]; rfl)
    exact absurd (Option.some.inj first) other
  · rfl

/-- The words that set a visibility. -/
inductive Word where
  | privateWord
  | protectedWord
  | publicWord
  deriving DecidableEq, Repr

namespace Word

variable (word : Word)

def text : Word → String
  | privateWord => "private"
  | protectedWord => "protected"
  | publicWord => "public"

/-- Protected methods count as public. -/
def visibility : Word → Visibility
  | privateWord => .privateScope
  | protectedWord => .publicScope
  | publicWord => .publicScope

theorem visibilityWord?_text {rest : List Char} (visible : ∀ c ∈ rest.head?, Text.isBlank c = false) :
    Header.visibilityWord? (word.text.toList ++ ' ' :: rest) = some (word.visibility, rest) := by
  cases word with
  | privateWord =>
    rw [Header.visibilityWord?, text, Text.afterSpacedWord?_append "private" visible]
    rfl
  | protectedWord =>
    have other : Text.afterSpacedWord? "private" ("protected".toList ++ ' ' :: rest) = none := rfl
    rw [Header.visibilityWord?, text, other, Text.afterSpacedWord?_append "protected" visible]
    rfl
  | publicWord =>
    have other : Text.afterSpacedWord? "private" ("public".toList ++ ' ' :: rest) = none := rfl
    have another : Text.afterSpacedWord? "protected" ("public".toList ++ ' ' :: rest) = none := rfl
    rw [Header.visibilityWord?, text, other, another, Text.afterSpacedWord?_append "public" visible]
    rfl

theorem visibilityAfter_text (current : Visibility) : visibilityAfter current word.text.toList = word.visibility := by
  cases word <;> rfl

theorem requestsOn_text : requestsOn word.text.toList = [] := by
  cases word <;> rfl

theorem exists_cons : ∃ rest, word.text.toList = 'p' :: rest := by
  cases word <;> exact ⟨_, rfl⟩

end Word

/-- An identifier, possibly with a mark behind it. -/
structure MethodName where
  word : Text.Identifier Text.startsName Text.isWord
  mark : Option Char
  known : ∀ c ∈ mark, c ∈ ['?', '!', '=']

namespace MethodName

variable (name : MethodName)

def text : List Char := name.word.text ++ name.mark.toList

/-- No character of a name is one of the others that lines are made of. -/
theorem avoids {c : Char} (word : Text.isWord c = false) (mark : c ∉ ['?', '!', '=']) : c ∉ name.text := by
  intro member
  rcases List.mem_append.mp member with inside | behind
  · exact name.word.avoids word inside
  · exact mark (name.known c (Option.mem_toList.mp behind))

theorem visible : ∀ c ∈ name.text, Text.isBlank c = false := by
  intro c member
  rcases List.mem_append.mp member with inside | behind
  · exact Text.isBlank_of_isWord (name.word.chars c inside)
  · have marks : ∀ c ∈ ['?', '!', '='], Text.isBlank c = false := by decide
    exact marks c (name.known c (Option.mem_toList.mp behind))

theorem dropWhile_mark : name.mark.toList.dropWhile Text.isWord = name.mark.toList := by
  cases marked : name.mark with
  | none => rfl
  | some mark =>
    have marks : ∀ c ∈ ['?', '!', '='], Text.isWord c = false := by decide
    simp [marks mark (name.known mark marked)]

theorem symbolName?_text : symbolName? (':' :: name.text) = some name.text := by
  have trimmed : Text.trim (':' :: name.text) = ':' :: name.text := by
    apply Text.trim_eq_self
    intro c member
    rcases List.mem_cons.mp member with rfl | inside
    · rfl
    · exact name.visible c inside
  have left : name.text.dropWhile Text.isWord = name.mark.toList := by
    rw [text, List.dropWhile_append_of_pos name.word.chars, dropWhile_mark]
  obtain ⟨first, more, split, _⟩ := name.word.exists_cons
  simp only [symbolName?, trimmed, left]
  cases marked : name.mark with
  | none => simp [text, split]
  | some mark =>
    have known := name.known mark marked
    have long : 2 ≤ name.text.length := by simp [text, split, marked]
    exact if_pos ⟨known, long⟩

theorem symbolName?_spaced : symbolName? (' ' :: ':' :: name.text) = some name.text := by
  have trimmed : Text.trim (' ' :: ':' :: name.text) = Text.trim (':' :: name.text) :=
    Text.trim_blanks_append (by decide : ∀ c ∈ [' '], Text.isBlank c = true) _
  rw [← name.symbolName?_text, symbolName?, symbolName?, trimmed]

/-- A name is read up to what stands behind it. -/
theorem name?_append {tail : List Char} (stop : ∀ c ∈ tail.head?, c ∈ ['(', ' ', ';']) :
    Header.name? (name.text ++ tail) = some (name.text, tail) := by
  obtain ⟨word, mark, known⟩ := name
  cases mark with
  | none => simpa [text] using Block.name?_append word stop
  | some mark => simpa [text] using Block.name?_append_mark word (known mark rfl) tail

/-- No name is taken for `self`. -/
theorem after?_self {tail : List Char} (stop : ∀ c ∈ tail.head?, c ∈ ['(', ' ', ';']) :
    Text.after? "self." (name.text ++ tail) = none := by
  apply Option.eq_none_iff_forall_ne_some.mpr
  intro rest found
  have same : name.text ++ tail = "self".toList ++ '.' :: rest := by
    rw [Text.after?_eq_some.mp found]
    rfl
  have dot : '.' ∉ name.text := name.avoids (by decide) (by decide)
  have elsewhere : ∀ c ∈ '.' :: "self".toList, c ∉ ['(', ' ', ';'] := by decide
  rcases List.append_eq_append_iff.mp same with ⟨more, word, behind⟩ | ⟨more, longer, behind⟩
  · cases more with
    | nil => exact elsewhere '.' (by decide) (stop '.' (by rw [behind]; rfl))
    | cons c more =>
      have letter : c ∈ "self".toList := by simp [word]
      exact elsewhere c (List.mem_cons_of_mem '.' letter) (stop c (by rw [behind]; rfl))
  · cases more with
    | nil => exact elsewhere '.' (by decide) (stop '.' (by rw [← List.nil_append tail, ← behind]; rfl))
    | cons c more =>
      obtain ⟨rfl, _⟩ := List.cons.inj behind
      exact dot (longer ▸ List.mem_append_right _ List.mem_cons_self)

theorem getLast?_text (last : name.text.getLast? = some '=') : name.mark = some '=' := by
  cases marked : name.mark with
  | some mark => simpa [text, marked] using last
  | none =>
    rw [text, marked, Option.toList_none, List.append_nil] at last
    have word := name.word.chars '=' (List.mem_of_mem_getLast? last)
    have other : Text.isWord '=' = false := by decide
    rw [other] at word
    cases word

end MethodName

/-- A word that stands alone, or a word with the names that it is about: `private :a, :b?`. -/
inductive Mark where
  | bare (word : Word)
  | naming (word : Word) (first : MethodName) (more : List MethodName)

namespace Mark

def text : Mark → List Char
  | bare word => word.text.toList
  | naming word first more =>
    word.text.toList ++ ' ' :: [',', ' '].intercalate ((first :: more).map fun name => ':' :: name.text)

/-- The visibility of what follows. -/
def section? : Mark → Option Visibility
  | bare word => some word.visibility
  | naming .. => none

/-- Name by name, what is asked. -/
def requests : Mark → List (String × Visibility)
  | bare _ => []
  | naming word first more => (first :: more).map fun name => (String.ofList name.text, word.visibility)

theorem mapM_symbolName? (names : List MethodName) :
    (names.map fun name => ' ' :: ':' :: name.text).mapM symbolName? = some (names.map MethodName.text) := by
  induction names with
  | nil => rfl
  | cons name rest ih => simp [List.mapM_cons, name.symbolName?_spaced, ih]

theorem visibilityList?_naming (word : Word) (first : MethodName) (more : List MethodName) :
    visibilityList? (naming word first more).text = some ((first :: more).map MethodName.text, word.visibility) := by
  have visible : ∀ c ∈ ([',', ' '].intercalate ((first :: more).map fun name => ':' :: name.text)).head?,
      Text.isBlank c = false := by
    cases more <;> (rintro c ⟨⟩; rfl)
  have whole : ∀ part ∈ (':' :: first.text) :: (more.map fun name => ':' :: name.text), ',' ∉ part := by
    have each (name : MethodName) : ',' ∉ ':' :: name.text := by
      simp [name.avoids (by decide : Text.isWord ',' = false) (by decide)]
    intro part listed
    rcases List.mem_cons.mp listed with rfl | later
    · exact each first
    · obtain ⟨name, _, rfl⟩ := List.mem_map.mp later
      exact each name
  rw [visibilityList?, text, word.visibilityWord?_text visible]
  simp only [List.map_cons, Text.splitOn_listed whole, List.mapM_cons, first.symbolName?_text, List.map_map]
  have others := mapM_symbolName? more
  simp only [Function.comp_def, others]
  rfl

theorem requestsOn_text (mark : Mark) : requestsOn mark.text = mark.requests := by
  cases mark with
  | bare word => exact word.requestsOn_text
  | naming word first more =>
    rw [requestsOn, visibilityList?_naming, Option.elim_some, requests, List.map_map]
    rfl

theorem visibilityAfter_text (mark : Mark) (current : Visibility) :
    visibilityAfter current mark.text = mark.section?.getD current := by
  cases mark with
  | bare word => exact word.visibilityAfter_text current
  | naming word first more =>
    obtain ⟨rest, split⟩ := word.exists_cons
    rw [text, split]
    exact visibilityAfter_eq_self (by decide) (by simp) current

end Mark

/-- The first line of a method, with a word of its own or without. -/
structure HeaderLine where
  word : Option Word
  onSelf : Bool
  name : MethodName
  free : isReserved (String.ofList name.text) = false
  tail : List Char
  stop : ∀ c ∈ tail.head?, c ∈ ['(', ' ', ';']
  setter : name.mark = some '=' → tail.head? = some '('

namespace HeaderLine

variable (header : HeaderLine)

/-- The line from the name on. -/
def named : List Char := (if header.onSelf then "self.".toList else []) ++ (header.name.text ++ header.tail)

/-- The line from `def` on. -/
def defined : List Char := "def".toList ++ ' ' :: header.named

def text : List Char := header.word.elim header.defined fun word => word.text.toList ++ ' ' :: header.defined

/-- The visibility that the line gives its method. -/
def visibility : Option Visibility := header.word.map Word.visibility

theorem visible_named : ∀ c ∈ header.named.head?, Text.isBlank c = false := by
  obtain ⟨first, more, split, starts⟩ := header.name.word.exists_cons
  have visible : Text.isBlank first = false := Text.isBlank_of_isWord (Text.isWord_of_startsName starts)
  rw [named, MethodName.text, split]
  cases header.onSelf with
  | true =>
    rintro c ⟨⟩
    rfl
  | false =>
    rintro c ⟨⟩
    exact visible

theorem exists_cons : ∃ first rest, header.text = first :: rest ∧ first ∈ ['d', 'p'] ∧ ' ' ∈ rest := by
  cases given : header.word with
  | none => exact ⟨'d', 'e' :: 'f' :: ' ' :: header.named, by rw [text, given]; rfl, by decide, by simp⟩
  | some word =>
    obtain ⟨rest, split⟩ := word.exists_cons
    exact ⟨'p', rest ++ ' ' :: header.defined, by rw [text, given, Option.elim_some, split]; rfl, by decide, by simp⟩

theorem visibilityWord?_text :
    Header.visibilityWord? header.text = header.word.map fun word => (word.visibility, header.defined) := by
  cases given : header.word with
  | none =>
    rw [text, given]
    rfl
  | some word =>
    rw [text, given, Option.elim_some, word.visibilityWord?_text]
    · rfl
    · rintro c ⟨⟩
      rfl

/-- A header with a word is no list of names. -/
theorem visibilityList?_text : visibilityList? header.text = none := by
  rw [visibilityList?, visibilityWord?_text]
  cases header.word with
  | none => rfl
  | some word =>
    obtain ⟨piece, pieces, split⟩ : ∃ piece pieces, header.defined.splitOn ',' = ('d' :: piece) :: pieces := by
      have filled := List.splitOn_ne_nil ',' ('e' :: 'f' :: ' ' :: header.named)
      obtain ⟨piece, pieces, parts⟩ := List.exists_cons_of_ne_nil filled
      refine ⟨piece, pieces, ?_⟩
      have letters : header.defined = 'd' :: 'e' :: 'f' :: ' ' :: header.named := rfl
      rw [letters, List.splitOn_cons_eq_if_modifyHead, parts]
      rfl
    have refused : symbolName? ('d' :: piece) = none := symbolName?_eq_none (by decide) (by decide)
    simp [split, List.mapM_cons, refused]

theorem idle_text : Idle header.text := by
  obtain ⟨first, rest, split, known, spaced⟩ := header.exists_cons
  have others : ∀ c ∈ ['d', 'p'], c ∉ ['c', 'm'] := by decide
  constructor
  · rw [split]
    exact visibilityAfter_eq_self (others first known) spaced
  · rw [requestsOn, visibilityList?_text]
    rfl

theorem finish_name (visibility : Option Visibility) (onSelf : Bool) :
    (Header.finish visibility onSelf header.name.text header.tail).name = header.name.text := by
  have settled : ¬ (header.name.text.getLast? = some '=' ∧ header.tail.head? ≠ some '(') := by
    rintro ⟨last, other⟩
    exact other (header.setter (header.name.getLast?_text last))
  simp only [Header.finish, Header.settle, if_neg settled]

theorem afterSpacedWord?_defined : Text.afterSpacedWord? "def" header.defined = some header.named :=
  Text.afterSpacedWord?_append "def" header.visible_named

theorem name?_on_self (own : header.onSelf = true) :
    (Text.after? "self." header.named).bind Header.name? = some (header.name.text, header.tail) := by
  rw [named, if_pos own, Text.after?_append, Option.bind_some, header.name.name?_append header.stop]

theorem named_of_not_self (own : header.onSelf = false) : header.named = header.name.text ++ header.tail := by
  rw [named, own]
  rfl

theorem read?_text : ∃ read, Header.read? header.text = some read ∧ read.name = header.name.text ∧
    read.visibility = header.visibility := by
  refine ⟨Header.finish header.visibility header.onSelf header.name.text header.tail, ?_, header.finish_name _ _, rfl⟩
  unfold Header.read?
  rw [header.visibilityWord?_text, visibility]
  cases own : header.onSelf with
  | true =>
    have read := header.name?_on_self own
    cases given : header.word with
    | none => simp only [Option.map_none, text, given, Option.elim_none, afterSpacedWord?_defined, read]
    | some word => simp only [Option.map_some, afterSpacedWord?_defined, read]
  | false =>
    have whole := header.named_of_not_self own
    have read := header.name.name?_append header.stop
    have plain := header.name.after?_self header.stop
    cases given : header.word with
    | none =>
      simp only [Option.map_none, text, given, Option.elim_none, afterSpacedWord?_defined, whole, plain, Option.bind_none,
        read, Option.map_some]
    | some word => simp only [Option.map_some, afterSpacedWord?_defined, whole, plain, Option.bind_none, read]

theorem headerOn?_text : ∃ read, headerOn? header.text = some read ∧ read.name = header.name.text ∧
    read.visibility = header.visibility := by
  obtain ⟨read, found, name, visibility⟩ := header.read?_text
  refine ⟨read, ?_, name, visibility⟩
  obtain ⟨first, rest, split, known, _⟩ := header.exists_cons
  have others : ∀ c ∈ ['d', 'p'], c ≠ 'c' := by decide
  have outside : startsSingleton header.text = false := by
    rw [split]
    exact startsSingleton_eq_false (others first known)
  have free := header.free
  rw [← name] at free
  simp [headerOn?, visibilityList?_text, outside, found, free]

end HeaderLine

/-- The words that a line which says nothing about visibility does not start with. -/
def scopeWords : List String := ["class", "module"] ++ visibilityWords

/-- Statements, comments, blank lines, `end` and everything else. -/
structure QuietLine where
  text : List Char
  quiet : ∀ word ∈ scopeWords, (Text.words text).head? ≠ some word.toList

theorem QuietLine.idle_text (line : QuietLine) : Idle line.text := by
  have keeps : KeepsVisibility line.text := fun word member => line.quiet word (List.mem_append_right _ member)
  constructor
  · have ordinary : startsContainer line.text = false := by
      rw [startsContainer, Block.afterSpacedWord?_eq_none (by decide) (line.quiet "class" (by decide)),
        Block.afterSpacedWord?_eq_none (by decide) (line.quiet "module" (by decide))]
      rfl
    have made : ∀ word ∈ visibilityWords, ∀ c ∈ word.toList, Text.isWord c = true := by decide
    apply visibilityAfter_of_ordinary ordinary
    intro word member same
    exact keeps word member (by rw [same, Text.words_eq_singleton (made word member), List.head?_cons])
  · rw [requestsOn, keeps.visibilityList?]
    rfl

/-- The line that opens a class. -/
structure ClassLine where
  name : List Char
  starts : name.head?.any Text.isUpper = true

namespace ClassLine

variable (opening : ClassLine)

def text : List Char := "class".toList ++ ' ' :: opening.name

theorem visibilityAfter_text (current : Visibility) : visibilityAfter current opening.text = .publicScope := by
  have starts := opening.starts
  have visible : ∀ c ∈ opening.name.head?, Text.isBlank c = false := by
    intro c first
    have upper : Text.isUpper c = true := by simpa [Option.mem_def.mp first] using starts
    exact Text.isBlank_of_isWord (Text.isWord_of_startsName (by simp [Text.startsName, Text.isLetter, upper]))
  have read : Text.afterSpacedWord? "class" opening.text = some opening.name :=
    Text.afterSpacedWord?_append "class" visible
  have container : startsContainer opening.text = true := by
    rw [startsContainer, read, List.any_cons, Option.bind_some, starts]
    rfl
  rw [visibilityAfter, if_pos container]

theorem requestsOn_text : requestsOn opening.text = [] := rfl

end ClassLine

/-- The line that opens a block of methods on `self`. -/
def blockText : List Char := "class << self".toList

theorem idle_blockText : Idle blockText := ⟨fun _ => rfl, rfl⟩

def endText : List Char := "end".toList

theorem idle_endText : Idle endText := ⟨fun _ => rfl, rfl⟩

end CallAtlas.Ruby.ClassBody

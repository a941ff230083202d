import CallAtlas.Proofs.ExpressionLines
import CallAtlas.Proofs.HeaderParameters
import CallAtlas.Proofs.LocalNames

/-! Calls on `self` of the methods that a file defines. The name of a method is made of the word characters of every
script, the name of a call of ASCII letters, digits and underscores. So a method can be called on `self` exactly if its
name is ASCII. -/
namespace CallAtlas.Ruby

open Text (exists_trim_append)
open Token (continuesName)

/-- A name that a header can give to a method: a word, and a mark if one belongs to it. -/
def IsMethodName (name : List Char) : Prop :=
  ∃ first more mark, name = first :: (more ++ mark) ∧ Text.startsName first = true ∧
    (∀ c ∈ more, Text.isWord c = true) ∧ mark ∈ [[], ['?'], ['!'], ['=']]

namespace Header

theorem name?_isMethodName {text name rest : List Char} (found : name? text = some (name, rest)) :
    IsMethodName name := by
  unfold name? at found
  split at found
  · cases found
  · rename_i c more
    have word : ∀ d ∈ more.takeWhile Text.isWord, Text.isWord d = true :=
      fun d inside => List.mem_takeWhile_imp inside
    split at found
    · rename_i starts
      split at found
      · rename_i mark after _
        split at found
        · rename_i marks
          cases found
          refine ⟨c, more.takeWhile Text.isWord, [mark], rfl, starts, word, ?_⟩
          simpa using marks
        · cases found
          exact ⟨c, more.takeWhile Text.isWord, [], by simp, starts, word, by simp⟩
      · cases found
        exact ⟨c, more.takeWhile Text.isWord, [], by simp, starts, word, by simp⟩
    · cases found

/-- Without the equals sign of an endless method, the name of a setter is the name of a method. -/
theorem settle_isMethodName {name : List Char} (isName : IsMethodName name) (rest : List Char) :
    IsMethodName (settle name rest).1 := by
  unfold settle
  split
  · rename_i endless
    obtain ⟨first, more, mark, rfl, starts, word, marks⟩ := isName
    have last : (first :: (more ++ mark)).getLast? = some '=' := endless.1
    by_cases setter : mark = ['=']
    · subst setter
      refine ⟨first, more, [], ?_, starts, word, by simp⟩
      rw [← List.cons_append, List.dropLast_concat, List.append_nil]
    · -- No other mark is an equals sign, and no word ends in one.
      exfalso
      simp only [List.mem_cons, List.not_mem_nil, or_false, setter] at marks
      rcases marks with rfl | rfl | rfl
      · have member : '=' ∈ first :: more := by simpa using List.mem_of_getLast? last
        have made : Text.isWord '=' = true := by
          rcases List.mem_cons.mp member with same | inside
          · exact same ▸ Text.isWord_of_startsName starts
          · exact word '=' inside
        cases made
      all_goals
        rw [← List.cons_append, List.getLast?_concat] at last
        cases last
  · exact isName

theorem read?_isMethodName {line : List Char} {header : Header} (found : read? line = some header) :
    IsMethodName header.name := by
  rw [Parameters.Starts.read?_eq] at found
  obtain ⟨text, _, named⟩ := Option.bind_eq_some_iff.mp found
  rcases Option.or_eq_some_iff.mp named with own | ⟨_, plain⟩
  · obtain ⟨⟨name, rest⟩, read, rfl⟩ := Option.map_eq_some_iff.mp own
    obtain ⟨behind, _, read⟩ := Option.bind_eq_some_iff.mp read
    exact settle_isMethodName (name?_isMethodName read) rest
  · obtain ⟨⟨name, rest⟩, read, rfl⟩ := Option.map_eq_some_iff.mp plain
    exact settle_isMethodName (name?_isMethodName read) rest

end Header

theorem isWord_of_ascii {c : Char} (ascii : c.toNat < 0x80) (word : Text.isWord c = true) : continuesName c = true := by
  rwa [Text.isWord, if_pos ascii] at word

/-- The name of a method that is no setter is the name of a call exactly if it is ASCII. -/
theorem IsMethodName.isCallName_iff {name : List Char} (isName : IsMethodName name) (unset : name.getLast? ≠ some '=') :
    IsCallName name ↔ ∀ c ∈ name, c.toNat < 0x80 := by
  constructor
  · intro callable c member
    obtain ⟨first, more, mark, rfl, starts, joins, marks⟩ := callable
    rcases List.mem_cons.mp member with rfl | member
    · exact ascii_of_continuesName (continuesName_of_startsName starts)
    · rcases List.mem_append.mp member with inside | last
      · exact ascii_of_continuesName (joins c inside)
      · simp only [List.mem_cons, List.not_mem_nil, or_false] at marks
        rcases marks with rfl | rfl | rfl <;> simp at last <;> subst last <;> decide
  · intro ascii
    obtain ⟨first, more, mark, rfl, starts, word, marks⟩ := isName
    refine ⟨first, more, mark, rfl, starts, ?_, ?_⟩
    · intro c inside
      exact isWord_of_ascii (ascii c (by simp [inside])) (word c inside)
    · simp only [List.mem_cons, List.not_mem_nil, or_false] at marks ⊢
      rcases marks with none | question | exclamation | rfl
      · exact .inl none
      · exact .inr (.inl question)
      · exact .inr (.inr exclamation)
      · rw [← List.cons_append, List.getLast?_concat] at unset
        exact absurd rfl unset

theorem mem_occurrencesFrom_head {α : Type} {pattern : Text.Pattern α} {found : α} {before text left : List Char}
    (filled : text ≠ []) (reads : pattern before text = some (found, left)) :
    found ∈ Text.occurrencesFrom pattern before 0 text := by
  obtain ⟨c, rest, rfl⟩ := List.exists_cons_of_ne_nil filled
  rw [Text.occurrencesFrom, reads]
  exact List.mem_cons_self

/-- Blanks are passed over. -/
theorem occurrencesFrom_blanks {blanks : List Char} (blank : ∀ c ∈ blanks, Text.isBlank c = true)
    (before rest : List Char) :
    Text.occurrencesFrom Token.pattern before 0 (blanks ++ rest) =
      Text.occurrencesFrom Token.pattern (blanks.reverse ++ before) 0 rest := by
  apply Text.occurrencesFrom_append
  intro front suffix split filled
  obtain ⟨c, more, rfl⟩ := List.exists_cons_of_ne_nil filled
  have member : c ∈ blanks := by simp [split]
  have starts : Text.startsName c = false := by
    by_contra starts
    have word := Text.isWord_of_startsName (by simpa using starts)
    rw [Text.isWord_of_isBlank (blank c member)] at word
    cases word
  simp [Token.pattern, starts]

theorem startsAssignment_blanks {blanks : List Char} (blank : ∀ c ∈ blanks, Text.isBlank c = true) :
    Token.startsAssignment blanks = false := by
  have nothing : Text.trimStart blanks = [] := by
    have trimmed := Text.trimStart_append blank (by simp : ∀ c ∈ ([] : List Char).head?, Text.isBlank c = false)
    rwa [List.append_nil] at trimmed
  rw [Token.startsAssignment, nothing]
  rfl

/-- What blanks start with is no mark of a name, of a label or of an assignment. -/
theorem head?_of_blanks {after : List Char} (blank : ∀ c ∈ after, Text.isBlank c = true) :
    ∀ c ∈ after.head?, continuesName c = false ∧ c ∉ ['?', '!', '=', ':'] := by
  intro c first
  have here := blank c (List.mem_of_mem_head? first)
  refine ⟨continuesName_of_isBlank here, ?_⟩
  intro member
  have others : ∀ mark ∈ ['?', '!', '=', ':'], Text.isBlank mark = false := by decide
  rw [others c member] at here
  cases here

theorem marked_append (word : List Char) {mark after : List Char} (marks : mark ∈ [[], ['?'], ['!']])
    (behind : ∀ c ∈ after, Text.isBlank c = true) : Token.marked word (mark ++ after) = (word ++ mark, after) := by
  have first := head?_of_blanks behind
  simp only [List.mem_cons, List.not_mem_nil, or_false] at marks first
  cases after with
  | nil => rcases marks with rfl | rfl | rfl <;> simp [Token.marked]
  | cons c after =>
    have other := (first c rfl).2
    simp only [not_or] at other
    rcases marks with rfl | rfl | rfl <;> simp [Token.marked, other]

/-- Behind one dot, a name is read whole as a token that is called on something. -/
theorem pattern_dotted {name after : List Char} (isName : IsCallName name) (behind : ∀ c ∈ after, Text.isBlank c = true)
    (before : List Char) (single : before.head? ≠ some '.') :
    ∃ left, Token.pattern ('.' :: before) (name ++ after) = some (some ⟨String.ofList name, true, false⟩, left) := by
  obtain ⟨initial, more, mark, rfl, starts, joins, marks⟩ := isName
  have first := head?_of_blanks behind
  have stops : (mark ++ after).head?.any continuesName = false := by
    simp only [List.mem_cons, List.not_mem_nil, or_false] at marks
    rcases marks with rfl | rfl | rfl
    · exact (Option.any_eq_false _ _).mpr fun c here => by simp [(first c here).1]
    · rfl
    · rfl
  have none : (mark ++ after).takeWhile continuesName = [] ∧
      (mark ++ after).dropWhile continuesName = mark ++ after := by
    cases joined : mark ++ after with
    | nil => exact ⟨rfl, rfl⟩
    | cons c left =>
      rw [joined] at stops
      have other : ¬ continuesName c = true := by simpa using stops
      exact ⟨List.takeWhile_cons_of_neg other, List.dropWhile_cons_of_neg other⟩
  have word : (more ++ (mark ++ after)).takeWhile continuesName = more := by
    rw [List.takeWhile_append_of_pos joins, none.1, List.append_nil]
  have rest : (more ++ (mark ++ after)).dropWhile continuesName = mark ++ after := by
    rw [List.dropWhile_append_of_pos joins, none.2]
  have label : Token.isLabel after = false := by
    cases after with
    | nil => rfl
    | cons c after =>
      have colon : c ≠ ':' := by
        intro same
        exact (first c rfl).2 (by simp [same])
      simp [Token.isLabel, colon]
  have dotted : Token.isDotted ('.' :: before) = true := by simpa [Token.isDotted] using single
  refine ⟨mark ++ after, ?_⟩
  rw [List.cons_append, List.append_assoc]
  simp only [Token.pattern, starts, if_true, word, rest, Token.read?, marked_append _ marks behind, label, dotted,
    startsAssignment_blanks behind]
  rfl

theorem mem_tokens_self {blanks name after : List Char} (before : ∀ c ∈ blanks, Text.isBlank c = true)
    (isName : IsCallName name) (behind : ∀ c ∈ after, Text.isBlank c = true) :
    ⟨String.ofList name, true, false⟩ ∈ tokens (blanks ++ ("self.".toList ++ (name ++ after))) := by
  have object (before left : List Char) : Token.pattern before ('s' :: (['e', 'l', 'f'] ++ '.' :: left)) =
      some (Token.read? before ['s', 'e', 'l', 'f'] ('.' :: left), '.' :: left) := rfl
  have dot (before left : List Char) : Text.occurrencesFrom Token.pattern before 0 ('.' :: left) =
      Text.occurrencesFrom Token.pattern ('.' :: before) 0 left := rfl
  have text : "self.".toList ++ (name ++ after) = 's' :: (['e', 'l', 'f'] ++ '.' :: (name ++ after)) := rfl
  apply List.mem_filterMap.mpr
  refine ⟨some ⟨String.ofList name, true, false⟩, ?_, rfl⟩
  rw [Text.occurrences, occurrencesFrom_blanks before, text, Text.occurrencesFrom_hit (object _ _), dot]
  apply List.mem_cons_of_mem
  obtain ⟨left, reads⟩ := pattern_dotted isName behind ('f' :: 'l' :: 'e' :: 's' :: (blanks.reverse ++ [])) (by simp)
  exact mem_occurrencesFrom_head (by obtain ⟨first, more, mark, rfl, _⟩ := isName; simp) reads

theorem IsMethodName.unmarked {name : List Char} (isName : IsMethodName name) : ∀ c ∈ name, c ∉ Blanking.codeMarks := by
  obtain ⟨first, more, mark, rfl, starts, word, marks⟩ := isName
  have others : ∀ mark ∈ Blanking.codeMarks, Text.isWord mark = false := by decide
  have made {c : Char} (isWord : Text.isWord c = true) : c ∉ Blanking.codeMarks := by
    intro member
    rw [others c member] at isWord
    cases isWord
  intro c member
  rcases List.mem_cons.mp member with rfl | member
  · exact made (Text.isWord_of_startsName starts)
  · rcases List.mem_append.mp member with inside | last
    · exact made (word c inside)
    · simp only [List.mem_cons, List.not_mem_nil, or_false] at marks
      rcases marks with rfl | rfl | rfl | rfl <;> simp at last <;> subst last <;> decide

/-- Cleaning keeps a line with a call on `self`, or drops it whole as a part of a heredoc or of documentation. -/
theorem cleaned_self {file : SourceFile} {line : Blanking.Line} {name : List Char} (isName : IsMethodName name)
    (member : line ∈ linesOf file) (written : Text.trim line.raw = "self.".toList ++ name) :
    line.cleaned = [] ∨ line.cleaned = line.raw := by
  by_cases dropped : line.cleaned = []
  · exact .inl dropped
  · right
    have plain : ∀ c ∈ line.raw, c ∉ Blanking.codeMarks := by
      obtain ⟨blanks, after, split, before, behind⟩ := exists_trim_append line.raw
      rw [split, written]
      intro c inside
      simp only [List.mem_append] at inside
      rcases inside with blank | (self | named) | blank
      · exact Blanking.not_mem_codeMarks_of_isBlank (before c blank)
      · have others : ∀ c ∈ "self.".toList, c ∉ Blanking.codeMarks := by decide
        exact others c self
      · exact isName.unmarked c named
      · exact Blanking.not_mem_codeMarks_of_isBlank (behind c blank)
    have known : ∀ c ∈ Blanking.startSigns .ruby, c ∈ Blanking.codeMarks := by decide
    rw [Blanking.scanned_of_mem_pairLines member dropped,
      Blanking.scan_eq_self _ fun c inside sign => plain c inside (known c sign)]

namespace Reader

variable {reader : Reader} {file : SourceFile} {registry : Registry}

/-- The name of a method of a file is one that a header gives, and it is accepted unless it is reserved. -/
theorem accepts_defined {definition : Definition} (member : definition ∈ (reader.define file).definitions)
    (free : reader.vocabulary.excludes definition.name = false) :
    IsMethodName definition.name.toList ∧
      (reader.acceptance (reader.define file).definitions registry).accepts definition.name = true := by
  obtain ⟨found, present, rfl⟩ := List.mem_map.mp member
  have isName : IsMethodName found.definition.name.toList := by
    obtain ⟨front, line, rest, scope, header, _, reads, visibility, rfl⟩ := mem_methodsOf present
    simp only [methodAt, String.toList_ofList]
    exact Header.read?_isMethodName reads
  refine ⟨isName, ?_⟩
  have filled : found.definition.name ≠ "" := by
    intro empty
    obtain ⟨first, more, mark, same, _⟩ := isName
    rw [empty] at same
    cases same
  have known : found.definition.name ∈ Registry.ofDefinitions (reader.define file).definitions := by
    apply Registry.mem_ofDefinitions.mpr
    refine ⟨found.definition, member, ?_, rfl⟩
    rcases findMethods_kind present with kind | kind <;> rw [kind] <;> rfl
  simp only [Acceptance.accepts, acceptance, Bool.and_eq_true, Bool.or_eq_true, bne_iff_ne, Bool.not_eq_true',
    Registry.contains_iff]
  exact ⟨⟨filled, free⟩, .inl (.inr known)⟩

/-- Where a line of a method reads `self.` and the name of a method of the file, the call is reported exactly if the line
is code and the name is ASCII. -/
theorem self_call_reported_iff (reader : Reader) (file : SourceFile) (registry : Registry) {caller callee : Definition}
    (calls : caller ∈ (reader.analyze file registry).definitions)
    (defined : callee ∈ (reader.analyze file registry).definitions)
    (free : reader.vocabulary.excludes callee.name = false) (unset : callee.name.toList.getLast? ≠ some '=')
    {number : Nat} {line : Blanking.Line} (within : caller.startLine < number ∧ number ≤ caller.endLine)
    (here : (linesOf file)[number - 1]? = some line)
    (written : Text.trim line.raw = "self.".toList ++ callee.name.toList) :
    (line.cleaned = [] ∨ line.cleaned = line.raw) ∧
      ((∃ call ∈ caller.calls, call.callee = callee.name ∧ call.line = number) ↔
        line.cleaned = line.raw ∧ ∀ c ∈ callee.name.toList, c.toNat < 0x80) := by
  obtain ⟨index, found, sites, place, added, same⟩ := exists_found calls
  obtain ⟨_, other, _, elsewhere, _, sameCallee⟩ := exists_found defined
  have own : other.definition ∈ (reader.define file).definitions := List.mem_map_of_mem (List.mem_of_getElem? elsewhere)
  have named : callee.name = other.definition.name := by rw [sameCallee]
  rw [named] at free unset written ⊢
  obtain ⟨isName, accepted⟩ := accepts_defined own free
  have kept := cleaned_self isName (List.mem_of_getElem? here) written
  refine ⟨kept, ?_⟩
  have reported := reports_withCalls (reader.acceptance (reader.define file).definitions registry) place
    other.definition.name number
  rw [← added] at reported
  have inside : found.definition.startLine < number ∧ number ≤ found.definition.endLine := by
    rwa [same] at within
  have searched : searchedText file found.definition number = line.cleaned := by
    rw [searchedText, if_neg (Nat.ne_of_gt inside.1), List.getElem?_map, here]
    rfl
  constructor
  · intro call
    obtain ⟨_, token, present, sameName, _⟩ := reported.mp call
    rw [searched] at present
    have filled : line.cleaned ≠ [] := by
      intro empty
      rw [empty] at present
      cases present
    refine ⟨kept.resolve_left filled, (isName.isCallName_iff unset).mp ?_⟩
    rw [← sameName]
    exact (mem_tokens present).1
  · intro holds
    obtain ⟨code, ascii⟩ := holds
    obtain ⟨blanks, after, split, before, behind⟩ := exists_trim_append line.raw
    have present := mem_tokens_self before ((isName.isCallName_iff unset).mpr ascii) behind
    rw [String.ofList_toList, ← List.append_assoc _ other.definition.name.toList, ← written, ← split, ← code,
      ← searched] at present
    apply reported.mpr
    refine ⟨?_, _, present, rfl, rfl, accepted, .inl rfl⟩
    simp only [Definition.containsLine, Bool.and_eq_true, decide_eq_true_eq]
    omega

/-- A method with a mark at the end of its name, called on `self`. -/
theorem self_call_reported_iff_marked :
    let reader : Reader := ⟨⟨.ruby, []⟩, ⟨9, 20⟩⟩
    let file : SourceFile := .ofText "till.rb" .ruby "def Open_2?\nend\ndef run\n  self.Open_2?\nend\n"
    ∃ caller ∈ (reader.analyze file .empty).definitions, ∃ callee ∈ (reader.analyze file .empty).definitions,
      callee.name = "Open_2?" ∧ (caller.startLine < 4 ∧ 4 ≤ caller.endLine) ∧
      ∃ call ∈ caller.calls, call.callee = callee.name ∧ call.line = 4 := by
  intro reader file
  have evaluated : ("run", 3, 5) ∈ (reader.analyze file .empty).definitions.map
      (fun definition => (definition.name, definition.startLine, definition.endLine)) ∧
      "Open_2?" ∈ (reader.analyze file .empty).definitions.map (·.name) := by decide +kernel
  obtain ⟨caller, calls, range⟩ := List.mem_map.mp evaluated.1
  obtain ⟨callee, defined, named⟩ := List.mem_map.mp evaluated.2
  obtain ⟨-, starts, ends⟩ : caller.name = "run" ∧ caller.startLine = 3 ∧ caller.endLine = 5 := by simpa using range
  have within : caller.startLine < 4 ∧ 4 ≤ caller.endLine := by omega
  have free : reader.vocabulary.excludes callee.name = false ∧ callee.name.toList.getLast? ≠ some '=' := by
    rw [named]
    decide +kernel
  have here : (linesOf file)[4 - 1]? = some ⟨"  self.Open_2?".toList, "  self.Open_2?".toList⟩ := by decide +kernel
  have written : Text.trim "  self.Open_2?".toList = "self.".toList ++ callee.name.toList := by
    rw [named]
    decide +kernel
  refine ⟨caller, calls, callee, defined, named, within, ?_⟩
  apply (self_call_reported_iff reader file .empty calls defined free.1 free.2 within here written).2.mpr
  rw [named]
  exact ⟨rfl, by decide +kernel⟩

/-- A method whose name has a letter beyond ASCII is never found to be called on `self`. -/
theorem accented_call_missed :
    let reader : Reader := ⟨⟨.ruby, []⟩, ⟨9, 20⟩⟩
    let file (name : String) : SourceFile :=
      .ofText "till.rb" .ruby ("def " ++ name ++ "\nend\ndef run\n  self." ++ name ++ "\nend\n")
    let found (name : String) := (reader.analyze (file name) .empty).definitions.map fun definition =>
      (definition.name, definition.startLine, definition.calls.map fun call => (call.callee, call.line))
    found "cafe" = [("cafe", 1, []), ("run", 3, [("cafe", 4)])] ∧
      found "café" = [("café", 1, []), ("run", 3, [])] ∧ reader.vocabulary.excludes "café" = false := by
  decide +kernel

end Reader
end CallAtlas.Ruby

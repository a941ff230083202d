import CallAtlas.Proofs.Columns

/-! Where a heredoc is found to open. The look-alike that counts is the first one of the source line, and its mark is
looked for in the cleaned line by the offset in bytes. The offset names the column of the look-alike as long as blanking
loses no byte in front of it; a blanked character of several bytes moves the place to the right. -/
namespace CallAtlas

namespace Text

theorem byteLength_cons (c : Char) (text : List Char) : byteLength (c :: text) = c.utf8Size + byteLength text := rfl

/-- Each column of a text has an offset of its own. -/
theorem byteLength_take_lt {text : List Char} {column other : Nat} (before : column < other)
    (inside : other ≤ text.length) : byteLength (text.take column) < byteLength (text.take other) := by
  induction text generalizing column other with
  | nil => exact absurd before (by simp at inside; omega)
  | cons c text ih =>
    obtain ⟨other, rfl⟩ : ∃ next, other = next + 1 := ⟨other - 1, by omega⟩
    have positive := c.utf8Size_pos
    cases column with
    | zero =>
      rw [List.take_zero, List.take_succ_cons, byteLength_cons]
      exact Nat.lt_of_lt_of_le positive (Nat.le_add_right _ _)
    | succ column =>
      rw [List.take_succ_cons, List.take_succ_cons, byteLength_cons, byteLength_cons]
      exact Nat.add_lt_add_left (ih (by omega) (by simpa using inside)) _

theorem dropBytes?_take {text : List Char} {column : Nat} (inside : column ≤ text.length) :
    dropBytes? (byteLength (text.take column)) text = some (text.drop column) := by
  induction text generalizing column with
  | nil =>
    cases Nat.le_zero.mp inside
    rfl
  | cons c text ih =>
    cases column with
    | zero => rfl
    | succ column =>
      have positive := c.utf8Size_pos
      rw [List.take_succ_cons, byteLength_cons, List.drop_succ_cons]
      obtain ⟨offset, found⟩ : ∃ offset, c.utf8Size + byteLength (text.take column) = offset + 1 :=
        ⟨c.utf8Size + byteLength (text.take column) - 1, by omega⟩
      rw [found, dropBytes?, if_pos (by omega), ← found, Nat.add_sub_cancel_left]
      exact ih (by simpa using inside)

theorem dropBytes?_eq_some {offset : Nat} {text rest : List Char} (found : dropBytes? offset text = some rest) :
    ∃ column ≤ text.length, byteLength (text.take column) = offset ∧ rest = text.drop column := by
  fun_induction dropBytes? offset text with
  | case1 text =>
    cases found
    exact ⟨0, Nat.zero_le _, rfl, rfl⟩
  | case2 offset => cases found
  | case3 offset c text fits ih =>
    obtain ⟨column, inside, bytes, rfl⟩ := ih found
    refine ⟨column + 1, by simpa using inside, ?_, rfl⟩
    rw [List.take_succ_cons, byteLength_cons, bytes, Nat.add_sub_cancel' fits]
  | case4 offset c text wide => cases found

end Text

namespace Blanking

open Text (byteLength)

/-- Blanking loses bytes where it blanks a character of several bytes, and gains none. -/
theorem Shadows.byteLength_take_le {shown source : List Char} (shadows : Shadows shown source) {column : Nat}
    (inside : column ≤ source.length) : byteLength (shown.take column) ≤ byteLength (source.take column) := by
  induction column generalizing shown source with
  | zero => exact Nat.le_refl _
  | succ column ih =>
    obtain ⟨c, rest, rfl⟩ := List.exists_cons_of_length_pos (Nat.lt_of_lt_of_le (Nat.succ_pos column) inside)
    cases shown with
    | nil => exact Nat.zero_le _
    | cons written shown =>
      have first : written.utf8Size ≤ c.utf8Size := by
        rcases shadows 0 written rfl with rfl | same
        · exact c.utf8Size_pos
        · cases same
          exact Nat.le_refl _
      have later : Shadows shown rest := fun column d here => shadows (column + 1) d here
      rw [List.take_succ_cons, List.take_succ_cons, Text.byteLength_cons, Text.byteLength_cons]
      exact Nat.add_le_add first (ih later (by simpa using inside))

/-- The first look-alike of a line is followed by its word, and none stands before it. -/
theorem firstHeredoc?_eq_some {line before word : List Char} (found : firstHeredoc? line = some (before, word)) :
    before.length < line.length ∧ line.take before.length = before ∧
      heredocWord? (line.drop before.length) = some word ∧
      ∀ column < before.length, heredocWord? (line.drop column) = none := by
  induction line generalizing before with
  | nil => cases found
  | cons c rest ih =>
    rw [firstHeredoc?] at found
    split at found
    · rename_i here
      cases found
      exact ⟨Nat.succ_pos _, rfl, here, fun column inside => absurd inside (Nat.not_lt_zero _)⟩
    · rename_i here
      obtain ⟨⟨front, other⟩, later, same⟩ := Option.map_eq_some_iff.mp found
      cases same
      obtain ⟨inside, front, reads, earlier⟩ := ih later
      refine ⟨Nat.succ_lt_succ inside, congrArg (c :: ·) front, reads, fun column less => ?_⟩
      cases column with
      | zero => exact here
      | succ column => exact earlier column (Nat.lt_of_succ_lt_succ less)

theorem heredocWord?_drop_eq_none {line : List Char} (absent : firstHeredoc? line = none) (column : Nat) :
    heredocWord? (line.drop column) = none := by
  induction line generalizing column with
  | nil =>
    rw [List.drop_nil]
    rfl
  | cons c rest ih =>
    rw [firstHeredoc?] at absent
    split at absent
    · cases absent
    · rename_i here
      cases column with
      | zero => exact here
      | succ column => exact ih (Option.map_eq_none_iff.mp absent) column

/-- The cleaned line keeps the mark of a heredoc at a column. -/
def keepsMark (cleaned : List Char) (column : Nat) : Bool := Text.startsWith "<<" (cleaned.drop column)

theorem keepsMark_inside {cleaned : List Char} {column : Nat} (kept : keepsMark cleaned column = true) :
    column < cleaned.length := by
  by_contra outside
  rw [keepsMark, List.drop_eq_nil_of_le (Nat.le_of_not_lt outside)] at kept
  cases kept

/-- The end word of the first heredoc that opens in code: at a column where the cleaned line keeps the mark. -/
def codeHeredoc? (line cleaned : List Char) : Option (List Char) :=
  (List.range line.length).findSome? fun column =>
    if keepsMark cleaned column then heredocWord? (line.drop column) else none

theorem codeHeredoc?_eq_none {line : List Char} (absent : firstHeredoc? line = none) (cleaned : List Char) :
    codeHeredoc? line cleaned = none := by
  apply List.findSome?_eq_none_iff.mpr
  intro column _
  rw [heredocWord?_drop_eq_none absent column, ite_self]

/-- If the first look-alike stands in code, it is the heredoc that the code opens. -/
theorem codeHeredoc?_of_first {line before word cleaned : List Char}
    (found : firstHeredoc? line = some (before, word)) (kept : keepsMark cleaned before.length = true) :
    codeHeredoc? line cleaned = some word := by
  obtain ⟨inside, _, reads, earlier⟩ := firstHeredoc?_eq_some found
  have front : (List.range before.length).findSome? (fun column =>
      if keepsMark cleaned column then heredocWord? (line.drop column) else none) = none := by
    apply List.findSome?_eq_none_iff.mpr
    intro column member
    rw [earlier column (List.mem_range.mp member), ite_self]
  obtain ⟨more, length⟩ : ∃ more, line.length = before.length + 1 + more :=
    ⟨line.length - (before.length + 1), by omega⟩
  rw [codeHeredoc?, length, List.range_add, List.range_succ, List.findSome?_append, List.findSome?_append, front]
  simp [kept, reads]

/-- A column of the cleaned line that keeps the mark and has the same bytes before it as the look-alike. -/
structure MarkedAt (before cleaned : List Char) (column : Nat) : Prop where
  bytes : byteLength (cleaned.take column) = byteLength before
  kept : keepsMark cleaned column = true

variable {line before word cleaned : List Char}

theorem openedHeredoc?_eq_some (found : firstHeredoc? line = some (before, word)) :
    openedHeredoc? line cleaned = some word ↔ ∃ column, MarkedAt before cleaned column := by
  rw [openedHeredoc?, found]
  constructor
  · intro opened
    simp only at opened
    split at opened
    · rename_i rest dropped
      obtain ⟨column, _, bytes, rfl⟩ := Text.dropBytes?_eq_some dropped
      split at opened
      · rename_i kept
        exact ⟨column, bytes, kept⟩
      · cases opened
    · cases opened
  · rintro ⟨column, bytes, kept⟩
    have dropped := Text.dropBytes?_take (Nat.le_of_lt (keepsMark_inside kept))
    rw [bytes] at dropped
    simp only [dropped]
    exact if_pos kept

theorem openedHeredoc?_of_first (found : firstHeredoc? line = some (before, word)) :
    openedHeredoc? line cleaned = none ∨ openedHeredoc? line cleaned = some word := by
  rw [openedHeredoc?, found]
  simp only
  split
  · split
    · exact .inr rfl
    · exact .inl rfl
  · exact .inl rfl

/-- The place is never left of the look-alike, and right of it exactly if bytes were lost. -/
theorem MarkedAt.column (shadows : Shadows cleaned line) (found : firstHeredoc? line = some (before, word))
    {column : Nat} (marked : MarkedAt before cleaned column) :
    before.length ≤ column ∧
      (column = before.length ↔ byteLength (cleaned.take before.length) = byteLength before) := by
  obtain ⟨inside, front, _, _⟩ := firstHeredoc?_eq_some found
  have within := keepsMark_inside marked.kept
  have lost := shadows.byteLength_take_le (Nat.le_of_lt inside)
  rw [front] at lost
  have right : before.length ≤ column := by
    by_contra left
    have more := Text.byteLength_take_lt (Nat.lt_min.mpr ⟨Nat.lt_of_not_le left, within⟩) (Nat.min_le_right _ _)
    rw [← List.take_eq_take_min, marked.bytes] at more
    exact Nat.not_lt_of_le lost more
  refine ⟨right, fun same => same ▸ marked.bytes, fun steady => ?_⟩
  by_contra differ
  have less := Text.byteLength_take_lt (Nat.lt_of_le_of_ne right (Ne.symm differ)) (Nat.le_of_lt within)
  have bytes := marked.bytes
  omega

/-- What a line opens depends on the line and on its cleaned form alone, whatever it is preceded by. -/
theorem clean_heredoc {language : Language} (ruby : language.isRubyLike = true) {cleaner : Cleaner}
    (outside : cleaner.heredoc = none) (code : cleaner.inDocument = false) (line : List Char) :
    (cleaner.clean language line).2.heredoc = openedHeredoc? line (cleaner.clean language line).1 := by
  have nothing : openedHeredoc? line [] = none := by
    cases found : firstHeredoc? line with
    | none => rw [openedHeredoc?, found]
    | some first =>
      obtain ⟨before, word⟩ := first
      refine (openedHeredoc?_of_first found).resolve_right fun opened => ?_
      obtain ⟨column, marked⟩ := (openedHeredoc?_eq_some found).mp opened
      exact absurd (keepsMark_inside marked.kept) (Nat.not_lt_zero _)
  simp only [Cleaner.clean, ruby, outside, code, if_true, Bool.false_eq_true, if_false]
  split
  · exact nothing.symm
  · rfl

/-- Outside heredocs and documentation, a line of Ruby opens the heredoc of its first look-alike if the cleaned line has
a mark after as many bytes as stand before the look-alike, and no heredoc otherwise. So where blanking loses no byte
before the look-alike, the heredoc that the code opens is found exactly if it is the first look-alike; where it loses
some, the mark that counts is another one, further to the right. -/
theorem heredoc_opened_by_offset {language : Language} (ruby : language.isRubyLike = true) {cleaner : Cleaner}
    (outside : cleaner.heredoc = none) (code : cleaner.inDocument = false) {line cleaned : List Char} {next : Cleaner}
    (cleans : cleaner.clean language line = (cleaned, next)) :
    (firstHeredoc? line = none → next.heredoc = none ∧ codeHeredoc? line cleaned = none) ∧
    ∀ before word, firstHeredoc? line = some (before, word) →
      (next.heredoc = none ∨ next.heredoc = some word) ∧
      (keepsMark cleaned before.length = true → codeHeredoc? line cleaned = some word) ∧
      (byteLength (cleaned.take before.length) = byteLength before →
        (next.heredoc = some word ↔ keepsMark cleaned before.length = true) ∧
        (next.heredoc = codeHeredoc? line cleaned ↔
          keepsMark cleaned before.length = true ∨ codeHeredoc? line cleaned = none)) ∧
      (byteLength (cleaned.take before.length) ≠ byteLength before →
        (next.heredoc = some word ↔ ∃ column, before.length < column ∧ MarkedAt before cleaned column)) := by
  have shadows : Shadows cleaned line := by
    have shadows : Shadows (cleaner.clean language line).1 line := clean_shadows cleaner line
    rwa [cleans] at shadows
  have opens : next.heredoc = openedHeredoc? line cleaned := by
    have opens := clean_heredoc ruby outside code line
    rwa [cleans] at opens
  rw [opens]
  refine ⟨fun absent => ⟨?_, codeHeredoc?_eq_none absent cleaned⟩, fun before word found => ⟨openedHeredoc?_of_first found,
    codeHeredoc?_of_first found, fun steady => ?_, fun lost => ?_⟩⟩
  · rw [openedHeredoc?, absent]
  · have kept : openedHeredoc? line cleaned = some word ↔ keepsMark cleaned before.length = true := by
      rw [openedHeredoc?_eq_some found]
      constructor
      · rintro ⟨column, marked⟩
        rw [← (marked.column shadows found).2.mpr steady]
        exact marked.kept
      · exact fun kept => ⟨before.length, steady, kept⟩
    refine ⟨kept, ?_⟩
    by_cases mark : keepsMark cleaned before.length = true
    · simp [mark, kept.mpr mark, codeHeredoc?_of_first found mark]
    · rw [(openedHeredoc?_of_first found).resolve_right (mt kept.mp mark)]
      simp [mark, eq_comm]
  · rw [openedHeredoc?_eq_some found]
    constructor
    · rintro ⟨column, marked⟩
      obtain ⟨right, here⟩ := marked.column shadows found
      exact ⟨column, Nat.lt_of_le_of_ne right fun same => lost (here.mp same.symm), marked⟩
    · rintro ⟨column, _, marked⟩
      exact ⟨column, marked⟩

theorem heredoc_opened_by_offset_code :
    firstHeredoc? "log(\"a<\", <<~SQL)".toList = some ("log(\"a<\", ".toList, "SQL".toList) ∧
    (({} : Cleaner).clean .ruby "log(\"a<\", <<~SQL)".toList).2.heredoc = some "SQL".toList := by
  have found : firstHeredoc? "log(\"a<\", <<~SQL)".toList = some ("log(\"a<\", ".toList, "SQL".toList) := by
    decide +kernel
  have opened := (@heredoc_opened_by_offset .ruby rfl {} rfl rfl "log(\"a<\", <<~SQL)".toList _ _ rfl).2 _ _ found
  exact ⟨found, (opened.2.2.1 (by decide +kernel)).1.mpr (by decide +kernel)⟩

/-- The heredoc that the code of a line opens, and the one that the line is found to open. -/
def heredocsOf (line : String) : Option (List Char) × Option (List Char) :=
  (codeHeredoc? line.toList (({} : Cleaner).clean .ruby line.toList).1,
    (({} : Cleaner).clean .ruby line.toList).2.heredoc)

/-- A look-alike in a string hides the heredoc behind it. A blanked character of two bytes hides it too, and may turn a
look-alike in a string into a heredoc. -/
theorem heredoc_not_by_code :
    heredocsOf "puts(\"<<A\", <<B)" = (some ['B'], none) ∧
    heredocsOf "x = \"é\" + <<A" = (some ['A'], none) ∧
    heredocsOf "'éééé<<A'<< x" = (none, some ['A']) := by
  decide +kernel

end Blanking
end CallAtlas

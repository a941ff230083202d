import CallAtlas.Proofs.CallNames

/-! How the lines of a script start. Most declarations start with a word that a blank has to follow, so a text whose
first word is none of these declares a function or nothing; imports and exports are known by their first word too. -/
namespace CallAtlas.Script

namespace Pattern

/-- The first longest run of identifier characters in a text. -/
def firstRun (text : List Char) : List Char :=
  (text.dropWhile fun c => !continuesIdentifier c).takeWhile continuesIdentifier

/-- The identifier characters that a text starts with, after blanks. -/
def leadingRun (text : List Char) : List Char := (Text.trimStart text).takeWhile continuesIdentifier

variable {c : Char} {text word rest : List Char}

theorem isBlank_of_continues (joins : continuesIdentifier c = true) : Text.isBlank c = false := by
  rcases Bool.or_eq_true_iff.mp joins with word | dollar
  · exact Text.isBlank_of_isWord word
  · cases beq_iff_eq.mp dollar
    rfl

theorem continues_of_isBlank (blank : Text.isBlank c = true) : continuesIdentifier c = false := by
  by_contra joins
  rw [isBlank_of_continues (by simpa using joins)] at blank
  cases blank

theorem leadingRun_cons_of_isBlank (blank : Text.isBlank c = true) (rest : List Char) :
    leadingRun (c :: rest) = leadingRun rest := by
  rw [leadingRun, Text.trimStart, List.dropWhile_cons_of_pos blank]
  rfl

theorem leadingRun_cons_of_visible (visible : Text.isBlank c = false) (rest : List Char) :
    leadingRun (c :: rest) = (c :: rest).takeWhile continuesIdentifier := by
  rw [leadingRun, Text.trimStart, List.dropWhile_cons_of_neg (by simp [visible])]

theorem leadingRun_append (filled : word ≠ []) (joins : ∀ c ∈ word, continuesIdentifier c = true)
    (stop : rest.head?.any continuesIdentifier = false) : leadingRun (word ++ rest) = word := by
  obtain ⟨c, more, rfl⟩ := List.exists_cons_of_ne_nil filled
  have visible := isBlank_of_continues (joins c List.mem_cons_self)
  rw [List.cons_append, leadingRun_cons_of_visible visible, ← List.cons_append,
    List.takeWhile_append_of_pos joins]
  cases rest with
  | nil => exact List.append_nil _
  | cons d rest =>
    rw [List.takeWhile_cons_of_neg (by simpa using stop), List.append_nil]

theorem leadingRun_trimStart (text : List Char) : leadingRun (Text.trimStart text) = leadingRun text := by
  induction text with
  | nil => rfl
  | cons c rest ih =>
    cases blank : Text.isBlank c with
    | true =>
      rw [leadingRun_cons_of_isBlank blank, ← ih, Text.trimStart, List.dropWhile_cons_of_pos blank]
      rfl
    | false => rw [Text.trimStart, List.dropWhile_cons_of_neg (by simp [blank])]

theorem leadingRun_trimEnd (text : List Char) : leadingRun (Text.trimEnd text) = leadingRun text := by
  obtain ⟨blanks, split, blank⟩ := Text.exists_trimEnd_append text
  have stop : blanks.takeWhile continuesIdentifier = [] := by
    cases blanks with
    | nil => rfl
    | cons c blanks =>
      exact List.takeWhile_cons_of_neg (by simp [continues_of_isBlank (blank c List.mem_cons_self)])
  have beyond (front : List Char) : leadingRun (front ++ blanks) = leadingRun front := by
    induction front with
    | nil =>
      have all : Text.trimStart blanks = [] := List.dropWhile_eq_nil_iff.mpr blank
      rw [List.nil_append, leadingRun, all]
      rfl
    | cons c front ih =>
      cases visible : Text.isBlank c with
      | true => rw [List.cons_append, leadingRun_cons_of_isBlank visible, leadingRun_cons_of_isBlank visible, ih]
      | false =>
        rw [List.cons_append, leadingRun_cons_of_visible visible, leadingRun_cons_of_visible visible,
          ← List.cons_append, List.takeWhile_append, stop, List.append_nil]
        split
        · rename_i whole
          exact ((List.takeWhile_prefix _).eq_of_length whole).symm
        · rfl
  rw [← beyond, ← split]

theorem leadingRun_trim (text : List Char) : leadingRun (Text.trim text) = leadingRun text := by
  rw [Text.trim, leadingRun_trimEnd, leadingRun_trimStart]

/-- The first run of a text that starts with an identifier character is what it starts with. -/
theorem firstRun_eq_leadingRun (filled : leadingRun text ≠ []) : firstRun text = leadingRun text := by
  induction text with
  | nil => rfl
  | cons c rest ih =>
    cases visible : Text.isBlank c with
    | true =>
      rw [leadingRun_cons_of_isBlank visible] at filled ⊢
      rw [firstRun, List.dropWhile_cons_of_pos (by simp [continues_of_isBlank visible])]
      exact ih filled
    | false =>
      rw [leadingRun_cons_of_visible visible] at filled ⊢
      cases joins : continuesIdentifier c with
      | true => rw [firstRun, List.dropWhile_cons_of_neg (by simp [joins])]
      | false => exact absurd (List.takeWhile_cons_of_neg (by simp [joins])) filled

/-- A word that is read with a blank behind it is all that the text starts with. -/
theorem leadingRun_of_afterSpacedWord? {word : String} (filled : word.toList ≠ [])
    (joins : ∀ c ∈ word.toList, continuesIdentifier c = true) (found : Text.afterSpacedWord? word text = some rest) :
    leadingRun text = word.toList := by
  obtain ⟨left, reads, spaced⟩ := Option.bind_eq_some_iff.mp found
  rw [Text.after?_eq_some.mp reads]
  refine leadingRun_append filled joins ?_
  unfold Text.afterBlank? at spaced
  split at spaced
  · rfl
  · split at spaced
    · rename_i blank
      exact continues_of_isBlank blank
    · cases spaced

end Pattern

namespace Outline

open Pattern (continuesIdentifier leadingRun)

/-- The words that start a declaration and are followed by a blank. -/
def openers : List String :=
  ["export", "declare", "async", "abstract", "class", "interface", "type", "const", "enum", "let", "var"]

theorem openers_join : ∀ word ∈ openers, ∀ c ∈ word.toList, continuesIdentifier c = true := by decide

theorem openers_filled : ∀ word ∈ openers, word.toList ≠ [] := by decide

/-- A text that starts no declaration but that of a function. -/
def Unspaced (text : List Char) : Prop := ∀ word ∈ openers, Text.afterSpacedWord? word text = none

variable {text : List Char}

theorem Unspaced.of_leadingRun (others : ∀ word ∈ openers, leadingRun text ≠ word.toList) : Unspaced text := by
  intro word opener
  cases found : Text.afterSpacedWord? word text with
  | none => rfl
  | some rest =>
    have run := Pattern.leadingRun_of_afterSpacedWord? (openers_filled word opener) (openers_join word opener) found
    exact absurd run (others word opener)

namespace Unspaced

variable (unspaced : Unspaced text)
include unspaced

theorem skip (word : String) (opener : word ∈ openers) : Text.skipSpacedWord word text = text := by
  rw [Text.skipSpacedWord, unspaced word opener]
  rfl

theorem skipExportDefault : Pattern.skipExportDefault text = text := by
  rw [Pattern.skipExportDefault, unspaced "export" (by decide)]

theorem variableWord? : Pattern.variableWord? text = none := by
  simp [Pattern.variableWord?, unspaced "const" (by decide), unspaced "let" (by decide), unspaced "var" (by decide)]

theorem function? : Pattern.function? text = (Text.after? "function" text).bind fun rest =>
    Pattern.identifier? (Text.trimStart (Pattern.skipMark '*' (Text.trimStart rest))) := by
  rw [Pattern.function?, Pattern.skipDeclare, unspaced.skipExportDefault, unspaced.skip "declare" (by decide),
    unspaced.skip "async" (by decide)]
  rfl

theorem containerHeader? : Outline.containerHeader? text = none := by
  simp [Outline.containerHeader?, Pattern.class?, Pattern.interface?, Pattern.enumeration?, Pattern.alias?,
    Pattern.skipDeclare, Pattern.skipExport, unspaced.skipExportDefault, unspaced.skip "declare" (by decide),
    unspaced.skip "export" (by decide), unspaced.skip "abstract" (by decide), unspaced.skip "const" (by decide),
    unspaced "class" (by decide), unspaced "interface" (by decide), unspaced "enum" (by decide),
    unspaced "type" (by decide)]

theorem boundName? : Pattern.boundName? text = none := by
  simp [Pattern.boundName?, Pattern.skipDeclare, Pattern.skipExport, unspaced.skip "declare" (by decide),
    unspaced.skip "export" (by decide), unspaced.variableWord?]

theorem require? : Pattern.require? text = none := by
  rw [Pattern.require?, Pattern.skipExport, unspaced.skip "export" (by decide), unspaced.variableWord?]
  rfl

theorem exportDefault? : Pattern.exportDefault? text = none := by
  rw [Pattern.exportDefault?, unspaced "export" (by decide)]
  rfl

end Unspaced

theorem leadingRun_of_startsImport (starts : Pattern.startsImport text = true) : leadingRun text = "import".toList := by
  unfold Pattern.startsImport at starts
  split at starts
  · rename_i c rest found
    rw [Text.after?_eq_some.mp found]
    refine Pattern.leadingRun_append (by decide) (by decide) ?_
    rcases Bool.or_eq_true_iff.mp starts with blank | mark
    · exact Pattern.continues_of_isBlank blank
    · have marks : ∀ c ∈ ['{', '*', '\'', '"'], continuesIdentifier c = false := by decide
      exact marks c (by simpa using mark)
  · cases starts

theorem leadingRun_of_startsExportList (starts : startsExportList text = true) : leadingRun text = "export".toList := by
  have shapes : ∀ start ∈ ["export *", "export\x7b", "export \x7b", "export type \x7b"],
      ∃ mark more, start.toList = "export".toList ++ mark :: more ∧ continuesIdentifier mark = false := by
    simp only [List.forall_mem_cons]
    exact ⟨⟨' ', _, rfl, rfl⟩, ⟨'{', _, rfl, rfl⟩, ⟨' ', _, rfl, rfl⟩, ⟨' ', _, rfl, rfl⟩, by simp⟩
  obtain ⟨start, shape, found⟩ := List.any_eq_true.mp starts
  obtain ⟨rest, reads⟩ := Option.isSome_iff_exists.mp found
  obtain ⟨mark, more, split, stop⟩ := shapes start shape
  rw [Text.after?_eq_some.mp reads, split, List.append_assoc]
  exact Pattern.leadingRun_append (by decide) (by decide) stop

/-- What an import or export statement on a line gives. -/
def record? (context : Context) (spot : Spot) : Option Finding :=
  ((import? context spot).or (require? context spot)).or (export? context spot)

theorem statement_eq (context : Context) (spot : Spot) :
    statement context spot = (record? context spot).getD (declaration context spot) := by
  rw [statement, record?]
  cases ((import? context spot).or (require? context spot)).or (export? context spot) <;> rfl

theorem record?_eq_none {context : Context} {spot : Spot} (unspaced : Unspaced (spot.rawLine context))
    (imports : Pattern.startsImport (spot.rawLine context) = false)
    (exports : startsExportList (spot.rawLine context) = false) : record? context spot = none := by
  have importing : import? context spot = none := by
    rw [import?, imports, Bool.and_false, if_neg Bool.false_ne_true]
  have requiring : require? context spot = none := by
    rw [require?, unspaced.require?]
    rfl
  have exporting : export? context spot = none := by
    simp only [export?, unspaced.exportDefault?, exports, Bool.false_eq_true, if_false, ite_self]
  rw [record?, importing, requiring, exporting]
  rfl

end Outline
end CallAtlas.Script

import CallAtlas.Proofs.FirstOccurrence
import CallAtlas.Proofs.Words
import CallAtlas.Script.Clause

/-! Import clauses are read back. A clause is printed from a default name, a name for the whole module and a list of
specifiers, each of which may be absent; what the reader binds are the local names of these parts in printed order, each
once. Names such as `as`, `from` or `typed` pass every cut whole, because all cuts are made at characters that no name
has. -/
namespace CallAtlas

namespace Text

/-- Where a mark could start in one place only and does not, it stands nowhere. -/
theorem cutAtChars?_mismatch {m : Char} {more front rest : List Char} (absent : m ∉ front) (behind : m ∉ rest)
    (other : afterChars? more rest = none) : cutAtChars? (m :: more) (front ++ m :: rest) = none := by
  have here : afterChars? (m :: more) (m :: rest) = none := (if_pos rfl).trans other
  rw [cutAtChars?_append absent, cutAtChars?, here, cutAtChars?_absent behind]
  rfl

/-- What follows the last mark in a text whose end lacks the mark's last character. -/
theorem afterLast_append {mark : String} {last : Char} {rest text : List Char}
    (reversed : mark.toList.reverse = last :: rest) (absent : last ∉ text) (front : List Char) :
    afterLast mark (front ++ (mark.toList ++ text)) = text := by
  have backwards : (front ++ (mark.toList ++ text)).reverse = text.reverse ++ (last :: (rest ++ front.reverse)) := by
    rw [List.reverse_append, List.reverse_append, reversed, List.append_assoc, List.cons_append]
  rw [afterLast, backwards, reversed, cutAtChars?_append (by simpa using absent), cutAtChars?_head]
  simp

theorem afterLast_absent {mark : String} {last : Char} {rest text : List Char}
    (reversed : mark.toList.reverse = last :: rest) (absent : last ∉ text) : afterLast mark text = text := by
  rw [afterLast, reversed, cutAtChars?_absent (by simpa using absent)]

theorem dropRepeated_go {head : String} {text : List Char} (other : after? head text = none) (bound : Nat) :
    dropRepeated.go head bound text = text := by
  cases bound with
  | zero => rfl
  | succ bound => rw [dropRepeated.go, other]

theorem dropRepeated_eq_self {head : String} {text : List Char} (other : after? head text = none) :
    dropRepeated head text = text := dropRepeated_go other _

theorem dropRepeated_once {head : String} {text : List Char} (filled : head.toList ≠ [])
    (other : after? head text = none) : dropRepeated head (head.toList ++ text) = text := by
  obtain ⟨c, more, split⟩ := List.exists_cons_of_ne_nil filled
  have long : (head.toList ++ text).length = (more ++ text).length + 1 := by rw [split]; rfl
  rw [dropRepeated, long, dropRepeated.go, after?_append]
  exact dropRepeated_go other _

theorem visible_head?_of_trim {text : List Char} (trimmed : trim text = text) : ∀ c ∈ text.head?, isBlank c = false := by
  intro c first
  rw [← trimmed] at first
  exact visible_head?_trimStart text c (head?_trimEnd first)

/-- Blanks behind a text that shows something are trimmed away. -/
theorem trim_append_blanks {text blanks : List Char} (shown : trim text ≠ [])
    (blank : ∀ c ∈ blanks, isBlank c = true) : trim (text ++ blanks) = trim text := by
  have visible : trimStart text ≠ [] := fun empty => shown (by rw [trim, empty]; rfl)
  rw [trim, trimStart_append_of_visible visible, trimEnd_append_blanks blank, trim]

end Text

namespace Script

open Text (trim)

namespace ImportClause

/-- ASCII letters, digits, underscores and dollar signs. -/
def isNameChar (c : Char) : Bool := Text.isLetter c || Text.isDigit c || c == '_' || c == '$'

def startsName (c : Char) : Bool := !Text.isDigit c

/-- An identifier of ASCII. -/
structure Name extends Text.Identifier startsName isNameChar

/-- One entry between braces. -/
inductive Specifier where
  /-- An imported name as it is or under another name, `n` or `n as l`, and with or without `type` before it. -/
  | imported (typed : Bool) (name : Name) (untyped : name.text ≠ "type".toList) (rename : Option Name)
  /-- A property that is bound to another name, `n: l`. -/
  | property (name : Name) (rename : Name)

namespace Specifier

/-- An imported name and the name that it gets. -/
def renamed (name : Name) (rename : Option Name) : List Char :=
  name.text ++ rename.elim [] fun rename => " as ".toList ++ rename.text

def text : Specifier → List Char
  | imported typed name _ rename => (if typed then "type ".toList else []) ++ renamed name rename
  | property name rename => name.text ++ (": ".toList ++ rename.text)

/-- The name that a specifier binds. -/
def localName : Specifier → Name
  | imported _ name _ rename => rename.getD name
  | property _ rename => rename

/-- Specifiers between braces, such as `{ a, b as c }`. -/
def listText (specifiers : List Specifier) : List Char :=
  '{' :: ([','].intercalate (specifiers.map fun specifier => ' ' :: specifier.text) ++ [' ', '}'])

end Specifier
end ImportClause

/-- What an import or a destructured require binds: a default name, a name for the whole module, and the names of some
specifiers. -/
structure ImportClause where
  default : Option ImportClause.Name
  whole : Option ImportClause.Name
  specifiers : Option (List ImportClause.Specifier)

namespace ImportClause

/-- The parts of a clause outside of its braces. -/
def plainParts (clause : ImportClause) : List (List Char) :=
  clause.default.toList.map (·.text) ++ clause.whole.toList.map fun name => '*' :: (" as ".toList ++ name.text)

/-- The clause as it is written: its parts with a comma and a blank between neighbours. -/
def text (clause : ImportClause) : List Char :=
  [',', ' '].intercalate (clause.plainParts ++ clause.specifiers.toList.map Specifier.listText)

/-- The local names in the order in which they are written. -/
def localNames (clause : ImportClause) : List String :=
  (clause.default.toList ++ clause.whole.toList ++ (clause.specifiers.getD []).map Specifier.localName).map fun name =>
    String.ofList name.text

theorem ascii_of_isNameChar {c : Char} (named : isNameChar c = true) : 0x24 ≤ c.toNat ∧ c.toNat < 0x80 := by
  simp only [isNameChar, Text.isLetter, Text.isUpper, Text.isLower, Text.isDigit, Bool.or_eq_true, Bool.and_eq_true,
    decide_eq_true_eq, Char.le_def, UInt32.le_iff_toNat_le, beq_iff_eq] at named
  rcases named with (((upper | lower) | digit) | rfl) | rfl
  · exact ⟨Nat.le_trans (by decide) upper.1, Nat.lt_of_le_of_lt upper.2 (by decide)⟩
  · exact ⟨Nat.le_trans (by decide) lower.1, Nat.lt_of_le_of_lt lower.2 (by decide)⟩
  · exact ⟨Nat.le_trans (by decide) digit.1, Nat.lt_of_le_of_lt digit.2 (by decide)⟩
  · decide
  · decide

theorem trim_blank_cons (text : List Char) : trim (' ' :: text) = trim text :=
  Text.trim_blanks_append (by decide : ∀ c ∈ [' '], Text.isBlank c = true) text

namespace Name

variable (name : Name)

theorem visible : ∀ c ∈ name.text, Text.isBlank c = false := by
  intro c member
  obtain ⟨low, high⟩ := ascii_of_isNameChar (name.chars c member)
  simp only [Text.isBlank, high, if_true, Bool.or_eq_false_iff, beq_eq_false_iff_ne, Bool.and_eq_false_iff,
    decide_eq_false_iff_not]
  omega

theorem trim_text : trim name.text = name.text := Text.trim_eq_self name.visible

theorem trim_after {front : List Char} (visible : ∀ c ∈ (front ++ name.text).head?, Text.isBlank c = false) :
    trim (front ++ name.text) = front ++ name.text :=
  Text.trim_append visible name.ne_nil name.trim_text

/-- Two names with something in between have no blanks around them. -/
theorem trim_joined (middle : List Char) (other : Name) :
    trim (name.text ++ (middle ++ other.text)) = name.text ++ (middle ++ other.text) := by
  rw [← List.append_assoc]
  apply other.trim_after
  rw [List.append_assoc]
  exact name.visible_head? name.visible _

theorem afterLast_text {mark : String} {last : Char} {rest : List Char} (reversed : mark.toList.reverse = last :: rest)
    (other : isNameChar last = false) : Text.afterLast mark name.text = name.text :=
  Text.afterLast_absent reversed (name.avoids other)

/-- A name is read through the blank before it. -/
theorem trim_blank : trim (' ' :: name.text) = name.text := (trim_blank_cons name.text).trans name.trim_text

theorem isIdentifier_text : isIdentifier name.text = true := by
  have all : name.text.all isIdentifierChar = true := by
    apply List.all_eq_true.mpr
    intro c member
    have named := name.chars c member
    have ascii := (ascii_of_isNameChar named).2
    rw [isIdentifierChar, Text.isAlphanumeric, if_pos ascii]
    exact named
  obtain ⟨first, rest, same, starts⟩ := name.exists_cons
  have digit : name.text.head?.any Text.isDigit = false := by
    rw [same]
    exact (Bool.not_eq_true' _).mp starts
  rw [isIdentifier, all, digit, List.isEmpty_eq_false_iff.mpr name.ne_nil]
  rfl

end Name

/-- No `type` is taken from the start of a name, unless the name is that word and a blank follows. -/
theorem Name.after?_type (name : Name) {rest : List Char} (stop : Text.atWordEnd rest = true)
    (other : rest.head? = some ' ' → name.text ≠ "type".toList) : Text.after? "type " (name.text ++ rest) = none := by
  apply Option.eq_none_iff_forall_ne_some.mpr
  intro left found
  have same : name.text ++ rest = "type".toList ++ ' ' :: left := by
    rw [Text.after?_eq_some.mp found]
    rfl
  obtain ⟨more, longer, behind⟩ := Text.append_eq_append_word same (by decide) stop
  cases more with
  | nil => exact other (by rw [← List.nil_append rest, ← behind]; rfl) longer
  | cons c more =>
    obtain ⟨rfl, _⟩ := List.cons.inj behind
    exact name.avoids (by decide : isNameChar ' ' = false) (longer ▸ List.mem_append_right _ List.mem_cons_self)

/-- Puts a name last unless it is there already. -/
def keep (names : List String) (name : Name) : List String :=
  if String.ofList name.text ∈ names then names else names ++ [String.ofList name.text]

theorem addIdentifier_name {text : List Char} (name : Name) (names : List String) (trimmed : trim text = name.text) :
    addIdentifier names text = keep names name := by
  unfold addIdentifier keep
  simp only [trimmed, name.isIdentifier_text, Bool.true_and, Bool.not_eq_true', List.contains_eq_mem]
  by_cases known : String.ofList name.text ∈ names
  · simp [known]
  · simp [known]

variable (names : List String) (name : Name)

theorem addPlain_blank (part : List Char) : addPlain names (' ' :: part) = addPlain names part := by
  rw [addPlain, addPlain, trim_blank_cons]

theorem addPlain_default : addPlain names name.text = keep names name := by
  have untyped : Text.after? "type " (name.text ++ []) = none := name.after?_type rfl (by simp)
  rw [List.append_nil] at untyped
  rw [addPlain, name.trim_text]
  split
  · rename_i rest starred
    exact absurd (starred ▸ List.mem_cons_self) (name.avoids (by decide : isNameChar '*' = false))
  · rw [Text.dropRepeated_eq_self untyped]
    exact addIdentifier_name name names name.trim_text

theorem visible_starred : ∀ c ∈ ("* as ".toList ++ name.text).head?, Text.isBlank c = false := by
  rintro c ⟨⟩
  rfl

theorem addPlain_whole : addPlain names ('*' :: (" as ".toList ++ name.text)) = keep names name := by
  have outer : trim ('*' :: (" as ".toList ++ name.text)) = '*' :: (" as ".toList ++ name.text) :=
    name.trim_after (visible_starred name)
  have inner : trim (" as ".toList ++ name.text) = "as".toList ++ ' ' :: name.text :=
    (trim_blank_cons ("as ".toList ++ name.text)).trans (name.trim_after (by rintro c ⟨⟩; rfl))
  rw [addPlain, outer]
  simp only
  rw [inner, Text.after?_append]
  exact addIdentifier_name name names name.trim_blank

namespace Specifier

variable (specifier : Specifier)

theorem comma_not_mem_renamed (name : Name) (rename : Option Name) : ',' ∉ renamed name rename := by
  apply List.not_mem_append (name.avoids rfl)
  cases rename with
  | none => exact List.not_mem_nil
  | some rename => exact List.not_mem_append (by decide) (rename.avoids rfl)

theorem comma_not_mem_text : ',' ∉ specifier.text := by
  cases specifier with
  | imported typed name _ rename =>
    cases typed with
    | false => exact comma_not_mem_renamed name rename
    | true => exact List.not_mem_append (by decide) (comma_not_mem_renamed name rename)
  | property name rename => exact List.not_mem_append (name.avoids rfl) (List.not_mem_append (by decide) (rename.avoids rfl))

theorem renamed_ne_nil (name : Name) (rename : Option Name) : renamed name rename ≠ [] :=
  List.append_ne_nil_of_left_ne_nil name.ne_nil _

theorem text_ne_nil : specifier.text ≠ [] := by
  cases specifier with
  | imported typed name _ rename => exact List.append_ne_nil_of_right_ne_nil _ (renamed_ne_nil name rename)
  | property name rename => exact List.append_ne_nil_of_left_ne_nil name.ne_nil _

theorem trim_renamed (name : Name) (rename : Option Name) : trim (renamed name rename) = renamed name rename := by
  cases rename with
  | none =>
    rw [renamed, Option.elim_none, List.append_nil]
    exact name.trim_text
  | some rename =>
    exact name.trim_joined " as ".toList rename

theorem trim_text : trim specifier.text = specifier.text := by
  cases specifier with
  | imported typed name _ rename =>
    cases typed with
    | false => exact trim_renamed name rename
    | true =>
      apply Text.trim_append _ (renamed_ne_nil name rename) (trim_renamed name rename)
      rintro c ⟨⟩
      rfl
  | property name rename => exact name.trim_joined ": ".toList rename

/-- The text of a specifier without `type` before it. -/
def untypedText : Specifier → List Char
  | imported _ name _ rename => renamed name rename
  | property name rename => name.text ++ (": ".toList ++ rename.text)

theorem after?_untypedText : Text.after? "type " specifier.untypedText = none := by
  cases specifier with
  | imported typed name untyped rename =>
    apply name.after?_type
    · cases rename <;> rfl
    · exact fun _ => untyped
  | property name rename =>
    apply name.after?_type
    · rfl
    · rintro ⟨⟩

theorem dropRepeated_text : Text.dropRepeated "type " specifier.text = specifier.untypedText := by
  have other := specifier.after?_untypedText
  cases specifier with
  | imported typed name untyped rename =>
    cases typed with
    | false => exact Text.dropRepeated_eq_self other
    | true => exact Text.dropRepeated_once (by decide) other
  | property name rename => exact Text.dropRepeated_eq_self other

/-- What is left of a specifier behind its last ` as ` and its last colon is the name that it binds. -/
theorem trim_afterLast :
    trim (Text.afterLast ":" (Text.afterLast " as " specifier.untypedText)) = specifier.localName.text := by
  have spaceEnd : " as ".toList.reverse = [' ', 's', 'a', ' '] := rfl
  have colonEnd : ":".toList.reverse = [':'] := rfl
  cases specifier with
  | imported typed name untyped rename =>
    cases rename with
    | none =>
      have whole : (imported typed name untyped none).untypedText = name.text := List.append_nil _
      rw [whole, name.afterLast_text spaceEnd rfl, name.afterLast_text colonEnd rfl]
      exact name.trim_text
    | some rename =>
      rw [untypedText, renamed, Option.elim_some, Text.afterLast_append spaceEnd (rename.avoids rfl),
        rename.afterLast_text colonEnd rfl]
      exact rename.trim_text
  | property name rename =>
    -- The one blank stands behind a colon, so no ` as ` ends there.
    have uncut : Text.afterLast " as " (name.text ++ (": ".toList ++ rename.text)) =
        name.text ++ (":".toList ++ ' ' :: rename.text) := by
      have backwards : (name.text ++ (": ".toList ++ rename.text)).reverse =
          rename.text.reverse ++ ' ' :: ':' :: name.text.reverse := by
        rw [List.reverse_append, List.reverse_append, List.append_assoc]
        rfl
      have missing : Text.cutAtChars? [' ', 's', 'a', ' '] (rename.text.reverse ++ ' ' :: ':' :: name.text.reverse) =
          none := by
        apply Text.cutAtChars?_mismatch
        · simp [rename.avoids (rfl : isNameChar ' ' = false)]
        · simp [name.avoids (rfl : isNameChar ' ' = false)]
        · rfl
      rw [Text.afterLast, backwards, spaceEnd, missing]
      rfl
    rw [untypedText, uncut, Text.afterLast_append colonEnd]
    · exact rename.trim_blank
    · simp [rename.avoids (rfl : isNameChar ':' = false)]

theorem addNamed_text {piece : List Char} (names : List String) (trimmed : trim piece = specifier.text) :
    addNamed names piece = keep names specifier.localName := by
  rw [addNamed, trimmed, dropRepeated_text]
  exact addIdentifier_name specifier.localName names specifier.trim_afterLast

theorem trim_padded {after : List Char} (blank : ∀ c ∈ after, Text.isBlank c = true) :
    trim (' ' :: specifier.text ++ after) = specifier.text := by
  have start : trim (' ' :: specifier.text) = specifier.text := (trim_blank_cons specifier.text).trans specifier.trim_text
  rw [Text.trim_append_blanks (start.symm ▸ specifier.text_ne_nil) blank, start]

end Specifier

theorem intercalate_concat_append (mark : List Char) (parts : List (List Char)) (last tail : List Char) :
    mark.intercalate (parts ++ [last]) ++ tail = mark.intercalate (parts ++ [last ++ tail]) := by
  induction parts with
  | nil => simp
  | cons part rest ih =>
    cases rest with
    | nil => simp
    | cons next rest =>
      rw [List.cons_append, List.cons_append, List.intercalate_cons_cons, List.append_assoc, ← List.cons_append, ih]
      rw [List.cons_append, List.cons_append, List.cons_append, List.intercalate_cons_cons]

/-- Every specifier between braces adds the name that it binds. -/
theorem foldl_addNamed (specifiers : List Specifier) (names : List String) :
    (([','].intercalate (specifiers.map fun specifier => ' ' :: specifier.text) ++ [' ']).splitOn ',').foldl addNamed names =
      (specifiers.map Specifier.localName).foldl keep names := by
  rcases List.eq_nil_or_concat specifiers with rfl | ⟨front, last, rfl⟩
  · rfl
  · have pieces : (([','].intercalate ((front.concat last).map fun specifier => ' ' :: specifier.text) ++ [' ']).splitOn ',') =
        (front.map fun specifier => ' ' :: specifier.text) ++ [' ' :: last.text ++ [' ']] := by
      rw [List.concat_eq_append, List.map_append, List.map_singleton, intercalate_concat_append]
      apply List.splitOn_intercalate
      · intro piece listed
        rw [List.mem_append, List.mem_map, List.mem_singleton] at listed
        rcases listed with ⟨specifier, _, rfl⟩ | rfl
        · simp [specifier.comma_not_mem_text]
        · simp [last.comma_not_mem_text]
      · simp
    have each (names : List String) (specifier : Specifier) :
        addNamed names (' ' :: specifier.text) = keep names specifier.localName := by
      apply specifier.addNamed_text
      exact (trim_blank_cons specifier.text).trans specifier.trim_text
    have final : ∀ names, addNamed names (' ' :: last.text ++ [' ']) = keep names last.localName :=
      fun names => last.addNamed_text names (last.trim_padded (by decide))
    rw [pieces, List.foldl_append, List.foldl_map, List.foldl_map, List.concat_eq_append, List.foldl_append]
    simp only [each, List.foldl_cons, List.foldl_nil, final]

theorem listText_eq (specifiers : List Specifier) : Specifier.listText specifiers =
    '{' :: (([','].intercalate (specifiers.map fun specifier => ' ' :: specifier.text) ++ [' ']) ++ ['}']) := by
  rw [Specifier.listText, List.append_assoc]
  rfl

theorem trim_listText (specifiers : List Specifier) :
    trim (Specifier.listText specifiers) = Specifier.listText specifiers := by
  rw [listText_eq, ← List.cons_append]
  apply Text.trim_append
  · rintro c ⟨⟩
    rfl
  · exact List.cons_ne_nil _ _
  · rfl

theorem braced?_append {before inside : List Char} (absent : '{' ∉ before) :
    braced? (before ++ '{' :: (inside ++ ['}'])) = some (before, inside) := by
  have opened : Text.cutAt? "\x7b" (before ++ '{' :: (inside ++ ['}'])) = some (before, inside ++ ['}']) := by
    refine (Text.cutAtChars?_append absent _).trans ?_
    have here : Text.cutAtChars? ['{'] ('{' :: (inside ++ ['}'])) = some ([], inside ++ ['}']) :=
      Text.cutAtChars?_head [] (inside ++ ['}'])
    rw [here, Option.map_some, List.append_nil]
  have closed : Text.cutAt? "\x7d" (inside ++ ['}']).reverse = some ([], inside.reverse) := by
    rw [List.reverse_append]
    exact Text.cutAtChars?_head [] inside.reverse
  rw [braced?, opened]
  simp only [closed, List.reverse_reverse]

/-- A list of trimmed parts is trimmed. -/
theorem trim_listed {parts : List (List Char)} (shown : ∀ part ∈ parts, part ≠ [] ∧ trim part = part) :
    trim ([',', ' '].intercalate parts) = [',', ' '].intercalate parts := by
  induction parts with
  | nil => rfl
  | cons part rest ih =>
    obtain ⟨filled, trimmed⟩ := shown part List.mem_cons_self
    cases rest with
    | nil => simpa using trimmed
    | cons next rest =>
      obtain ⟨c, more, first⟩ := List.exists_cons_of_ne_nil filled
      have visible := Text.visible_head?_of_trim trimmed
      have nonempty : [',', ' '].intercalate (next :: rest) ≠ [] := by
        have filledNext := (shown next (by simp)).1
        cases rest <;> simp [filledNext]
      rw [List.intercalate_cons_cons]
      apply Text.trim_append _ nonempty (ih fun part listed => shown part (List.mem_cons_of_mem _ listed))
      rw [first] at visible ⊢
      exact visible

/-- The parts outside of the braces are read one after another. -/
theorem foldl_addPlain {parts : List (List Char)} (filled : parts ≠ []) (whole : ∀ part ∈ parts, ',' ∉ part)
    (names : List String) :
    (([',', ' '].intercalate parts).splitOn ',').foldl addPlain names = parts.foldl addPlain names := by
  obtain ⟨first, rest, rfl⟩ := List.exists_cons_of_ne_nil filled
  rw [Text.splitOn_listed whole, List.foldl_cons, List.foldl_map, List.foldl_cons]
  simp only [addPlain_blank]

theorem foldl_addPlain_plainParts (clause : ImportClause) (names : List String) :
    clause.plainParts.foldl addPlain names = (clause.default.toList ++ clause.whole.toList).foldl keep names := by
  rw [plainParts, List.foldl_append, List.foldl_map, List.foldl_map, List.foldl_append]
  simp only [addPlain_default, addPlain_whole]

theorem foldl_keep (names : List Name) :
    names.foldl keep [] = (names.map fun name => String.ofList name.text).eraseDups := by
  rw [← Edge.distinct_eq_eraseDups, Edge.distinct, List.foldl_map]
  rfl

theorem plainParts_shape (clause : ImportClause) {part : List Char} (listed : part ∈ clause.plainParts) :
    part ≠ [] ∧ trim part = part ∧ ',' ∉ part ∧ '{' ∉ part := by
  rw [plainParts, List.mem_append, List.mem_map, List.mem_map] at listed
  rcases listed with ⟨name, _, rfl⟩ | ⟨name, _, rfl⟩
  · exact ⟨name.ne_nil, name.trim_text, name.avoids rfl, name.avoids rfl⟩
  · refine ⟨List.cons_ne_nil _ _, name.trim_after (visible_starred name), ?_, ?_⟩
    · exact List.not_mem_append (by decide : ',' ∉ "* as ".toList) (name.avoids rfl)
    · exact List.not_mem_append (by decide : '{' ∉ "* as ".toList) (name.avoids rfl)

theorem trim_text (clause : ImportClause) : trim clause.text = clause.text := by
  apply trim_listed
  intro part listed
  rcases List.mem_append.mp listed with plain | braces
  · obtain ⟨filled, trimmed, _⟩ := clause.plainParts_shape plain
    exact ⟨filled, trimmed⟩
  · obtain ⟨specifiers, _, rfl⟩ := List.mem_map.mp braces
    exact ⟨by simp [Specifier.listText], trim_listText specifiers⟩

theorem brace_not_mem_listed {parts : List (List Char)} (absent : ∀ part ∈ parts, '{' ∉ part) :
    '{' ∉ [',', ' '].intercalate parts := by
  induction parts with
  | nil => simp
  | cons part rest ih =>
    have here := absent part List.mem_cons_self
    cases rest with
    | nil => simpa using here
    | cons next rest =>
      have later := ih fun part listed => absent part (List.mem_cons_of_mem _ listed)
      rw [List.intercalate_cons_cons]
      simp [here, later]

/-- A clause without braces is its parts outside of them. -/
theorem importBindings_plain (clause : ImportClause) (none : clause.specifiers = none) :
    importBindings clause.text = (clause.default.toList ++ clause.whole.toList).foldl keep [] := by
  have written : clause.text = [',', ' '].intercalate clause.plainParts := by simp [text, none]
  have absent : '{' ∉ [',', ' '].intercalate clause.plainParts :=
    brace_not_mem_listed fun part listed => (clause.plainParts_shape listed).2.2.2
  have unbraced : braced? ([',', ' '].intercalate clause.plainParts) = .none := by
    rw [braced?, show Text.cutAt? "\x7b" _ = .none from Text.cutAtChars?_absent absent]
  rw [importBindings, trim_text, written, unbraced, ← foldl_addPlain_plainParts]
  simp only
  by_cases empty : clause.plainParts = []
  · rw [empty]
    rfl
  · exact foldl_addPlain empty (fun part listed => (clause.plainParts_shape listed).2.2.1) []

/-- In a clause with braces the parts before them are followed by a part without text. -/
theorem importBindings_braced (clause : ImportClause) {specifiers : List Specifier}
    (given : clause.specifiers = some specifiers) :
    importBindings clause.text =
      (clause.default.toList ++ clause.whole.toList ++ specifiers.map Specifier.localName).foldl keep [] := by
  have written : clause.text =
      [',', ' '].intercalate (clause.plainParts ++ [[]]) ++ Specifier.listText specifiers := by
    rw [intercalate_concat_append, List.nil_append, text, given]
    rfl
  have absent : '{' ∉ [',', ' '].intercalate (clause.plainParts ++ [[]]) := by
    apply brace_not_mem_listed
    intro part listed
    rcases List.mem_append.mp listed with plain | last
    · exact (clause.plainParts_shape plain).2.2.2
    · simp [List.mem_singleton.mp last]
  have whole : ∀ part ∈ clause.plainParts ++ [[]], ',' ∉ part := by
    intro part listed
    rcases List.mem_append.mp listed with plain | last
    · exact (clause.plainParts_shape plain).2.2.1
    · simp [List.mem_singleton.mp last]
  rw [importBindings, trim_text, written, listText_eq, braced?_append absent]
  simp only
  rw [foldl_addPlain (by simp) whole, foldl_addNamed, List.foldl_append, foldl_addPlain_plainParts]
  exact List.foldl_append.symm

/-- An import clause binds the local names of its parts in the order in which they are written, each once. -/
theorem importBindings_text (clause : ImportClause) : importBindings clause.text = clause.localNames.eraseDups := by
  rw [localNames, ← foldl_keep]
  cases given : clause.specifiers with
  | none => rw [importBindings_plain clause given, Option.getD_none, List.map_nil, List.append_nil]
  | some specifiers => rw [importBindings_braced clause given, Option.getD_some]

example : importBindings "as, * as type, \x7b as as from, type default as as, type typed, of: in \x7d".toList =
    ["as", "type", "from", "typed", "in"] := by decide

end ImportClause
end Script
end CallAtlas

import CallAtlas.Proofs.RubyLines

/-! The first line of a method: it is read as it is printed, it opens one block, and its parameters are the names
that it lists. -/
namespace CallAtlas.Ruby.Grammar

open Block
open Text (words atWordEnd)

variable {known : List String}

theorem mem_listed {names : List Name} {c : Char} (member : c ∈ listed names) : Text.isWord c = true ∨ c ∈ [',', ' '] := by
  refine (Parameters.mem_listed member).imp_left ?_
  rintro ⟨text, present, inside⟩
  obtain ⟨name, _, rfl⟩ := List.mem_map.mp present
  exact name.chars c inside

theorem Spelled.listed (names : List Name) : Spelled (listed names) known := by
  induction names with
  | nil => exact .nil
  | cons name rest ih =>
    cases rest with
    | nil => exact .name name
    | cons next rest => exact (Spelled.name name).append_cons (by decide) (Spelled.nil.append_cons (by decide) ih)

section Parameters

open Parameters

theorem Name.piece (name : Name) : Piece name.text := .identifier name.toIdentifier name.visible (by decide)

theorem cut?_eq_none {mark : Char} {text : List Char} (search : Search) (absent : mark ∉ text) :
    cut? mark search text = none := by
  induction text generalizing search with
  | nil => rfl
  | cons c text ih =>
    rw [List.mem_cons, not_or] at absent
    simp [cut?, Search.hits, beq_false_of_ne (Ne.symm absent.1), ih _ absent.2]

/-- A name is a parameter without a default value. -/
theorem classify?_name (name : Name) : classify? .ruby name.text = some { name := String.ofList name.text } := by
  have absent : ∀ mark ∈ ['*', '&', ':', '='], mark ∉ name.text := by
    have others : ∀ mark ∈ ['*', '&', ':', '='], Text.isWord mark = false := by decide
    exact fun mark listed => name.avoids (others mark listed)
  simp only [List.forall_mem_cons] at absent
  obtain ⟨star, ampersand, colon, equals, _⟩ := absent
  have plain : rubyPlain name.text = { name := String.ofList name.text } := by
    rw [rubyPlain, cut?_eq_none {} equals]
    rfl
  have whole : Text.trim name.text = name.text := name.piece.trim_blank (by simp : ∀ c ∈ [], c = ' ')
  obtain ⟨first, rest, same, _⟩ := name.exists_cons
  rw [same, List.mem_cons, not_or] at star ampersand
  have read : rubyParameter name.text = rubyPlain name.text := by
    unfold rubyParameter
    split
    · next split => exact absurd (List.cons.inj (same.symm.trans split)).1.symm star.1
    · next split => exact absurd (List.cons.inj (same.symm.trans split)).1.symm star.1
    · next split => exact absurd (List.cons.inj (same.symm.trans split)).1.symm ampersand.1
    · rw [Text.cutAt?, show ":".toList = [':'] from rfl, Text.cutAtChars?_absent colon]
  have filled : name.text.isEmpty = false := by rw [same]; rfl
  simp only [classify?, whole, filled, read, plain]
  rfl

theorem parse_listed (names : List Name) :
    parse .ruby (listed names) = names.map fun name => { name := String.ofList name.text } := by
  have pieces : ∀ text ∈ names.map (·.text), Piece text := by
    simp only [List.forall_mem_map]
    exact fun name _ => name.piece
  rw [parse, listed, split_listed pieces, List.filterMap_map, ← List.filterMap_eq_map]
  exact congrArg (List.filterMap · names) (funext classify?_name)

end Parameters

namespace Signature

variable (signature : Signature)

theorem parameterText_head? : ∀ c ∈ signature.parameterText.head?, c = '(' := by
  rw [parameterText]
  cases signature.parameters with
  | none => simp
  | some names => simp

theorem atWordEnd_parameterText : atWordEnd signature.parameterText = true := by
  rw [parameterText]
  cases signature.parameters with
  | none => rfl
  | some names => rfl

/-- The name is read up to the bracket after it. -/
theorem name?_text :
    Header.name? (signature.name.text ++ signature.parameterText) = some (signature.name.text, signature.parameterText) :=
  name?_append ⟨signature.name.text, signature.read, signature.name.chars⟩
    fun c first => signature.parameterText_head? c first ▸ List.mem_cons_self

theorem signature_parameterText :
    Header.signature signature.parameterText = (signature.parameters.map listed, []) := by
  rw [parameterText]
  cases signature.parameters with
  | none => rfl
  | some names =>
    have plain : ∀ c ∈ listed names, c ≠ '(' ∧ c ≠ ')' := by
      intro c member
      rcases mem_listed member with word | mark
      · exact ⟨Text.ne_of_isWord word (by decide), Text.ne_of_isWord word (by decide)⟩
      · have marks : ∀ c ∈ [',', ' '], c ≠ '(' ∧ c ≠ ')' := by decide
        exact marks c mark
    have enclosed : Bracket.enclosed? ('(' :: (listed names ++ [')'])) = some (listed names, []) :=
      Bracket.close?_append (by decide) plain []
    simp only [Header.signature, enclosed, Option.map_some]

/-- The header that a signature is read as. -/
def header : Header where
  name := signature.name.text
  onSelf := signature.onSelf
  visibility := none
  parameters := signature.parameters.map listed
  body := []

theorem finish_name : Header.finish none signature.onSelf signature.name.text signature.parameterText = signature.header := by
  have last : ¬ (signature.name.text.getLast? = some '=' ∧ signature.parameterText.head? ≠ some '(') := by
    rintro ⟨last, _⟩
    exact signature.name.avoids (by decide) (List.mem_of_mem_getLast? last)
  simp only [Header.finish, Header.settle, if_neg last, signature.signature_parameterText]
  rfl

theorem keepsVisibility_text : KeepsVisibility signature.text := by
  have made : ∀ c ∈ "def".toList, Text.isWord c = true := by decide
  have head : (words signature.text).head? = some "def".toList := Text.head?_words made rfl
  have other : ∀ word ∈ visibilityWords, some "def".toList ≠ some word.toList := by decide
  exact fun word member => head ▸ other word member

/-- No name is taken for `self`. -/
theorem after?_self : Text.after? "self." (signature.name.text ++ signature.parameterText) = none := by
  cases found : Text.after? "self." (signature.name.text ++ signature.parameterText) with
  | none => rfl
  | some rest =>
    have same : signature.name.text ++ signature.parameterText = "self.".toList ++ rest := Text.after?_eq_some.mp found
    have own := Text.head?_words signature.name.chars signature.atWordEnd_parameterText
    have made : ∀ c ∈ "self".toList, Text.isWord c = true := by decide
    have other : (words ("self.".toList ++ rest)).head? = some "self".toList :=
      Text.head?_words made (show atWordEnd ('.' :: rest) = true from rfl)
    rw [same, other] at own
    have reserved : isFree "self".toList = false := by decide
    have free := signature.name.free
    rw [← Option.some.inj own, reserved] at free
    cases free

theorem afterSpacedWord?_text : Text.afterSpacedWord? "def" signature.text =
    some ((if signature.onSelf then "self.".toList else []) ++ (signature.name.text ++ signature.parameterText)) := by
  obtain ⟨first, more, same, starts⟩ := signature.name.exists_cons
  have visible : Text.isBlank first = false := Text.isBlank_of_isWord (isWord_of_startsWord starts)
  have after : Text.after? "def" signature.text = some (' ' :: ((if signature.onSelf then "self.".toList else []) ++
      (signature.name.text ++ signature.parameterText))) := rfl
  rw [Text.afterSpacedWord?, after, Option.bind_eq_bind, Option.bind_some, Text.afterBlank?, if_pos (by decide)]
  cases signature.onSelf with
  | true => rfl
  | false =>
    rw [same]
    simp [Text.trimStart, visible]

theorem read?_text : Header.read? signature.text = some signature.header := by
  have read := signature.name?_text
  have finish := signature.finish_name
  rw [Header.read?, signature.keepsVisibility_text.visibilityWord?]
  simp only [signature.afterSpacedWord?_text]
  cases onSelf : signature.onSelf with
  | true =>
    rw [onSelf] at finish
    simp only [if_true, Text.after?_append, Option.bind_some, read, finish]
  | false =>
    rw [onSelf] at finish
    simp only [List.nil_append, signature.after?_self, Option.bind_none, read, finish, Option.map_some,
      Bool.false_eq_true, if_false]

theorem spelled_text : Spelled signature.text ["def", "self"] := by
  have named : Spelled (signature.name.text ++ signature.parameterText) ["def", "self"] := by
    rw [parameterText]
    cases signature.parameters with
    | none =>
      rw [List.append_nil]
      exact .name signature.name
    | some names =>
      exact (Spelled.name signature.name).append_cons (by decide) ((Spelled.listed names).append_cons (by decide) .nil)
  have defWord : Spelled "def".toList ["def", "self"] := .word (by decide) (by decide)
  refine defWord.append_cons (by decide) ?_
  cases signature.onSelf with
  | false => exact named
  | true =>
    have selfWord : Spelled "self".toList ["def", "self"] := .word (by decide) (by decide)
    exact selfWord.append_cons (by decide) named

/-- A header opens one block. -/
theorem delta_text : delta signature.text = 1 := by
  have opens : startsWithOpener ("def".toList ++ ' ' :: ((if signature.onSelf then "self.".toList else []) ++
      (signature.name.text ++ signature.parameterText))) = true := startsWithOpener_append (by decide) rfl
  have full : (Header.read? signature.text).any Header.isEndless = false := by
    rw [signature.read?_text]
    rfl
  exact signature.spelled_text.delta (by decide) opens full (signature.spelled_text.inline (by decide))

theorem printable_text : Printable signature.text := by
  have named : Printable (signature.name.text ++ signature.parameterText) := by
    refine (Printable.made signature.name.chars).append ?_
    rw [parameterText]
    cases signature.parameters with
    | none => exact .marks (by decide)
    | some names =>
      have marks : ∀ c ∈ [',', ' '], c ∈ ['.', ' ', '(', ')', '=', '|', ','] := by decide
      have inside : Printable (listed names) := fun c member => (mem_listed member).imp_right (marks c)
      exact (Printable.marks (by decide : ∀ c ∈ ['('], _)).append (inside.append (.marks (by decide)))
  have front : Printable "def ".toList ∧ Printable "self.".toList ∧ Printable [] := by
    unfold Printable
    decide
  refine front.1.append (Printable.append ?_ named)
  cases signature.onSelf with
  | true => exact front.2.1
  | false => exact front.2.2

theorem trimEnd_text : Text.trimEnd signature.text = signature.text := by
  have shown : Text.trimEnd (signature.name.text ++ signature.parameterText) =
      signature.name.text ++ signature.parameterText := by
    rw [parameterText]
    cases signature.parameters with
    | none =>
      rw [List.append_nil]
      exact Text.dropEndWhile_eq_self signature.name.visible
    | some names =>
      have line : signature.name.text ++ '(' :: (listed names ++ [')']) =
          (signature.name.text ++ '(' :: listed names) ++ [')'] := by
        rw [List.append_assoc, List.cons_append]
      exact line ▸ Text.trimEnd_concat (by decide) _
  have visible : signature.name.text ++ signature.parameterText ≠ [] := by
    obtain ⟨first, more, same, _⟩ := signature.name.exists_cons
    simp [same]
  rw [text, ← List.append_assoc, Text.trimEnd_append (by rwa [shown]), shown]

theorem trim_headerLine (indent : Indent) : Text.trim (indent.headerLine signature) = signature.text := by
  have blank : ∀ c ∈ indent.blanks, Text.isBlank c = true := fun c member => (indent.blank c member).1
  have visible : ∀ c ∈ signature.text.head?, Text.isBlank c = false := by
    rintro c ⟨⟩
    decide
  rw [Text.trim, Indent.headerLine, Text.trimStart_append blank visible, signature.trimEnd_text]

theorem code_headerLine (indent : Indent) : Code (indent.headerLine signature) :=
  signature.printable_text.code indent (List.cons_ne_nil _ _) (by rintro ⟨⟩)

/-- The parameters of a header are the names that it lists. -/
theorem parametersOf_headerLine (indent : Indent) : parametersOf (indent.headerLine signature) signature.header =
    (signature.parameters.getD []).map fun name => { name := String.ofList name.text } := by
  have code := signature.code_headerLine indent
  have trimmed : Text.trim (Blanking.stripComments .ruby (indent.headerLine signature)) = signature.text := by
    rw [Blanking.stripComments, scan_code _ code.chars]
    simp only
    rw [Indent.headerLine, Text.trimEnd_append (by rw [signature.trimEnd_text]; exact List.cons_ne_nil _ _),
      signature.trimEnd_text]
    exact signature.trim_headerLine indent
  rw [parametersOf, trimmed, signature.read?_text]
  simp only [if_true, Option.or_self]
  rw [header]
  cases signature.parameters with
  | none => rfl
  | some names => exact parse_listed names

end Signature

end CallAtlas.Ruby.Grammar

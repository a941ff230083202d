import CallAtlas.Proofs.ParameterNames
import Mathlib.Data.List.Forall2

/-! The shape of a parameter list does not depend on the contents of its strings, as long as these are plain: a source
text has as many parameters as its veiled form, and they have its names. -/
namespace CallAtlas

namespace Parameters

open Blanking (Place Veils)
open Text (isBlank isQuote)

namespace Nesting

/-- Two splitters at the same place of a source text and of what is shown of it. -/
inductive Agree : Place → (first second : Nesting) → (source : List Char) → Prop
  | outside {first second : Nesting} {source : List Char} (depth : first.depth = second.depth)
      (free : first.quote = none) (free' : second.quote = none)
      (previous : first.previous = second.previous ∨ source.head? = some '\n') : Agree .outside first second source
  | inside {first second : Nesting} {quote : Char} {stretch : Blanking.Stretch} {source : List Char}
      (quotes : isQuote quote = true) (depth : first.depth = second.depth) (open_ : first.quote = some quote)
      (open_' : second.quote = some quote) (plain : stretch.slashed = false → first.previous ≠ '\\')
      (plain' : second.previous ≠ '\\') : Agree (.inside quote stretch) first second source

namespace Agree

variable {first second : Nesting} {quote c : Char} {stretch : Blanking.Stretch} {source : List Char}

theorem separates (agree : Agree .outside first second source) (c : Char) : first.separates c = second.separates c := by
  obtain ⟨depth, free, free', _⟩ := agree
  rw [Nesting.separates, Nesting.separates, free, free', depth]

theorem separates_inside (agree : Agree (.inside quote stretch) first second source) (c : Char) :
    first.separates c = false ∧ second.separates c = false := by
  obtain _ | ⟨_, _, open_, open_', _, _⟩ := agree
  exact ⟨Nesting.separates_inside open_, Nesting.separates_inside open_'⟩

theorem code (agree : Agree .outside first second (c :: source)) (plain : isQuote c = false) :
    Agree .outside (first.next c) (second.next c) source := by
  obtain ⟨depth, free, free', previous⟩ := agree
  have same : first.depthAfter c = second.depthAfter c := by
    rcases previous with same | line
    · rw [depthAfter, depthAfter, depth, same]
    · cases line
      simp [depthAfter, depth]
  rw [next_outside free, next_outside free', plain]
  exact .outside same rfl rfl (.inl rfl)

/-- A blank that only one of the texts has before a line end leaves the other where it is. -/
theorem padded (agree : Agree .outside first second ('\n' :: source)) (blank : isBlank c = true) :
    Agree .outside first (second.next c) ('\n' :: source) := by
  obtain ⟨depth, free, free', _⟩ := agree
  have sound : second.Sound := by
    intro quote found
    rw [free'] at found
    cases found
  rw [next_blank sound blank]
  exact .outside depth free free' (.inr rfl)

theorem opens (agree : Agree .outside first second (quote :: source)) (quotes : isQuote quote = true) :
    Agree (.inside quote {}) (first.next quote) (second.next quote) source := by
  obtain ⟨depth, free, free', _⟩ := agree
  have unescaped : quote ≠ '\\' := (Blanking.ne_of_isQuote quotes (by decide)).symm
  have flat (nesting : Nesting) : nesting.depthAfter quote = nesting.depth := by
    simp only [isQuote, Bool.or_eq_true, beq_iff_eq] at quotes
    rcases quotes with (rfl | rfl) | rfl <;> rfl
  rw [next_outside free, next_outside free', flat, flat, quotes]
  exact .inside quotes depth rfl rfl (fun _ => unescaped) unescaped

theorem closes (agree : Agree (.inside quote {}) first second (quote :: source)) :
    Agree .outside (first.next quote) (second.next quote) source := by
  obtain _ | ⟨_, depth, open_, open_', plain, plain'⟩ := agree
  rw [next_closes open_ (plain rfl), next_closes open_' plain']
  exact .outside depth rfl rfl (.inl rfl)

theorem kept (agree : Agree (.inside quote stretch) first second (c :: source)) (inner : c ≠ quote) (plain : c ≠ '\\')
    (after : Blanking.Stretch) : Agree (.inside quote after) (first.next c) (second.next c) source := by
  obtain _ | ⟨quotes, depth, open_, open_', _, _⟩ := agree
  rw [next_inside open_ fun both => inner both.1, next_inside open_' fun both => inner both.1]
  exact .inside quotes depth open_ open_' (fun _ => plain) plain

theorem blanked (agree : Agree (.inside quote stretch) first second (c :: source)) (inner : c ≠ quote) (plain : c ≠ '\\')
    (after : Blanking.Stretch) : Agree (.inside quote after) (first.next c) (second.next ' ') source := by
  obtain _ | ⟨quotes, depth, open_, open_', _, _⟩ := agree
  have blank : ' ' ≠ quote := Blanking.ne_of_isQuote quotes (by decide)
  rw [next_inside open_ fun both => inner both.1, next_inside open_' fun both => blank both.1]
  exact .inside quotes depth open_ open_' (fun _ => plain) (show ' ' ≠ '\\' by decide)

/-- A backslash keeps the string open whatever follows it. -/
theorem escaped (agree : Agree (.inside quote stretch) first second ('\\' :: c :: source)) (opened : Nat) :
    ((first.next '\\').separates c = false ∧ (second.next ' ').separates ' ' = false) ∧
      Agree (.inside quote ⟨opened, c == '\\'⟩) ((first.next '\\').next c) ((second.next ' ').next ' ') source := by
  obtain _ | ⟨quotes, depth, open_, open_', _, _⟩ := agree
  have blank : ' ' ≠ quote := Blanking.ne_of_isQuote quotes (by decide)
  have slash : '\\' ≠ quote := Blanking.ne_of_isQuote quotes (by decide)
  have stays : ¬ (c = quote ∧ '\\' ≠ '\\') := fun both => both.2 rfl
  rw [next_inside open_ fun both => slash both.1, next_inside open_' fun both => blank both.1,
    next_inside (by exact open_) stays, next_inside (by exact open_') fun both => blank both.1]
  refine ⟨⟨Nesting.separates_inside (by exact open_), Nesting.separates_inside (by exact open_')⟩, ?_⟩
  exact .inside quotes depth open_ open_' beq_eq_false_iff_ne.mp (show ' ' ≠ '\\' by decide)

end Agree
end Nesting

/-- Pieces that are shown of pieces of a source. -/
def PieceVeils (source shown : List Char) : Prop := ∃ last, Veils .outside last source shown

/-- The first pieces of two texts correspond from a place on, and the others do from outside of strings. -/
structure PiecesVeil (place : Place) (pieces pieces' : List (List Char)) : Prop where
  first : ∃ last, Veils place last (pieces.headD []) (pieces'.headD [])
  rest : List.Forall₂ PieceVeils pieces.tail pieces'.tail

namespace PiecesVeil

variable {place next : Place} {nesting nesting' : Nesting} {c d : Char} {source shown : List Char}

theorem cons (inside : nesting.separates c = false) (inside' : nesting'.separates d = false)
    (keeps : ∀ {last a b}, Veils next last a b → Veils place last (c :: a) (d :: b))
    (later : PiecesVeil next (pieces (nesting.next c) source) (pieces (nesting'.next d) shown)) :
    PiecesVeil place (pieces nesting (c :: source)) (pieces nesting' (d :: shown)) := by
  rw [pieces_of_inside inside, pieces_of_inside inside']
  obtain ⟨last, veils⟩ := later.first
  exact ⟨⟨last, keeps veils⟩, later.rest⟩

theorem separated (separates : nesting.separates c = true) (separates' : nesting'.separates c = true)
    (later : PiecesVeil .outside (pieces (nesting.next c) source) (pieces (nesting'.next c) shown)) :
    PiecesVeil .outside (pieces nesting (c :: source)) (pieces nesting' (c :: shown)) := by
  rw [pieces_of_separates separates, pieces_of_separates separates']
  refine ⟨⟨.outside, .done⟩, ?_⟩
  rw [List.tail_cons, List.tail_cons, pieces_eq (nesting.next c), pieces_eq (nesting'.next c)]
  exact .cons later.first later.rest

theorem padded (blank : isBlank c = true)
    (later : PiecesVeil .outside (pieces nesting ('\n' :: source)) (pieces (nesting'.next c) shown)) :
    PiecesVeil .outside (pieces nesting ('\n' :: source)) (pieces nesting' (c :: shown)) := by
  have comma : c ≠ ',' := by
    rintro rfl
    cases blank
  rw [pieces_of_inside (Nesting.separates_other comma)]
  rw [pieces_of_inside (Nesting.separates_other (by decide))] at later ⊢
  obtain ⟨last, veils⟩ := later.first
  exact ⟨⟨last, .padded blank veils⟩, later.rest⟩

end PiecesVeil

/-- Splitters that agree on a place cut a source text and what is shown of it into corresponding pieces. -/
theorem pieces_veil {first last : Place} {source shown : List Char} (veils : Veils first last source shown)
    {nesting nesting' : Nesting} (agree : Nesting.Agree first nesting nesting' source) :
    PiecesVeil first (pieces nesting source) (pieces nesting' shown) := by
  induction veils generalizing nesting nesting' with
  | @done place => exact ⟨⟨place, .done⟩, .nil⟩
  | @code _ c source shown plain rest ih =>
    have later := ih (agree.code plain)
    have same := agree.separates c
    cases separates : nesting.separates c with
    | false => exact .cons separates (same ▸ separates) (.code plain) later
    | true => exact .separated separates (same ▸ separates) later
  | padded blank rest ih => exact .padded blank (ih (agree.padded blank))
  | @opens _ quote source shown quotes rest ih =>
    have mark : quote ≠ ',' := (Blanking.ne_of_isQuote quotes (by decide)).symm
    exact .cons (Nesting.separates_other mark) (Nesting.separates_other mark) (.opens quotes) (ih (agree.opens quotes))
  | @closes _ quote source shown quotes rest ih =>
    have within := agree.separates_inside quote
    exact .cons within.1 within.2 (.closes quotes) (ih agree.closes)
  | @kept _ quote c _ source shown inner plain rest ih =>
    have within := agree.separates_inside c
    exact .cons within.1 within.2 (.kept inner plain) (ih (agree.kept inner plain _))
  | @blanked _ quote c stretch next source shown inner plain brackets rest ih =>
    exact .cons (agree.separates_inside c).1 (agree.separates_inside ' ').2 (.blanked inner plain brackets)
      (ih (agree.blanked inner plain _))
  | @escaped _ quote c stretch next source shown brackets rest ih =>
    obtain ⟨⟨within, within'⟩, later⟩ := agree.escaped next
    obtain ⟨⟨last, veils⟩, others⟩ := ih later
    rw [pieces_of_inside (agree.separates_inside '\\').1, pieces_of_inside (agree.separates_inside ' ').2,
      pieces_of_inside within, pieces_of_inside within']
    exact ⟨⟨last, .escaped brackets veils⟩, others⟩

theorem alike_of_veils {first last : Place} {source shown : List Char} (veils : Veils first last source shown)
    (outside : first = .outside) : Alike isQuote Quoted source shown := by
  induction veils with
  | done => exact .nil
  | code plain _ ih => exact .code _ plain (ih rfl)
  | padded blank _ ih => exact .padded blank (ih rfl)
  | opens quotes => exact .quote quotes _ _
  | closes => cases outside
  | kept => cases outside
  | blanked => cases outside
  | escaped => cases outside

/-- No parameter of a script starts with a modifier. -/
def Unmodified (language : Language) (list : List Char) : Prop :=
  language.isRubyLike = false → ∀ piece ∈ split list, ∀ word ∈ modifiers, Text.startsWith word piece = false

theorem classify?_namedAlike {language : Language} {a b : List Char} (alike : Alike isQuote Quoted a b)
    (trimmed : Text.trim a = a) (trimmed' : Text.trim b = b)
    (free : language.isRubyLike = false → ∀ word ∈ modifiers, Text.startsWith word b = false) :
    Option.Rel NamedAlike (classify? language a) (classify? language b) := by
  simp only [classify?, trimmed, trimmed', List.isEmpty_iff]
  by_cases none : a = []
  · rw [if_pos none, if_pos (alike.nil_iff.mp none)]
    exact .none
  · rw [if_neg none, if_neg (mt alike.nil_iff.mpr none)]
    cases ruby : language.isRubyLike with
    | true => exact .some (rubyParameter_namedAlike alike trimmed trimmed')
    | false => exact .some (scriptParameter_namedAlike alike trimmed trimmed' (free ruby))

theorem split_alike {last : Place} {written list : List Char} (veils : Veils .outside last written list) :
    List.Forall₂ (Alike isQuote Quoted) (split written) (split list) := by
  have agree : Nesting.Agree .outside {} {} written := .outside rfl rfl rfl (.inl rfl)
  have pieces : List.Forall₂ PieceVeils (pieces {} written) (pieces {} list) := by
    have found := pieces_veil veils agree
    rw [pieces_eq {} written, pieces_eq {} list]
    exact .cons found.first found.rest
  have trimmed : List.Forall₂ (Alike isQuote Quoted) ((Parameters.pieces {} written).map Text.trim)
      ((Parameters.pieces {} list).map Text.trim) := by
    rw [List.forall₂_map_left_iff, List.forall₂_map_right_iff]
    refine pieces.imp fun a b found => ?_
    obtain ⟨last, veils⟩ := found
    exact (alike_of_veils veils rfl).trim
  exact List.rel_filter (fun a b alike => by simp [alike.nil_iff]) trimmed

/-- Plain strings change neither the number of parameters nor their names. -/
theorem parse_namedAlike {language : Language} {last : Place} {written list : List Char}
    (veils : Veils .outside last written list) (free : Unmodified language list) :
    List.Forall₂ NamedAlike (parse language written) (parse language list) := by
  have shown : ∀ piece ∈ split list, Text.trim piece = piece ∧
      (language.isRubyLike = false → ∀ word ∈ modifiers, Text.startsWith word piece = false) :=
    fun piece member => ⟨trim_of_mem_split member, fun script => free script piece member⟩
  have alike := (List.forall₂_and_left _ _).mpr ⟨fun piece (member : piece ∈ split written) =>
    trim_of_mem_split member, split_alike veils⟩
  have both := ((List.forall₂_and_left _ _).mpr ⟨shown, alike.flip⟩).flip
  refine List.rel_filterMap (fun a b found => ?_) both
  exact classify?_namedAlike found.2.2 found.2.1 found.1.1 found.1.2

end Parameters
end CallAtlas

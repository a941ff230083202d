import CallAtlas.Proofs.OutlineContainers

/-! Members of a class in the outline of a script. A line of the body counts as the start of a member if the brace of
the body is the only brace that is open before it; round and square brackets that are open there have no say, so that
the elements of a list or the arguments of a call may be taken for members. -/
namespace CallAtlas

namespace Bracket

/-- The brackets that are open after a character, the innermost first. A character that closes another bracket than the
innermost open one leaves nothing to say. -/
def next? (opened : List Char) (c : Char) : Option (List Char) :=
  if c ∈ ['{', '(', '['] then some (c :: opened)
  else if c ∈ ['}', ')', ']'] then if opened.head?.bind closing? = some c then some opened.tail else none
  else some opened

/-- The brackets that are open after a text. -/
def openAfter? (opened : List Char) : (text : List Char) → Option (List Char)
  | [] => some opened
  | c :: text => (next? opened c).bind fun opened => openAfter? opened text

end Bracket

namespace Script.Outline

open Blanking (Line)
open CallAtlas.Bracket (next? openAfter?)

variable {opened after text : List Char} {c : Char}

theorem braceDelta_cons (c : Char) (text : List Char) :
    braceDelta (c :: text) = braceDelta [c] + braceDelta text := by
  simp [braceDelta]

theorem braceDelta_append (front text : List Char) :
    braceDelta (front ++ text) = braceDelta front + braceDelta text := by
  induction front with
  | nil => exact (Int.zero_add _).symm
  | cons c front ih => rw [List.cons_append, braceDelta_cons, ih, ← Int.add_assoc, ← braceDelta_cons]

theorem closing?_eq_brace {opener : Char} : Bracket.closing? opener = some '}' ↔ opener = '{' := by
  constructor
  · intro closes
    unfold Bracket.closing? at closes
    split at closes <;> simp_all
  · rintro rfl
    rfl

/-- A step of the brackets moves the braces among them as the character moves the brace depth. -/
theorem count_next? (moved : next? opened c = some after) :
    (after.count '{' : Int) = opened.count '{' + braceDelta [c] := by
  unfold next? at moved
  split at moved
  · rename_i opens
    cases moved
    by_cases brace : c = '{'
    · simp [brace, braceDelta]
    · have closer : c ≠ '}' := by
        rintro rfl
        simp at opens
      simp [brace, closer, braceDelta]
  · rename_i other
    have brace : c ≠ '{' := by
      rintro rfl
      simp at other
    split at moved
    · split at moved
      · rename_i closes
        cases moved
        cases opened with
        | nil => cases closes
        | cons opener outer =>
          rw [List.head?_cons, Option.bind_some] at closes
          by_cases closer : c = '}'
          · cases closing?_eq_brace.mp (closer ▸ closes)
            have down : braceDelta ['}'] = -1 := rfl
            rw [closer, down, List.tail_cons, List.count_cons_self]
            omega
          · have different : opener ≠ '{' := by
              rintro rfl
              exact closer (Option.some.inj closes).symm
            simp [brace, closer, different, braceDelta]
      · cases moved
    · rename_i plain
      have closer : c ≠ '}' := by
        rintro rfl
        simp at plain
      cases moved
      simp [brace, closer, braceDelta]

theorem count_openAfter? (read : openAfter? opened text = some after) :
    (after.count '{' : Int) = opened.count '{' + braceDelta text := by
  induction text generalizing opened with
  | nil =>
    cases read
    exact (Int.add_zero _).symm
  | cons c text ih =>
    obtain ⟨between, moved, further⟩ := Option.bind_eq_some_iff.mp read
    rw [ih further, count_next? moved, braceDelta_cons c text, Int.add_assoc]

theorem bracesOf_eq (lines : List Line) : bracesOf lines = braceDelta (lines.flatMap (·.cleaned)) := by
  induction lines with
  | nil => rfl
  | cons line lines ih =>
    rw [List.flatMap_cons, braceDelta_append, ← ih]
    rfl

/-- The lines of a class up to some line, from its first line on, have these brackets open since the brace of its body.
What stands before that brace leaves no brace open. -/
def BodyOpens (body : List Line) (opened : List Char) : Prop :=
  ∃ header text, body.flatMap (·.cleaned) = header ++ '{' :: text ∧ braceDelta header = 0 ∧
    openAfter? ['{'] text = some opened

theorem BodyOpens.braces {body : List Line} (opens : BodyOpens body opened) : bracesOf body = opened.count '{' := by
  obtain ⟨header, text, split, even, read⟩ := opens
  rw [count_openAfter? read, bracesOf_eq, split, braceDelta_append, even, braceDelta_cons, Int.zero_add]
  rfl

/-- The lines of a file before a class, those of the class up to a line, and those from that line on. No container that
starts later in the class has the line. -/
structure BodyLine (file : SourceFile) (limits : Limits) (owner : Definition) (front body rest : List Line) : Prop where
  split : Blanking.pairLines file.language file.sourceLines = front ++ body ++ rest
  found : owner ∈ (scan file limits).definitions
  isClass : owner.kind = .classType
  starts : owner.startLine = front.length + 1
  surrounds : owner.Surrounds (front.length + body.length + 1)
  innermost : ∀ other ∈ (scan file limits).definitions, other.Surrounds (front.length + body.length + 1) →
    other.startLine ≤ owner.startLine

/-- A line reads as a member of a class: as a method, or as a field that holds a function. -/
def Spot.ReadsMember (context : Context) (spot : Spot) : Prop :=
  (Pattern.classMethod? spot.text).isSome = true ∨
    (Pattern.classField? spot.text).isSome = true ∧
      (spot.boundParameters? context (fun text => (Pattern.classField? text).map (·.rest))
        (spot.extent context).last).isSome = true

variable {context : Context} {spot : Spot}

theorem classMember_definitions : (classMember context spot).definitions ≠ [] ↔ spot.ReadsMember context := by
  unfold Spot.ReadsMember
  simp only [classMember]
  split
  · rename_i member read
    simp [read]
  · rename_i none
    split
    · rename_i noField
      simp [none, noField]
    · rename_i field read
      split
      · rename_i unbound
        simp [none, unbound]
      · rename_i parameters bound
        simp [read, bound]

theorem Spot.ReadsMember.visible (reads : spot.ReadsMember context) : spot.text ≠ [] := by
  intro blank
  have noMethod : Pattern.classMethod? [] = none := rfl
  have noField : Pattern.classField? [] = none := rfl
  simp [Spot.ReadsMember, blank, noMethod, noField] at reads

/-- In a class, whose members have the given brace depth, a line is a member if it has this depth and reads as one. -/
theorem finding_members (context : Context) (spot : Spot) {containers : List Container} {container : Container}
    (around : around? containers spot.index = some container) (isClass : container.kind = .classType) :
    (∃ definition ∈ (finding context containers spot).definitions, definition.kind ∈ memberKinds) ↔
      spot.depth = container.depth ∧ spot.ReadsMember context := by
  have chosen : (containers.find? fun c => c.first < spot.index && spot.index ≤ c.last) = some container := around
  unfold finding
  rw [chosen]
  split
  · rename_i blank
    constructor
    · rintro ⟨definition, member, _⟩
      cases member
    · rintro ⟨_, reads⟩
      exact absurd (List.isEmpty_iff.mp blank) reads.visible
  · simp only [isClass, if_true]
    split
    · rename_i level
      rw [← classMember_definitions, and_iff_right level]
      constructor
      · rintro ⟨definition, member, _⟩
        exact List.ne_nil_of_mem member
      · intro some
        obtain ⟨definition, member⟩ := List.exists_mem_of_ne_nil _ some
        exact ⟨definition, member, classMember_plain.kind definition member⟩
    · rename_i other
      constructor
      · rintro ⟨definition, member, kind⟩
        exact absurd kind (statement_kinds definition member)
      · rintro ⟨level, _⟩
        exact absurd level other

/-- A line of the body of a class is found to be a member exactly if the brace of the body is the only brace that is
open before the line, and the line reads as a member. Other brackets may be open. -/
theorem member_found_iff {file : SourceFile} {limits : Limits} {owner : Definition} {front body rest : List Line}
    {line : Line} (place : BodyLine file limits owner front body (line :: rest)) (opens : BodyOpens body opened) :
    (∃ member ∈ (scan file limits).definitions,
        member.startLine = front.length + body.length + 1 ∧ member.kind ∈ memberKinds) ↔
      opened.count '{' = 1 ∧
        Spot.ReadsMember ⟨file.path, file.language, limits.block⟩
          ⟨front.length + body.length, bracesOf (front ++ body), line :: rest⟩ := by
  obtain ⟨containers, reached⟩ := scan_reaches file limits place.split
  have length : (front ++ body).length = front.length + body.length := List.length_append
  have surrounds := place.surrounds
  have innermost := place.innermost
  rw [← length] at surrounds innermost ⊢
  obtain ⟨container, around, shown, depth⟩ := reached.around?_eq_some place.found surrounds innermost
  have first : container.first = front.length := by
    have starts := shown.starts
    rw [place.starts] at starts
    omega
  -- The brace depth of the members is one more than that of the class.
  have level : bracesOf (front ++ body) = container.depth ↔ opened.count '{' = 1 := by
    rw [depth, first, place.split, List.append_assoc, List.take_left, bracesOf_append, opens.braces]
    omega
  rw [← level, ← finding_members ⟨file.path, file.language, limits.block⟩
    ⟨(front ++ body).length, bracesOf (front ++ body), line :: rest⟩ around (shown.kind ▸ place.isClass)]
  constructor
  · rintro ⟨member, found, starts, kind⟩
    exact ⟨member, (reached.own found).mpr starts, kind⟩
  · rintro ⟨member, own, kind⟩
    rw [← reached.filter_own] at own
    obtain ⟨found, starts⟩ := List.mem_filter.mp own
    exact ⟨member, found, beq_iff_eq.mp starts, kind⟩

/-- A class with a field that holds a list over several lines. -/
def listing : SourceFile :=
  .ofText "bag.js" .javascript "class A \x7b\n  b = [\n    f(1),\n  ];\n\x7d\n"

def listingClass : Definition :=
  { name := "A", kind := .classType, filePath := "bag.js", startLine := 1, endLine := 5
    code := "class A \x7b\n  b = [\n    f(1),\n  ];\n\x7d" }

/-- The first element of the list, as a method. -/
def listingElement : Definition :=
  { name := "f", kind := .method, filePath := "bag.js", startLine := 3, endLine := 3, code := "    f(1),"
    parameters := [{ name := "1" }] }

/-- A line without strings and comments. -/
def plainLine (text : String) : Line := ⟨text.toList, text.toList⟩

/-- The lines of the class before the first element of the list. -/
def listingStart : List Line := [plainLine "class A \x7b", plainLine "  b = ["]

theorem scan_listing : (scan listing ⟨1000, 160⟩).definitions = [listingClass, listingElement] := by decide

theorem listing_bodyLine :
    BodyLine listing ⟨1000, 160⟩ listingClass [] listingStart
      [plainLine "    f(1),", plainLine "  ];", plainLine "\x7d"] where
  split := by decide
  found := by simp [scan_listing]
  isClass := rfl
  starts := rfl
  surrounds := by decide
  innermost := by
    rw [scan_listing]
    decide

theorem listing_bodyOpens : BodyOpens listingStart ['[', '{'] :=
  ⟨"class A ".toList, "  b = [".toList, by decide, by decide, by decide⟩

theorem member_found_iff_element :
    BodyLine listing ⟨1000, 160⟩ listingClass [] listingStart
        [plainLine "    f(1),", plainLine "  ];", plainLine "\x7d"] ∧
      BodyOpens listingStart ['[', '{'] ∧
      ((∃ member ∈ (scan listing ⟨1000, 160⟩).definitions, member.startLine = 3 ∧ member.kind ∈ memberKinds) ↔
        ['[', '{'].count '{' = 1 ∧
          Spot.ReadsMember ⟨"bag.js", .javascript, 1000⟩
            ⟨2, bracesOf listingStart, [plainLine "    f(1),", plainLine "  ];", plainLine "\x7d"]⟩) :=
  ⟨listing_bodyLine, listing_bodyOpens, member_found_iff listing_bodyLine listing_bodyOpens⟩

/-- The element of a list in a field is taken for a method, in a class all of whose brackets are closed. -/
theorem list_element_found_as_member :
    BodyLine listing ⟨1000, 160⟩ listingClass [] listingStart
        [plainLine "    f(1),", plainLine "  ];", plainLine "\x7d"] ∧
      openAfter? [] ((Blanking.pairLines .javascript listing.sourceLines).flatMap (·.cleaned)) = some [] ∧
      BodyOpens listingStart ['[', '{'] ∧
      ∃ member ∈ (scan listing ⟨1000, 160⟩).definitions, member.startLine = 3 ∧ member.kind = .method :=
  ⟨listing_bodyLine, by decide +kernel, listing_bodyOpens, listingElement, by simp [scan_listing], rfl, rfl⟩

end Script.Outline
end CallAtlas

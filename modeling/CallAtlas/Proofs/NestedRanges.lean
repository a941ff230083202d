import CallAtlas.Proofs.ImportBindings

/-! Line ranges of the definitions in the outline of a script. Each statement is followed by a search of its own that
starts at depth zero. A search that starts inside the statement of another one knows of fewer open brackets and is
otherwise at the same place, so it never goes further: ranges are nested or disjoint, and the tightest range around a
line lies in every other one. -/
namespace CallAtlas

/-- One definition has no line that the other has not. -/
def Definition.Within (inner outer : Definition) : Prop :=
  outer.startLine ≤ inner.startLine ∧ inner.endLine ≤ outer.endLine

theorem tighter_span_le {best : Option (Nat × Definition)} {entry chosen : Nat × Definition}
    (found : tighter best entry = some chosen) :
    chosen.2.span ≤ entry.2.span ∧ ∀ known ∈ best, chosen.2.span ≤ known.2.span := by
  unfold tighter at found
  split at found
  · cases found
    exact ⟨Nat.le_refl _, by simp⟩
  · split at found
    · rename_i known closer
      cases found
      exact ⟨Nat.le_refl _, by simpa using Nat.le_of_lt closer⟩
    · rename_i known further
      cases found
      exact ⟨Nat.le_of_not_lt further, by simp⟩

theorem innermostFrom_span_le {line index : Nat} {best : Option (Nat × Definition)} {definitions : List Definition}
    {entry : Nat × Definition} (found : innermostFrom line index best definitions = some entry) :
    (∀ known ∈ best, entry.2.span ≤ known.2.span) ∧
      ∀ other ∈ definitions, other.kind.isCallable = true → other.containsLine line = true →
        entry.2.span ≤ other.span := by
  induction definitions generalizing index best with
  | nil =>
    rw [innermostFrom] at found
    exact ⟨by simp [found], by simp⟩
  | cons definition rest ih =>
    rw [innermostFrom] at found
    split at found
    · obtain ⟨chosen, least⟩ := ih found
      obtain ⟨better, picked⟩ : ∃ better, tighter best (index, definition) = some better := by
        unfold tighter
        split
        · exact ⟨_, rfl⟩
        · split <;> exact ⟨_, rfl⟩
      obtain ⟨own, earlier⟩ := tighter_span_le picked
      have closer := chosen better picked
      refine ⟨fun known held => Nat.le_trans closer (earlier known held), ?_⟩
      intro other member callable around
      rcases List.mem_cons.mp member with rfl | later
      · exact Nat.le_trans closer own
      · exact least other later callable around
    · rename_i idle
      obtain ⟨chosen, least⟩ := ih found
      refine ⟨chosen, ?_⟩
      intro other member callable around
      rcases List.mem_cons.mp member with rfl | later
      · exact absurd (Bool.and_eq_true_iff.mpr ⟨callable, around⟩) idle
      · exact least other later callable around

/-- The owner of a line has no more lines than any other callable definition around it. -/
theorem exists_tightest {definitions : List Definition} {line : Nat} {definition : Definition}
    (member : definition ∈ definitions) (callable : definition.kind.isCallable = true)
    (around : definition.containsLine line = true) :
    ∃ owner chosen, innermostCallable? definitions line = some owner ∧ definitions[owner]? = some chosen ∧
      chosen.kind.isCallable = true ∧ chosen.containsLine line = true ∧ chosen.span ≤ definition.span := by
  obtain ⟨owner, owns⟩ := exists_innermostCallable? member callable around
  obtain ⟨entry, chosen, rfl⟩ := Option.map_eq_some_iff.mp owns
  have least := (innermostFrom_span_le chosen).2 definition member callable around
  rcases innermostFrom_contains chosen with none | ⟨offset, position, present, holds⟩
  · cases none
  · rw [Nat.zero_add] at position
    exact ⟨entry.1, entry.2, owns, position ▸ present, holds.1, holds.2, least⟩

namespace Script.Outline

open Blanking (Line)

/-- Whether a statement goes on behind a line at which no bracket is open. -/
def goesOn (first : Bool) (line : List Char) (rest : List (List Char)) : Bool :=
  ((Text.trim line).isEmpty && !first) || enders.any (fun ender => Text.endsWith ender (Text.trimEnd line)) ||
    continues rest

variable {first other : Bool} {depth low high : Int} {index last : Nat} {line : List Char}
  {front rest lines : List (List Char)}

/-- One line of the search for the end of a statement. -/
theorem statementEnd?_step (first : Bool) (depth : Int) (index : Nat) (line : List Char) (rest : List (List Char)) :
    statementEnd? first depth index (line :: rest) =
      if 0 < depth + Bracket.delta line ∨ depth + Bracket.delta line = 0 ∧ goesOn first line rest = true then
        statementEnd? false (depth + Bracket.delta line) (index + 1) rest
      else some index := by
  rw [statementEnd?]
  generalize depth + Bracket.delta line = reached
  by_cases negative : reached < 0
  · rw [if_pos negative, if_neg (by omega)]
  · rw [if_neg negative]
    by_cases positive : 0 < reached
    · rw [if_pos positive, if_pos (.inl positive)]
    · have zero : reached = 0 := by omega
      rw [if_neg positive]
      by_cases blank : ((Text.trim line).isEmpty && !first) = true
      · rw [if_pos blank, if_pos (.inr ⟨zero, by simp only [goesOn, blank, Bool.true_or]⟩)]
      · rw [if_neg blank]
        by_cases ends : enders.any (fun ender => Text.endsWith ender (Text.trimEnd line)) = true
        · rw [if_pos ends, if_pos (.inr ⟨zero, by simp only [goesOn, ends, Bool.or_true, Bool.true_or]⟩)]
        · rw [if_neg ends]
          by_cases starts : continues rest = true
          · rw [if_pos starts, if_pos (.inr ⟨zero, by simp only [goesOn, starts, Bool.or_true]⟩)]
          · have stays : ¬ goesOn first line rest = true := by
              simp only [goesOn, Bool.or_eq_true, not_or]
              exact ⟨⟨blank, ends⟩, starts⟩
            rw [if_neg starts, if_neg]
            rintro (more | ⟨_, goes⟩)
            · exact positive more
            · exact stays goes

/-- A search that ends behind some lines comes past them, and no bracket too many is closed there. -/
theorem statementEnd?_append (nonnegative : 0 ≤ depth)
    (found : statementEnd? first depth index (front ++ rest) = some last) (beyond : index + front.length ≤ last) :
    ∃ started reached, 0 ≤ reached ∧ statementEnd? started reached (index + front.length) rest = some last := by
  induction front generalizing first depth index with
  | nil => exact ⟨first, depth, nonnegative, found⟩
  | cons line front ih =>
    rw [List.length_cons] at beyond
    rw [List.cons_append, statementEnd?_step] at found
    split at found
    · rename_i further
      have stillOpen : 0 ≤ depth + Bracket.delta line := by omega
      obtain ⟨started, reached, remains, goes⟩ := ih stillOpen found (by omega)
      refine ⟨started, reached, remains, ?_⟩
      rwa [List.length_cons, Nat.add_comm front.length, ← Nat.add_assoc]
    · cases found
      omega

/-- A search at a smaller depth stops no later. The two may differ in whether the first line is the start of the
statement, which matters for a blank line only. -/
theorem statementEnd?_of_le (shallower : low ≤ high)
    (alike : first = other ∨ ∀ line ∈ lines.head?, (Text.trim line).isEmpty = false)
    (found : statementEnd? first high index lines = some last) :
    ∃ earlier ≤ last, statementEnd? other low index lines = some earlier := by
  induction lines generalizing first other low high index with
  | nil => cases found
  | cons line rest ih =>
    have same : goesOn first line rest = goesOn other line rest := by
      rcases alike with rfl | visible
      · rfl
      · simp only [goesOn, visible line rfl, Bool.false_and]
    have here : index ≤ last := (statementEnd?_bounds found).1
    rw [statementEnd?_step] at found ⊢
    split
    · rename_i further
      have alsoFurther : 0 < high + Bracket.delta line ∨
          high + Bracket.delta line = 0 ∧ goesOn first line rest = true := by
        rcases further with positive | ⟨zero, goes⟩
        · exact .inl (by omega)
        · by_cases equal : low = high
          · exact .inr ⟨equal ▸ zero, same ▸ goes⟩
          · exact .inl (by omega)
      rw [if_pos alsoFurther] at found
      exact ih (by omega) (.inl rfl) found
    · exact ⟨index, here, rfl⟩

variable {context : Context} {containers : List Container} {spot : Spot} {definition : Definition}

theorem extent_of_short (fits : spot.index + context.limit.toNat < Text.wordLimit)
    (short : spot.lines.length ≤ context.limit.toNat) :
    spot.extent context =
      ((statementEnd? true 0 spot.index (spot.lines.map (·.cleaned))).map fun last => ⟨last, true⟩).getD
        ⟨max (spot.index + spot.lines.length - 1) spot.index, false⟩ := by
  rw [Spot.extent, extent, Limits.window_eq fits, List.take_of_length_le short, List.length_map]
  cases statementEnd? true 0 spot.index (spot.lines.map (·.cleaned)) <;> rfl

/-- A statement that starts inside of another one ends inside of it. -/
theorem extent_nested (context : Context) (spot later : Spot) {front : List Line}
    (split : spot.lines = front ++ later.lines)
    (placed : later.index = spot.index + front.length) (short : spot.lines.length ≤ context.limit.toNat)
    (visible : later.text ≠ []) (inside : later.index ≤ (spot.extent context).last) :
    (later.extent context).last ≤ (spot.extent context).last := by
  obtain ⟨line, rest, lines⟩ : ∃ line rest, later.lines = line :: rest := by
    apply List.exists_cons_of_ne_nil
    intro none
    simp [Spot.text, Spot.line, none, Text.trim, Text.trimStart, Text.trimEnd, Text.dropEndWhile] at visible
  have bounds := later.extent_last context (by simp [lines])
  by_cases fits : later.index + context.limit.toNat < Text.wordLimit
  case neg =>
    -- The inner statement is not followed behind its first line.
    rw [Limits.window_eq_zero (Nat.not_lt.mp fits)] at bounds
    omega
  have shorter : later.lines.length ≤ context.limit.toNat := by
    rw [split, List.length_append] at short
    omega
  have fitsOuter : spot.index + context.limit.toNat < Text.wordLimit := by omega
  rw [extent_of_short fitsOuter short] at inside ⊢
  rw [extent_of_short fits shorter] at bounds ⊢
  rw [split, List.map_append, List.length_append] at inside ⊢
  cases found : statementEnd? true 0 spot.index (front.map (·.cleaned) ++ later.lines.map (·.cleaned)) with
  | none =>
    -- The outer statement runs to the end of the file.
    simp only [Option.map_none, Option.getD_none]
    omega
  | some last =>
    rw [found] at inside
    simp only [Option.map_some, Option.getD_some] at inside ⊢
    obtain ⟨started, reached, nonnegative, goes⟩ :=
      statementEnd?_append (Int.le_refl 0) found (by rw [List.length_map]; omega)
    rw [List.length_map, ← placed] at goes
    have shown : ∀ line ∈ (later.lines.map (·.cleaned)).head?, (Text.trim line).isEmpty = false := by
      simp only [lines, List.map_cons, List.head?_cons, Option.mem_some_iff, forall_eq', List.isEmpty_eq_false_iff]
      simpa [Spot.text, Spot.line, lines] using visible
    obtain ⟨earlier, before, ends⟩ := statementEnd?_of_le nonnegative (.inr shown) goes
    rw [ends]
    exact before

theorem text_ne_nil_of_mem (member : definition ∈ (finding context containers spot).definitions) : spot.text ≠ [] := by
  intro none
  unfold finding at member
  rw [if_pos (by rw [none]; rfl)] at member
  cases member

/-- A definition that starts on a later line of another one ends inside of it. -/
theorem scan_nested {file : SourceFile} {limits : Limits} (short : file.sourceLines.length ≤ limits.blockLines)
    {outer inner : Definition} (found : outer ∈ (scan file limits).definitions)
    (foundInner : inner ∈ (scan file limits).definitions) (after : outer.startLine < inner.startLine)
    (inside : inner.startLine ≤ outer.endLine) : inner.endLine ≤ outer.endLine := by
  obtain ⟨front, line, rest, containers, depth, split, member⟩ := mem_read found
  obtain ⟨longer, next, tail, others, deeper, splitInner, memberInner⟩ := mem_read foundInner
  have yields := finding_from containers outer member
  have yieldsInner := finding_from others inner memberInner
  have visible := text_ne_nil_of_mem memberInner
  have whole : (line :: rest).length ≤ limits.blockLines := by
    have length := congrArg List.length split
    rw [Blanking.pairLines_length, List.length_append] at length
    omega
  have startsOuter := yields.startLine
  have startsInner := yieldsInner.startLine
  simp only [Nat.zero_add] at startsOuter startsInner
  rcases List.append_eq_append_iff.mp (split.symm.trans splitInner) with
    ⟨between, rfl, joined⟩ | ⟨beyond, rfl, _⟩
  · have nested := extent_nested ⟨file.path, file.language, limits.block⟩
      ⟨0 + front.length, depth, line :: rest⟩ ⟨0 + (front ++ between).length, deeper, next :: tail⟩ joined
      (by simp) whole visible
    have endsOuter := yields.endLine
    have endsInner := yieldsInner.endLine
    simp only [Nat.zero_add] at nested endsOuter endsInner
    omega
  · rw [List.length_append] at startsOuter
    omega

/-- In a file that is not longer than a statement is followed, any two definitions are disjoint or nested. The owner of
a line, among all definitions or among some that are kept, lies within every callable definition around the line. -/
theorem outline_ranges_nest (file : SourceFile) (limits : Limits)
    (short : file.sourceLines.length ≤ limits.blockLines) :
    (∀ first ∈ (scan file limits).definitions, ∀ second ∈ (scan file limits).definitions,
      first.startLine < second.startLine → second.startLine ≤ first.endLine → second.endLine ≤ first.endLine) ∧
    (∀ first ∈ (scan file limits).definitions, ∀ second ∈ (scan file limits).definitions,
      first.endLine < second.startLine ∨ second.endLine < first.startLine ∨
        second.Within first ∨ first.Within second) ∧
    ∀ (keep : Definition → Bool) (line : Nat), ∀ other ∈ (scan file limits).definitions.filter keep,
      other.kind.isCallable = true → other.containsLine line = true →
      ∃ owner chosen, innermostCallable? ((scan file limits).definitions.filter keep) line = some owner ∧
        ((scan file limits).definitions.filter keep)[owner]? = some chosen ∧ chosen.containsLine line = true ∧
        chosen.Within other := by
  have nested := fun (first second : Definition) (member : first ∈ (scan file limits).definitions)
    (present : second ∈ (scan file limits).definitions) => scan_nested short member present
  refine ⟨fun first member second present => nested first second member present, ?_, ?_⟩
  · intro first member second present
    have forth := nested first second member present
    have back := nested second first present member
    simp only [Definition.Within]
    omega
  · intro keep line other member callable around
    obtain ⟨owner, chosen, owns, here, _, aroundChosen, least⟩ := exists_tightest member callable around
    refine ⟨owner, chosen, owns, here, aroundChosen, ?_⟩
    have found := (List.mem_filter.mp member).1
    have foundChosen := (List.mem_filter.mp (List.mem_of_getElem? here)).1
    have forth := nested chosen other foundChosen found
    have back := nested other chosen found foundChosen
    simp only [Definition.containsLine, Bool.and_eq_true, decide_eq_true_eq] at around aroundChosen
    simp only [Definition.span] at least
    simp only [Definition.Within]
    omega

/-- A script with a function in a function; the inner one ends with the statement that it is bound in. -/
def enclosing : SourceFile :=
  .ofText "cart.js" .javascript "function f() \x7b\n  const g = () =>\n    1;\n\x7d\n"

theorem outline_ranges_nest_inner :
    enclosing.sourceLines.length ≤ 1000 ∧
      ((scan enclosing ⟨1000, 160⟩).definitions.map fun definition =>
        (definition.name, definition.startLine, definition.endLine)) = [("f", 1, 4), ("g", 2, 3)] ∧
      ∀ other ∈ (scan enclosing ⟨1000, 160⟩).definitions.filter fun _ => true,
        other.kind.isCallable = true → other.containsLine 3 = true →
        ∃ owner chosen,
          innermostCallable? ((scan enclosing ⟨1000, 160⟩).definitions.filter fun _ => true) 3 = some owner ∧
          ((scan enclosing ⟨1000, 160⟩).definitions.filter fun _ => true)[owner]? = some chosen ∧
          chosen.containsLine 3 = true ∧ chosen.Within other := by
  have short : enclosing.sourceLines.length ≤ 1000 := by decide +kernel
  exact ⟨short, by decide +kernel, (outline_ranges_nest enclosing ⟨1000, 160⟩ short).2.2 (fun _ => true) 3⟩

end Script.Outline
end CallAtlas

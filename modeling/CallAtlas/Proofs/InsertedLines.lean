import CallAtlas.Proofs.ExpressionLines
import CallAtlas.Proofs.HeaderParameters
import CallAtlas.Proofs.Heredocs
import CallAtlas.Proofs.VisibilityLines

/-! An inserted empty line. Two Ruby files are read side by side, one of which has an empty line more. The line is cleaned
to an empty line, opens and closes no block and starts no method, so the two readings stay in step: a method behind the
line is found one line further down, and one around it reaches one line further. -/
namespace CallAtlas

namespace Text

/-- The place of a line once another one is inserted at `position`. -/
def moved (position place : Nat) : Nat := if place < position then place else place + 1

variable {position first second : Nat}

theorem moved_of_lt (before : first < position) : moved position first = first := if_pos before

theorem moved_of_le (behind : position ≤ first) : moved position first = first + 1 := if_neg (Nat.not_lt.mpr behind)

theorem le_moved (position place : Nat) : place ≤ moved position place := by
  simp only [moved]
  split <;> omega

/-- Lines keep their order. -/
theorem moved_lt_moved : moved position first < moved position second ↔ first < second := by
  simp only [moved]
  split <;> split <;> omega

/-- Counted from one, a line is inserted at the next number. -/
theorem moved_succ (position place : Nat) : moved (position + 1) (place + 1) = moved position place + 1 := by
  simp only [moved, Nat.add_lt_add_iff_right]
  split <;> rfl

theorem moved_injective (position : Nat) : Function.Injective (moved position) := by
  intro first second same
  have below := @moved_lt_moved position first second
  have above := @moved_lt_moved position second first
  omega

end Text

namespace Blanking

theorem heredocWord?_ne_nil {text word : List Char} (found : heredocWord? text = some word) : word ≠ [] := by
  unfold heredocWord? at found
  split at found
  · cases found
  · simp only at found
    split at found
    · split at found
      · cases found
        exact List.cons_ne_nil _ _
      · cases found
    · cases found

theorem openedHeredoc?_ne_nil (line cleaned : List Char) : openedHeredoc? line cleaned ≠ some [] := by
  intro opened
  cases found : firstHeredoc? line with
  | none =>
    rw [openedHeredoc?, found] at opened
    cases opened
  | some first =>
    obtain ⟨before, word⟩ := first
    have filled := heredocWord?_ne_nil (firstHeredoc?_eq_some found).2.2.1
    have either : openedHeredoc? line cleaned = none ∨ openedHeredoc? line cleaned = some word :=
      openedHeredoc?_of_first found
    rw [opened] at either
    rcases either with none | same
    · cases none
    · exact filled (Option.some.inj same).symm

/-- A cleaner of Ruby between two lines: no string goes on, and a heredoc that goes on ends at a word. -/
structure Cleaner.Settled (cleaner : Cleaner) : Prop where
  state : cleaner.state = {}
  heredoc : cleaner.heredoc ≠ some []

theorem Cleaner.Settled.clean {cleaner : Cleaner} (settled : cleaner.Settled) (line : List Char) :
    (cleaner.clean .ruby line).2.Settled := by
  refine ⟨(clean_rubyLike rfl settled.state line).1, ?_⟩
  unfold Cleaner.clean
  simp only [Language.isRubyLike, if_true]
  split
  · split
    · simp
    · exact settled.heredoc
  · rename_i outside
    split
    · split
      · simp [outside]
      · simp [outside]
    · split
      · simp [outside]
      · exact openedHeredoc?_ne_nil _ _

theorem Cleaner.Settled.behind {cleaner : Cleaner} (settled : cleaner.Settled) (lines : List (List Char)) :
    (cleaner.behind .ruby lines).Settled := by
  induction lines generalizing cleaner with
  | nil => exact settled
  | cons line rest ih => exact ih (settled.clean line)

/-- An empty line leaves the cleaner as it is. -/
theorem Cleaner.Settled.clean_nil {cleaner : Cleaner} (settled : cleaner.Settled) :
    cleaner.clean .ruby [] = ([], cleaner) := by
  obtain ⟨state, inDocument, heredoc⟩ := cleaner
  obtain ⟨fresh, filled⟩ := settled
  cases fresh
  cases heredoc with
  | some word =>
    have other : Text.trim [] ≠ word := by
      intro same
      exact filled (congrArg some same.symm)
    simp [Cleaner.clean, Language.isRubyLike, other]
  | none => cases inDocument <;> rfl

theorem cleanAll_append (language : Language) (cleaner : Cleaner) (front back : List (List Char)) :
    cleaner.cleanAll language (front ++ back) =
      cleaner.cleanAll language front ++ (cleaner.behind language front).cleanAll language back := by
  induction front generalizing cleaner with
  | nil => rfl
  | cons line front ih =>
    rw [List.cons_append, cleanAll_cons, cleanAll_cons, ih, List.cons_append]
    rfl

/-- An empty line is cleaned to an empty line, and the lines around it are cleaned as they are without it. -/
theorem pairLines_insert (front back : List (List Char)) :
    ∃ first second, first.length = front.length ∧ pairLines .ruby (front ++ back) = first ++ second ∧
      pairLines .ruby (front ++ [] :: back) = first ++ ⟨[], []⟩ :: second := by
  have settled : (({} : Cleaner).behind .ruby front).Settled := Cleaner.Settled.behind ⟨rfl, by simp⟩ front
  have same : front.length = (({} : Cleaner).cleanAll .ruby front).length := (cleanAll_length _ _ _).symm
  refine ⟨List.zipWith Line.mk front (({} : Cleaner).cleanAll .ruby front),
    List.zipWith Line.mk back ((({} : Cleaner).behind .ruby front).cleanAll .ruby back), ?_, ?_, ?_⟩
  · rw [List.length_zipWith, ← same, Nat.min_self]
  · rw [pairLines, cleanLines, cleanAll_append, List.zipWith_append same]
  · rw [pairLines, cleanLines, cleanAll_append, List.zipWith_append same, cleanAll_cons, settled.clean_nil,
      List.zipWith_cons_cons]

end Blanking

namespace Ruby

open Blanking (Line)
open Text (moved)

variable {position : Nat}

namespace Block

/-- The end of a block once a line is inserted. A block that is not closed goes on to the line before the one that stops
the search, or is not followed at all. -/
inductive End.Moved (position : Nat) : End → End → Prop
  | closed (last : Nat) : Moved position (.closed last) (.closed (moved position last))
  | interrupted (last : Nat) : Moved position (.interrupted last) (.interrupted (moved position (last + 1) - 1))
  | capped (last : Nat) : Moved position (.capped last) (.capped (moved position (last + 1) - 1))
  | unread {last : Nat} (above : last < position) : Moved position (.capped last) (.capped last)

/-- A block reaches the lines that it reached before. -/
theorem End.Moved.reaches {before after : End} (ends : before.Moved position after) (index : Nat) :
    index ≤ before.last ↔ moved position index ≤ after.last := by
  cases ends with
  | closed last =>
    rw [End.last, End.last, ← Nat.not_lt, ← Nat.not_lt, Text.moved_lt_moved]
  | interrupted last | capped last =>
    have order := @Text.moved_lt_moved position index (last + 1)
    have further := Text.le_moved position (last + 1)
    rw [End.last, End.last]
    omega
  | @unread last above =>
    have order := @Text.moved_lt_moved position last index
    rw [Text.moved_of_lt above] at order
    rw [End.last, ← Nat.not_lt, ← Nat.not_lt, order]

variable {interruptible : Bool} {depth : Int} {index : Nat} {limit : UInt64}

/-- What the search for the end of a block does at a line: it passes over the line, or it ends there for good. -/
inductive Decision (interruptible : Bool) (depth : Int) (line : List Char) : Prop
  | passes (reached : Int) (goesOn : ∀ index rest, follow interruptible depth index (line :: rest) =
      follow interruptible reached (index + 1) rest)
  | interrupts (ends : ∀ index rest, follow interruptible depth index (line :: rest) = .interrupted (index - 1))
  | closes (ends : ∀ index rest, follow interruptible depth index (line :: rest) = .closed index)

theorem decision (interruptible : Bool) (depth : Int) (line : List Char) : Decision interruptible depth line := by
  by_cases blank : (Text.trim line).isEmpty = true
  · apply Decision.passes depth
    intro index rest
    rw [follow, if_pos blank]
  by_cases stops : (interruptible && (Header.read? (Text.trim line)).isSome) = true
  · apply Decision.interrupts
    intro index rest
    rw [follow, if_neg blank, if_pos stops]
  by_cases shut : depth + delta (Text.trim line) ≤ 0
  · apply Decision.closes
    intro index rest
    rw [follow, if_neg blank, if_neg stops]
    exact if_pos shut
  · apply Decision.passes (depth + delta (Text.trim line))
    intro index rest
    rw [follow, if_neg blank, if_neg stops]
    exact if_neg shut

/-- A search that stops before a line stops before it wherever the line is moved. -/
theorem End.Moved.before (position : Nat) (positive : 0 < index) :
    End.Moved position (.interrupted (index - 1)) (.interrupted (moved position index - 1)) ∧
      End.Moved position (.capped (index - 1)) (.capped (moved position index - 1)) := by
  have interrupted := @End.Moved.interrupted position (index - 1)
  have capped := @End.Moved.capped position (index - 1)
  rw [Nat.sub_add_cancel positive] at interrupted capped
  exact ⟨interrupted, capped⟩

/-- Behind the inserted line, the search goes on as it does one line further up. -/
theorem follow_behind (behind : position ≤ index) (positive : 0 < index) (lines : List (List Char)) :
    (follow interruptible depth index lines).Moved position (follow interruptible depth (index + 1) lines) := by
  induction lines generalizing depth index with
  | nil =>
    have capped := (End.Moved.before position positive).2
    rwa [Text.moved_of_le behind] at capped
  | cons line rest ih =>
    cases decision interruptible depth line with
    | passes reached goesOn =>
      rw [goesOn, goesOn]
      exact ih (Nat.le_succ_of_le behind) (Nat.succ_pos index)
    | interrupts ends =>
      rw [ends, ends]
      have interrupted := (End.Moved.before position positive).1
      rwa [Text.moved_of_le behind] at interrupted
    | closes ends =>
      rw [ends, ends, ← Text.moved_of_le behind]
      exact .closed index

theorem follow_insert {middle back : List (List Char)} (place : index + middle.length = position)
    (positive : 0 < index) :
    (follow interruptible depth index (middle ++ back)).Moved position
      (follow interruptible depth index (middle ++ [] :: back)) := by
  induction middle generalizing depth index with
  | nil =>
    -- The search passes over the empty line.
    change End.Moved position _ (follow interruptible depth (index + 1) back)
    exact follow_behind (Nat.le_of_eq place.symm) positive back
  | cons line middle ih =>
    rw [List.length_cons] at place
    have above : index < position := by omega
    rw [List.cons_append, List.cons_append]
    cases decision interruptible depth line with
    | passes reached goesOn =>
      rw [goesOn, goesOn]
      exact ih (by omega) (Nat.succ_pos index)
    | interrupts ends =>
      rw [ends, ends]
      have interrupted := (End.Moved.before position positive).1
      rwa [Text.moved_of_lt above] at interrupted
    | closes ends =>
      rw [ends, ends]
      have closed := @End.Moved.closed position index
      rwa [Text.moved_of_lt above] at closed

/-- The window stays the same one line further down, unless the line is the last from which the limit can be reached. -/
theorem window_succ (steady : index + 1 + limit.toNat ≠ Text.wordLimit) :
    Limits.window limit (index + 1) = Limits.window limit index := by
  by_cases fits : index + 1 + limit.toNat < Text.wordLimit
  · rw [Limits.window_eq fits, Limits.window_eq (by omega)]
  · rw [Limits.window_eq_zero (Nat.not_lt.mp fits), Limits.window_eq_zero (by omega)]

theorem findEnd_behind (behind : position ≤ index) (steady : index + 1 + limit.toNat ≠ Text.wordLimit)
    (line : List Char) (rest : List (List Char)) :
    (findEnd limit index line rest).Moved position (findEnd limit (index + 1) line rest) := by
  simp only [findEnd, window_succ steady]
  split
  · rw [← Text.moved_of_le behind]
    exact .closed index
  · exact follow_behind (Nat.le_succ_of_le behind) (Nat.succ_pos index) _

/-- Inserting an empty line into a block moves its end, if all lines are seen. -/
theorem findEnd_insert {middle back : List (List Char)} (place : index + 1 + middle.length = position)
    (short : (middle ++ back).length + 1 < limit.toNat) {line : List Char} (opens : 0 < delta (Text.trim line)) :
    (findEnd limit index line (middle ++ back)).Moved position
      (findEnd limit index line (middle ++ [] :: back)) := by
  by_cases fits : index + limit.toNat < Text.wordLimit
  · have window := Limits.window_eq fits
    have seen : (middle ++ back).take (limit.toNat - 1) = middle ++ back := List.take_of_length_le (by omega)
    have seenAfter : (middle ++ [] :: back).take (limit.toNat - 1) = middle ++ [] :: back := by
      apply List.take_of_length_le
      rw [List.length_append] at short ⊢
      rw [List.length_cons]
      omega
    simp only [findEnd, if_neg (Int.not_le.mpr opens), window, seen, seenAfter]
    exact follow_insert place (Nat.succ_pos index)
  · rw [findEnd_unread opens (Nat.not_lt.mp fits), findEnd_unread opens (Nat.not_lt.mp fits)]
    exact .unread (by omega)

end Block
end Ruby

def CallSite.moved (number : Nat) (call : CallSite) : CallSite := { call with line := Text.moved number call.line }

/-- A definition once a line is inserted, which gets the given number: it starts, reaches and calls as before, on lines
that have moved. -/
structure Definition.Moved (number : Nat) (before after : Definition) : Prop where
  name : after.name = before.name
  kind : after.kind = before.kind
  filePath : after.filePath = before.filePath
  visibility : after.visibility = before.visibility
  parameters : after.parameters = before.parameters
  startLine : after.startLine = Text.moved number before.startLine
  reaches : ∀ line, line ≤ before.endLine ↔ Text.moved number line ≤ after.endLine
  calls : after.calls = before.calls.map (CallSite.moved number)

/-- A diagnostic about a line, once another line is inserted. -/
inductive Diagnostic.Moved (number : Nat) : Diagnostic → Diagnostic → Prop
  | malformedConstruct (path : String) (line : Nat) (reason : String) :
    Moved number (.malformedConstruct path line reason) (.malformedConstruct path (Text.moved number line) reason)

namespace Ruby

open Blanking (Line)
open Text (moved)

variable {position : Nat}

/-- Two scopes that hold alike for all definitions from a line on. -/
structure Scope.Alike (position index : Nat) (before after : Scope) : Prop where
  visibility : after.visibility = before.visibility
  singleton : ∀ place, index ≤ place →
    after.singletonUntil.any (fun last => moved position place ≤ last) =
      before.singletonUntil.any fun last => place ≤ last

/-- A method once a line is inserted. -/
structure Found.Moved (position : Nat) (before after : Found) : Prop where
  definition : before.definition.Moved (position + 1) after.definition
  body : after.body = before.body
  blockEnd : before.blockEnd.Moved position after.blockEnd

inductive Finding.Moved (position : Nat) : Finding → Finding → Prop
  | method {before after : Found} (found : before.Moved position after) :
    Moved position (.method before) (.method after)
  | visibility (names : List (List Char)) (visibility : Visibility) :
    Moved position (.visibility names visibility) (.visibility names visibility)

variable {path : String} {limit : UInt64} {index : Nat} {before after : Scope}

/-- A scope on a line: what has ended before the line no longer holds. -/
def Scope.enter (scope : Scope) (index : Nat) (line : List Char) : Scope where
  visibility := visibilityAfter scope.visibility line
  singletonUntil := scope.singletonUntil.filter fun last => index ≤ last

theorem Scope.enter_any (scope : Scope) {place : Nat} (later : index ≤ place) (line : List Char) :
    (scope.enter index line).singletonUntil.any (fun last => place ≤ last) =
      scope.singletonUntil.any fun last => place ≤ last := by
  obtain ⟨visibility, extent⟩ := scope
  cases extent with
  | none => rfl
  | some last =>
    by_cases reached : index ≤ last
    · simp [Scope.enter, reached]
    · have ended : ¬ place ≤ last := by omega
      simp [Scope.enter, reached, ended]

theorem Scope.enter_isSome (scope : Scope) (index : Nat) (line : List Char) :
    (scope.enter index line).singletonUntil.isSome = scope.singletonUntil.any fun last => index ≤ last := by
  obtain ⟨visibility, extent⟩ := scope
  cases extent with
  | none => rfl
  | some last => by_cases reached : index ≤ last <;> simp [Scope.enter, reached]

theorem Scope.Alike.enter (alike : before.Alike position index after) (line : List Char) :
    (before.enter index line).Alike position (index + 1) (after.enter (moved position index) line) := by
  constructor
  · simp only [Scope.enter, alike.visibility]
  · intro place later
    have order : moved position index < moved position place := Text.moved_lt_moved.mpr later
    rw [before.enter_any (Nat.le_of_succ_le later), after.enter_any (Nat.le_of_lt order)]
    exact alike.singleton place (Nat.le_of_succ_le later)

theorem Scope.Alike.enter_nil (alike : before.Alike position index after) :
    before.Alike position index (after.enter index []) := by
  constructor
  · exact alike.visibility
  · intro place later
    rw [after.enter_any (Nat.le_trans later (Text.le_moved position place))]
    exact alike.singleton place later

/-- A block of methods on `self` that starts on a line. -/
theorem Scope.Alike.open (alike : before.Alike position index after) {ends endsAfter : Block.End}
    (reach : ends.Moved position endsAfter) :
    { before with singletonUntil := some ends.last : Scope }.Alike position index
      { after with singletonUntil := some endsAfter.last } := by
  constructor
  · exact alike.visibility
  · intro place later
    have same := reach.reaches place
    simp only [Option.any_some, same]

theorem methodAt_moved (alike : before.Alike position index after) {line : Line} {rest restAfter : List Line}
    (ends : (Block.findEnd limit index line.cleaned (rest.map (·.cleaned))).Moved position
      (Block.findEnd limit (moved position index) line.cleaned (restAfter.map (·.cleaned)))) (header : Header) :
    (methodAt path limit (before.enter index (Text.trim line.cleaned)) index line rest header).Moved position
      (methodAt path limit (after.enter (moved position index) (Text.trim line.cleaned)) (moved position index) line
        restAfter header) := by
  have entered := alike.enter (Text.trim line.cleaned)
  refine ⟨?_, rfl, ends⟩
  constructor
  · rfl
  · simp only [methodAt, Scope.enter_isSome]
    rw [alike.singleton index (Nat.le_refl index)]
  · rfl
  · simp only [methodAt, entered.visibility]
  · rfl
  · exact (Text.moved_succ position index).symm
  · intro line
    cases line with
    | zero => simp [moved]
    | succ line =>
      simp only [methodAt, Text.moved_succ, Nat.add_le_add_iff_right]
      exact ends.reaches line
  · rfl

/-- Whether a block is followed from a line on: the line opens one, and a method or methods on `self` start there. -/
def isFollowed (line : Line) : Bool :=
  let text := Text.trim line.cleaned
  decide (0 < Block.delta text) && ((visibilityList? text).isNone && startsSingleton text || (headerOn? text).isSome)

/-- The two readings stay in step on a line that both files have. -/
theorem findings_step (alike : before.Alike position index after) {line : Line} {rest restAfter : List Line}
    (followed : isFollowed line = true →
      (Block.findEnd limit index line.cleaned (rest.map (·.cleaned))).Moved position
        (Block.findEnd limit (moved position index) line.cleaned (restAfter.map (·.cleaned))))
    (later : ∀ {before after : Scope}, before.Alike position (index + 1) after →
      List.Forall₂ (Finding.Moved position) (findings path limit before (index + 1) rest)
        (findings path limit after (moved position index + 1) restAfter)) :
    List.Forall₂ (Finding.Moved position) (findings path limit before index (line :: rest))
      (findings path limit after (moved position index) (line :: restAfter)) := by
  have entered := alike.enter (Text.trim line.cleaned)
  -- A line that opens no block is closed on the spot, wherever it stands.
  have ends (starts : 0 < Block.delta (Text.trim line.cleaned) → isFollowed line = true) :
      (Block.findEnd limit index line.cleaned (rest.map (·.cleaned))).Moved position
        (Block.findEnd limit (moved position index) line.cleaned (restAfter.map (·.cleaned))) := by
    by_cases flat : Block.delta (Text.trim line.cleaned) ≤ 0
    · rw [Block.findEnd_flat flat, Block.findEnd_flat flat]
      exact .closed index
    · exact followed (starts (Int.not_le.mp flat))
  rw [findings, findings]
  cases unlisted : visibilityList? (Text.trim line.cleaned) with
  | some list => exact .cons (.visibility list.1 list.2) (later entered)
  | none =>
    by_cases singleton : startsSingleton (Text.trim line.cleaned) = true
    · simp only [if_pos singleton]
      exact later (entered.open (ends fun opens => by simp [isFollowed, opens, unlisted, singleton]))
    · simp only [if_neg singleton]
      cases read : Header.read? (Text.trim line.cleaned) with
      | none => exact later entered
      | some header =>
        by_cases reserved : isReserved (String.ofList header.name) = true
        · simp only [if_pos reserved]
          exact later entered
        · simp only [if_neg reserved]
          have moves := ends fun opens => by
            simp [isFollowed, headerOn?, opens, unlisted, singleton, read, reserved]
          exact .cons (.method (methodAt_moved alike moves header)) (later entered)

/-- No block is followed from the last line from which the limit can be reached. -/
def Steady (limit : UInt64) (index : Nat) (lines : List Line) : Prop :=
  ∀ offset line, lines[offset]? = some line → index + offset + 1 + limit.toNat = Text.wordLimit → isFollowed line = false

theorem findings_behind (behind : position ≤ index) (alike : before.Alike position index after) {lines : List Line}
    (steady : Steady limit index lines) :
    List.Forall₂ (Finding.Moved position) (findings path limit before index lines)
      (findings path limit after (index + 1) lines) := by
  induction lines generalizing index before after with
  | nil => exact .nil
  | cons line rest ih =>
    have place := Text.moved_of_le behind
    rw [← place]
    apply findings_step alike
    · intro followed
      rw [place]
      apply Block.findEnd_behind behind
      intro last
      rw [steady 0 line rfl last] at followed
      cases followed
    · intro before after alike
      rw [place]
      apply ih (Nat.le_succ_of_le behind) alike
      intro offset other present last
      exact steady (offset + 1) other present (by omega)

/-- Nothing is found on an empty line, and what is found on the lines around it is found again. -/
theorem findings_insert {middle back : List Line} (place : index + middle.length = position)
    (alike : before.Alike position index after) (short : (middle ++ back).length < limit.toNat)
    (steady : Steady limit position back) :
    List.Forall₂ (Finding.Moved position) (findings path limit before index (middle ++ back))
      (findings path limit after index (middle ++ ⟨[], []⟩ :: back)) := by
  induction middle generalizing index before after with
  | nil =>
    -- What ended on the line above the empty one no longer holds; behind the empty line that makes no difference.
    change List.Forall₂ _ (findings path limit before index back)
      (findings path limit (after.enter index []) (index + 1) back)
    rw [List.length_nil, Nat.add_zero] at place
    subst place
    exact findings_behind (Nat.le_refl index) alike.enter_nil steady
  | cons line middle ih =>
    rw [List.length_cons] at place
    have above : moved position index = index := Text.moved_of_lt (by omega)
    rw [List.cons_append, List.length_cons] at short
    rw [List.cons_append, List.cons_append]
    have step := @findings_step position path limit index before after alike line (middle ++ back)
      (middle ++ ⟨[], []⟩ :: back)
    rw [above] at step
    apply step
    · intro followed
      simp only [isFollowed, Bool.and_eq_true, decide_eq_true_eq] at followed
      rw [List.map_append, List.map_append]
      refine Block.findEnd_insert ?_ ?_ followed.1
      · rw [List.length_map]
        omega
      · rwa [← List.map_append, List.length_map]
    · intro before after alike
      exact ih (by omega) alike (by omega)

theorem requestedVisibilities_moved {before after : List Finding}
    (found : List.Forall₂ (Finding.Moved position) before after) :
    requestedVisibilities after = requestedVisibilities before := by
  induction found with
  | nil => rfl
  | cons same rest ih =>
    rw [requestedVisibilities, List.flatMap_cons, requestedVisibilities, List.flatMap_cons]
    cases same with
    | method found => exact ih
    | visibility names visibility => exact congrArg _ ih

theorem foundMethods_moved {before after : List Finding}
    (found : List.Forall₂ (Finding.Moved position) before after) :
    List.Forall₂ (Found.Moved position) (foundMethods before) (foundMethods after) := by
  refine List.rel_filterMap ?_ found
  intro before after same
  cases same with
  | method found => exact .some found
  | visibility names visibility => exact .none

theorem applyVisibilities_moved {number : Nat} {before after : Definition} (same : before.Moved number after)
    (requests : List (String × Visibility)) :
    (applyVisibilities requests before).Moved number (applyVisibilities requests after) := by
  unfold applyVisibilities
  induction requests generalizing before after with
  | nil => exact same
  | cons request rest ih =>
    rw [List.foldl_cons, List.foldl_cons]
    apply ih
    by_cases named : before.name = request.1
    · rw [if_pos named, if_pos (same.name.trans named)]
      exact { same with visibility := rfl }
    · rw [if_neg named, if_neg (same.name ▸ named)]
      exact same

theorem methodsOf_insert (path : String) {first second : List Line} (short : (first ++ second).length < limit.toNat)
    (steady : Steady limit first.length second) :
    List.Forall₂ (Found.Moved first.length) (methodsOf path limit (first ++ second))
      (methodsOf path limit (first ++ ⟨[], []⟩ :: second)) := by
  have start : ({} : Scope).Alike first.length 0 {} := by
    constructor
    · rfl
    · intro place later
      rfl
  have all := @findings_insert first.length path limit 0 {} {} first second (Nat.zero_add _) start short steady
  rw [methodsOf, methodsOf, requestedVisibilities_moved all]
  simp only [List.forall₂_map_left_iff, List.forall₂_map_right_iff]
  apply (foundMethods_moved all).imp
  intro before after same
  exact ⟨applyVisibilities_moved same.definition _, same.body, same.blockEnd⟩

theorem Found.Moved.diagnostic? {before after : Found} (same : before.Moved position after) :
    Option.Rel (Diagnostic.Moved (position + 1)) before.diagnostic? after.diagnostic? := by
  obtain ⟨definition, body, blockEnd⟩ := before
  obtain ⟨definitionAfter, bodyAfter, blockEndAfter⟩ := after
  obtain ⟨moves, sameBody, ends⟩ := same
  simp only at moves ends
  simp only [Found.diagnostic?, moves.name, moves.filePath, moves.startLine]
  cases ends with
  | closed last => exact .none
  | interrupted last => exact .some (.malformedConstruct _ _ _)
  | capped last => exact .some (.malformedConstruct _ _ _)
  | unread above => exact .some (.malformedConstruct _ _ _)

end Ruby

end CallAtlas

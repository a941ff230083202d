import CallAtlas.Proofs.ScanPasses

/-! Parts of a line. The scan takes each character of a line for a part of something: of code, of a string, of a
comment. Code and the marks around strings are written at their columns whatever is blanked, and a line is shown
shorter only where a comment that runs to its end is dropped. -/
namespace CallAtlas.Blanking

/-- What the scan takes a character of a line for. -/
inductive Part where
  | code
  /-- A quote that opens or closes a string. -/
  | delimiter
  /-- One of the two characters that open code in a string, or the brace that closes it. -/
  | interpolation
  /-- A backslash in a string, or the character that it escapes. -/
  | escape
  | text
  /-- One of the two characters that open or close a block comment. -/
  | commentMark
  | comment
  /-- The first character of a comment that runs to the end of the line. -/
  | lineComment
  /-- What follows that character. -/
  | remark
  deriving DecidableEq, Repr

/-- Parts that are shown whatever is blanked. -/
def Part.isKept : Part → Bool
  | code | delimiter | interpolation => true
  | _ => false

/-- The part that the scan reads next, by what it is in the middle of. -/
def State.part (language : Language) (state : State) (c : Char) (next : Option Char) : Part :=
  match state.mode with
  | .comment => if c == '*' && next == some '/' then .commentMark else .comment
  | .quoted quote =>
    if c == '\\' then .escape
    else if c == quote then .delimiter
    else if interpolates language quote && c == sigil language && next == some '{' then .interpolation
    else .text
  | .code =>
    if startsLineComment language c next then .lineComment
    else if opensComment language c next then .commentMark
    else if c == '}' && state.frames.head?.any (·.depth == 0) then .interpolation
    else if Text.isQuote c then .delimiter
    else .code

/-- The parts that the characters of a line are, in the states that the scan goes through. -/
def parts (language : Language) (style : Style) : State → List Char → List Part
  | _, [] => []
  | state, c :: rest =>
    match step language style state c rest.head? with
    | .one _ next => state.part language c rest.head? :: parts language style next rest
    | .two _ _ next =>
      match rest with
      | [] => [state.part language c none]
      | d :: rest =>
        state.part language c (some d) :: state.part language c (some d) :: parts language style next rest
    | .lineComment => state.part language c rest.head? :: rest.map fun _ => .remark

/-- A step keeps a character that is kept, and stops at the start of a comment that runs to the end of the line. -/
def Step.Respects (part : Part) (c : Char) (next : Option Char) : Step → Prop
  | .one written _ => part ≠ .lineComment ∧ (part.isKept = true → written = c)
  | .two first second _ => part ≠ .lineComment ∧ (part.isKept = true → first = c ∧ next = some second)
  | .lineComment => part = .lineComment

variable {language : Language} {style : Style} {state : State} {frames : List Frame} {c : Char} {next : Option Char}

theorem step_respects_comment :
    (step language style ⟨.comment, frames⟩ c next).Respects (State.part language ⟨.comment, frames⟩ c next) c next := by
  simp only [step, stepComment, State.part]
  split
  · split <;> exact ⟨by simp, by simp [Part.isKept]⟩
  · exact ⟨by simp, by simp [Part.isKept]⟩

theorem step_respects_quoted {quote : Char} :
    (step language style ⟨.quoted quote, frames⟩ c next).Respects (State.part language ⟨.quoted quote, frames⟩ c next) c
      next := by
  simp only [step, stepQuoted, State.part]
  split
  · split
    · split <;> exact ⟨by simp, by simp [Part.isKept]⟩
    · exact ⟨by simp, by simp [Part.isKept]⟩
  · split
    · exact ⟨by simp, fun _ => rfl⟩
    · split
      · rename_i opens
        have second : next = some '{' := beq_iff_eq.mp (Bool.and_eq_true_iff.mp opens).2
        exact ⟨by simp, fun _ => ⟨rfl, second⟩⟩
      · exact ⟨by simp, by simp [Part.isKept]⟩

theorem part_ne_lineComment (frames : List Frame) (code : startsLineComment language c next = false) :
    State.part language ⟨.code, frames⟩ c next ≠ .lineComment := by
  simp only [State.part, code, Bool.false_eq_true, if_false]
  split
  · simp
  · split
    · simp
    · split <;> simp

theorem step_respects_code :
    (step language style ⟨.code, frames⟩ c next).Respects (State.part language ⟨.code, frames⟩ c next) c next := by
  cases starts : startsLineComment language c next with
  | true =>
    rw [step_lineComment starts]
    simp [Step.Respects, State.part, starts]
  | false =>
    have other := part_ne_lineComment frames starts
    cases opens : opensComment language c next with
    | true =>
      have mark : State.part language ⟨.code, frames⟩ c next = .commentMark := by
        simp [State.part, starts, opens]
      obtain ⟨first, second, steps⟩ := @step_opensComment_two language style frames c next opens
      rw [steps]
      exact ⟨other, by simp [mark, Part.isKept]⟩
    | false =>
      obtain ⟨later, steps⟩ := @step_writes language style frames c next starts opens
      rw [steps]
      exact ⟨other, fun _ => rfl⟩

theorem step_respects (language : Language) (style : Style) (state : State) (c : Char) (next : Option Char) :
    (step language style state c next).Respects (state.part language c next) c next := by
  obtain ⟨mode, frames⟩ := state
  cases mode with
  | code => exact step_respects_code
  | quoted quote => exact step_respects_quoted
  | comment => exact step_respects_comment

/-- The parts of a line beside what is shown of it. -/
structure Aligned (style : Style) (source : List Char) (parts : List Part) (shown : List Char) : Prop where
  all : parts.length = source.length
  kept : ∀ (column : Nat) (part : Part), parts[column]? = some part → part.isKept = true →
    shown[column]? = source[column]?
  short : shown.length < source.length → style.dropComments = true ∧ parts[shown.length]? = some .lineComment
  stops : style.dropComments = true → ∀ column : Nat, parts[column]? = some .lineComment → shown.length = column

namespace Aligned

variable {source shown : List Char} {parts : List Part} {part : Part} {written : Char}

theorem nil : Aligned style [] [] [] := ⟨rfl, by simp, by simp, by simp⟩

theorem cons (other : part ≠ .lineComment) (keeps : part.isKept = true → written = c)
    (rest : Aligned style source parts shown) : Aligned style (c :: source) (part :: parts) (written :: shown) where
  all := congrArg Nat.succ rest.all
  kept := by
    intro column found here isKept
    cases column with
    | zero =>
      cases here
      exact congrArg some (keeps isKept)
    | succ column => exact rest.kept column found here isKept
  short := fun shorter => rest.short (Nat.lt_of_succ_lt_succ shorter)
  stops := by
    intro drops column here
    cases column with
    | zero =>
      cases here
      exact absurd rfl other
    | succ column => exact congrArg Nat.succ (rest.stops drops column here)

/-- A comment to the end of the line is shown whole or not at all. -/
theorem lineComment (c : Char) (rest : List Char) :
    Aligned style (c :: rest) (.lineComment :: rest.map fun _ => .remark)
      (if style.dropComments then [] else c :: rest) where
  all := by simp
  kept := by
    intro column part here isKept
    cases column with
    | zero =>
      cases here
      cases isKept
    | succ column =>
      obtain ⟨_, _, rfl⟩ := List.mem_map.mp (List.mem_of_getElem? here)
      cases isKept
  short := by
    intro shorter
    split at shorter
    · rename_i drops
      rw [if_pos drops]
      exact ⟨drops, rfl⟩
    · exact absurd shorter (Nat.lt_irrefl _)
  stops := by
    intro drops column here
    rw [if_pos drops]
    cases column with
    | zero => rfl
    | succ column =>
      obtain ⟨_, _, same⟩ := List.mem_map.mp (List.mem_of_getElem? here)
      cases same

end Aligned

theorem scan_aligned (source : List Char) :
    Aligned style source (parts language style state source) (scan language style state source).1 := by
  fun_induction scan language style state source with
  | case1 => exact .nil
  | case2 state c rest written next steps text last same ih =>
    have respects := step_respects language style state c rest.head?
    rw [steps] at respects
    rw [same] at ih
    rw [parts, steps]
    exact .cons respects.1 respects.2 ih
  | case3 state c first second next steps =>
    have respects := step_respects language style state c none
    rw [List.head?_nil] at steps
    rw [steps] at respects
    rw [parts, List.head?_nil, steps]
    exact .cons respects.1 (fun isKept => (respects.2 isKept).1) .nil
  | case4 state c first second next d rest text last same steps ih =>
    have respects := step_respects language style state c (some d)
    rw [List.head?_cons] at steps
    rw [steps] at respects
    rw [same] at ih
    rw [parts, List.head?_cons, steps]
    refine .cons respects.1 (fun isKept => (respects.2 isKept).1) (.cons respects.1 (fun isKept => ?_) ih)
    exact (Option.some.inj (respects.2 isKept).2).symm
  | case5 state c rest steps =>
    have respects := step_respects language style state c rest.head?
    rw [steps] at respects
    have first : state.part language c rest.head? = .lineComment := respects
    rw [parts, steps]
    simp only [first]
    exact .lineComment c rest

/-- Blanking keeps columns, from every state and whatever is blanked. At each column there is a blank or what the line
has there, and it is the latter where the line has code, a quote around a string or a mark around code in one. What is
shown is shorter than the line only if comments are dropped, and then it stops where one starts that runs to the end of
the line. -/
theorem scan_keeps_columns (language : Language) (style : Style) (state : State) (source : List Char) :
    let shown := (scan language style state source).1
    let parts := parts language style state source
    shown.length ≤ source.length ∧
      (∀ (column : Nat) (c : Char), shown[column]? = some c → c = ' ' ∨ source[column]? = some c) ∧
      parts.length = source.length ∧
      (∀ (column : Nat) (part : Part), parts[column]? = some part → part.isKept = true →
        shown[column]? = source[column]?) ∧
      (shown.length < source.length → style.dropComments = true ∧ parts[shown.length]? = some .lineComment) ∧
      (style.dropComments = true → ∀ column : Nat, parts[column]? = some .lineComment → shown.length = column) := by
  intro shown parts
  have aligned : Aligned style source parts shown := scan_aligned source
  exact ⟨length_scan_le source, scan_shadows source, aligned.all, aligned.kept, aligned.short, aligned.stops⟩

/-- Code in a template and a comment behind it. -/
theorem scan_keeps_columns_template :
    let source := "f(\x60a$\x7bb\x7d\x60) // c".toList
    let shown := (scan .javascript ⟨true, true⟩ {} source).1
    parts .javascript ⟨true, true⟩ {} source =
        [.code, .code, .delimiter, .text, .interpolation, .interpolation, .code, .interpolation, .delimiter, .code, .code,
          .lineComment, .remark, .remark, .remark] ∧
      shown[4]? = source[4]? ∧ shown.length = 11 := by
  intro source shown
  have known : parts .javascript ⟨true, true⟩ {} source =
      [.code, .code, .delimiter, .text, .interpolation, .interpolation, .code, .interpolation, .delimiter, .code, .code,
        .lineComment, .remark, .remark, .remark] := by decide +kernel
  obtain ⟨_, _, _, kept, _, stops⟩ := scan_keeps_columns .javascript ⟨true, true⟩ {} source
  rw [known] at kept stops
  exact ⟨known, kept 4 .interpolation rfl rfl, stops rfl 11 rfl⟩

end CallAtlas.Blanking

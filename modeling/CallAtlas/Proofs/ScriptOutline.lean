import CallAtlas.Proofs.LineStarts
import CallAtlas.Proofs.ScriptLines

/-! The outline of a structured script. A block is followed to the line that closes it, functions are found on the
lines of their headers, and no other line defines anything; so the outline is what the program says there is to
find, with the word of a condition taken for a call. -/
namespace CallAtlas.Script.Structured

open Outline
open Pattern (startsIdentifier continuesIdentifier)

/-- A text that starts no declaration, no import and no export. -/
structure Idle (text : List Char) : Prop where
  spaced : Unspaced text
  function : Text.after? "function" text = none
  imports : Pattern.startsImport text = false
  exports : startsExportList text = false

namespace Idle

variable {text : List Char} (idle : Idle text)
include idle

theorem statement {context : Context} {spot : Spot} (shown : spot.text = text) (raw : spot.rawLine context = text) :
    Outline.statement context spot = {} := by
  have records : record? context spot = none := record?_eq_none (by rw [raw]; exact idle.spaced)
    (by rw [raw]; exact idle.imports) (by rw [raw]; exact idle.exports)
  have function : Pattern.function? text = none := by
    rw [idle.spaced.function?, idle.function]
    rfl
  have declares : declaration context spot = {} := by
    unfold declaration
    simp only [shown, function, idle.spaced.containerHeader?, idle.spaced.boundName?]
  rw [statement_eq, records]
  exact declares

end Idle

/-- What starts with an identifier and reads as a word and a character reads on in the identifier, or ends with it. -/
theorem Identifier.reads_on (identifier : Identifier) {c d : Char} {word rest left : List Char}
    (stop : Text.isWord c = false) (chars : ∀ c ∈ word, Text.isWord c = true)
    (same : identifier.text ++ c :: rest = word ++ d :: left) : joinsIdentifier d = true ∨ d = c := by
  obtain ⟨more, split, follows⟩ := Text.append_eq_append_word same chars (by simp [Text.atWordEnd, stop])
  cases more with
  | nil => exact .inr (List.cons.inj follows).1
  | cons e more =>
    obtain ⟨rfl, _⟩ := List.cons.inj follows
    exact .inl (identifier.chars d (by simp [split]))

/-- An identifier of an expression ends at a bracket or at the semicolon. -/
theorem stop_cases {c : Char} (stop : c ∈ ['(', ';']) :
    Text.isWord c = false ∧ Text.isBlank c = false ∧ c ∉ ['{', '*', '\'', '"', ' '] := by
  have marks : ∀ c ∈ ['(', ';'], Text.isWord c = false ∧ Text.isBlank c = false ∧ c ∉ ['{', '*', '\'', '"', ' '] := by
    decide
  exact marks c stop

section
variable (identifier : Identifier) {c : Char} (stop : c ∈ ['(', ';']) (rest : List Char)
include stop

theorem Identifier.unspaced : Unspaced (identifier.text ++ c :: rest) := by
  intro word opener
  obtain ⟨other, visible, _⟩ := stop_cases stop
  have chars : ∀ word ∈ openers, ∀ c ∈ word.toList, Text.isWord c = true := by decide
  cases found : Text.afterSpacedWord? word (identifier.text ++ c :: rest) with
  | none => rfl
  | some left =>
    obtain ⟨middle, reads, blank⟩ := Option.bind_eq_some_iff.mp found
    have same := Text.after?_eq_some.mp reads
    unfold Text.afterBlank? at blank
    split at blank
    · cases blank
    · split at blank
      · rename_i isBlank
        rcases identifier.reads_on other (chars word opener) same with joins | rfl
        · rw [isBlank_of_joins joins] at isBlank
          cases isBlank
        · rw [visible] at isBlank
          cases isBlank
      · cases blank

theorem Identifier.after?_function : Text.after? "function" (identifier.text ++ c :: rest) = none := by
  obtain ⟨other, _⟩ := stop_cases stop
  cases found : Text.after? "function" (identifier.text ++ c :: rest) with
  | none => rfl
  | some left =>
    obtain ⟨more, split, _⟩ := Text.append_eq_append_word (Text.after?_eq_some.mp found) (by decide)
      (by simp [Text.atWordEnd, other])
    have free := identifier.other
    rw [Text.startsWith, split, Text.after?_append] at free
    cases free

theorem Identifier.startsImport_eq_false : Pattern.startsImport (identifier.text ++ c :: rest) = false := by
  obtain ⟨other, visible, plain⟩ := stop_cases stop
  unfold Pattern.startsImport
  split
  · rename_i d left found
    rcases identifier.reads_on other (by decide) (Text.after?_eq_some.mp found) with joins | rfl
    · have others : ∀ mark ∈ ['{', '*', '\'', '"'], joinsIdentifier mark = false := by decide
      simp only [Bool.or_eq_false_iff, decide_eq_false_iff_not]
      exact ⟨isBlank_of_joins joins, fun listed => ne_of_joins joins (others d listed) rfl⟩
    · simp only [Bool.or_eq_false_iff, decide_eq_false_iff_not]
      simp only [List.mem_cons, List.not_mem_nil, or_false] at plain ⊢
      tauto
  · rfl

/-- What starts with an identifier does not start with `export` and a mark behind it. -/
theorem Identifier.startsWith_export (start : String) {d : Char} {more : List Char}
    (split : start.toList = "export".toList ++ d :: more) (mark : d ∈ [' ', '{']) :
    Text.startsWith start (identifier.text ++ c :: rest) = false := by
  obtain ⟨other, _, plain⟩ := stop_cases stop
  rw [Text.startsWith]
  cases found : Text.after? start (identifier.text ++ c :: rest) with
  | none => rfl
  | some left =>
    have same := Text.after?_eq_some.mp found
    rw [split, List.append_assoc, List.cons_append] at same
    have marks : ∀ d ∈ [' ', '{'], joinsIdentifier d = false := by decide
    rcases identifier.reads_on other (by decide) same with joins | rfl
    · exact absurd rfl (ne_of_joins joins (marks d mark))
    · simp only [List.mem_cons, List.not_mem_nil, or_false] at mark plain
      tauto

theorem Idle.of_identifier : Idle (identifier.text ++ c :: rest) where
  spaced := identifier.unspaced stop rest
  function := identifier.after?_function stop rest
  imports := identifier.startsImport_eq_false stop rest
  exports := by
    have exported := @Identifier.startsWith_export identifier c stop rest
    simp [startsExportList, exported "export *" rfl (by decide), exported "export\x7b" rfl (by decide),
      exported "export \x7b" rfl (by decide), exported "export type \x7b" rfl (by decide)]

end

theorem Idle.of_expression (expression : Expression) : Idle (expression.text ++ [';']) := by
  cases expression with
  | name identifier =>
    rw [Expression.text]
    exact .of_identifier identifier (by decide) []
  | call callee arguments =>
    rw [Expression.text, List.append_assoc]
    exact .of_identifier callee (by decide) _

theorem Idle.of_all {text : List Char}
    (spaced : (openers.all fun word => (Text.afterSpacedWord? word text).isNone) = true)
    (function : Text.after? "function" text = none) (imports : Pattern.startsImport text = false)
    (exports : startsExportList text = false) : Idle text := by
  refine ⟨?_, function, imports, exports⟩
  intro word opener
  exact Option.isNone_iff_eq_none.mp (List.all_eq_true.mp spaced word opener)

theorem Idle.of_condition (condition : Expression) : Idle (Header.branch condition).text := .of_all rfl rfl rfl rfl

theorem Idle.of_closing (header : Header) : Idle header.closing := by
  have brace (rest : List Char) : Idle ('}' :: rest) := .of_all rfl rfl rfl rfl
  cases header with
  | function name parameters => exact brace []
  | arrow name parameters => exact brace [';']
  | branch condition => exact brace []

theorem continues_eq_false {lines : List (List Char)} (isLine : ∀ line ∈ lines, IsLine line) :
    Outline.continues lines = false := by
  cases lines with
  | nil => rfl
  | cons line rest =>
    obtain ⟨indent, text, rfl, statement⟩ := isLine line List.mem_cons_self
    obtain ⟨c, more, rfl, starts⟩ := statement.first
    have marks : ∀ starter ∈ starters,
        starter.toList.head?.any (fun first => !startsIdentifier first && first != '}') = true := by
      decide
    have none : (starters.any fun starter => Text.startsWith starter (c :: more)) = false := by
      apply List.any_eq_false.mpr
      intro starter listed
      obtain ⟨first, leads, other⟩ := (Option.any_eq_true _ _).mp (marks starter listed)
      obtain ⟨tail, same⟩ := List.head?_eq_some_iff.mp leads
      have differs : first ≠ c := by
        rintro rfl
        rcases starts with starts | rfl
        · simp [starts] at other
        · simp at other
      simp [Text.startsWith, Text.after?, same, Text.afterChars?, differs]
    simp [Outline.continues, statement.trim_line indent, none]

/-- A line inside a block is passed. -/
theorem statementEnd?_inside {first : Bool} {depth : Int} {index : Nat} {line : List Char} {rest : List (List Char)}
    (inside : 0 < depth + Bracket.delta line) :
    statementEnd? first depth index (line :: rest) =
      statementEnd? false (depth + Bracket.delta line) (index + 1) rest := by
  rw [statementEnd?, if_neg (by omega), if_pos inside]

/-- The lines of a whole program inside a block are passed. -/
theorem statementEnd?_program (program : Program) {depth : Int} (inside : 0 < depth) (index : Nat)
    (rest : List (List Char)) :
    statementEnd? false depth index (program.lines ++ rest) =
      statementEnd? false depth (index + program.lines.length) rest := by
  induction program generalizing depth index rest with
  | done => rfl
  | evaluate indent value program ih =>
    have flat := value.delta_line indent
    rw [Program.lines, List.cons_append, statementEnd?_inside (by omega), flat, Int.add_zero, ih inside,
      List.length_cons, Nat.add_right_comm, Nat.add_assoc]
  | block indent header body closing program inner later =>
    have opens := header.delta_line indent
    have closes := header.delta_closingLine closing
    have length : index + (Program.block indent header body closing program).lines.length =
        index + 1 + body.lines.length + 1 + program.lines.length := by
      simp only [Program.lines, List.length_cons, List.length_append]
      omega
    rw [length, Program.lines, List.cons_append, List.append_assoc, List.cons_append,
      statementEnd?_inside (by omega), opens, inner (by omega), statementEnd?_inside (by omega), closes,
      Int.add_neg_cancel_right, later inside]

/-- A block ends where it is closed. -/
theorem statementEnd?_block (index : Nat) (indent : Indent) (header : Header) (body : Program) (closing : Indent)
    {rest : List (List Char)} (isLine : ∀ line ∈ rest, IsLine line) :
    statementEnd? true 0 index
        ((indent.blanks ++ header.text) :: (body.lines ++ (closing.blanks ++ header.closing) :: rest)) =
      some (index + body.lines.length + 1) := by
  have opens := header.delta_line indent
  have closes := header.delta_closingLine closing
  have statement := header.isStatement_closing
  have filled : (Text.trim (closing.blanks ++ header.closing)).isEmpty = false := by
    rw [statement.trim_line closing]
    exact List.isEmpty_eq_false_iff.mpr statement.filled
  have ended : (enders.any fun ender => Text.endsWith ender (closing.blanks ++ header.closing)) = false := by
    cases header <;> simp [Header.closing, enders, Text.endsWith, Text.afterChars?]
  rw [statementEnd?_inside (by omega), opens, statementEnd?_program body (by omega), statementEnd?, closes, filled,
    statement.trimEnd_line closing, ended, continues_eq_false isLine]
  simp
  omega

/-- How the lines of a file are read. -/
def contextOf (file : SourceFile) (limit : UInt64) : Context := ⟨file.path, file.language, limit⟩

/-- A spot in a script whose lines are read as they stand. -/
def spotAt (index : Nat) (depth : Int) (lines : List (List Char)) : Spot := ⟨index, depth, lines.map asRead⟩

section Spots

variable {file : SourceFile} {limit : UInt64} {index : Nat} {depth : Int} {text : List Char} {rest : List (List Char)}

theorem text_spotAt (statement : IsStatement text) (indent : Indent) :
    (spotAt index depth ((indent.blanks ++ text) :: rest)).text = text := statement.trim_line indent

theorem rawLine_spotAt (script : file.language.isRubyLike = false) (statement : IsStatement text) (indent : Indent) :
    (spotAt index depth ((indent.blanks ++ text) :: rest)).rawLine (contextOf file limit) = text := by
  have start := statement.trimStart_line indent []
  rw [List.append_nil] at start
  have kept : Blanking.stripComments file.language (indent.blanks ++ text) = indent.blanks ++ text :=
    stripComments_line script ⟨indent, text, rfl, statement⟩
  exact (congrArg Text.trimStart kept).trans start

/-- A line that starts no declaration defines nothing. -/
theorem finding_idle (script : file.language.isRubyLike = false) (statement : IsStatement text) (idle : Idle text)
    (indent : Indent) :
    finding (contextOf file limit) [] (spotAt index depth ((indent.blanks ++ text) :: rest)) = {} := by
  rw [finding, idle.statement (text_spotAt statement indent) (rawLine_spotAt script statement indent)]
  split <;> rfl

theorem joinLines_cons (front text : List Char) (lines : List (List Char)) :
    Text.joinLines ((front ++ text) :: lines) = front ++ Text.joinLines (text :: lines) := by
  cases lines <;> simp [Text.joinLines, List.intercalate, List.intersperse]

/-- The text of a block goes on from the text of its header. -/
theorem exists_blockText (header : Header) (body : Program) (closing : Indent) :
    ∃ tail, Program.blockText header body closing = header.text ++ tail := by
  have whole := joinLines_cons header.text [] (body.lines ++ [closing.blanks ++ header.closing])
  rw [List.append_nil] at whole
  exact ⟨_, whole⟩

variable (indent : Indent) (header : Header) (body : Program) (closing : Indent)

/-- The lines of a block. -/
def blockLines : List (List Char) :=
  (indent.blanks ++ header.text) :: (body.lines ++ [closing.blanks ++ header.closing])

theorem isLine_blockLines : ∀ line ∈ blockLines indent header body closing, IsLine line := by
  rw [blockLines, List.forall_mem_cons, List.forall_mem_append]
  refine ⟨⟨indent, _, rfl, header.isStatement_text⟩, body.isLine, ?_⟩
  simp only [List.forall_mem_singleton]
  exact ⟨closing, _, rfl, header.isStatement_closing⟩

/-- How far the statement of a block is followed that starts at an index: to its end, but no further than its header
if the limit is out of reach. -/
def Header.reach (limit : UInt64) (index : Nat) : Nat :=
  if Limits.overruns limit (index + 1) then index else index + body.lines.length + 1

/-- The text up to there. -/
def Header.reached (limit : UInt64) (index : Nat) : List Char :=
  if Limits.overruns limit (index + 1) then header.text else Program.blockText header body closing

theorem extent_spotAt (isLine : ∀ line ∈ rest, IsLine line)
    (short : (blockLines indent header body closing ++ rest).length ≤ limit.toNat) :
    (spotAt index depth (blockLines indent header body closing ++ rest)).extent (contextOf file limit) =
      ⟨Header.reach body limit index, !Limits.overruns limit (index + 1)⟩ := by
  simp only [Spot.extent, spotAt, contextOf, Outline.extent, Header.reach]
  cases reach : Limits.overruns limit (index + 1) with
  | false =>
    have window : (((blockLines indent header body closing ++ rest).map asRead).take limit.toNat).map (·.cleaned) =
        (indent.blanks ++ header.text) :: (body.lines ++ (closing.blanks ++ header.closing) :: rest) := by
      rw [List.take_of_length_le (by simpa using short), List.map_map]
      simp [blockLines, asRead, Function.comp_def]
    rw [Limits.window_eq (Limits.fits_of_overruns reach), window]
    simp only [statementEnd?_block index indent header body closing isLine]
    rfl
  | true =>
    rw [Limits.window_eq_zero (Limits.wraps_of_overruns reach), List.take_zero]
    simp [statementEnd?]

theorem trimStart_blockLines :
    Text.trimStart (Text.joinLines (blockLines indent header body closing)) =
      Program.blockText header body closing := by
  obtain ⟨tail, same⟩ := exists_blockText header body closing
  have whole : Text.joinLines (blockLines indent header body closing) =
      indent.blanks ++ Program.blockText header body closing := joinLines_cons indent.blanks header.text _
  rw [whole, same, header.isStatement_text.trimStart_line indent tail]

/-- What is left of the lines as far as a block is followed, in whatever way they are kept as they stand. -/
theorem statement_spotAt {read : Blanking.Line → List Char}
    (kept : ∀ line ∈ blockLines indent header body closing, read (asRead line) = line) :
    Text.trimStart (Text.joinLines (((spotAt index depth (blockLines indent header body closing ++ rest)).through
      (Header.reach body limit index)).map read)) = Header.reached header body closing limit index := by
  rw [Spot.through, spotAt, Header.reach, Header.reached, List.map_append]
  split
  · have first := kept _ List.mem_cons_self
    have taken : index + 1 - index = 1 := by omega
    have start := header.isStatement_text.trimStart_line indent []
    rw [List.append_nil] at start
    rw [taken]
    simp only [blockLines, List.map_cons, List.cons_append, List.take_succ_cons, List.take_zero, List.map_nil, first]
    simpa [Text.joinLines] using start
  · have length : index + body.lines.length + 1 + 1 - index =
        ((blockLines indent header body closing).map asRead).length := by
      simp [blockLines]
      omega
    rw [length, List.take_left, List.map_map, ← trimStart_blockLines indent]
    exact congrArg (Text.trimStart <| Text.joinLines ·) ((List.map_congr_left kept).trans (List.map_id _))

theorem cleanedStatement_spotAt :
    (spotAt index depth (blockLines indent header body closing ++ rest)).cleanedStatement
      (Header.reach body limit index) = Header.reached header body closing limit index :=
  statement_spotAt indent header body closing fun _ _ => rfl

theorem rawStatement_spotAt (script : file.language.isRubyLike = false) :
    (spotAt index depth (blockLines indent header body closing ++ rest)).rawStatement (contextOf file limit)
      (Header.reach body limit index) = Header.reached header body closing limit index :=
  statement_spotAt indent header body closing fun line member =>
    stripComments_line script (isLine_blockLines indent header body closing line member)

/-- However far a block is followed, its text goes on from that of its header. -/
theorem Header.exists_reached : ∃ tail, Header.reached header body closing limit index = header.text ++ tail := by
  rw [Header.reached]
  split
  · exact ⟨[], (List.append_nil _).symm⟩
  · exact exists_blockText header body closing

end Spots

theorem Identifier.identifier?_append (identifier : Identifier) {c : Char} (stop : continuesIdentifier c = false)
    (rest : List Char) : Pattern.identifier? (identifier.text ++ c :: rest) = some (identifier.text, c :: rest) := by
  obtain ⟨first, more, same, starts⟩ := identifier.exists_cons
  have inside : ∀ c ∈ more, continuesIdentifier c = true := by
    intro c member
    exact identifier.continues c (by simp [same, member])
  rw [same, List.cons_append, Pattern.identifier?, if_pos starts, List.takeWhile_append_of_pos inside,
    List.dropWhile_append_of_pos inside]
  simp [stop]

theorem Identifier.trimStart_append (identifier : Identifier) (rest : List Char) :
    Text.trimStart (identifier.text ++ rest) = identifier.text ++ rest := by
  obtain ⟨first, more, same, starts⟩ := identifier.exists_cons
  have visible := isBlank_of_joins (joins_of_starts starts)
  rw [same, List.cons_append, Text.trimStart, List.dropWhile_cons, if_neg (by simp [visible])]

theorem Identifier.piece (identifier : Identifier) : Parameters.Piece identifier.text :=
  .identifier identifier.toIdentifier (fun c member => isBlank_of_joins (identifier.chars c member)) (by decide)

namespace Header

/-- Parameters in brackets are read as they are listed. -/
theorem enclosed?_bracketed (parameters : List Identifier) (rest : List Char) :
    Bracket.enclosed? (bracketed parameters ++ rest) =
      some (Parameters.listed (parameters.map (·.text)), rest) := by
  have plain : ∀ c ∈ Parameters.listed (parameters.map (·.text)), c ≠ '(' ∧ c ≠ ')' := by
    intro c member
    rcases Parameters.mem_listed member with ⟨text, listed, inside⟩ | mark
    · obtain ⟨parameter, _, rfl⟩ := List.mem_map.mp listed
      have joins := parameter.chars c inside
      exact ⟨ne_of_joins joins (by decide), ne_of_joins joins (by decide)⟩
    · have marks : ∀ c ∈ [',', ' '], c ≠ '(' ∧ c ≠ ')' := by decide
      exact marks c mark
  rw [bracketed, List.cons_append, List.append_assoc]
  exact Bracket.close?_append (by decide) plain rest

theorem parse_parameters (language : Language) (parameters : List Identifier) :
    Parameters.parse language (Parameters.listed (parameters.map (·.text))) =
      (parameters.map (·.text)).filterMap (Parameters.classify? language) := by
  have pieces : ∀ text ∈ parameters.map (·.text), Parameters.Piece text := by
    simp only [List.forall_mem_map]
    exact fun parameter _ => parameter.piece
  rw [Parameters.parse, Parameters.split_listed pieces]

/-- A function is read up to its name. -/
theorem function?_text (name : Identifier) (parameters : List Identifier) (tail : List Char) :
    Pattern.function? ((function name parameters).text ++ tail) =
      some (name.text, bracketed parameters ++ ([' ', '{'] ++ tail)) := by
  have shape : (function name parameters).text ++ tail =
      functionWord ++ (name.text ++ (bracketed parameters ++ ([' ', '{'] ++ tail))) := by simp [text]
  generalize left : bracketed parameters ++ ([' ', '{'] ++ tail) = rest at shape ⊢
  have reads : Pattern.function? (functionWord ++ (name.text ++ rest)) =
      Pattern.identifier? (Text.trimStart (Pattern.skipMark '*' (Text.trimStart (name.text ++ rest)))) := rfl
  have unmarked : Pattern.skipMark '*' (name.text ++ rest) = name.text ++ rest := by
    obtain ⟨first, more, same, starts⟩ := name.exists_cons
    have other : first ≠ '*' := ne_of_joins (joins_of_starts starts) (by decide)
    simp [Pattern.skipMark, Pattern.mark?, same, other]
  rw [shape, reads, name.trimStart_append, unmarked, name.trimStart_append, ← left]
  exact name.identifier?_append (by decide) _

/-- A variable is read up to its value. -/
theorem boundName?_text (name : Identifier) (parameters : List Identifier) (tail : List Char) :
    Pattern.boundName? ((arrow name parameters).text ++ tail) =
      some (name.text, bracketed parameters ++ ([' ', '=', '>', ' ', '{'] ++ tail)) := by
  have shape : (arrow name parameters).text ++ tail = constantWord ++ (name.text ++ ([' ', '=', ' '] ++
      (bracketed parameters ++ ([' ', '=', '>', ' ', '{'] ++ tail)))) := by simp [text]
  generalize left : bracketed parameters ++ ([' ', '=', '>', ' ', '{'] ++ tail) = rest at shape ⊢
  have reads : Pattern.boundName? (constantWord ++ (name.text ++ ([' ', '=', ' '] ++ rest))) =
      (Pattern.identifier? (Text.trimStart (name.text ++ ([' ', '=', ' '] ++ rest)))).bind fun found =>
        (Pattern.initializer? found.2).bind fun value => some (found.1, value) := rfl
  have starts : Pattern.initializer? ([' ', '=', ' '] ++ rest) = some rest := by
    rw [← left]
    rfl
  rw [shape, reads, name.trimStart_append]
  have named : Pattern.identifier? (name.text ++ ([' ', '=', ' '] ++ rest)) =
      some (name.text, [' ', '=', ' '] ++ rest) := name.identifier?_append (by decide) _
  rw [named, Option.bind_some, starts, Option.bind_some]

/-- The name of a variable is not taken for the word of an enumeration. -/
theorem enumeration?_text (name : Identifier) (rest : List Char) :
    Text.afterSpacedWord? "enum" (name.text ++ ' ' :: rest) = none := by
  cases found : Text.afterSpacedWord? "enum" (name.text ++ ' ' :: rest) with
  | none => rfl
  | some left =>
    obtain ⟨middle, reads, blank⟩ := Option.bind_eq_some_iff.mp found
    obtain ⟨more, split, follows⟩ := Text.append_eq_append_word (Text.after?_eq_some.mp reads) (by decide) rfl
    cases more with
    | nil =>
      have free := name.free
      rw [split, List.append_nil] at free
      exact absurd free (by decide)
    | cons d more =>
      have visible := isBlank_of_joins (name.chars d (by simp [split]))
      rw [follows, List.cons_append, Text.afterBlank?, visible] at blank
      cases blank

theorem containerHeader?_arrow (name : Identifier) (parameters : List Identifier) :
    containerHeader? (arrow name parameters).text = none := by
  have enumeration : Pattern.enumeration? (arrow name parameters).text = none := by
    have reads : Pattern.enumeration? (arrow name parameters).text =
        (Text.afterSpacedWord? "enum" (Text.trimStart (name.text ++ ([' ', '=', ' '] ++
          (bracketed parameters ++ [' ', '=', '>', ' ', '{']))))).bind Pattern.identifier? := rfl
    rw [reads, name.trimStart_append, List.cons_append, enumeration?_text]
    rfl
  rw [containerHeader?, enumeration]
  rfl

theorem require?_arrow (name : Identifier) (parameters : List Identifier) :
    Pattern.require? (arrow name parameters).text = none := by
  have target : Pattern.requireTarget? (name.text ++ ([' ', '=', ' '] ++
      (bracketed parameters ++ [' ', '=', '>', ' ', '{']))) = some (name.text, [' ', '=', ' '] ++
      (bracketed parameters ++ [' ', '=', '>', ' ', '{'])) := by
    unfold Pattern.requireTarget?
    split
    · rename_i opened
      obtain ⟨first, more, same, starts⟩ := name.exists_cons
      rw [same] at opened
      exact absurd (List.cons.inj opened).1 (ne_of_joins (joins_of_starts starts) (by decide))
    · exact name.identifier?_append (by decide) _
  have reads : Pattern.require? (arrow name parameters).text =
      (Pattern.requireTarget? (Text.trimStart (name.text ++ ([' ', '=', ' '] ++
        (bracketed parameters ++ [' ', '=', '>', ' ', '{']))))).bind fun found =>
      (Pattern.mark? '=' (Text.trimStart found.2)).bind fun rest =>
      (Text.after? "require" (Text.trimStart rest)).bind fun rest =>
      (Pattern.mark? '(' (Text.trimStart rest)).bind fun rest =>
      (Pattern.quoted? (Text.trimStart rest)).bind fun quoted => some (found.1, quoted.1) := rfl
  rw [reads, name.trimStart_append, target]
  rfl

theorem inBrackets?_bracketed (parameters : List Identifier) (rest : List Char) :
    Pattern.inBrackets? (bracketed parameters ++ rest) =
      some (Parameters.listed (parameters.map (·.text))) := by
  have start : (bracketed parameters ++ rest).dropWhile (· != '(') = bracketed parameters ++ rest := rfl
  rw [Pattern.inBrackets?, start, enclosed?_bracketed]
  rfl

theorem boundFunction?_bracketed (parameters : List Identifier) (tail : List Char) :
    Pattern.boundFunction? (bracketed parameters ++ ([' ', '=', '>', ' ', '{'] ++ tail)) =
      some (Parameters.listed (parameters.map (·.text))) := by
  have arrow : Pattern.arrowParameters? (bracketed parameters ++ ([' ', '=', '>', ' ', '{'] ++ tail)) =
      some (Parameters.listed (parameters.map (·.text))) := by
    have reads : Pattern.arrowParameters? (bracketed parameters ++ ([' ', '=', '>', ' ', '{'] ++ tail)) =
        (Bracket.enclosed? (bracketed parameters ++ ([' ', '=', '>', ' ', '{'] ++ tail))).bind fun found =>
          if Text.startsWith "=>" (Text.trimStart found.2) || (Text.startsWith ":" (Text.trimStart found.2) &&
            Text.contains "=>" (Text.trimStart found.2)) then some found.1 else none := rfl
    rw [reads, enclosed?_bracketed]
    rfl
  have reads : Pattern.functionExpression? (bracketed parameters ++ ([' ', '=', '>', ' ', '{'] ++ tail)) =
      Pattern.arrowParameters? (bracketed parameters ++ ([' ', '=', '>', ' ', '{'] ++ tail)) := rfl
  rw [Pattern.boundFunction?, reads, arrow]
  rfl

/-- The names that the line of a header defines in front of a parameter list. -/
def defined : Header → List String
  | function name _ => [String.ofList name.text]
  | arrow _ _ | branch _ => []

end Header

/-- What is said of a block that is not followed to its end. -/
def Header.unclosed (file : SourceFile) (limit : UInt64) (line : Nat) : Header → List Diagnostic
  | function name _ | arrow name _ =>
    if Limits.overruns limit line then
      [.malformedConstruct file.path line
        ("`" ++ String.ofList name.text ++ "` not closed within " ++ toString limit ++ " lines")]
    else []
  | branch _ => []

/-- The lines of a program as their outline shows them. -/
def Program.outlined (file : SourceFile) (limit : UInt64) (index : Nat) : Program → Scan
  | done => {}
  | evaluate _ value rest =>
    { candidates := named (index + 1) value.calls : Scan } ++ rest.outlined file limit (index + 1)
  | block _ header body closing rest =>
    { definitions := (header.definition? file (header.reached body closing limit index) (index + 1)
        (Header.reach body limit index + 1)).toList
      candidates := named (index + 1) (header.calls [['i', 'f']])
      diagnostics := header.unclosed file limit (index + 1) : Scan } ++
        (body.outlined file limit (index + 1) ++ rest.outlined file limit (index + body.lines.length + 2))

/-- What a block contributes on the line of its header. -/
structure Contributes (file : SourceFile) (limit : UInt64) (index : Nat) (header : Header) (body : Program)
    (closing : Indent) (finding : Finding) : Prop where
  definitions : finding.definitions.map Definition.eraseCode =
    (header.definition? file (header.reached body closing limit index) (index + 1)
      (Header.reach body limit index + 1)).toList
  headers : finding.headers = header.defined
  diagnostics : finding.diagnostics = header.unclosed file limit (index + 1)
  container : finding.container = none

section Contributions

variable {file : SourceFile} {limit : UInt64} (index : Nat) (depth : Int) {rest : List (List Char)}
  (script : file.language.isRubyLike = false) (isLine : ∀ line ∈ rest, IsLine line)
  (indent : Indent) (name : Identifier) (parameters : List Identifier) (body : Program) (closing : Indent)

theorem unclosed_spotAt (lines : List (List Char)) (last : Nat) :
    (spotAt index depth lines).unclosed (contextOf file limit) ⟨last, !Limits.overruns limit (index + 1)⟩ name.text =
      Header.unclosed file limit (index + 1) (.function name parameters) := by
  rw [Spot.unclosed, Header.unclosed]
  cases Limits.overruns limit (index + 1) <;> rfl

include script isLine in
theorem functionDeclaration_contributes
    (short : (blockLines indent (.function name parameters) body closing ++ rest).length ≤ limit.toNat) :
    Contributes file limit index (.function name parameters) body closing
      (functionDeclaration (contextOf file limit)
        (spotAt index depth (blockLines indent (.function name parameters) body closing ++ rest)) name.text) := by
  obtain ⟨tail, whole⟩ : ∃ tail, Header.reached (.function name parameters) body closing limit index = _ ++ tail :=
    Header.exists_reached _ body closing
  have listed :
      (spotAt index depth (blockLines indent (.function name parameters) body closing ++ rest)).parametersAfter
        (contextOf file limit) (fun text => (Pattern.function? text).map (·.2)) (Header.reach body limit index) =
          (parameters.map (·.text)).filterMap (Parameters.classify? file.language) := by
    simp only [Spot.parametersAfter, rawStatement_spotAt _ _ _ _ script, whole, Header.function?_text, Option.map_some,
      Option.bind_some, Header.inBrackets?_bracketed, Option.some_or]
    exact Header.parse_parameters file.language parameters
  refine ⟨?_, rfl, ?_, rfl⟩
  · simp only [functionDeclaration, extent_spotAt indent _ body closing isLine short, cleanedStatement_spotAt, listed]
    rfl
  · simp only [functionDeclaration, extent_spotAt indent _ body closing isLine short]
    exact unclosed_spotAt index depth name parameters _ _

include script isLine in
theorem variableDeclaration_contributes
    (short : (blockLines indent (.arrow name parameters) body closing ++ rest).length ≤ limit.toNat) :
    Contributes file limit index (.arrow name parameters) body closing
      (variableDeclaration (contextOf file limit)
        (spotAt index depth (blockLines indent (.arrow name parameters) body closing ++ rest)) name.text) := by
  obtain ⟨tail, whole⟩ : ∃ tail, Header.reached (.arrow name parameters) body closing limit index = _ ++ tail :=
    Header.exists_reached _ body closing
  have listed : (spotAt index depth (blockLines indent (.arrow name parameters) body closing ++ rest)).boundParameters?
      (contextOf file limit) (fun text => (Pattern.boundName? text).map (·.2)) (Header.reach body limit index) =
        some ((parameters.map (·.text)).filterMap (Parameters.classify? file.language)) := by
    simp only [Spot.boundParameters?, rawStatement_spotAt _ _ _ _ script, cleanedStatement_spotAt, whole,
      Header.boundName?_text, Option.map_some, Option.bind_some, Header.boundFunction?_bracketed, Option.map_some,
      Option.getD_some]
    exact congrArg some (Header.parse_parameters file.language parameters)
  have declares : variableDeclaration (contextOf file limit)
      (spotAt index depth (blockLines indent (.arrow name parameters) body closing ++ rest)) name.text =
      { definitions := [{
          (spotAt index depth (blockLines indent (.arrow name parameters) body closing ++ rest)).definition
            (contextOf file limit) name.text
            (functionKind name.text (Header.reached (.arrow name parameters) body closing limit index))
            (Header.reach body limit index) with
          parameters := (parameters.map (·.text)).filterMap (Parameters.classify? file.language) }]
        diagnostics := Header.unclosed file limit (index + 1) (.arrow name parameters) } := by
    unfold variableDeclaration
    simp only [extent_spotAt indent _ body closing isLine short, listed, cleanedStatement_spotAt,
      unclosed_spotAt index depth name parameters]
    rfl
  rw [declares]
  exact ⟨rfl, rfl, rfl, rfl⟩

/-- A line that starts no import and no export, and requires nothing, is read as a declaration. -/
theorem finding_eq_declaration {context : Context} {spot : Spot} {text : List Char} (shown : spot.text = text)
    (raw : spot.rawLine context = text) (filled : text.isEmpty = false)
    (imports : Text.startsWith "import" text = false) (exports : Text.startsWith "export" text = false)
    (requires : Pattern.require? text = none) : finding context [] spot = declaration context spot := by
  have declares : Outline.statement context spot = declaration context spot := by
    simp only [Outline.statement, import?, shown, imports, Bool.false_and, require?, raw, requires, export?, exports,
      Bool.false_eq_true, if_false, Option.map_none, Option.or_none]
  rw [finding, shown, filled, if_neg Bool.false_ne_true]
  exact declares

include script isLine in
/-- The line of a header contributes what its block defines. -/
theorem finding_header (header : Header) (short : (blockLines indent header body closing ++ rest).length ≤ limit.toNat) :
    Contributes file limit index header body closing (finding (contextOf file limit) []
      (spotAt index depth (blockLines indent header body closing ++ rest))) := by
  have shown : (spotAt index depth (blockLines indent header body closing ++ rest)).text = header.text :=
    text_spotAt header.isStatement_text indent
  have raw : (spotAt index depth (blockLines indent header body closing ++ rest)).rawLine (contextOf file limit) =
      header.text := rawLine_spotAt script header.isStatement_text indent
  cases header with
  | function name parameters =>
    have declares := finding_eq_declaration shown raw rfl rfl rfl rfl
    have reads := Header.function?_text name parameters []
    rw [List.append_nil, ← shown] at reads
    have declaration :=
      functionDeclaration_contributes index depth script isLine indent name parameters body closing short
    rw [declares]
    unfold Outline.declaration
    rw [reads]
    exact declaration
  | arrow name parameters =>
    have declares := finding_eq_declaration shown raw rfl rfl rfl (Header.require?_arrow name parameters)
    have reads := Header.boundName?_text name parameters []
    rw [List.append_nil] at reads
    have other : Pattern.function? (Header.arrow name parameters).text = none := rfl
    have declaration :=
      variableDeclaration_contributes index depth script isLine indent name parameters body closing short
    rw [declares]
    unfold Outline.declaration
    simp only [shown, other, Header.containerHeader?_arrow, reads]
    exact declaration
  | branch condition =>
    have none : finding (contextOf file limit) []
        (spotAt index depth (blockLines indent (.branch condition) body closing ++ rest)) = {} :=
      finding_idle script (Header.branch condition).isStatement_text (.of_condition condition) indent
    rw [none]
    exact ⟨rfl, rfl, rfl, rfl⟩

end Contributions

theorem elementNames_line {line : List Char} (isLine : IsLine line) : elementNames line = [] := by
  have none : Text.occurrences Pattern.element line = [] := by
    apply List.eq_nil_iff_forall_not_mem.mpr
    intro found member
    obtain ⟨front, rest, left, rfl, reads⟩ := Text.mem_occurrences member
    obtain ⟨inner, marked, _⟩ := Option.bind_eq_some_iff.mp reads
    obtain rfl := Pattern.mark?_eq_some marked
    exact isLine.plain '<' (by simp) (by decide)
  rw [elementNames, none]
  rfl

theorem callsBeyond_nil {found : List (Option Char × List Char)}
    (free : ∀ entry ∈ found, isWordBefore entry.1 = false) :
    callsBeyond [] found = (found.map (·.2)).map String.ofList := by
  induction found with
  | nil => rfl
  | cons entry rest ih =>
    obtain ⟨own, others⟩ := List.forall_mem_cons.mp free
    simp [callsBeyond, own, ih others]

/-- A line that defines nothing in front of a parameter list yields the names that it reads as. -/
theorem candidatesOn_line {line : List Char} {names : List (List Char)} (isLine : IsLine line)
    (reads : Reads line names) (number : Nat) : candidatesOn number [] line = named number names := by
  rw [candidatesOn, elementNames_line isLine, List.append_nil, callsBeyond_nil reads.2, reads.1, List.map_map]
  rfl

theorem candidatesOn_header (header : Header) (indent : Indent) (number : Nat) :
    candidatesOn number header.defined (indent.blanks ++ header.text) = named number (header.calls [['i', 'f']]) := by
  have isLine : IsLine (indent.blanks ++ header.text) := ⟨indent, _, rfl, header.isStatement_text⟩
  have reads := header.reads_line indent
  cases header with
  | function name parameters =>
    -- The one name on the line is the one that it defines.
    obtain ⟨⟨before, own⟩, single, rfl⟩ := List.map_eq_singleton_iff.mp reads.1
    have free := reads.2 (before, name.text) (by simp [single])
    rw [candidatesOn, elementNames_line isLine, single]
    simp [callsBeyond, free, Header.defined, Header.calls, named]
  | arrow name parameters => exact candidatesOn_line isLine reads number
  | branch condition => exact candidatesOn_line isLine reads number

section Programs

variable {file : SourceFile} (limit : UInt64)

/-- One line is read, and the lines behind it. -/
theorem read_line {index : Nat} {depth : Int} {line : List Char} {rest : List (List Char)} {found : Finding}
    (finds : finding (contextOf file limit) [] (spotAt index depth (line :: rest)) = found)
    (outside : found.container = none) :
    (Outline.read (contextOf file limit) [] index depth ((line :: rest).map asRead)).eraseCode =
      { definitions := found.definitions.map Definition.eraseCode
        candidates := candidatesOn (index + 1) found.headers line
        diagnostics := found.diagnostics : Scan } ++
        (Outline.read (contextOf file limit) [] (index + 1) (depth + braceDelta line) (rest.map asRead)).eraseCode := by
  have finds : finding (contextOf file limit) [] ⟨index, depth, asRead line :: rest.map asRead⟩ = found := finds
  rw [List.map_cons, Outline.read, finds, outside, Scan.eraseCode_append]
  rfl

variable (script : file.language.isRubyLike = false)
include script

theorem read_idle {text : List Char} (statement : IsStatement text) (idle : Idle text) (indent : Indent)
    {names : List (List Char)} (reads : Reads (indent.blanks ++ text) names) (index : Nat) (depth : Int)
    (rest : List (List Char)) :
    ∃ later, (Outline.read (contextOf file limit) [] index depth
        (((indent.blanks ++ text) :: rest).map asRead)).eraseCode =
      { candidates := named (index + 1) names : Scan } ++
        (Outline.read (contextOf file limit) [] (index + 1) later (rest.map asRead)).eraseCode := by
  have finds : finding (contextOf file limit) [] (spotAt index depth ((indent.blanks ++ text) :: rest)) = {} :=
    finding_idle script statement idle indent
  have whole := read_line limit finds rfl
  rw [candidatesOn_line ⟨indent, text, rfl, statement⟩ reads] at whole
  exact ⟨_, whole⟩

theorem read_header (header : Header) (body : Program) (indent closing : Indent) {rest : List (List Char)}
    (isLine : ∀ line ∈ rest, IsLine line)
    (short : (blockLines indent header body closing ++ rest).length ≤ limit.toNat) (index : Nat) (depth : Int) :
    ∃ later, (Outline.read (contextOf file limit) [] index depth
        ((blockLines indent header body closing ++ rest).map asRead)).eraseCode =
      { definitions := (header.definition? file (header.reached body closing limit index) (index + 1)
          (Header.reach body limit index + 1)).toList
        candidates := named (index + 1) (header.calls [['i', 'f']])
        diagnostics := header.unclosed file limit (index + 1) : Scan } ++
        (Outline.read (contextOf file limit) [] (index + 1) later
          ((body.lines ++ (closing.blanks ++ header.closing) :: rest).map asRead)).eraseCode := by
  have contributes := finding_header index depth script isLine indent body closing header short
  have starts : blockLines indent header body closing ++ rest =
      (indent.blanks ++ header.text) :: (body.lines ++ (closing.blanks ++ header.closing) :: rest) := by
    simp [blockLines]
  rw [starts] at contributes ⊢
  have whole := read_line limit rfl contributes.container
  rw [contributes.definitions, contributes.headers, contributes.diagnostics, candidatesOn_header] at whole
  exact ⟨_, whole⟩

/-- The lines of a program yield what their outline shows, and what the lines behind it yield. -/
theorem read_program (program : Program) {rest : List (List Char)} (isLine : ∀ line ∈ rest, IsLine line)
    (short : (program.lines ++ rest).length ≤ limit.toNat) (index : Nat) (depth : Int) :
    ∃ later, (Outline.read (contextOf file limit) [] index depth ((program.lines ++ rest).map asRead)).eraseCode =
      program.outlined file limit index ++
        (Outline.read (contextOf file limit) [] (index + program.lines.length) later (rest.map asRead)).eraseCode := by
  induction program generalizing rest index depth with
  | done => exact ⟨depth, (Scan.nil_append _).symm⟩
  | evaluate indent value program ih =>
    rw [Program.lines, List.cons_append, List.length_cons] at short
    obtain ⟨inside, first⟩ := read_idle limit script value.isStatement_text (.of_expression value) indent
      (value.reads_line indent) index depth (program.lines ++ rest)
    obtain ⟨later, others⟩ := ih isLine (by omega) (index + 1) inside
    have last : index + (program.lines.length + 1) = index + 1 + program.lines.length := by omega
    refine ⟨later, ?_⟩
    rw [Program.lines, List.cons_append, first, others, Program.outlined, Scan.append_assoc, List.length_cons, last]
  | block indent header body closing program inner behind =>
    have split : (Program.block indent header body closing program).lines ++ rest =
        blockLines indent header body closing ++ (program.lines ++ rest) := by
      simp [Program.lines, blockLines]
    have outside : ∀ line ∈ program.lines ++ rest, IsLine line := List.forall_mem_append.mpr ⟨program.isLine, isLine⟩
    have behindBody : ∀ line ∈ (closing.blanks ++ header.closing) :: (program.lines ++ rest), IsLine line :=
      List.forall_mem_cons.mpr ⟨⟨closing, _, rfl, header.isStatement_closing⟩, outside⟩
    rw [split] at short ⊢
    have length : (blockLines indent header body closing ++ (program.lines ++ rest)).length =
        body.lines.length + (program.lines ++ rest).length + 2 := by
      simp only [blockLines, List.length_append, List.length_cons, List.length_nil]
      omega
    have shorter :
        (body.lines ++ (closing.blanks ++ header.closing) :: (program.lines ++ rest)).length ≤ limit.toNat := by
      rw [List.length_append, List.length_cons]
      omega
    obtain ⟨inside, first⟩ := read_header limit script header body indent closing outside short index depth
    obtain ⟨ending, block⟩ := inner behindBody shorter (index + 1) inside
    obtain ⟨after, closed⟩ := read_idle limit script header.isStatement_closing (.of_closing header) closing
      (header.reads_closing closing) (index + 1 + body.lines.length) ending (program.lines ++ rest)
    obtain ⟨later, others⟩ := behind isLine (by omega) (index + 1 + body.lines.length + 1) after
    have next : index + 1 + body.lines.length + 1 = index + body.lines.length + 2 := by omega
    have last : index + (Program.block indent header body closing program).lines.length =
        index + 1 + body.lines.length + 1 + program.lines.length := by
      simp only [Program.lines, List.length_append, List.length_cons]
      omega
    refine ⟨later, ?_⟩
    rw [first, block, closed, others, Program.outlined, last, ← next, Scan.append_assoc, Scan.append_assoc]
    rfl

end Programs

/-- The outline of a file that holds a program. -/
theorem outline_program {file : SourceFile} {limits : Limits} {program : Program}
    (script : file.language.isRubyLike = false) (printed : file.sourceLines = program.lines)
    (short : program.lines.length ≤ limits.blockLines) :
    (Outline.scan file limits).eraseCode = program.outlined file limits.block 0 := by
  have lines : Blanking.pairLines file.language file.sourceLines = program.lines.map asRead := by
    rw [printed]
    exact pairLines_plain script program.isLine
  have none : ∀ line ∈ ([] : List (List Char)), IsLine line := by simp
  obtain ⟨later, reads⟩ := read_program limits.block script program none (by rwa [List.append_nil]) 0 0
  rw [List.append_nil] at reads
  rw [Outline.scan, lines]
  exact reads.trans (Scan.append_nil _)

end CallAtlas.Script.Structured

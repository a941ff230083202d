import CallAtlas.Proofs.TemplateReading
import Mathlib.Data.List.Chain

/-! Templates made of text, literal openers, comments and code. Each piece is passed with whatever follows behind it, and
a tag of code leaves one segment for each of its lines that is not blank. -/
namespace CallAtlas.Template

open Text (linePieces)

/-- How a tag of code is opened. -/
inductive Opener where
  | plain
  | output
  | trimming
  deriving DecidableEq, Repr

/-- The marker behind the opening mark. -/
def Opener.marker : Opener → List Char
  | plain => []
  | output => ['=']
  | trimming => ['-']

/-- What a template is made of. -/
inductive Piece where
  | text (content : List Char)
  /-- The opening mark as text. -/
  | literal
  | comment (content : List Char)
  | code (opener : Opener) (content : List Char) (trims : Bool)
  deriving DecidableEq, Repr

namespace Piece

def print : Piece → List Char
  | text content => content
  | literal => ['<', '%', '%']
  | comment content => '<' :: '%' :: '#' :: (content ++ closer false)
  | code opener content trims => '<' :: '%' :: (opener.marker ++ content ++ closer trims)

def isText : Piece → Bool
  | text _ => true
  | _ => false

/-- Text opens no tag, no tag closes itself early, and code is not taken for a marker at either end. -/
def Valid : Piece → Prop
  | text content => ¬ ['<', '%'] <:+: content
  | literal => True
  | comment content => ¬ ['%', '>'] <:+: content
  | code _ content _ =>
    ¬ ['%', '>'] <:+: content ∧ content ≠ [] ∧ content.head? ∉ ['%', '=', '-', '#'].map some ∧ content.getLast? ≠ some '-'

instance : DecidablePred Valid
  | text content => inferInstanceAs (Decidable (¬ ['<', '%'] <:+: content))
  | literal => isTrue trivial
  | comment content => inferInstanceAs (Decidable (¬ ['%', '>'] <:+: content))
  | code _ content _ =>
    inferInstanceAs (Decidable (¬ ['%', '>'] <:+: content ∧ content ≠ [] ∧
      content.head? ∉ ['%', '=', '-', '#'].map some ∧ content.getLast? ≠ some '-'))

end Piece

def print (pieces : List Piece) : List Char := pieces.flatMap Piece.print

/-- The segments of a template whose pieces start on line `line`, behind `tag` tags: the pieces of all tags of code. -/
def printedSegments (line tag : Nat) : List Piece → List Segment
  | [] => []
  | .text content :: rest => printedSegments (line + content.count '\n') tag rest
  | .literal :: rest => printedSegments line tag rest
  | .comment content :: rest => printedSegments (line + content.count '\n') (tag + 1) rest
  | .code _ content _ :: rest =>
    tagSegments line (tag + 1) (linePieces content) ++ printedSegments (line + content.count '\n') (tag + 1) rest

variable {line tag : Nat} {pieces : List Piece} {content : List Char}

theorem codePieces_eq (last : content.getLast? ≠ some '-') : codePieces content = linePieces content := by
  obtain ⟨first, more, split, _⟩ := Text.exists_linePieces content
  obtain ⟨front, whole⟩ := Text.getLastD_linePieces content
  have kept : Text.dropEndWhile (· == '-') ((linePieces content).getLastD []) = (linePieces content).getLastD [] := by
    rcases List.eq_nil_or_concat ((linePieces content).getLastD []) with nothing | ⟨piece, c, same⟩
    · rw [nothing]
      rfl
    · rw [same, List.concat_eq_append] at whole ⊢
      have other : c ≠ '-' := by
        rintro rfl
        exact last (by simp [← whole])
      simp [Text.dropEndWhile, other]
  have final : (linePieces content).getLastD [] ∈ (linePieces content).getLast? := by
    rw [split, List.getLastD_cons, List.getLast?_cons, List.getLastD_eq_getLast?]
    rfl
  rw [codePieces, kept]
  exact List.dropLast_append_getLast? _ final

/-- A text that follows no text starts with an opening mark. -/
theorem head?_print (apart : ∀ piece ∈ pieces.head?, piece.isText = false) : (print pieces).head? ≠ some '%' := by
  cases pieces with
  | nil => simp [print]
  | cons piece pieces =>
    have other := apart piece rfl
    cases piece with
    | text content => cases other
    | literal => simp [print, Piece.print]
    | comment content => simp [print, Piece.print]
    | code opener content trims => simp [print, Piece.print]

/-- A tag of code leaves the pieces of its code. -/
theorem readFrom_code {opener : Opener} {trims : Bool} (valid : (Piece.code opener content trims).Valid) (rest : List Char)
    (later : List (List Char)) :
    readFrom line tag .outside ((Piece.code opener content trims).print ++ rest) later =
      tagSegments line (tag + 1) (linePieces content) ++
        readFrom (line + content.count '\n') (tag + 1) .outside rest later := by
  obtain ⟨free, filled, plain, last⟩ := valid
  obtain ⟨c, more, rfl⟩ := List.exists_cons_of_ne_nil filled
  have other : c ≠ '%' ∧ c ≠ '=' ∧ c ≠ '-' ∧ c ≠ '#' := by simpa using plain
  have code : (c :: more).dropWhile isMarker = c :: more :=
    List.dropWhile_cons_of_neg (by simp [isMarker, other])
  obtain ⟨first, head, percent, hash⟩ :
      ∃ first, (opener.marker ++ c :: more).head? = some first ∧ first ≠ '%' ∧ first ≠ '#' := by
    cases opener <;> simp [Opener.marker, other]
  have dropped : (opener.marker ++ c :: more).dropWhile isMarker = c :: more := by
    cases opener <;> exact code
  have feeds : (opener.marker ++ c :: more).count '\n' = (c :: more).count '\n' := by
    cases opener <;> rfl
  have inner : ¬ ['%', '>'] <:+: opener.marker ++ c :: more :=
    not_infix_append (by cases opener <;> simp [Opener.marker]) free
  have read := @readFrom_tag line tag _ inner ⟨first, head, percent⟩ trims (by simp [dropped]) rest later
  rw [head, dropped, feeds, codePieces_eq last, if_neg (by simpa using hash)] at read
  rwa [Piece.print, List.cons_append, List.cons_append, List.append_assoc]

theorem readFrom_print (valid : ∀ piece ∈ pieces, piece.Valid)
    (apart : pieces.IsChain fun piece next => ¬ (piece.isText = true ∧ next.isText = true)) :
    readFrom line tag .outside (print pieces) [] = printedSegments line tag pieces := by
  induction pieces generalizing line tag with
  | nil => rfl
  | cons piece pieces ih =>
    obtain ⟨own, others⟩ := List.forall_mem_cons.mp valid
    obtain ⟨next, later⟩ := List.isChain_cons.mp apart
    have behind {line tag : Nat} := @ih line tag others later
    rw [print, List.flatMap_cons, ← print]
    cases piece with
    | text content =>
      have marks := head?_print fun piece first => by simpa using not_and.mp (next piece first) rfl
      rw [printedSegments, ← behind]
      exact readFrom_text own marks
    | literal =>
      rw [printedSegments, ← behind]
      exact readFrom_literal (print pieces) []
    | comment content =>
      have free : ¬ ['%', '>'] <:+: ['#'] ++ content := not_infix_append (by simp) own
      have read := @readFrom_tag line tag _ free ⟨'#', rfl, by decide⟩ false (by simp) (print pieces) []
      rw [printedSegments, ← behind, Piece.print]
      simpa using read
    | code opener content trims =>
      rw [printedSegments, ← behind]
      exact readFrom_code own (print pieces) []

/-- The tags of a template are read exactly. Whatever text, literal openers, comments and tags of code a template is made
of, reading its lines gives the pieces of its code, each as it stands, with its line and the number of its tag. -/
theorem segments_print (valid : ∀ piece ∈ pieces, piece.Valid)
    (apart : pieces.IsChain fun piece next => ¬ (piece.isText = true ∧ next.isText = true)) :
    segments (Text.lines (print pieces)) = printedSegments 1 0 pieces :=
  (segments_lines (print pieces)).trans (readFrom_print valid apart)

/-- Every kind of piece, with tags over several lines, two tags on one line and dashes at the ends of lines. -/
def mixed : List Piece :=
  [.text "<p> <\n".toList, .code .output " title".toList true, .literal, .comment "\n hidden(x) ".toList,
   .text " %>\n".toList, .code .plain "\nif a -\r\n  b\n".toList true, .code .trimming ">c".toList false]

theorem segments_print_mixed :
    print mixed = "<p> <\n<%= title-%><%%<%#\n hidden(x) %> %>\n<%\nif a -\r\n  b\n-%><%->c%>".toList ∧
      (∀ piece ∈ mixed, piece.Valid) ∧
      (mixed.IsChain fun piece next => ¬ (piece.isText = true ∧ next.isText = true)) ∧
      segments (Text.lines (print mixed)) =
        [⟨2, " title".toList, 1⟩, ⟨5, "if a -".toList, 3⟩, ⟨6, "  b".toList, 3⟩, ⟨7, ">c".toList, 4⟩] := by
  have valid : ∀ piece ∈ mixed, piece.Valid := by decide +kernel
  have apart : mixed.IsChain fun piece next => ¬ (piece.isText = true ∧ next.isText = true) := by decide
  exact ⟨by decide, valid, apart, (segments_print valid apart).trans (by decide)⟩

end CallAtlas.Template

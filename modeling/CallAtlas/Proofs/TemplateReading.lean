import CallAtlas.Proofs.CallNames
import CallAtlas.Proofs.TextLines

/-! A template is read line by line, but what is carried from one line to the next makes it a reading of the whole text:
from any place in a line, text outside of tags is passed over, a tag is read up to its closing mark, and what stands
behind it is read on from there. -/
namespace CallAtlas

theorem Text.trim_isEmpty (text : List Char) : (trim text).isEmpty = text.all isBlank := by
  rw [Bool.eq_iff_iff, List.isEmpty_iff, List.all_eq_true]
  constructor
  · intro nothing
    obtain ⟨blanks, after, split, before, behind⟩ := exists_trim_append text
    rw [split, nothing, List.nil_append]
    exact List.forall_mem_append.mpr ⟨before, behind⟩
  · intro blank
    rw [trim, trimStart, List.dropWhile_eq_nil_iff.mpr blank]
    rfl

namespace Template

open Text (linePieces)

variable {line tag next : Nat} {place reached : Place} {c : Char} {text rest : List Char}

/-- The two characters that end a place. -/
def Place.mark : Place → Char × Char
  | .outside => ('<', '%')
  | _ => ('%', '>')

/-- The place behind a character that does not end it. -/
def Place.pass (c : Char) : Place → Place
  | .outside => .outside
  | .opening comment => if isMarker c then .opening comment else .inside comment [c]
  | .inside comment held => .inside comment (c :: held)

/-- Where a place does not end, the reading passes one character. -/
theorem readLine_pass (marks : c = place.mark.1 → text.head? ≠ some place.mark.2) :
    readLine line tag place (c :: text) = readLine line tag (place.pass c) text := by
  cases place with
  | outside =>
    apply readLine.eq_6
    · rintro rest same rfl
      exact marks same rfl
    · rintro rest same rfl
      exact marks same rfl
  | opening comment =>
    rw [readLine.eq_8, Place.pass]
    · split <;> rfl
    · rintro rest same rfl
      exact marks same rfl
  | inside comment held =>
    apply readLine.eq_10
    rintro rest same rfl
    exact marks same rfl

theorem readLine_outside (marks : c = '<' → text.head? ≠ some '%') :
    readLine line tag .outside (c :: text) = readLine line tag .outside text := readLine_pass marks

theorem readLine_opening (comment : Bool) (marks : c = '%' → text.head? ≠ some '>') :
    readLine line tag (.opening comment) (c :: text) =
      readLine line tag (if isMarker c then .opening comment else .inside comment [c]) text := readLine_pass marks

theorem readLine_inside (comment : Bool) (held : List Char) (marks : c = '%' → text.head? ≠ some '>') :
    readLine line tag (.inside comment held) (c :: text) = readLine line tag (.inside comment (c :: held)) text :=
  readLine_pass marks

theorem readLine_open (marks : text.head? ≠ some '%') :
    readLine line tag .outside ('<' :: '%' :: text) =
      readLine line (tag + 1) (.opening (text.head? == some '#')) text := by
  apply readLine.eq_5
  rintro rest rfl
  exact marks rfl

theorem readLine_close (line tag : Nat) (comment : Bool) (held text : List Char) :
    readLine line tag (.inside comment held) ('%' :: '>' :: text) =
      ((segment? line tag comment (body held)).toList ++ (readLine line tag .outside text).1,
        (readLine line tag .outside text).2) := rfl

theorem readLine_inside_nil (line tag : Nat) (comment : Bool) (held : List Char) :
    readLine line tag (.inside comment held) [] =
      ((segment? line tag comment held.reverse).toList, tag, .inside comment []) := rfl

/-- A piece of code leaves a segment unless it is blank. -/
theorem segment?_toList (line tag : Nat) (comment : Bool) (code : List Char) :
    (segment? line tag comment code).toList =
      if comment then [] else if code.all Text.isBlank then [] else [⟨line, code, tag⟩] := by
  rw [segment?, Text.trim_isEmpty]
  cases comment with
  | true => rfl
  | false =>
    rw [Bool.false_or]
    split <;> rfl

variable {later : List (List Char)}

/-- The segments of a text that is read on from a place in a line, and of the lines behind it. -/
def readFrom (line tag : Nat) (place : Place) (text : List Char) (later : List (List Char)) : List Segment :=
  segmentsFrom line tag place (linePieces text ++ later)

theorem segmentsFrom_cons (line tag : Nat) (place : Place) (text : List Char) (lines : List (List Char)) :
    segmentsFrom line tag place (text :: lines) =
      (readLine line tag place text).1 ++
        segmentsFrom (line + 1) (readLine line tag place text).2.1 (readLine line tag place text).2.2 lines := rfl

/-- An empty line at the end leaves no segment. -/
theorem segmentsFrom_concat_nil (lines : List (List Char)) (fresh : place.held = []) :
    segmentsFrom line tag place (lines ++ [[]]) = segmentsFrom line tag place lines := by
  induction lines generalizing line tag place with
  | nil =>
    cases place with
    | outside => rfl
    | opening comment => rfl
    | inside comment held =>
      cases List.reverse_eq_nil_iff.mp fresh
      cases comment <;> rfl
  | cons text lines ih =>
    rw [List.cons_append, segmentsFrom_cons, segmentsFrom_cons, ih (readLine_held line tag place text)]

theorem segments_lines (text : List Char) : segments (Text.lines text) = readFrom 1 0 .outside text [] := by
  rw [readFrom, List.append_nil]
  rcases Text.linePieces_eq text with same | same
  · rw [same, segments]
  · rw [same, segmentsFrom_concat_nil _ rfl, segments]

theorem readFrom_feed (line tag : Nat) (place : Place) (text : List Char) (later : List (List Char)) :
    readFrom line tag place ('\n' :: text) later =
      (readLine line tag place []).1 ++
        readFrom (line + 1) (readLine line tag place []).2.1 (readLine line tag place []).2.2 text later := rfl

theorem readFrom_return (line tag : Nat) (place : Place) (text : List Char) (later : List (List Char)) :
    readFrom line tag place ('\r' :: '\n' :: text) later = readFrom line tag place ('\n' :: text) later := rfl

/-- A step on every line that can stand behind a character is a step on the text behind it. -/
theorem readFrom_cons (feed : c ≠ '\n') (ending : c = '\r' → text.head? ≠ some '\n')
    (step : ∀ more : List Char, (∀ d ∈ more.head?, text.head? = some d) →
      readLine line tag place (c :: more) = readLine line next reached more) :
    readFrom line tag place (c :: text) later = readFrom line next reached text later := by
  obtain ⟨first, more, split, starts, _⟩ := Text.exists_linePieces text
  rw [readFrom, readFrom, Text.linePieces_cons feed ending, split, List.modifyHead_cons, List.cons_append,
    List.cons_append, segmentsFrom_cons, segmentsFrom_cons, step first starts]

theorem readFrom_literal (text : List Char) (later : List (List Char)) :
    readFrom line tag .outside ('<' :: '%' :: '%' :: text) later = readFrom line tag .outside text later := by
  obtain ⟨first, more, split, _⟩ := Text.exists_linePieces text
  rw [readFrom, readFrom, Text.linePieces_cons (by decide) (absurd · (by decide)),
    Text.linePieces_cons (by decide) (absurd · (by decide)), Text.linePieces_cons (by decide) (absurd · (by decide)), split]
  rfl

/-- The opening mark of a tag. -/
theorem readFrom_open (marks : text.head? ≠ some '%') :
    readFrom line tag .outside ('<' :: '%' :: text) later =
      readFrom line (tag + 1) (.opening (text.head? == some '#')) text later := by
  obtain ⟨first, more, split, starts, stays⟩ := Text.exists_linePieces text
  have same : (first.head? == some '#') = (text.head? == some '#') := by
    rw [Bool.eq_iff_iff, beq_iff_eq, beq_iff_eq]
    exact ⟨starts _, fun hash => stays _ hash (by decide) (by decide)⟩
  rw [readFrom, readFrom, Text.linePieces_cons (by decide) (absurd · (by decide)),
    Text.linePieces_cons (by decide) (absurd · (by decide)), split, List.modifyHead_cons, List.modifyHead_cons,
    List.cons_append, List.cons_append, segmentsFrom_cons, segmentsFrom_cons,
    readLine_open fun mark => marks (starts _ mark), same]

/-- The closing mark of a tag. -/
theorem readFrom_close (comment : Bool) (held rest : List Char) (later : List (List Char)) :
    readFrom line tag (.inside comment held) ('%' :: '>' :: rest) later =
      (segment? line tag comment (body held)).toList ++ readFrom line tag .outside rest later := by
  obtain ⟨first, more, split, _⟩ := Text.exists_linePieces rest
  rw [readFrom, readFrom, Text.linePieces_cons (by decide) (absurd · (by decide)),
    Text.linePieces_cons (by decide) (absurd · (by decide)), split, List.modifyHead_cons, List.modifyHead_cons,
    List.cons_append, List.cons_append, segmentsFrom_cons, segmentsFrom_cons, readLine_close, List.append_assoc]

/-- The closing mark of a tag, with a dash before it where it trims the line. -/
def closer (trims : Bool) : List Char := if trims then ['-', '%', '>'] else ['%', '>']

theorem readFrom_closer (trims comment : Bool) (held rest : List Char) (later : List (List Char)) :
    readFrom line tag (.inside comment held) (closer trims ++ rest) later =
      (segment? line tag comment (body held)).toList ++ readFrom line tag .outside rest later := by
  cases trims with
  | false => exact readFrom_close comment held rest later
  | true =>
    have dash : readFrom line tag (.inside comment held) ('-' :: '%' :: '>' :: rest) later =
        readFrom line tag (.inside comment ('-' :: held)) ('%' :: '>' :: rest) later :=
      readFrom_cons (by decide) (absurd · (by decide)) fun _ _ => readLine_inside comment held (absurd · (by decide))
    exact dash.trans (readFrom_close comment ('-' :: held) rest later)

theorem not_infix_cons {a b : Char} (free : ¬ [a, b] <:+: c :: text) :
    ¬ [a, b] <:+: text ∧ (c = a → text.head? ≠ some b) := by
  refine ⟨fun found => free (List.infix_cons found), ?_⟩
  rintro rfl next
  obtain ⟨more, rfl⟩ := List.head?_eq_some_iff.mp next
  exact free ⟨[], more, rfl⟩

theorem not_infix_append {a b : Char} {front : List Char} (other : ∀ c ∈ front, c ≠ a) (free : ¬ [a, b] <:+: text) :
    ¬ [a, b] <:+: front ++ text := by
  induction front with
  | nil => exact free
  | cons c front ih =>
    obtain ⟨first, others⟩ := List.forall_mem_cons.mp other
    rw [List.cons_append, List.infix_cons_iff, not_or]
    exact ⟨fun found => first (List.cons_prefix_cons.mp found).1.symm, ih others⟩

theorem head?_append_ne {d : Char} (first : text.head? ≠ some d) (behind : rest.head? ≠ some d) :
    (text ++ rest).head? ≠ some d := by
  cases text with
  | nil => exact behind
  | cons c text => exact first

/-- Text outside of tags is passed over. -/
theorem readFrom_text {content : List Char} (free : ¬ ['<', '%'] <:+: content) (opens : rest.head? ≠ some '%') :
    readFrom line tag .outside (content ++ rest) later =
      readFrom (line + content.count '\n') tag .outside rest later := by
  induction content generalizing line with
  | nil => rfl
  | cons c content ih =>
    obtain ⟨others, apart⟩ := not_infix_cons free
    by_cases feed : c = '\n'
    · have passed : readFrom line tag .outside ('\n' :: (content ++ rest)) later =
          readFrom (line + 1) tag .outside (content ++ rest) later := rfl
      rw [feed, List.cons_append, passed, ih others, List.count_cons_self, Nat.add_assoc, Nat.add_comm 1]
    · rw [List.count_cons_of_ne feed, ← ih others, List.cons_append]
      by_cases ending : c = '\r' ∧ (content ++ rest).head? = some '\n'
      · -- Both characters of the line ending are passed over.
        obtain ⟨rfl, next⟩ := ending
        obtain ⟨more, same⟩ := List.head?_eq_some_iff.mp next
        rw [same, readFrom_return]
      · refine readFrom_cons feed (fun same => not_and.mp ending same) fun more starts => readLine_outside ?_
        intro same next
        exact head?_append_ne (apart same) opens (starts _ next)

/-- Where no marker follows, the opening of a tag is over. -/
theorem readFrom_opened (comment : Bool) (plain : ∀ c ∈ text.head?, isMarker c = false) :
    readFrom line tag (.opening comment) text later = readFrom line tag (.inside comment []) text later := by
  obtain ⟨first, more, split, starts, _⟩ := Text.exists_linePieces text
  rw [readFrom, readFrom, split, List.cons_append, segmentsFrom_cons, segmentsFrom_cons]
  suffices same : readLine line tag (.opening comment) first = readLine line tag (.inside comment []) first by rw [same]
  cases first with
  | nil =>
    cases comment <;> rfl
  | cons c first =>
    by_cases closes : c = '%' ∧ first.head? = some '>'
    · obtain ⟨rfl, next⟩ := closes
      obtain ⟨rest, rfl⟩ := List.head?_eq_some_iff.mp next
      cases comment <;> rfl
    · rw [readLine_opening comment (not_and.mp closes), readLine_inside comment [] (not_and.mp closes),
        plain c (starts c rfl)]
      rfl

/-- The markers behind an opening mark are passed over. -/
theorem readFrom_opening (comment : Bool) (text : List Char) (later : List (List Char)) :
    readFrom line tag (.opening comment) text later =
      readFrom line tag (.inside comment []) (text.dropWhile isMarker) later := by
  induction text with
  | nil => exact readFrom_opened comment (by simp)
  | cons c text ih =>
    by_cases marker : isMarker c = true
    · rw [List.dropWhile_cons_of_pos marker, ← ih]
      have other {d : Char} (plain : isMarker d = false) : c ≠ d := by
        rintro rfl
        exact Bool.false_ne_true (plain.symm.trans marker)
      refine readFrom_cons (other rfl) (absurd · (other rfl)) fun more _ => ?_
      rw [readLine_opening comment (absurd · (other rfl)), if_pos marker]
    · rw [List.dropWhile_cons_of_neg marker]
      exact readFrom_opened comment (by simpa using marker)

/-- The segments of the pieces of a tag of code, from line `line` on. -/
def tagSegments (line tag : Nat) : List (List Char) → List Segment
  | [] => []
  | piece :: more =>
    (if piece.all Text.isBlank then [] else [⟨line, piece, tag⟩]) ++ tagSegments (line + 1) tag more

/-- What a tag holds leaves a segment for each line that is over, and what stands on the last line is held. -/
theorem readFrom_body {content : List Char} (free : ¬ ['%', '>'] <:+: content) (comment : Bool) (held : List Char)
    (ahead : ∀ c ∈ rest.head?, c ≠ '>' ∧ c ≠ '\n') :
    readFrom line tag (.inside comment held) (content ++ rest) later =
      (if comment then [] else tagSegments line tag ((linePieces content).modifyHead (held.reverse ++ ·)).dropLast) ++
        readFrom (line + content.count '\n') tag
          (.inside comment (((linePieces content).modifyHead (held.reverse ++ ·)).getLastD []).reverse) rest later := by
  fun_induction linePieces content generalizing line held with
  | case1 => cases comment <;> simp [tagSegments]
  | case2 content ih | case3 content ih =>
    obtain ⟨first, more, split, _⟩ := Text.exists_linePieces content
    have others : ¬ ['%', '>'] <:+: content := fun found => free (by simp [List.infix_cons_iff, found])
    have behind := @ih (line + 1) others []
    rw [split, List.modifyHead_cons] at behind
    simp only [List.cons_append, readFrom_return]
    rw [readFrom_feed, readLine_inside_nil, segment?_toList, behind, split]
    cases comment <;> simp [tagSegments, Nat.add_assoc, Nat.add_comm 1]
  | case4 c content feed ending ih =>
    obtain ⟨others, apart⟩ := not_infix_cons free
    have shifted : (fun piece => (c :: held).reverse ++ piece) = (held.reverse ++ ·) ∘ (c :: ·) := by
      funext piece
      simp
    have step : readFrom line tag (.inside comment held) (c :: (content ++ rest)) later =
        readFrom line tag (.inside comment (c :: held)) (content ++ rest) later := by
      refine readFrom_cons feed (fun same => ?_) fun more starts => readLine_inside comment held fun same next => ?_
      · refine head?_append_ne (fun found => ?_) fun found => (ahead _ found).2 rfl
        obtain ⟨more, here⟩ := List.head?_eq_some_iff.mp found
        exact ending more same here
      · exact head?_append_ne (apart same) (fun found => (ahead _ found).1 rfl) (starts _ next)
    rw [List.cons_append, step, ih others (c :: held), List.count_cons_of_ne feed, List.modifyHead_modifyHead, shifted]

/-- The pieces of what a tag holds. The dashes before its end belong to the closing mark. -/
def codePieces (content : List Char) : List (List Char) :=
  (linePieces content).dropLast ++ [Text.dropEndWhile (· == '-') ((linePieces content).getLastD [])]

theorem tagSegments_append (line tag : Nat) (front back : List (List Char)) :
    tagSegments line tag (front ++ back) = tagSegments line tag front ++ tagSegments (line + front.length) tag back := by
  induction front generalizing line with
  | nil => rfl
  | cons piece front ih =>
    rw [List.cons_append, tagSegments, ih, tagSegments, List.append_assoc, List.length_cons, Nat.add_assoc, Nat.add_comm 1]

/-- What a tag holds is read up to the closing mark. -/
theorem readFrom_content {content : List Char} (free : ¬ ['%', '>'] <:+: content) (comment trims : Bool) (rest : List Char)
    (later : List (List Char)) :
    readFrom line tag (.inside comment []) (content ++ (closer trims ++ rest)) later =
      (if comment then [] else tagSegments line tag (codePieces content)) ++
        readFrom (line + content.count '\n') tag .outside rest later := by
  have ahead : ∀ c ∈ (closer trims ++ rest).head?, c ≠ '>' ∧ c ≠ '\n' := by
    cases trims <;> simp [closer]
  have whole : (linePieces content).modifyHead (([] : List Char).reverse ++ ·) = linePieces content :=
    congrFun List.modifyHead_id _
  have ended : (linePieces content).dropLast.length = content.count '\n' := by
    rw [List.length_dropLast, Text.length_linePieces, Nat.add_sub_cancel]
  rw [readFrom_body free comment [] ahead, whole, readFrom_closer, segment?_toList, ← List.append_assoc]
  cases comment with
  | true => rfl
  | false =>
    have last : body ((linePieces content).getLastD []).reverse =
        Text.dropEndWhile (· == '-') ((linePieces content).getLastD []) := rfl
    simp only [Bool.false_eq_true, if_false, codePieces, tagSegments_append, ended, last, tagSegments, List.append_nil]

/-- A tag is read up to its closing mark, whatever stands behind it. Its markers are no code, and behind a hash there is
none at all. -/
theorem readFrom_tag {content : List Char} (free : ¬ ['%', '>'] <:+: content)
    (opens : ∃ c, content.head? = some c ∧ c ≠ '%') {trims : Bool}
    (stops : trims = true → content.dropWhile isMarker ≠ []) (rest : List Char) (later : List (List Char)) :
    readFrom line tag .outside ('<' :: '%' :: (content ++ (closer trims ++ rest))) later =
      (if content.head? == some '#' then [] else tagSegments line (tag + 1) (codePieces (content.dropWhile isMarker))) ++
        readFrom (line + content.count '\n') (tag + 1) .outside rest later := by
  obtain ⟨c, first, other⟩ := opens
  have head : (content ++ (closer trims ++ rest)).head? = content.head? := by
    rw [List.head?_append, first, Option.some_or]
  have inner : ¬ ['%', '>'] <:+: content.dropWhile isMarker := fun found =>
    free (found.trans (List.dropWhile_suffix _).isInfix)
  have dropped : (content ++ (closer trims ++ rest)).dropWhile isMarker =
      content.dropWhile isMarker ++ (closer trims ++ rest) := by
    rw [List.dropWhile_append]
    split
    · next nothing =>
      rw [List.isEmpty_iff] at nothing
      cases trims with
      | true => exact absurd nothing (stops rfl)
      | false =>
        rw [nothing]
        rfl
    · rfl
  have feeds : (content.dropWhile isMarker).count '\n' = content.count '\n' := by
    have markers : '\n' ∉ content.takeWhile isMarker := fun member =>
      Bool.false_ne_true (List.mem_takeWhile_imp member)
    conv => rhs; rw [← List.takeWhile_append_dropWhile (p := isMarker) (l := content)]
    rw [List.count_append, List.count_eq_zero.mpr markers, Nat.zero_add]
  rw [readFrom_open (by simpa [head, first] using other), head, readFrom_opening, dropped, readFrom_content inner, feeds]

end Template
end CallAtlas

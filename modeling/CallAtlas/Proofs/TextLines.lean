import CallAtlas.Text.Lines

/-! Lines of a text, and what of a text stands on each of its lines. The two differ behind the last line feed, where
there is a piece but no line. -/
namespace CallAtlas.Text

theorem linesFrom_append {line : List Char} (held rest : List Char) (plain : '\n' ∉ line) :
    linesFrom held (line ++ '\n' :: rest) =
      (withoutReturn (line.reverse ++ held)).reverse :: linesFrom [] rest := by
  induction line generalizing held with
  | nil => rfl
  | cons c line ih =>
    have other : c ≠ '\n' := by
      rintro rfl
      exact plain List.mem_cons_self
    rw [List.cons_append, linesFrom, if_neg other, ih (c :: held) fun member => plain (List.mem_cons_of_mem c member),
      List.reverse_cons, List.append_assoc, List.singleton_append]

/-- What stands of a text on each of its lines. A line feed ends a line, together with one carriage return before it. -/
def linePieces : List Char → List (List Char)
  | [] => [[]]
  | '\n' :: rest => [] :: linePieces rest
  | '\r' :: '\n' :: rest => [] :: linePieces rest
  | c :: rest => (linePieces rest).modifyHead (c :: ·)

/-- The first piece starts like the text, unless the text starts with a line ending. -/
theorem exists_linePieces (text : List Char) :
    ∃ first more, linePieces text = first :: more ∧ (∀ c ∈ first.head?, text.head? = some c) ∧
      ∀ c ∈ text.head?, c ≠ '\n' → c ≠ '\r' → first.head? = some c := by
  fun_induction linePieces text with
  | case1 => exact ⟨[], [], rfl, by simp, by simp⟩
  | case2 rest ih => exact ⟨[], linePieces rest, rfl, by simp, by simp⟩
  | case3 rest ih => exact ⟨[], linePieces rest, rfl, by simp, by simp⟩
  | case4 c rest _ _ ih =>
    obtain ⟨first, more, split, _⟩ := ih
    exact ⟨c :: first, more, by rw [split, List.modifyHead_cons], by simp, by simp⟩

theorem linePieces_cons {c : Char} {text : List Char} (feed : c ≠ '\n') (ending : c = '\r' → text.head? ≠ some '\n') :
    linePieces (c :: text) = (linePieces text).modifyHead (c :: ·) := by
  apply linePieces.eq_4
  · exact feed
  · rintro rest same rfl
    exact ending same rfl

theorem linePieces_of_not_mem {text : List Char} (single : '\n' ∉ text) : linePieces text = [text] := by
  induction text with
  | nil => rfl
  | cons c text ih =>
    obtain ⟨feed, later⟩ := not_or.mp (mt List.mem_cons.mpr single)
    rw [linePieces_cons (Ne.symm feed), ih later, List.modifyHead_cons]
    intro _ next
    exact later (List.mem_of_mem_head? next)

theorem length_linePieces (text : List Char) : (linePieces text).length = text.count '\n' + 1 := by
  fun_induction linePieces text with
  | case1 => rfl
  | case2 rest ih | case3 rest ih => simp [ih]
  | case4 c rest feed _ ih => rw [List.length_modifyHead, ih, List.count_cons_of_ne feed]

theorem withoutReturn_concat {held : List Char} (filled : held ≠ []) (c : Char) :
    withoutReturn (held ++ [c]) = withoutReturn held ++ [c] := by
  cases held with
  | nil => exact absurd rfl filled
  | cons last held =>
    by_cases ending : last = '\r'
    · rw [ending]
      rfl
    · rw [List.cons_append, withoutReturn.eq_2 _ (by simp [ending]), withoutReturn.eq_2 _ (by simp [ending]),
        List.cons_append]

theorem linePieces_append_feed {front : List Char} (single : '\n' ∉ front) (rest : List Char) :
    linePieces (front ++ '\n' :: rest) = (withoutReturn front.reverse).reverse :: linePieces rest := by
  induction front with
  | nil => rfl
  | cons c front ih =>
    obtain ⟨feed, later⟩ := not_or.mp (mt List.mem_cons.mpr single)
    by_cases ending : c = '\r' ∧ front = []
    · obtain ⟨rfl, rfl⟩ := ending
      rfl
    · rw [List.cons_append, linePieces_cons (Ne.symm feed), ih later, List.modifyHead_cons, List.reverse_cons]
      · by_cases last : front = []
        · subst last
          rw [List.reverse_nil, List.nil_append, withoutReturn.eq_2 [c] (by simpa using ending)]
          rfl
        · rw [withoutReturn_concat (by simpa using last), List.reverse_append]
          rfl
      · rintro rfl next
        cases front with
        | nil => exact ending ⟨rfl, rfl⟩
        | cons d front => exact later (List.mem_of_mem_head? next)

/-- The lines of a text are its pieces, except that there is no line behind the last line feed. -/
theorem linePieces_eq (text : List Char) : linePieces text = lines text ∨ linePieces text = lines text ++ [[]] := by
  have general (held text : List Char) (single : '\n' ∉ held) :
      linePieces (held.reverse ++ text) = linesFrom held text ∨
        linePieces (held.reverse ++ text) = linesFrom held text ++ [[]] := by
    induction text generalizing held with
    | nil =>
      rw [List.append_nil, linePieces_of_not_mem (by simpa using single), linesFrom]
      cases held <;> simp
    | cons c text ih =>
      rw [linesFrom]
      by_cases feed : c = '\n'
      · rw [if_pos feed, feed, linePieces_append_feed (by simpa using single), List.reverse_reverse]
        exact (ih [] (by simp)).imp (congrArg _) (congrArg _)
      · rw [if_neg feed]
        have later := ih (c :: held) (by simp [single, Ne.symm feed])
        rwa [List.reverse_cons, List.append_assoc, List.singleton_append] at later
  exact general [] text (by simp)

theorem not_mem_of_mem_linePieces {text piece : List Char} (member : piece ∈ linePieces text) : '\n' ∉ piece := by
  fun_induction linePieces text generalizing piece with
  | case1 =>
    cases List.mem_singleton.mp member
    exact List.not_mem_nil
  | case2 rest ih | case3 rest ih =>
    rcases List.mem_cons.mp member with rfl | later
    · exact List.not_mem_nil
    · exact ih later
  | case4 c rest feed _ ih =>
    obtain ⟨first, more, split, _⟩ := exists_linePieces rest
    rw [split] at ih member
    rcases List.mem_cons.mp member with rfl | later
    · rintro (_ | ⟨_, inside⟩)
      · exact feed rfl
      · exact ih List.mem_cons_self inside
    · exact ih (List.mem_cons_of_mem first later)

theorem not_mem_of_mem_lines {text line : List Char} (member : line ∈ lines text) : '\n' ∉ line := by
  have piece : line ∈ linePieces text := by
    rcases linePieces_eq text with same | same
    · rwa [same]
    · rw [same]
      exact List.mem_append_left _ member
  exact not_mem_of_mem_linePieces piece

theorem eq_of_linePieces {text piece : List Char} (single : linePieces text = [piece]) : text = piece := by
  have length := length_linePieces text
  rw [single, List.length_singleton] at length
  have free : '\n' ∉ text := List.count_eq_zero.mp (by omega)
  rw [linePieces_of_not_mem free] at single
  exact (List.cons.inj single).1

/-- The last piece stands at the end of the text. -/
theorem getLastD_linePieces (text : List Char) : (linePieces text).getLastD [] <:+ text := by
  fun_induction linePieces text with
  | case1 => exact List.suffix_rfl
  | case2 rest ih =>
    obtain ⟨first, more, split, _⟩ := exists_linePieces rest
    rw [split] at ih ⊢
    exact ih.trans ⟨['\n'], rfl⟩
  | case3 rest ih =>
    obtain ⟨first, more, split, _⟩ := exists_linePieces rest
    rw [split] at ih ⊢
    exact ih.trans ⟨['\r', '\n'], rfl⟩
  | case4 c rest _ _ ih =>
    obtain ⟨first, more, split, _⟩ := exists_linePieces rest
    rw [split] at ih ⊢
    cases more with
    | nil =>
      rw [eq_of_linePieces split]
      exact List.suffix_rfl
    | cons second more => exact ih.trans (List.suffix_cons c rest)

end CallAtlas.Text

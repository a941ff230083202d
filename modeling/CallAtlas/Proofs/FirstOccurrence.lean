import CallAtlas.Edge
import Mathlib.Data.List.Basic
import Mathlib.Data.List.Induction

/-! First occurrences. Gathering values "unless they are there already" leaves the first occurrence of each,
and choosing among the values before or after the gathering comes to the same. -/
namespace CallAtlas.Edge

variable {α : Type} [DecidableEq α] {members : List α} {member : α}

@[simp]
theorem distinct_nil : distinct ([] : List α) = [] := rfl

/-- What one more value adds. -/
theorem distinct_concat (members : List α) (member : α) :
    distinct (members ++ [member]) =
      if member ∈ distinct members then distinct members else distinct members ++ [member] := by
  rw [distinct, List.foldl_append, List.foldl_cons, List.foldl_nil]
  rfl

@[simp]
theorem mem_distinct : member ∈ distinct members ↔ member ∈ members := by
  induction members using List.reverseRecOn with
  | nil => simp
  | append_singleton members last ih =>
    rw [distinct_concat, List.mem_append, List.mem_singleton]
    split
    · rename_i known
      constructor
      · exact fun present => .inl (ih.mp present)
      · rintro (present | rfl)
        · exact ih.mpr present
        · exact known
    · rw [List.mem_append, List.mem_singleton, ih]

theorem distinct_nodup (members : List α) : (distinct members).Nodup := by
  induction members using List.reverseRecOn with
  | nil => simp
  | append_singleton members last ih =>
    rw [distinct_concat]
    split
    · exact ih
    · rename_i fresh
      exact List.nodup_append.mpr ⟨ih, by simp, fun member present other same => by
        rintro rfl
        exact fresh (List.mem_singleton.mp same ▸ present)⟩

/-- Gathering commutes with every choice made value by value. -/
theorem distinct_filter (keep : α → Bool) (members : List α) :
    distinct (members.filter keep) = (distinct members).filter keep := by
  induction members using List.reverseRecOn with
  | nil => simp
  | append_singleton members last ih =>
    by_cases kept : keep last = true
    · have alone : [last].filter keep = [last] := by simp [kept]
      rw [List.filter_append, alone, distinct_concat, distinct_concat, ih]
      have known : last ∈ (distinct members).filter keep ↔ last ∈ distinct members := by simp [kept]
      by_cases present : last ∈ distinct members
      · rw [if_pos (known.mpr present), if_pos present]
      · rw [if_neg (mt known.mp present), if_neg present, List.filter_append, alone]
    · have alone : [last].filter keep = [] := by simp [kept]
      rw [List.filter_append, alone, List.append_nil, ih, distinct_concat]
      split
      · rfl
      · rw [List.filter_append, alone, List.append_nil]

/-- Values that stay apart are gathered alike under other names. -/
theorem distinct_map {β : Type} [DecidableEq β] {rename : α → β} (apart : Function.Injective rename)
    (members : List α) : distinct (members.map rename) = (distinct members).map rename := by
  induction members using List.reverseRecOn with
  | nil => rfl
  | append_singleton members last ih =>
    have known : rename last ∈ (distinct members).map rename ↔ last ∈ distinct members :=
      List.mem_map_of_injective apart
    rw [List.map_append, List.map_singleton, distinct_concat, distinct_concat, ih]
    by_cases present : last ∈ distinct members
    · rw [if_pos (known.mpr present), if_pos present]
    · rw [if_neg (mt known.mp present), if_neg present, List.map_append, List.map_singleton]

/-- The values alone decide what is gathered, but for the order. -/
theorem distinct_perm {other : List α} (once : other.Nodup) (same : ∀ member, member ∈ members ↔ member ∈ other) :
    (distinct members).Perm other := by
  apply (List.perm_ext_iff_of_nodup (distinct_nodup members) once).mpr
  intro member
  rw [mem_distinct, same]

/-- What one more value adds to the first few that were gathered: it is put last if it is new and there is room. -/
theorem take_distinct_concat (room : Nat) (members : List α) (member : α) :
    (distinct (members ++ [member])).take room =
      if ((distinct members).take room).length < room ∧ member ∉ (distinct members).take room then
        (distinct members).take room ++ [member]
      else (distinct members).take room := by
  rw [distinct_concat]
  by_cases short : (distinct members).length < room
  · have whole : (distinct members).take room = distinct members := List.take_of_length_le (Nat.le_of_lt short)
    rw [whole]
    by_cases known : member ∈ distinct members
    · rw [if_pos known, if_neg fun both => both.2 known, whole]
    · rw [if_neg known, if_pos ⟨short, known⟩]
      exact List.take_of_length_le (by rw [List.length_append, List.length_singleton]; exact short)
  · have full : ¬ ((distinct members).take room).length < room := by
      rw [List.length_take]
      omega
    have cut : (distinct members ++ [member]).take room = (distinct members).take room :=
      List.take_append_of_le_length (Nat.le_of_not_lt short)
    rw [apply_ite (List.take room), cut, ite_self, if_neg fun both => full both.1]

/-- Numbers without repetition are strictly ascending once they are sorted. -/
theorem mergeSort_pairwise_lt {numbers : List Nat} (once : numbers.Nodup) :
    (numbers.mergeSort fun first second => decide (first ≤ second)).Pairwise (· < ·) := by
  have sorted : (numbers.mergeSort fun first second => decide (first ≤ second)).Pairwise
      fun first second => decide (first ≤ second) = true := by
    apply List.pairwise_mergeSort
    · intro first second third low high
      exact decide_eq_true (Nat.le_trans (of_decide_eq_true low) (of_decide_eq_true high))
    · intro first second
      rw [Bool.or_eq_true]
      exact (Nat.le_total first second).imp decide_eq_true decide_eq_true
  have apart : (numbers.mergeSort fun first second => decide (first ≤ second)).Nodup :=
    (List.mergeSort_perm _ _).nodup_iff.mpr once
  exact sorted.imp₂ (fun _ _ low different => Nat.lt_of_le_of_ne (of_decide_eq_true low) different) apart

theorem distinct_eq_eraseDups [BEq α] [LawfulBEq α] (members : List α) :
    distinct members = members.eraseDups := by
  induction members using List.reverseRecOn with
  | nil => simp
  | append_singleton members last ih =>
    rw [distinct_concat, List.eraseDups_append, ih]
    by_cases known : last ∈ members
    · simp [List.removeAll, List.mem_eraseDups, known]
    · simp [List.removeAll, List.mem_eraseDups, known, List.eraseDups_cons]

end CallAtlas.Edge

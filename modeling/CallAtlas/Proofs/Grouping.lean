import CallAtlas.Proofs.FirstOccurrence

/-! Gathering by key. Every value is added to the entry with its key, or to a blank entry that is put last. A list of
values leaves one entry for each key, in the order in which the keys first occur, and each entry is what the values of its
own key add up to. -/
namespace CallAtlas

/-- How values are added to entries. An entry keeps the key that it was made with. -/
structure Grouping (Value Key Entry : Type) where
  keyOf : Value → Key
  entryKey : Entry → Key
  blank : Key → Entry
  add : Entry → Value → Entry
  blank_key : ∀ key, entryKey (blank key) = key
  add_key : ∀ entry value, entryKey (add entry value) = entryKey entry

namespace Grouping

variable {Value Key Entry : Type} [DecidableEq Key]
  (grouping : Grouping Value Key Entry)

/-- Adds a value to the first entry with its key, or to a blank one at the end. -/
def insert (value : Value) : List Entry → List Entry
  | [] => [grouping.add (grouping.blank (grouping.keyOf value)) value]
  | entry :: rest =>
    if grouping.entryKey entry = grouping.keyOf value then grouping.add entry value :: rest
    else entry :: insert value rest

/-- What the values of one key add up to. -/
def entryOf (values : List Value) (key : Key) : Entry :=
  (values.filter fun value => decide (grouping.keyOf value = key)).foldl grouping.add (grouping.blank key)

variable {grouping} {values : List Value} {value : Value} {key : Key}

/-- What one more value adds to the entry of a key. -/
theorem entryOf_concat (values : List Value) (value : Value) (key : Key) :
    grouping.entryOf (values ++ [value]) key =
      if grouping.keyOf value = key then grouping.add (grouping.entryOf values key) value
      else grouping.entryOf values key := by
  unfold entryOf
  rw [List.filter_append, List.foldl_append]
  by_cases same : grouping.keyOf value = key
  · simp [same]
  · simp [same]

@[simp]
theorem entryOf_key : grouping.entryKey (grouping.entryOf values key) = key := by
  induction values using List.reverseRecOn with
  | nil => exact grouping.blank_key key
  | append_singleton values value ih =>
    rw [entryOf_concat]
    split
    · rw [grouping.add_key, ih]
    · exact ih

/-- A key without values has a blank entry. -/
theorem entryOf_of_absent (absent : key ∉ values.map grouping.keyOf) :
    grouping.entryOf values key = grouping.blank key := by
  have none : (values.filter fun value => decide (grouping.keyOf value = key)) = [] := by
    apply List.filter_eq_nil_iff.mpr
    intro value present same
    exact absent (List.mem_map.mpr ⟨value, present, of_decide_eq_true same⟩)
  rw [entryOf, none]
  rfl

/-- One value changes the entry with its key, or adds one at the end; every other entry stays. -/
theorem insert_map {entryAt : Key → Entry} (named : ∀ key, grouping.entryKey (entryAt key) = key) {keys : List Key}
    (once : keys.Nodup) :
    grouping.insert value (keys.map entryAt) =
      if grouping.keyOf value ∈ keys then
        keys.map fun key => if grouping.keyOf value = key then grouping.add (entryAt key) value else entryAt key
      else keys.map entryAt ++ [grouping.add (grouping.blank (grouping.keyOf value)) value] := by
  induction keys with
  | nil => simp [insert]
  | cons head rest ih =>
    obtain ⟨absent, onceRest⟩ := List.nodup_cons.mp once
    rw [List.map_cons, insert, named]
    by_cases same : head = grouping.keyOf value
    · have others : rest.map (fun key =>
          if grouping.keyOf value = key then grouping.add (entryAt key) value else entryAt key) = rest.map entryAt := by
        refine List.map_congr_left fun key present => if_neg fun again => ?_
        exact absent (same.trans again ▸ present)
      rw [if_pos same, if_pos (by simp [same]), List.map_cons, if_pos same.symm, others]
    · have apart : ¬ grouping.keyOf value = head := fun again => same again.symm
      rw [if_neg same, ih onceRest, List.map_cons, if_neg apart]
      by_cases present : grouping.keyOf value ∈ rest
      · rw [if_pos present, if_pos (List.mem_cons_of_mem head present)]
      · rw [if_neg present, if_neg (by simp [apart, present]), List.cons_append]

/-- What the gathering of any list of values leaves. -/
theorem foldl_insert (values : List Value) :
    values.foldl (fun entries value => grouping.insert value entries) [] =
      (Edge.distinct (values.map grouping.keyOf)).map (grouping.entryOf values) := by
  induction values using List.reverseRecOn with
  | nil => rfl
  | append_singleton values value ih =>
    have step : grouping.entryOf (values ++ [value]) = fun key =>
        if grouping.keyOf value = key then grouping.add (grouping.entryOf values key) value
        else grouping.entryOf values key := funext fun key => entryOf_concat values value key
    rw [List.foldl_append, List.foldl_cons, List.foldl_nil, ih, insert_map (fun _ => entryOf_key) (Edge.distinct_nodup _),
      List.map_append, List.map_singleton, Edge.distinct_concat, step]
    split
    · rfl
    · rename_i absent
      rw [List.map_append, List.map_singleton, if_pos rfl,
        entryOf_of_absent (fun present => absent (Edge.mem_distinct.mpr present))]
      congr 1
      refine List.map_congr_left fun key present => (if_neg fun same => ?_).symm
      exact absent (same ▸ present)

end Grouping
end CallAtlas

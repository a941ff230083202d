import CallAtlas.Corpus
import CallAtlas.Settings.Codec
import Mathlib.Data.List.Induction
import Mathlib.Data.List.Nodup

/-! Names that a configuration file allows. The table of a file is put in the order of its keys and then rebuilt under
canonical tags, entry after entry. Keys of one language meet in one entry there and the later one replaces the earlier, so
what is left of a language is the list under its greatest key. -/
namespace CallAtlas

namespace Language

theorem name_injective {first second : Language} (same : first.name = second.name) : first = second := by
  rw [← ofName_name first, same, ofName_name]

end Language

namespace Settings

/-- Names by key. -/
abbrev Table := List (String × List String)

/-- No key of the same language is greater. -/
def Prevails (table : Table) (key : String) : Prop :=
  ∀ entry ∈ table, Language.ofTag entry.1 = Language.ofTag key → entry.1 ≤ key

section Placing

variable {tag : String} {names : List String} {known table : Table} {entry : String × List String}

/-- What one placed entry changes for a look-up. -/
theorem find?_placeEntry (other : String) :
    (placeEntry tag names known).find? (fun entry => entry.1 == other) =
      if tag = other then some (tag, names) else known.find? fun entry => entry.1 == other := by
  fun_induction placeEntry tag names known with
  | case1 => by_cases same : tag = other <;> simp [same]
  | case2 head known rest _ => by_cases same : tag = other <;> simp [same]
  | case3 known rest _ => by_cases same : tag = other <;> simp [same]
  | case4 head known rest _ different ih =>
    by_cases found : head = other
    · have apart : tag ≠ other := fun same => different (same.trans found.symm)
      simp [found, apart]
    · simp only [List.find?_cons, beq_eq_false_iff_ne.mpr found, ih]

theorem mem_placeEntry (absent : ∀ entry ∈ known, entry.1 ≠ tag) :
    entry ∈ placeEntry tag names known ↔ entry = (tag, names) ∨ entry ∈ known := by
  fun_induction placeEntry tag names known with
  | case1 => simp
  | case2 head known rest _ => simp
  | case3 known rest _ => exact absurd rfl (absent (_, known) (List.mem_cons_self ..))
  | case4 head known rest _ _ ih =>
    rw [List.mem_cons, ih fun entry present => absent entry (List.mem_cons_of_mem _ present), List.mem_cons]
    exact or_left_comm

theorem placeEntry_ordered (absent : ∀ entry ∈ known, entry.1 ≠ tag)
    (ordered : known.Pairwise fun first second => first.1 < second.1) :
    (placeEntry tag names known).Pairwise fun first second => first.1 < second.1 := by
  fun_induction placeEntry tag names known with
  | case1 => exact List.pairwise_singleton _ _
  | case2 head known rest low =>
    obtain ⟨above, _⟩ := List.pairwise_cons.mp ordered
    refine List.pairwise_cons.mpr ⟨fun other present => ?_, ordered⟩
    rcases List.mem_cons.mp present with rfl | later
    · exact low
    · exact String.lt_trans low (above other later)
  | case3 known rest _ => exact absurd rfl (absent (_, known) (List.mem_cons_self ..))
  | case4 head known rest notLow different ih =>
    obtain ⟨above, later⟩ := List.pairwise_cons.mp ordered
    have others : ∀ entry ∈ rest, entry.1 ≠ tag := fun entry present =>
      absent entry (List.mem_cons_of_mem _ present)
    refine List.pairwise_cons.mpr ⟨fun other present => ?_, ih others later⟩
    rcases (mem_placeEntry others).mp present with rfl | known
    · exact Classical.not_not.mp fun notAbove =>
        different (String.le_antisymm (String.not_lt.mp notAbove) (String.not_lt.mp notLow))
    · exact above other known

/-- The entries of a table in the order of their keys. -/
def sorted (table : Table) : Table := table.foldl (fun known (tag, names) => placeEntry tag names known) []

theorem sorted_concat (table : Table) (entry : String × List String) :
    sorted (table ++ [entry]) = placeEntry entry.1 entry.2 (sorted table) := by
  rw [sorted, List.foldl_append]
  rfl

theorem mem_sorted_and_ordered (keys : (table.map (·.1)).Nodup) :
    (∀ entry, entry ∈ sorted table ↔ entry ∈ table) ∧
      (sorted table).Pairwise fun first second => first.1 < second.1 := by
  induction table using List.reverseRecOn with
  | nil => exact ⟨fun _ => Iff.rfl, .nil⟩
  | append_singleton table last ih =>
    rw [List.map_append, List.nodup_append] at keys
    obtain ⟨own, _, apart⟩ := keys
    obtain ⟨members, ordered⟩ := ih own
    have absent : ∀ entry ∈ sorted table, entry.1 ≠ last.1 := fun entry present =>
      apart entry.1 (List.mem_map_of_mem ((members entry).mp present)) last.1 (List.mem_singleton_self _)
    rw [sorted_concat]
    refine ⟨fun entry => ?_, placeEntry_ordered absent ordered⟩
    rw [mem_placeEntry absent, members, List.mem_append, List.mem_singleton, or_comm]

end Placing

section Canonical

variable {table : Table} {language : Language}

theorem canonicalAllowlist_concat (table : Table) (entry : String × List String) :
    canonicalAllowlist (table ++ [entry]) =
      placeEntry (Language.ofTag entry.1).name entry.2 (canonicalAllowlist table) := by
  rw [canonicalAllowlist, List.foldl_append]
  rfl

/-- A language keeps the names of its last entry. -/
theorem find?_canonicalAllowlist (table : Table) (language : Language) :
    ((canonicalAllowlist table).find? fun entry => entry.1 == language.name).map (·.2) =
      (table.filter fun entry => Language.ofTag entry.1 = language).getLast?.map (·.2) := by
  induction table using List.reverseRecOn with
  | nil => rfl
  | append_singleton table last ih =>
    rw [canonicalAllowlist_concat, find?_placeEntry, List.filter_append]
    by_cases same : Language.ofTag last.1 = language
    · rw [if_pos (congrArg Language.name same)]
      simp [same]
    · rw [if_neg fun equal => same (Language.name_injective equal), ih]
      simp [same]

/-- In ascending order the last entry is the one with the greatest key. -/
theorem getLast?_eq_some_iff_greatest {entry : String × List String}
    (ordered : table.Pairwise fun first second => first.1 < second.1) :
    table.getLast? = some entry ↔ entry ∈ table ∧ ∀ other ∈ table, other.1 ≤ entry.1 := by
  rcases List.eq_nil_or_concat table with rfl | ⟨front, last, rfl⟩
  · simp
  · rw [List.concat_eq_append] at ordered ⊢
    obtain ⟨_, _, below⟩ := List.pairwise_append.mp ordered
    have below : ∀ other ∈ front, other.1 < last.1 := fun other present =>
      below other present last (List.mem_singleton_self _)
    rw [List.getLast?_concat, Option.some_inj]
    constructor
    · rintro rfl
      refine ⟨by simp, fun other present => ?_⟩
      rcases List.mem_append.mp present with earlier | final
      · exact String.not_lt.mp (String.lt_asymm (below other earlier))
      · cases List.mem_singleton.mp final
        exact String.le_refl _
    · rintro ⟨present, greatest⟩
      rcases List.mem_append.mp present with earlier | final
      · exact absurd (below entry earlier) (String.not_lt.mpr (greatest last (by simp)))
      · exact (List.mem_singleton.mp final).symm

/-- The last entry of a language is the one whose key prevails. -/
theorem getLast?_filter_eq_some {entry : String × List String}
    (ordered : table.Pairwise fun first second => first.1 < second.1) :
    (table.filter fun entry => Language.ofTag entry.1 = language).getLast? = some entry ↔
      entry ∈ table ∧ Language.ofTag entry.1 = language ∧ Prevails table entry.1 := by
  rw [getLast?_eq_some_iff_greatest (ordered.filter _)]
  simp only [List.mem_filter, decide_eq_true_eq, Prevails, and_assoc, and_imp]
  exact and_congr_right fun _ => and_congr_right fun own => own ▸ Iff.rfl

end Canonical

section Loading

variable {settings : Settings} {table : Table} {root : List (String × Json)} {environment : Environment}

/-- The value of a table of names. -/
def Table.json (table : Table) : Json := .object (table.map fun entry => (entry.1, Json.strings entry.2))

theorem list?_strings (names : List String) : Json.list? Json.string? (Json.strings names) = some names := by
  rw [Json.strings, Json.list?]
  induction names with
  | nil => rfl
  | cons name names ih =>
    rw [List.map_cons, List.mapM_cons, ih]
    rfl

theorem readAllowlist?_json (table : Table) (settings : Settings) :
    readAllowlist? settings table.json = some { settings with allowlist := sorted table } := by
  have entries (table : Table) : (table.map fun entry => (entry.1, Json.strings entry.2)).mapM
      (fun field => do return (field.1, ← Json.list? Json.string? field.2)) = some table := by
    induction table with
    | nil => rfl
    | cons entry table ih =>
      rw [List.map_cons, List.mapM_cons, ih, list?_strings]
      rfl
  have read : readAllowlist? settings table.json =
      some table >>= fun entries => pure { settings with allowlist := sorted entries } := by
    rw [← entries table]
    rfl
  exact read

/-- A member that satisfies a test alone is the one that is found. -/
theorem find?_of_countP_le_one {α : Type} {test : α → Bool} {members : List α} {member : α}
    (single : members.countP test ≤ 1) (present : member ∈ members) (holds : test member = true) :
    members.find? test = some member := by
  induction members with
  | nil => cases present
  | cons head rest ih =>
    rcases List.mem_cons.mp present with rfl | later
    · exact List.find?_cons_of_pos holds
    · have counted : 0 < rest.countP test := List.countP_pos_iff.mpr ⟨member, later, holds⟩
      have other : ¬ test head = true := fun first => by
        rw [List.countP_cons_of_pos first] at single
        omega
      rw [List.countP_cons_of_neg other] at single
      rw [List.find?_cons_of_neg other]
      exact ih single later

/-- Whatever else a file holds, its allowlist is read from the one field of that name. -/
theorem readAllowlist?_of_read? {value : Json} (read : read? (.object root) = some settings)
    (listed : ("allowlist", value) ∈ root) : ∃ earlier, readAllowlist? earlier value = some settings := by
  rw [read?, Json.record?] at read
  split at read
  case h_2 => cases read
  case h_1 scan graph analysis allowlist fields =>
    split at fields
    · cases fields
    · rename_i repeated
      have single : root.countP (fun field => field.1 == "allowlist") ≤ 1 :=
        Nat.not_lt.mp fun more => repeated (List.any_eq_true.mpr ⟨"allowlist", by simp, by simpa using more⟩)
      have found := find?_of_countP_le_one single listed (by simp)
      have own : allowlist = some value := by
        simp only [List.map_cons, List.map_nil, Option.some.injEq, List.cons.injEq, found] at fields
        exact fields.2.2.2.1.symm
      simp only [own, part?, Option.bind_eq_bind, Option.bind_eq_some_iff] at read
      obtain ⟨_, _, _, _, earlier, _, last⟩ := read
      exact ⟨earlier, last⟩

theorem allowlist_of_prepare {prepared : Settings} (kept : prepare environment settings = .ok prepared) :
    prepared.allowlist = canonicalAllowlist settings.allowlist := by
  rw [prepare, validate] at kept
  split at kept
  · cases kept
  · split at kept
    · cases kept
    · cases kept
      rfl

theorem eq_ok_of_toOption {loaded : Except LoadFault Settings} (found : loaded.toOption = some settings) :
    loaded = .ok settings := by
  cases loaded with
  | error fault => cases found
  | ok other => rw [Option.some.inj found]

theorem allowlist_of_load {text : String} {parse? : String → Option Json} (parsed : parse? text = some (.object root))
    (listed : ("allowlist", table.json) ∈ root) (loaded : load (some text) environment parse? = .ok settings) :
    settings.allowlist = canonicalAllowlist (sorted table) := by
  rw [load, parsed] at loaded
  cases read : read? (.object root) with
  | none =>
    simp only [Option.bind_some, read] at loaded
    cases loaded
  | some found =>
    obtain ⟨earlier, placed⟩ := readAllowlist?_of_read? read listed
    rw [readAllowlist?_json, Option.some_inj] at placed
    simp only [Option.bind_some, read, bind, Except.bind] at loaded
    cases prepared : prepare environment found with
    | error fault =>
      rw [prepared] at loaded
      cases loaded
    | ok result =>
      rw [prepared] at loaded
      cases loaded
      rw [allowlist_of_prepare prepared, ← placed]

end Loading

section Allowed

variable {settings : Settings} {table : Table} {language : Language} {name : String}

theorem mem_extraNames (kept : settings.allowlist = canonicalAllowlist (sorted table))
    (keys : (table.map (·.1)).Nodup) :
    name ∈ settings.extraNames language ↔
      ∃ entry ∈ table, Language.ofTag entry.1 = language ∧ Prevails table entry.1 ∧ name ∈ entry.2 := by
  obtain ⟨members, ordered⟩ := mem_sorted_and_ordered keys
  have last (entry : String × List String) :
      ((sorted table).filter fun entry => Language.ofTag entry.1 = language).getLast? = some entry ↔
        entry ∈ table ∧ Language.ofTag entry.1 = language ∧ Prevails table entry.1 := by
    simp only [getLast?_filter_eq_some ordered, Prevails, members]
  rw [extraNames, kept, find?_canonicalAllowlist]
  cases found : ((sorted table).filter fun entry => Language.ofTag entry.1 = language).getLast? with
  | none =>
    constructor
    · intro nothing
      cases nothing
    · rintro ⟨entry, present, own, prevails, _⟩
      rw [(last entry).mpr ⟨present, own, prevails⟩] at found
      cases found
  | some entry =>
    constructor
    · intro allowed
      obtain ⟨present, own, prevails⟩ := (last entry).mp found
      exact ⟨entry, present, own, prevails, allowed⟩
    · rintro ⟨other, present, own, prevails, allowed⟩
      rw [(last other).mpr ⟨present, own, prevails⟩, Option.some_inj] at found
      exact found ▸ allowed

theorem exists_prevails (keys : (table.map (·.1)).Nodup) {entry : String × List String} (present : entry ∈ table) :
    ∃ last ∈ table, Language.ofTag last.1 = Language.ofTag entry.1 ∧ Prevails table last.1 := by
  obtain ⟨members, ordered⟩ := mem_sorted_and_ordered keys
  have filled : (sorted table).filter (fun other => Language.ofTag other.1 = Language.ofTag entry.1) ≠ [] :=
    List.ne_nil_of_mem (List.mem_filter.mpr ⟨(members entry).mpr present, by simp⟩)
  obtain ⟨inside, own, prevails⟩ := (getLast?_filter_eq_some ordered).mp (List.getLast?_eq_some_getLast filled)
  exact ⟨_, (members _).mp inside, own, fun other present => prevails other ((members other).mpr present)⟩

theorem prevails_unique (keys : (table.map (·.1)).Nodup) {first second : String × List String}
    (member : first ∈ table) (present : second ∈ table) (same : Language.ofTag first.1 = Language.ofTag second.1)
    (prevails : Prevails table first.1) (greatest : Prevails table second.1) : first = second :=
  List.inj_on_of_nodup_map keys member present
    (String.le_antisymm (greatest first member same) (prevails second present same.symm))

/-- The vocabularies of the extractors, each with the languages whose names it allows. -/
def gates (parse? : Script.Tree.Parser) (settings : Settings) : List (Vocabulary × List Language) :=
  [(settings.ruby.vocabulary, [.ruby]), (settings.template, [.ruby, .erb]),
   ((settings.script parse?).vocabulary, [.javascript, .typescript, .tsx])]

theorem extra_of_mem_gates {parse? : Script.Tree.Parser} {gate : Vocabulary × List Language}
    (present : gate ∈ settings.gates parse?) : gate.1.extra = gate.2.flatMap settings.extraNames := by
  simp only [gates, List.mem_cons, List.not_mem_nil, or_false] at present
  rcases present with rfl | rfl | rfl
  · simp [ruby]
  · rfl
  · rfl

end Allowed

/-- The names that the table of a configuration file allows, whatever reads the file. A language keeps the list under the
greatest of its keys and no other, so a key keeps all its names exactly when that list holds them; and the words that a
gate accepts are those that are not empty or reserved and that the corpus or the file defines, the framework offers or a
kept list of its languages holds. -/
theorem load_allowed_names {text : String} {root : List (String × Json)} {table : Table} {environment : Environment}
    {settings : Settings} (parse? : String → Option Json) (tree? : Script.Tree.Parser) (keys : (table.map (·.1)).Nodup)
    (parsed : parse? text = some (.object root)) (listed : ("allowlist", table.json) ∈ root)
    (loaded : load (some text) environment parse? = .ok settings) :
    (∀ language name, name ∈ settings.extraNames language ↔
      ∃ entry ∈ table, Language.ofTag entry.1 = language ∧ Prevails table entry.1 ∧ name ∈ entry.2) ∧
    (∀ entry ∈ table,
      (∀ name ∈ entry.2, name ∈ settings.extraNames (Language.ofTag entry.1)) ↔
        ∀ last ∈ table, Language.ofTag last.1 = Language.ofTag entry.1 → Prevails table last.1 → entry.2 ⊆ last.2) ∧
    (∀ gate ∈ settings.gates tree?, ∀ corpus file name,
      (Acceptance.mk gate.1 corpus file).accepts name = true ↔
        name ≠ "" ∧ gate.1.excludes name = false ∧
          (corpus.contains name = true ∨ file.contains name = true ∨ isAllowed gate.1.language name = true ∨
            ∃ entry ∈ table, Language.ofTag entry.1 ∈ gate.2 ∧ Prevails table entry.1 ∧ name ∈ entry.2)) := by
  have kept {language : Language} {name : String} :=
    @mem_extraNames settings table language name (allowlist_of_load parsed listed loaded) keys
  refine ⟨fun _ _ => kept, fun entry present => ⟨fun all last member same prevails name own => ?_,
    fun contained name own => ?_⟩, fun gate present corpus file name => ?_⟩
  · obtain ⟨other, inside, alike, greatest, allowed⟩ := kept.mp (all name own)
    rwa [prevails_unique keys member inside (same.trans alike.symm) prevails greatest]
  · obtain ⟨last, member, same, prevails⟩ := exists_prevails keys present
    exact kept.mpr ⟨last, member, same, prevails, contained last member same prevails own⟩
  · have extra : name ∈ gate.1.extra ↔
        ∃ entry ∈ table, Language.ofTag entry.1 ∈ gate.2 ∧ Prevails table entry.1 ∧ name ∈ entry.2 := by
      simp only [extra_of_mem_gates present, List.mem_flatMap, kept]
      constructor
      · rintro ⟨language, shared, entry, inside, rfl, rest⟩
        exact ⟨entry, inside, shared, rest⟩
      · rintro ⟨entry, inside, shared, rest⟩
        exact ⟨_, shared, entry, inside, rfl, rest⟩
    rw [← extra]
    simp [Acceptance.accepts, Vocabulary.allows, and_assoc, or_assoc]

/-- Two keys of one language and one of another in a short form and in capitals. -/
def severalKeys : String := "[allowlist]\nruby = [\"b\", \"c\"]\nTS = [\"track\"]\nrb = [\"a\", \"b\"]\n"

theorem load_allowed_names_several :
    Toml.parse? severalKeys =
      some (.object [("allowlist", Table.json [("ruby", ["b", "c"]), ("TS", ["track"]), ("rb", ["a", "b"])])]) ∧
    load (some severalKeys) [] Toml.parse? = .ok { allowlist := [("ruby", ["b", "c"]), ("typescript", ["track"])] } ∧
    ∀ language name, name ∈ ({ allowlist := [("ruby", ["b", "c"]), ("typescript", ["track"])] } : Settings).extraNames
      language ↔ ∃ entry ∈ [("ruby", ["b", "c"]), ("TS", ["track"]), ("rb", ["a", "b"])],
        Language.ofTag entry.1 = language ∧
          Prevails [("ruby", ["b", "c"]), ("TS", ["track"]), ("rb", ["a", "b"])] entry.1 ∧ name ∈ entry.2 := by
  have parsed : Toml.parse? severalKeys =
      some (.object [("allowlist", Table.json [("ruby", ["b", "c"]), ("TS", ["track"]), ("rb", ["a", "b"])])]) := by
    decide +kernel
  have result : (load (some severalKeys) [] Toml.parse?).toOption =
      some { allowlist := [("ruby", ["b", "c"]), ("typescript", ["track"])] } := by decide +kernel
  have loaded := eq_ok_of_toOption result
  exact ⟨parsed, loaded,
    (load_allowed_names Toml.parse? Script.Tree.parse? (by decide) parsed (List.mem_singleton_self _) loaded).1⟩

/-- Under a short form and the full tag of one language, the names of the short form are lost. -/
theorem load_loses_short_form :
    (load (some "[allowlist]\nrb = [\"a\"]\nruby = [\"b\"]\n") [] Toml.parse?).toOption.map (fun settings =>
      (settings.extraNames (Language.ofTag "rb"),
        (Acceptance.mk settings.ruby.vocabulary .empty .empty).accepts "a")) = some (["b"], false) := by
  decide +kernel

end Settings
end CallAtlas

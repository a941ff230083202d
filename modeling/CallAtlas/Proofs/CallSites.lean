import CallAtlas.Proofs.CallNames
import CallAtlas.Proofs.Phases
import Mathlib.Data.List.Infix
import Mathlib.Data.List.Nodup

/-! Call sites are sound. A call site names an identifier that stands in the code of its line, is free to be called
and is known; it quotes its line; and it is given to one definition, the innermost callable one around the line. -/
namespace CallAtlas

/-- What a call site of a file says is so. Names are known from the corpus, from the definitions and imports of the
file, or from the words that are always allowed; `shown` says of a line and its text how a name has to stand there. -/
structure CallSite.Sound (supports : Language → Bool) (vocabulary : Vocabulary) (limits : Limits) (file : SourceFile)
    (registry : Registry) (shown : (line : Nat) → (text name : List Char) → Prop) (definitions : List Definition)
    (call : CallSite) : Prop where
  named : call.callee ≠ ""
  free : ∀ language, supports language = true → isKeyword language call.callee = false ∧
    isBuiltin language call.callee = false ∧ isControl language call.callee = false
  known : call.callee ∈ registry ∨
    (∃ definition ∈ definitions, definition.kind.isResolvable = true ∧ definition.name = call.callee) ∨
    (∃ definition ∈ definitions, definition.kind = .importRecord ∧ call.callee ∈ definition.bindings) ∨
    vocabulary.allows call.callee = true
  starts : 1 ≤ call.line
  quoted : ∃ text, file.sourceLines[call.line - 1]? = some text ∧
    call.snippet = String.ofList (Text.snippet limits.snippetLength text) ∧ shown call.line text call.callee.toList

/-- Definitions of a file whose call sites are sound, belong to them, and are not told twice. -/
structure SoundCalls (supports : Language → Bool) (vocabulary : Vocabulary) (limits : Limits) (file : SourceFile)
    (registry : Registry) (shown : (line : Nat) → (text name : List Char) → Prop) (definitions : List Definition) :
    Prop where
  sound : ∀ definition ∈ definitions, ∀ call ∈ definition.calls,
    call.Sound supports vocabulary limits file registry shown definitions
  owned : ∀ definition ∈ definitions, ∀ call ∈ definition.calls,
    definition.kind.isCallable = true ∧ definition.startLine ≤ call.line ∧ call.line ≤ definition.endLine
  silent : ∀ definition ∈ definitions,
    definition.kind ∈ [.classType, .interfaceType, .enumeration, .typeAlias, .importRecord, .exportRecord] →
      definition.calls = []
  once : ((definitions.flatMap (·.calls)).map fun call => (call.callee, call.line)).Nodup

/-- A name stands in the code of a line: at one column of the cleaned line, and of its source. -/
def Blanking.Shown (isName : List Char → Prop) (continues : Char → Bool) (lines : List Line) (line : Nat)
    (text name : List Char) : Prop :=
  isName name ∧ ∃ cleaned column, lines[line - 1]? = some ⟨text, cleaned⟩ ∧
    Text.StandsAt continues name column cleaned ∧ name <+: text.drop column

theorem Blanking.Shown.text_eq {isName : List Char → Prop} {continues : Char → Bool} {language : Language}
    {lines : List (List Char)} {line : Nat} {text name : List Char}
    (shown : Shown isName continues (pairLines language lines) line text name) : lines[line - 1]? = some text := by
  obtain ⟨_, cleaned, _, listed, _⟩ := shown
  nth_rewrite 1 [← pairLines_raw language lines]
  rw [List.getElem?_map, listed]
  rfl

theorem Definition.addCalls_once {definition : Definition} (calls : List CallSite)
    (once : (definition.calls.map fun call => (call.callee, call.line)).Nodup) :
    ((definition.addCalls calls).calls.map fun call => (call.callee, call.line)).Nodup := by
  induction calls generalizing definition with
  | nil => exact once
  | cons call rest ih =>
    rw [addCalls_cons]
    apply ih
    rw [addCall]
    split
    · exact once
    · rename_i fresh
      rw [List.map_append, List.map_singleton]
      refine List.nodup_append.mpr ⟨once, List.nodup_singleton _, ?_⟩
      rintro key listed other same rfl
      obtain ⟨known, present, equal⟩ := List.mem_map.mp listed
      rw [List.mem_singleton.mp same] at equal
      obtain ⟨sameCallee, sameLine⟩ := Prod.mk.inj equal
      exact fresh (records_iff.mpr ⟨known, present, sameLine, sameCallee⟩)

/-- Where every line has one owner, no call site is told by two definitions. -/
theorem once_of_owner {definitions : List Definition} (owner : Nat → Option Nat)
    (own : ∀ index definition, definitions[index]? = some definition →
      ∀ call ∈ definition.calls, owner call.line = some index)
    (each : ∀ definition ∈ definitions, (definition.calls.map fun call => (call.callee, call.line)).Nodup) :
    ((definitions.flatMap (·.calls)).map fun call => (call.callee, call.line)).Nodup := by
  rw [List.map_flatMap]
  refine List.nodup_flatMap.mpr ⟨each, List.pairwise_iff_getElem.mpr fun first second low high before => ?_⟩
  intro key here there
  obtain ⟨call, present, rfl⟩ := List.mem_map.mp here
  obtain ⟨other, also, same⟩ := List.mem_map.mp there
  have left := own first _ (List.getElem?_eq_getElem low) call present
  have right := own second _ (List.getElem?_eq_getElem high) other also
  rw [(Prod.mk.inj same).2, left] at right
  exact absurd (Option.some.inj right) (Nat.ne_of_lt before)

section
variable {supports : Language → Bool} {vocabulary : Vocabulary} {limits : Limits} {file : SourceFile}
  {registry : Registry} {shown : Nat → List Char → List Char → Prop}

theorem SoundCalls.nil : SoundCalls supports vocabulary limits file registry shown [] :=
  ⟨by simp, by simp, by simp, by simp⟩

section
variable {α : Type} {members : List α} {base : α → Definition} {sites : Nat → α → List CallSite}

/-- A definition that was given call sites has no others if it had none before. -/
theorem exists_of_getElem?_addCalls (clear : ∀ member ∈ members, (base member).calls = []) {index : Nat}
    {definition : Definition}
    (found : (members.mapIdx fun index member => (base member).addCalls (sites index member))[index]? =
      some definition) :
    ∃ member, members[index]? = some member ∧ definition = (base member).addCalls (sites index member) ∧
      ∀ call ∈ definition.calls, call ∈ sites index member := by
  rw [List.getElem?_mapIdx] at found
  obtain ⟨member, present, rfl⟩ := Option.map_eq_some_iff.mp found
  refine ⟨member, present, rfl, fun call added => ?_⟩
  rcases Definition.mem_addCalls added with known | new
  · rw [clear member (List.mem_of_getElem? present)] at known
    cases known
  · exact new

theorem exists_addCalls {holds : Definition → Prop}
    (kept : ∀ definition calls, holds definition → holds (definition.addCalls calls))
    (known : ∃ definition ∈ members.map base, holds definition) :
    ∃ definition ∈ members.mapIdx fun index member => (base member).addCalls (sites index member),
      holds definition := by
  obtain ⟨definition, own, held⟩ := known
  obtain ⟨member, present, rfl⟩ := List.mem_map.mp own
  obtain ⟨index, inside, rfl⟩ := List.mem_iff_getElem.mp present
  exact ⟨_, List.mem_mapIdx.mpr ⟨index, inside, rfl⟩, kept _ _ held⟩

/-- A name stays known, since call sites change neither names nor kinds nor bindings of definitions. -/
theorem CallSite.Sound.addCalls {call : CallSite}
    (sound : call.Sound supports vocabulary limits file registry shown (members.map base)) :
    call.Sound supports vocabulary limits file registry shown
      (members.mapIdx fun index member => (base member).addCalls (sites index member)) := by
  refine { sound with known := ?_ }
  refine sound.known.imp_right (Or.imp (exists_addCalls ?_) (Or.imp_left (exists_addCalls ?_)))
  · intro definition calls held
    rw [Definition.addCalls_eq]
    exact held
  · intro definition calls held
    rw [Definition.addCalls_eq]
    exact held

variable (clear : ∀ member ∈ members, (base member).calls = [])
  (owner : ∀ index member, members[index]? = some member → ∀ call ∈ sites index member,
    innermostCallable? (members.map base) call.line = some index)
include clear owner

theorem callable_of_owner {definition : Definition}
    (listed : definition ∈ members.mapIdx fun index member => (base member).addCalls (sites index member))
    {call : CallSite} (added : call ∈ definition.calls) :
    definition.kind.isCallable = true ∧ definition.containsLine call.line = true := by
  obtain ⟨index, found⟩ := List.mem_iff_getElem?.mp listed
  obtain ⟨member, present, rfl, fromSites⟩ := exists_of_getElem?_addCalls clear found
  obtain ⟨other, chosen, callable, contains⟩ :=
    innermostCallable?_contains (owner index member present call (fromSites call added))
  rw [List.getElem?_map, present] at chosen
  cases chosen
  rw [Definition.addCalls_eq]
  exact ⟨callable, contains⟩

/-- Sound call sites make sound definitions when each is given to the innermost callable definition around its
line. -/
theorem SoundCalls.of_owner
    (sound : ∀ index member, members[index]? = some member → ∀ call ∈ sites index member,
      call.Sound supports vocabulary limits file registry shown (members.map base)) :
    SoundCalls supports vocabulary limits file registry shown
      (members.mapIdx fun index member => (base member).addCalls (sites index member)) := by
  refine ⟨fun definition listed call added => ?_, fun definition listed call added => ?_,
    fun definition listed kind => ?_, ?_⟩
  · obtain ⟨index, found⟩ := List.mem_iff_getElem?.mp listed
    obtain ⟨member, present, rfl, fromSites⟩ := exists_of_getElem?_addCalls clear found
    exact (sound index member present call (fromSites call added)).addCalls
  · obtain ⟨callable, contains⟩ := callable_of_owner clear owner listed added
    exact ⟨callable, by simpa [Definition.containsLine] using contains⟩
  · apply List.eq_nil_iff_forall_not_mem.mpr
    intro call added
    have callable := (callable_of_owner clear owner listed added).1
    simp only [List.mem_cons, List.not_mem_nil, or_false] at kind
    rcases kind with same | same | same | same | same | same <;> rw [same] at callable <;> cases callable
  · refine once_of_owner (innermostCallable? (members.map base)) (fun index definition found call added => ?_)
      fun definition listed => ?_
    · obtain ⟨member, present, rfl, fromSites⟩ := exists_of_getElem?_addCalls clear found
      exact owner index member present call (fromSites call added)
    · obtain ⟨index, found⟩ := List.mem_iff_getElem?.mp listed
      obtain ⟨member, present, rfl, _⟩ := exists_of_getElem?_addCalls clear found
      refine Definition.addCalls_once _ ?_
      rw [clear member (List.mem_of_getElem? present)]
      exact List.nodup_nil

end
end

theorem Acceptance.of_accepts {acceptance : Acceptance} {name : String} (accepted : acceptance.accepts name = true) :
    name ≠ "" ∧ acceptance.vocabulary.excludes name = false ∧
      (name ∈ acceptance.corpus ∨ name ∈ acceptance.file ∨ acceptance.vocabulary.allows name = true) := by
  simp only [accepts, Bool.and_eq_true, Bool.or_eq_true, bne_iff_ne, Bool.not_eq_true', Registry.contains_iff,
    or_assoc] at accepted
  exact ⟨accepted.1.1, accepted.1.2, accepted.2⟩

/-- What a vocabulary excludes is reserved in all languages with the same words. -/
theorem Vocabulary.reserved_of_excludes {vocabulary : Vocabulary} {language : Language} {name : String}
    (same : WordTable.of? language = WordTable.of? vocabulary.language) (free : vocabulary.excludes name = false) :
    isKeyword language name = false ∧ isBuiltin language name = false ∧ isControl language name = false := by
  simp only [excludes, Bool.or_eq_false_iff, and_assoc] at free
  simp only [isKeyword, isBuiltin, isControl, same] at free ⊢
  exact free

namespace Ruby

open Blanking (Line)
open Token (continuesName)

/-- Names of calls in the code of a Ruby file. -/
abbrev Shown (file : SourceFile) : Nat → List Char → List Char → Prop :=
  Blanking.Shown IsCallName continuesName (linesOf file)

namespace Reader

variable {file : SourceFile}

theorem mem_callsFrom {limits : Limits} {accepts : String → Bool} {owned : Nat → Bool} {locals : List String}
    {number : Nat} {lines : List (List Char × List Char)} {call : CallSite}
    (member : call ∈ callsFrom limits accepts owned locals number lines) :
    ∃ offset raw text, lines[offset]? = some (raw, text) ∧ call.line = number + offset ∧ owned call.line = true ∧
      call.snippet = String.ofList (Text.snippet limits.snippetLength raw) ∧
      ∃ known, call.callee ∈ callNames accepts known text := by
  induction lines generalizing locals number with
  | nil => cases member
  | cons line rest ih =>
    have later {locals : List String}
        (member : call ∈ callsFrom limits accepts owned locals (number + 1) rest) :
        ∃ offset raw text, (line :: rest)[offset]? = some (raw, text) ∧ call.line = number + offset ∧
          owned call.line = true ∧ call.snippet = String.ofList (Text.snippet limits.snippetLength raw) ∧
          ∃ known, call.callee ∈ callNames accepts known text := by
      obtain ⟨offset, raw, text, present, position, holds⟩ := ih member
      exact ⟨offset + 1, raw, text, present, by omega, holds⟩
    simp only [callsFrom] at member
    split at member
    · rename_i own
      rcases List.mem_append.mp member with here | member
      · obtain ⟨name, called, rfl⟩ := List.mem_map.mp here
        exact ⟨0, line.1, line.2, rfl, rfl, own, rfl, locals, called⟩
      · exact later member
    · exact later member

/-- The lines of a method are searched as they are cleaned, but the first one only behind the header. -/
theorem searchedLines_getElem? {lines : List Line} {found : Found} {offset : Nat} {raw text : List Char}
    (here : (searchedLines lines found)[offset]? = some (raw, text)) :
    ∃ line, lines[found.definition.startLine - 1 + offset]? = some line ∧ line.raw = raw ∧
      (text = line.cleaned ∨ offset = 0 ∧ text = found.body) := by
  have inner : ∀ {line : Line},
      ((lines.take found.definition.endLine).drop (found.definition.startLine - 1))[offset]? = some line →
        lines[found.definition.startLine - 1 + offset]? = some line := by
    intro line listed
    rw [List.getElem?_drop, List.getElem?_take] at listed
    split at listed
    · exact listed
    · cases listed
  unfold searchedLines at here
  split at here
  · cases here
  · rename_i first rest same
    rw [same] at inner
    cases offset with
    | zero =>
      cases here
      exact ⟨first, inner rfl, rfl, .inr ⟨rfl, rfl⟩⟩
    | succ offset =>
      rw [List.getElem?_cons_succ, List.getElem?_map] at here
      obtain ⟨line, listed, same⟩ := Option.map_eq_some_iff.mp here
      cases same
      exact ⟨line, inner listed, rfl, .inl rfl⟩

/-- What is found on a line of a method stands in the code of that line. -/
theorem shown_of_searched (reader : Reader) {found : Found} (member : found ∈ reader.findMethods file)
    {offset column : Nat} {raw text name : List Char} (isName : IsCallName name)
    (here : (searchedLines (linesOf file) found)[offset]? = some (raw, text))
    (stands : Text.StandsAt continuesName name column text) :
    Shown file (found.definition.startLine + offset) raw name := by
  have starts := (reader.findMethods_located file member).starts
  obtain ⟨line, listed, rfl, searched⟩ := searchedLines_getElem? here
  have shadows : Blanking.Shadows line.cleaned line.raw :=
    Blanking.pairLines_shadows (List.mem_of_getElem? listed)
  have cleaned : ∃ place, Text.StandsAt continuesName name place line.cleaned := by
    rcases searched with rfl | ⟨rfl, rfl⟩
    · exact ⟨column, stands⟩
    · obtain ⟨front, first, rest, scope, header, split, read, visibility, rfl⟩ := mem_methodsOf member
      have same : first = line := by
        simpa [methodAt, split] using listed
      exact same ▸ standsAt_of_header isName read stands
  obtain ⟨place, kept⟩ := cleaned
  have position : found.definition.startLine - 1 + offset = found.definition.startLine + offset - 1 := by omega
  exact ⟨isName, line.cleaned, place, position ▸ listed, kept, shadows.isPrefix_drop isName.visible kept.here⟩

theorem analyze_soundCalls (reader : Reader) (file : SourceFile) (registry : Registry)
    (ruby : reader.vocabulary.language = .ruby) :
    SoundCalls (· == .ruby) reader.vocabulary reader.limits file registry (Shown file)
      (reader.analyze file registry).definitions := by
  have located : ∀ found ∈ reader.findMethods file, found.definition.Located file.path 0 file.lineLimit :=
    fun found member => reader.findMethods_located file member
  refine SoundCalls.of_owner (fun found member => (located found member).calls)
    (fun index found present call added => ?_) fun index found present call added => ?_
  · obtain ⟨_, _, _, _, _, own, _⟩ := mem_callsFrom added
    exact beq_iff_eq.mp own
  · have member := List.mem_of_getElem? present
    obtain ⟨offset, raw, text, here, position, _, quotes, known, called⟩ := mem_callsFrom added
    obtain ⟨accepted, isName, column, stands⟩ := mem_callNames called
    obtain ⟨named, free, known⟩ := Acceptance.of_accepts accepted
    have shown := reader.shown_of_searched member isName here stands
    rw [← position] at shown
    refine ⟨named, fun language same => ?_, ?_, ?_, raw, ?_, quotes, shown⟩
    · refine Vocabulary.reserved_of_excludes ?_ free
      rw [beq_iff_eq.mp same]
      exact congrArg WordTable.of? ruby.symm
    · exact known.imp_right (Or.imp Registry.mem_ofDefinitions.mp .inr)
    · have := (located found member).starts
      omega
    · exact shown.text_eq

end Reader
end Ruby

namespace Script

/-- Names of calls in the code of a script. -/
abbrev Shown (file : SourceFile) : Nat → List Char → List Char → Prop :=
  Blanking.Shown IsIdentifier joinsIdentifier (Blanking.pairLines file.language file.sourceLines)

variable {file : SourceFile}

/-- A candidate of the outline stands in the code of its line. -/
theorem Outline.shown_of_candidate {limits : Limits} {candidate : Candidate} {text : List Char}
    (member : candidate ∈ (scan file limits).candidates)
    (here : file.sourceLines[candidate.line - 1]? = some text) :
    1 ≤ candidate.line ∧ Shown file candidate.line text candidate.name.toList := by
  obtain ⟨offset, line, headers, listed, found⟩ := mem_read_candidates member
  obtain ⟨position, isName, column, stands⟩ := mem_candidatesOn found
  have shadows := Blanking.pairLines_shadows (List.mem_of_getElem? listed)
  have place : candidate.line - 1 = offset := by omega
  have same : line.raw = text := by
    rw [place, ← Blanking.pairLines_raw file.language file.sourceLines, List.getElem?_map, listed] at here
    exact Option.some.inj here
  subst same
  exact ⟨by omega, isName, line.cleaned, column, place ▸ listed, stands,
    shadows.isPrefix_drop isName.visible stands.here⟩

namespace Reader

theorem mem_importedNames {definitions : List Definition} {name : String}
    (member : name ∈ (importedNames definitions).map (·.1)) :
    ∃ definition ∈ definitions, definition.kind = .importRecord ∧ name ∈ definition.bindings := by
  obtain ⟨entry, listed, rfl⟩ := List.mem_map.mp member
  obtain ⟨definition, chosen, bound⟩ := List.mem_flatMap.mp listed
  obtain ⟨binding, inside, rfl⟩ := List.mem_map.mp bound
  obtain ⟨present, kind⟩ := List.mem_filter.mp chosen
  exact ⟨definition, present, beq_iff_eq.mp kind, inside⟩

/-- A call site comes from an accepted candidate on a line of the file. -/
theorem of_mem_callSites {reader : Reader} {registry : Registry} {found : Scan} {site : Nat × CallSite}
    (member : site ∈ reader.callSites file registry found) :
    ∃ candidate ∈ found.candidates, ∃ text, file.sourceLines[candidate.line - 1]? = some text ∧
      innermostCallable? found.definitions candidate.line = some site.1 ∧
      (reader.acceptance found.definitions registry).accepts candidate.name = true ∧
      site.2.callee = candidate.name ∧ site.2.line = candidate.line ∧
      site.2.snippet = String.ofList (Text.snippet reader.limits.snippetLength text) := by
  obtain ⟨candidate, listed, accepted⟩ := List.mem_filterMap.mp member
  simp only [site?, Option.bind_eq_bind, Option.bind_eq_some_iff] at accepted
  obtain ⟨owner, owned, accepted⟩ := accepted
  split at accepted
  · rename_i accepts
    simp only [Option.bind_eq_some_iff, Option.pure_def, Option.some.injEq] at accepted
    obtain ⟨text, here, rfl⟩ := accepted
    exact ⟨candidate, listed, text, here, owned, accepts, rfl, rfl, rfl⟩
  · cases accepted

theorem analyze_soundCalls (reader : Reader) (outline : reader.preference = .heuristic) (file : SourceFile)
    (registry : Registry) (script : reader.vocabulary.language = .javascript) :
    SoundCalls Language.isScript reader.vocabulary reader.limits file registry (Shown file)
      (reader.analyze file registry).definitions := by
  have candidates : (reader.scan file).candidates = (Outline.scan file reader.limits).candidates := by
    simp [scan, sortOut, rawScan, outline]
  have whole : ((reader.scan file).definitions.map fun definition => definition) = (reader.scan file).definitions :=
    List.map_id' _
  refine SoundCalls.of_owner (fun definition member => ?_)
    (fun index definition present call added => ?_) fun index definition present call added => ?_
  · exact (scan_bare member).calls
  · rw [whole]
    obtain ⟨site, chosen, rfl⟩ := List.mem_map.mp added
    obtain ⟨listed, own⟩ := List.mem_filter.mp chosen
    obtain ⟨candidate, _, _, _, owned, _, _, position, _⟩ := of_mem_callSites listed
    rw [position, owned, beq_iff_eq.mp own]
  · rw [whole]
    obtain ⟨site, chosen, rfl⟩ := List.mem_map.mp added
    obtain ⟨candidate, found, text, here, _, accepted, callee, position, quotes⟩ :=
      of_mem_callSites (List.mem_filter.mp chosen).1
    obtain ⟨named, free, known⟩ := Acceptance.of_accepts accepted
    obtain ⟨starts, shown⟩ := Outline.shown_of_candidate (candidates ▸ found) here
    rw [← callee] at named free known shown
    rw [← position] at starts here shown
    refine ⟨named, fun language same => ?_, ?_, starts, text, here, quotes, shown⟩
    · refine Vocabulary.reserved_of_excludes ?_ free
      have words : WordTable.of? language = WordTable.of? .javascript := by
        cases language <;> first | rfl | cases same
      rw [words]
      exact congrArg WordTable.of? script.symm
    · rcases known with corpus | own | allowed
      · exact .inl corpus
      · rcases Registry.mem_insertAll.mp own with imported | defined
        · exact .inr (.inr (.inl (mem_importedNames imported)))
        · exact .inr (.inl (Registry.mem_ofDefinitions.mp defined))
      · exact .inr (.inr (.inr allowed))

end Reader
end Script

namespace Template

open Ruby.Token (continuesName)

/-- A name stands in the code of a tag: at one column of a cleaned segment on the line and of the segment, and the
segment at some column of the line. -/
def Shown (lines : List (List Char)) (line : Nat) (text name : List Char) : Prop :=
  Ruby.IsCallName name ∧ ∃ segment cleaned offset column,
    (segment, (line, cleaned)) ∈ (segments lines).zip (cleanedFrom 0 {} (segments lines)) ∧ segment.line = line ∧
    segment.code <+: text.drop offset ∧ Text.StandsAt continuesName name column cleaned ∧
    name <+: segment.code.drop column ∧ name <+: text.drop (offset + column)

/-- What is called in a cleaned segment stands in the code of the segment and on its line. -/
theorem shown_of_call {accepts : String → Bool} {lines : List (List Char)} {call : Nat × String}
    (member : call ∈ callsFrom accepts [] (cleanedFrom 0 {} (segments lines))) :
    accepts call.2 = true ∧ ∃ text, lines[call.1 - 1]? = some text ∧ Shown lines call.1 text call.2.toList := by
  obtain ⟨cleaned, listed, known, called⟩ := mem_callsFrom member
  obtain ⟨accepted, isName, column, stands⟩ := Ruby.mem_callNames called
  obtain ⟨segment, paired, sameLine, shadows⟩ := mem_cleanedFrom listed
  obtain ⟨offset, text, here, position, code⟩ := segmentsFrom_code (List.of_mem_zip paired).1 rfl
  obtain ⟨front, rest, whole⟩ := code
  have place : call.1 - 1 = offset := by omega
  have stood : segment.code <+: text.drop front.length := by
    rw [← whole, List.append_assoc, List.drop_left]
    exact List.prefix_append _ _
  have inSegment := shadows.isPrefix_drop isName.visible stands.here
  have inLine : call.2.toList <+: text.drop (front.length + column) := by
    rw [← List.drop_drop]
    exact inSegment.trans (List.IsPrefix.drop stood column)
  exact ⟨accepted, text, place ▸ here, isName, segment, cleaned, front.length, column, paired, sameLine, stood, stands,
    inSegment, inLine⟩

theorem innermostCallable?_record {file : SourceFile} {line : Nat} (starts : 1 ≤ line)
    (ends : line ≤ file.sourceLines.length) : innermostCallable? [record file] line = some 0 := by
  simp [innermostCallable?, innermostFrom, record, Kind.isCallable, Definition.containsLine, starts, ends, tighter]

theorem analyze_soundCalls (vocabulary : Vocabulary) (limits : Limits) (file : SourceFile) (registry : Registry)
    (template : vocabulary.language = .erb) :
    SoundCalls (· == .erb) vocabulary limits file registry (Shown file.sourceLines)
      (analyze vocabulary limits file registry).definitions := by
  unfold analyze
  simp only
  split
  · exact .nil
  · have single {index : Nat} {definition : Definition} (present : [record file][index]? = some definition) :
        index = 0 := by
      have := (List.getElem?_eq_some_iff.mp present).1
      simpa using this
    change SoundCalls _ _ _ _ _ _ ([record file].mapIdx fun _ definition =>
      definition.addCalls (callSites (acceptance vocabulary registry) limits file.sourceLines))
    refine SoundCalls.of_owner (fun definition member => ?_)
      (fun index definition present call added => ?_) fun index definition present call added => ?_
    · rw [List.mem_singleton.mp member]
      exact (record_bare file).calls
    · obtain ⟨starts, ends⟩ := callSites_line added
      rw [single present]
      exact innermostCallable?_record starts ends
    · have starts := (callSites_line added).1
      obtain ⟨named, listed, rfl⟩ := List.mem_map.mp added
      obtain ⟨accepted, text, here, shown⟩ := shown_of_call listed
      obtain ⟨filled, free, known⟩ := Acceptance.of_accepts accepted
      refine ⟨filled, fun language same => ?_, ?_, starts, text, here, ?_, shown⟩
      · refine Vocabulary.reserved_of_excludes ?_ free
        rw [beq_iff_eq.mp same]
        exact congrArg WordTable.of? template.symm
      · rcases known with corpus | none | allowed
        · exact .inl corpus
        · cases none
        · exact .inr (.inr (.inr allowed))
      · simp only [siteOf, List.getD_eq_getElem?_getD, here, Option.getD_some]

end Template

/-- Every call site that the extractors for Ruby, for templates and, by their outline, for scripts report is sound,
whatever the file, the registry and the settings are. -/
theorem extractions_report_sound_calls (parse? : Script.Tree.Parser) (settings : Settings) (file : SourceFile)
    (registry : Registry) :
    (∃ raw, (Ruby.extractor settings.ruby).analyze file registry = .ok raw ∧
      SoundCalls (Ruby.extractor settings.ruby).supports settings.ruby.vocabulary settings.limits file registry
        (Ruby.Shown file) raw.definitions) ∧
    (∃ raw, (Template.extractor settings.template settings.limits).analyze file registry = .ok raw ∧
      SoundCalls (Template.extractor settings.template settings.limits).supports settings.template settings.limits
        file registry (Template.Shown file.sourceLines) raw.definitions) ∧
    ∃ raw, (Script.extractor ({ settings with scripts := .heuristic }.script parse?)).analyze file registry =
        .ok raw ∧
      SoundCalls (Script.extractor ({ settings with scripts := .heuristic }.script parse?)).supports
        (settings.script parse?).vocabulary settings.limits file registry (Script.Shown file) raw.definitions :=
  ⟨⟨_, rfl, settings.ruby.analyze_soundCalls file registry rfl⟩,
    ⟨_, rfl, Template.analyze_soundCalls settings.template settings.limits file registry rfl⟩,
    ⟨_, rfl, ({ settings with scripts := .heuristic }.script parse?).analyze_soundCalls rfl file registry rfl⟩⟩

end CallAtlas

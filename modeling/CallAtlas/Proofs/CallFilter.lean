import CallAtlas.Proofs.FirstOccurrence
import CallAtlas.Proofs.ScriptExtents

/-! Acceptance decides by name alone. A wider acceptance finds the call sites of a narrower one and others; what
the narrower one finds is what remains of them when every name is asked again. The readers carry local
variables along, drop repetitions and look for owners, and the second asking passes through all of that. -/
namespace CallAtlas

/-- A definition with the call sites whose callee is kept. -/
def Definition.keepCalls (keep : String → Bool) (definition : Definition) : Definition :=
  { definition with calls := definition.calls.filter fun call => keep call.callee }

namespace Definition

variable {keep : String → Bool}

theorem keepCalls_of_bare {path : String} {definition : Definition} (bare : definition.Bare path) :
    definition.keepCalls keep = definition := by
  have none : (definition.calls.filter fun call => keep call.callee) = definition.calls := by
    rw [bare.calls, List.filter_nil]
  rw [keepCalls, none]

theorem addCalls_cons (definition : Definition) (call : CallSite) (calls : List CallSite) :
    definition.addCalls (call :: calls) = (definition.addCall call).addCalls calls := rfl

theorem records_iff {definition : Definition} {call : CallSite} :
    definition.records call = true ↔
      ∃ known ∈ definition.calls, known.line = call.line ∧ known.callee = call.callee := by
  simp [records]

/-- A call site that is kept is known among all call sites if it is known among the kept ones. -/
theorem records_keepCalls {definition : Definition} {call : CallSite} (kept : keep call.callee = true) :
    (definition.keepCalls keep).records call = definition.records call := by
  apply Bool.eq_iff_iff.mpr
  rw [records_iff, records_iff]
  constructor
  · rintro ⟨known, member, same⟩
    exact ⟨known, (List.mem_filter.mp member).1, same⟩
  · rintro ⟨known, member, sameLine, sameCallee⟩
    exact ⟨known, List.mem_filter.mpr ⟨member, sameCallee ▸ kept⟩, sameLine, sameCallee⟩

theorem keepCalls_addCall (definition : Definition) (call : CallSite) :
    (definition.addCall call).keepCalls keep =
      if keep call.callee then (definition.keepCalls keep).addCall call else definition.keepCalls keep := by
  by_cases kept : keep call.callee = true
  · rw [if_pos kept, addCall, addCall, records_keepCalls kept]
    split
    · rfl
    · simp [keepCalls, kept]
  · rw [if_neg kept, addCall]
    split
    · rfl
    · simp [keepCalls, kept]

/-- Keeping call sites after all are added is adding only those that are kept. -/
theorem keepCalls_addCalls (definition : Definition) (calls : List CallSite) :
    (definition.addCalls calls).keepCalls keep =
      (definition.keepCalls keep).addCalls (calls.filter fun call => keep call.callee) := by
  induction calls generalizing definition with
  | nil => rfl
  | cons call rest ih =>
    rw [addCalls_cons, ih, keepCalls_addCall, List.filter_cons]
    split
    · rw [addCalls_cons]
    · rfl

theorem addCall_calls_ne_nil (definition : Definition) (call : CallSite) :
    (definition.addCall call).calls ≠ [] := by
  rw [addCall]
  split
  · rename_i known
    obtain ⟨other, member, _⟩ := records_iff.mp known
    exact List.ne_nil_of_mem member
  · simp

theorem addCalls_calls_ne_nil {definition : Definition} (filled : definition.calls ≠ [])
    (calls : List CallSite) : (definition.addCalls calls).calls ≠ [] := by
  induction calls generalizing definition with
  | nil => exact filled
  | cons call rest ih => exact ih (addCall_calls_ne_nil definition call)

/-- A definition without call sites gets some exactly if there are any to add. -/
theorem addCalls_isEmpty {path : String} {definition : Definition} (bare : definition.Bare path)
    (calls : List CallSite) : (definition.addCalls calls).calls.isEmpty = calls.isEmpty := by
  cases calls with
  | nil =>
    change definition.calls.isEmpty = _
    rw [bare.calls]
  | cons call rest =>
    have filled := addCalls_calls_ne_nil (addCall_calls_ne_nil definition call) rest
    rw [addCalls_cons]
    simpa [List.isEmpty_iff] using filled

/-- Call sites change nothing else. -/
theorem addCalls_eq (definition : Definition) (calls : List CallSite) :
    definition.addCalls calls = { definition with calls := (definition.addCalls calls).calls } := by
  induction calls generalizing definition with
  | nil => rfl
  | cons call rest ih =>
    rw [addCalls_cons, ih, addCall]
    split <;> rfl

end Definition

theorem map_mapIdx {α β γ : Type} {members : List α} {f : Nat → α → β} {g : β → γ} {h : Nat → α → γ}
    (same : ∀ index, ∀ member ∈ members, g (f index member) = h index member) :
    (members.mapIdx f).map g = members.mapIdx h := by
  refine List.ext_getElem (by simp) fun index bound _ => ?_
  have inside : index < members.length := by simpa using bound
  rw [List.getElem_map, List.getElem_mapIdx, List.getElem_mapIdx]
  exact same index _ (List.getElem_mem inside)

/-- An extraction with the call sites whose callee is kept. -/
def Extraction.keepCalls (keep : String → Bool) (extraction : Extraction) : Extraction :=
  { extraction with definitions := extraction.definitions.map (Definition.keepCalls keep) }

/-- More names in the corpus make more names acceptable. -/
theorem Acceptance.accepts_mono {small large : Registry} (grows : ∀ name, name ∈ small → name ∈ large)
    (vocabulary : Vocabulary) (file : Registry) (name : String)
    (accepted : accepts { vocabulary, corpus := small, file } name = true) :
    accepts { vocabulary, corpus := large, file } name = true := by
  simp only [accepts, Bool.and_eq_true, Bool.or_eq_true, Registry.contains_iff] at accepted ⊢
  obtain ⟨free, (known | own) | allowed⟩ := accepted
  · exact ⟨free, .inl (.inl (grows name known))⟩
  · exact ⟨free, .inl (.inr own)⟩
  · exact ⟨free, .inr allowed⟩

namespace Ruby

theorem callNames_eq_distinct (accepts : String → Bool) (locals : List String) (text : List Char) :
    callNames accepts locals text =
      Edge.distinct (((tokens text).filter fun token =>
        token.isCall accepts (localsAfter locals text)).map (·.name)) := by
  rw [Edge.distinct, List.foldl_map]
  simp only [callNames, List.contains_iff_mem]

section
variable {narrow wide : String → Bool} (implies : ∀ name, narrow name = true → wide name = true)
include implies

theorem Token.isCall_narrow (locals : List String) (token : Token) :
    (narrow token.name && token.isCall wide locals) = token.isCall narrow locals := by
  have widened := implies token.name
  unfold Token.isCall
  cases known : narrow token.name with
  | false => simp
  | true => simp [widened known]

theorem callNames_filter (locals : List String) (text : List Char) :
    (callNames wide locals text).filter narrow = callNames narrow locals text := by
  rw [callNames_eq_distinct, callNames_eq_distinct, ← Edge.distinct_filter, List.filter_map,
    List.filter_filter]
  congr 2
  exact List.filter_congr fun token _ => Token.isCall_narrow implies _ token

namespace Reader

theorem callsFrom_filter (limits : Limits) (owned : Nat → Bool) (locals : List String) (number : Nat)
    (lines : List (List Char × List Char)) :
    (callsFrom limits wide owned locals number lines).filter (fun call => narrow call.callee) =
      callsFrom limits narrow owned locals number lines := by
  induction lines generalizing locals number with
  | nil => rfl
  | cons line rest ih =>
    simp only [callsFrom]
    split
    · rw [List.filter_append, ih, List.filter_map, ← callNames_filter implies]
      rfl
    · exact ih locals (number + 1)

end Reader
end

namespace Reader

variable {small large : Registry} (grows : ∀ name, name ∈ small → name ∈ large)
include grows

theorem analyze_keepCalls (reader : Reader) (file : SourceFile) :
    (reader.analyze file large).keepCalls (reader.acceptance (reader.define file).definitions small).accepts =
      reader.analyze file small := by
  have implies := Acceptance.accepts_mono grows reader.vocabulary
    (Registry.ofDefinitions (reader.define file).definitions)
  simp only [Extraction.keepCalls, analyze]
  congr 1
  refine map_mapIdx fun index found member => ?_
  have located := reader.findMethods_located file member
  rw [withCalls, Definition.keepCalls_addCalls, Definition.keepCalls_of_bare located.toBare]
  exact congrArg _ (callsFrom_filter implies _ _ _ _ _)

end Reader
end Ruby

namespace Template

section
variable {narrow wide : String → Bool} (implies : ∀ name, narrow name = true → wide name = true)
include implies

theorem callsFrom_filter (locals : List String) (segments : List (Nat × List Char)) :
    (callsFrom wide locals segments).filter (fun call => narrow call.2) = callsFrom narrow locals segments := by
  induction segments generalizing locals with
  | nil => rfl
  | cons segment rest ih =>
    simp only [callsFrom]
    rw [List.filter_append, ih, List.filter_map, ← Ruby.callNames_filter implies]
    rfl

end

theorem record_bare (file : SourceFile) : (record file).Bare file.path := ⟨rfl, rfl⟩

/-- A template yields its record if it has call sites, and nothing else. -/
theorem analyze_definitions (vocabulary : Vocabulary) (limits : Limits) (file : SourceFile)
    (registry : Registry) :
    (analyze vocabulary limits file registry).definitions =
      [(record file).addCalls (callSites (acceptance vocabulary registry) limits file.sourceLines)].filter
        fun definition => !definition.calls.isEmpty := by
  simp only [analyze, List.filter_cons, Definition.addCalls_isEmpty (record_bare file), List.filter_nil]
  cases (callSites (acceptance vocabulary registry) limits file.sourceLines).isEmpty <;> rfl

theorem analyze_templateCalls (vocabulary : Vocabulary) (limits : Limits) (file : SourceFile)
    (registry : Registry) :
    (analyze vocabulary limits file registry).templateCalls =
      (analyze vocabulary limits file registry).definitions.flatMap TemplateCall.collect := by
  simp only [analyze]
  split
  · rfl
  · simp

theorem analyze_diagnostics (vocabulary : Vocabulary) (limits : Limits) (file : SourceFile)
    (registry : Registry) : (analyze vocabulary limits file registry).diagnostics = [] := by
  simp only [analyze]
  split <;> rfl

section
variable {small large : Registry} (grows : ∀ name, name ∈ small → name ∈ large)
include grows

theorem callSites_filter (vocabulary : Vocabulary) (limits : Limits) (lines : List (List Char)) :
    (callSites (acceptance vocabulary large) limits lines).filter
        (fun call => (acceptance vocabulary small).accepts call.callee) =
      callSites (acceptance vocabulary small) limits lines := by
  have implies := Acceptance.accepts_mono grows vocabulary .empty
  rw [callSites, List.filter_map, callSites]
  exact congrArg _ (callsFrom_filter implies [] _)

/-- With fewer names in the corpus the record loses call sites, and goes when it has none left. -/
theorem analyze_keepCalls (vocabulary : Vocabulary) (limits : Limits) (file : SourceFile) :
    (analyze vocabulary limits file small).definitions =
      ((analyze vocabulary limits file large).definitions.map
        (Definition.keepCalls (acceptance vocabulary small).accepts)).filter
          fun definition => !definition.calls.isEmpty := by
  have kept : ((record file).addCalls (callSites (acceptance vocabulary large) limits file.sourceLines)).keepCalls
      (acceptance vocabulary small).accepts =
        (record file).addCalls (callSites (acceptance vocabulary small) limits file.sourceLines) := by
    rw [Definition.keepCalls_addCalls, Definition.keepCalls_of_bare (record_bare file), callSites_filter grows]
  rw [analyze_definitions, analyze_definitions, ← kept]
  generalize (record file).addCalls (callSites (acceptance vocabulary large) limits file.sourceLines) = whole
  -- A record that has no call sites to begin with has none to keep.
  cases calls : whole.calls with
  | nil => simp [Definition.keepCalls, calls]
  | cons call rest => simp [calls]

end
end Template

namespace Script.Reader

theorem site?_filter {narrow wide : String → Bool} (implies : ∀ name, narrow name = true → wide name = true)
    (limits : Limits) (lines : List (List Char)) (definitions : List Definition)
    (imported : List (String × Nat)) (candidate : Candidate) :
    (site? limits wide lines definitions imported candidate).filter (fun site => narrow site.2.callee) =
      site? limits narrow lines definitions imported candidate := by
  unfold site?
  cases innermostCallable? definitions candidate.line with
  | none => rfl
  | some owner =>
    cases accepted : narrow candidate.name with
    | true =>
      cases lines[candidate.line - 1]? with
      | none => simp [implies _ accepted]
      | some raw => simp [implies _ accepted, accepted, Option.filter]
    | false =>
      cases wide candidate.name with
      | false => simp
      | true =>
        cases lines[candidate.line - 1]? with
        | none => simp
        | some raw => simp [accepted, Option.filter]

section
variable {small large : Registry} (grows : ∀ name, name ∈ small → name ∈ large)
include grows

theorem callSites_filter (reader : Reader) (file : SourceFile) (found : Scan) :
    (reader.callSites file large found).filter
        (fun site => (reader.acceptance found.definitions small).accepts site.2.callee) =
      reader.callSites file small found := by
  have implies := Acceptance.accepts_mono grows reader.vocabulary
    ((Registry.ofDefinitions found.definitions).insertAll ((importedNames found.definitions).map (·.1)))
  rw [callSites, List.filter_filterMap, callSites]
  congr 1
  funext candidate
  exact site?_filter implies _ _ _ _ candidate

theorem analyze_keepCalls (reader : Reader) (file : SourceFile) :
    (reader.analyze file large).keepCalls (reader.acceptance (reader.define file).definitions small).accepts =
      reader.analyze file small := by
  simp only [Extraction.keepCalls, analyze, assignCalls]
  congr 1
  refine map_mapIdx fun index definition member => ?_
  rw [Definition.keepCalls_addCalls, Definition.keepCalls_of_bare (scan_bare member), List.filter_map,
    List.filter_filter, ← callSites_filter grows, List.filter_filter]
  simp only [Bool.and_comm]
  rfl

end
end Script.Reader
end CallAtlas

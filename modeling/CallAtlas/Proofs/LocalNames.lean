import CallAtlas.Proofs.MethodRanges

/-! Local names of Ruby methods. A name is local on a line if the method has a parameter of that name, or if the code of
the method up to and with the line assigns to the bare name or opens a block with a parameter of that name. The calls of
a method are the tokens of its code that are neither assigned to nor local, where a token behind a dot is never taken
for a local name. -/
namespace CallAtlas.Ruby

open Blanking (Line)

/-- A text binds a name: as the bare target of an assignment, or as a parameter of a block. -/
def Binds (text : List Char) (name : String) : Prop :=
  (∃ token ∈ tokens text, token.name = name ∧ token.dotted = false ∧ token.assigned = true) ∨ name ∈ blockNames text

variable {accepts : String → Bool} {locals : List String} {text : List Char} {name : String}

theorem mem_localsAfter : name ∈ localsAfter locals text ↔ name ∈ locals ∨ Binds text name := by
  have assigned : name ∈ ((tokens text).filter fun token => !token.dotted && token.assigned).map (·.name) ↔
      ∃ token ∈ tokens text, token.name = name ∧ token.dotted = false ∧ token.assigned = true := by
    constructor
    · intro member
      obtain ⟨token, kept, same⟩ := List.mem_map.mp member
      obtain ⟨present, bare⟩ := List.mem_filter.mp kept
      exact ⟨token, present, same, by simpa using bare⟩
    · intro holds
      obtain ⟨token, present, same, bare⟩ := holds
      apply List.mem_map.mpr
      refine ⟨token, List.mem_filter.mpr ⟨present, ?_⟩, same⟩
      simpa using bare
  rw [localsAfter, List.mem_append, List.mem_append, assigned, or_assoc, Binds]

theorem mem_foldl_localsAfter {texts : List (List Char)} :
    name ∈ texts.foldl localsAfter locals ↔ name ∈ locals ∨ ∃ text ∈ texts, Binds text name := by
  induction texts generalizing locals with
  | nil => simp
  | cons text rest ih =>
    rw [List.foldl_cons, ih, mem_localsAfter, or_assoc, List.exists_mem_cons_iff]

theorem Token.isCall_iff {token : Token} :
    token.isCall accepts locals = true ↔
      token.assigned = false ∧ (token.dotted = true ∨ token.name ∉ locals) ∧ accepts token.name = true := by
  simp only [Token.isCall, Bool.and_eq_true, Bool.or_eq_true, Bool.not_eq_true', List.contains_eq_mem,
    decide_eq_false_iff_not, and_assoc]

/-- The names called in a text are those of its tokens that are not assigned to, are accepted and are not local. -/
theorem mem_callNames_iff :
    name ∈ callNames accepts locals text ↔
      ∃ token ∈ tokens text, token.name = name ∧ token.assigned = false ∧ accepts name = true ∧
        (token.dotted = true ∨ name ∉ localsAfter locals text) := by
  rw [callNames_eq_distinct, Edge.mem_distinct, List.mem_map]
  constructor
  · intro holds
    obtain ⟨token, chosen, same⟩ := holds
    obtain ⟨present, called⟩ := List.mem_filter.mp chosen
    obtain ⟨unassigned, free, accepted⟩ := Token.isCall_iff.mp called
    subst same
    exact ⟨token, present, rfl, unassigned, accepted, free⟩
  · intro holds
    obtain ⟨token, present, same, unassigned, accepted, free⟩ := holds
    subst same
    exact ⟨token, List.mem_filter.mpr ⟨present, Token.isCall_iff.mpr ⟨unassigned, free, accepted⟩⟩, rfl⟩

namespace Reader

variable {limits : Limits} {number : Nat} {lines : List (List Char × List Char)}

/-- On lines that a method owns, who owns them is not asked. -/
theorem callsFrom_owned {owned : Nat → Bool} (own : ∀ offset < lines.length, owned (number + offset) = true) :
    callsFrom limits accepts owned locals number lines =
      callsFrom limits accepts (fun _ => true) locals number lines := by
  induction lines generalizing locals number with
  | nil => rfl
  | cons line rest ih =>
    have here : owned number = true := own 0 (Nat.succ_pos _)
    have later : ∀ offset < rest.length, owned (number + 1 + offset) = true := by
      intro offset inside
      rw [Nat.add_assoc, Nat.add_comm 1]
      exact own (offset + 1) (Nat.succ_lt_succ inside)
    rw [callsFrom, callsFrom, if_pos here, if_pos rfl, ih later]

/-- A call on a line is found with the names that the lines before it leave known. -/
theorem reports_callsFrom {line : Nat} :
    (∃ call ∈ callsFrom limits accepts (fun _ => true) locals number lines, call.callee = name ∧ call.line = line) ↔
      ∃ offset text, (lines.map (·.2))[offset]? = some text ∧ number + offset = line ∧
        name ∈ callNames accepts (((lines.map (·.2)).take offset).foldl localsAfter locals) text := by
  induction lines generalizing locals number with
  | nil => simp [callsFrom]
  | cons first rest ih =>
    simp only [callsFrom, if_true, List.mem_append, or_and_right, exists_or, ih]
    constructor
    · intro found
      rcases found with ⟨call, here, named, placed⟩ | ⟨offset, text, there, placed, called⟩
      · obtain ⟨callee, called, rfl⟩ := List.mem_map.mp here
        cases named
        exact ⟨0, first.2, rfl, placed, called⟩
      · exact ⟨offset + 1, text, there, by omega, called⟩
    · intro holds
      obtain ⟨offset, text, there, placed, called⟩ := holds
      cases offset with
      | zero =>
        cases there
        left
        exact ⟨_, List.mem_map.mpr ⟨name, called, rfl⟩, rfl, placed⟩
      | succ offset =>
        right
        exact ⟨offset, text, there, by omega, called⟩

/-- What is searched for calls on a line of a method: the cleaned line, and of the first line only what follows the
header. -/
def searchedText (file : SourceFile) (definition : Definition) (line : Nat) : List Char :=
  let cleaned := (((linesOf file).map (·.cleaned))[line - 1]?).getD []
  if line = definition.startLine then ((Header.read? (Text.trim cleaned)).map (·.body)).getD [] else cleaned

/-- A name is local on a line of a method. -/
def IsLocal (file : SourceFile) (definition : Definition) (line : Nat) (name : String) : Prop :=
  name ∈ definition.parameters.map (·.name) ∨
    ∃ earlier, definition.startLine ≤ earlier ∧ earlier ≤ line ∧ Binds (searchedText file definition earlier) name

variable {reader : Reader} {file : SourceFile} {found : Found}

/-- The lines that are searched are the first line of the method and the lines up to its last. -/
theorem searchedLines_append {front rest : List Line} {line : Line}
    (starts : found.definition.startLine = front.length + 1)
    (ordered : found.definition.startLine ≤ found.definition.endLine) :
    searchedLines (front ++ line :: rest) found =
      (line.raw, found.body) ::
        (rest.take (found.definition.endLine - found.definition.startLine)).map
          fun line => (line.raw, line.cleaned) := by
  have taken : (front ++ line :: rest).take found.definition.endLine =
      front ++ line :: rest.take (found.definition.endLine - found.definition.startLine) := by
    obtain ⟨more, ends⟩ := Nat.exists_eq_add_of_le ordered
    rw [ends, Nat.add_sub_cancel_left, starts, Nat.add_assoc, List.take_length_add_append, Nat.add_comm 1,
      List.take_succ_cons]
  rw [searchedLines, taken, starts, Nat.add_sub_cancel, List.drop_left]

/-- The texts that are searched are those of the lines of the method. -/
theorem searchedLines_texts (member : found ∈ reader.findMethods file) (offset : Nat) :
    ((searchedLines (linesOf file) found).map (·.2))[offset]? =
      if found.definition.startLine + offset ≤ found.definition.endLine then
        some (searchedText file found.definition (found.definition.startLine + offset))
      else none := by
  have located := reader.findMethods_located file member
  have ends := located.ends
  have length : (linesOf file).length = file.lineLimit := by
    rw [linesOf, Blanking.pairLines_length, file.sourceLines_length]
  obtain ⟨front, line, rest, scope, header, split, reads, visibility, same⟩ := mem_methodsOf member
  have starts : found.definition.startLine = front.length + 1 := by rw [same]; rfl
  have body : found.body = header.body := by rw [same]; rfl
  rw [split, List.length_append, List.length_cons] at length
  rw [split, searchedLines_append starts located.ordered, List.map_cons, List.map_map]
  cases offset with
  | zero =>
    rw [Nat.add_zero, if_pos located.ordered, searchedText, if_pos rfl, starts, split]
    simp [reads, body]
  | succ offset =>
    rw [List.getElem?_cons_succ, List.getElem?_map, List.getElem?_take]
    by_cases inside : found.definition.startLine + (offset + 1) ≤ found.definition.endLine
    · have here : offset < found.definition.endLine - found.definition.startLine := by omega
      have there : offset < rest.length := by omega
      have later : found.definition.startLine + (offset + 1) ≠ found.definition.startLine := by omega
      have place : found.definition.startLine + (offset + 1) - 1 = front.length + (offset + 1) := by omega
      rw [if_pos here, if_pos inside, searchedText, if_neg later, split, place, List.map_append,
        List.getElem?_append_right (by simp)]
      simp [there]
    · have beyond : ¬ offset < found.definition.endLine - found.definition.startLine := by omega
      rw [if_neg beyond, if_neg inside, Option.map_none]

theorem findMethods_kind (member : found ∈ reader.findMethods file) :
    found.definition.kind = .method ∨ found.definition.kind = .classMethod := by
  obtain ⟨front, line, rest, scope, header, _, _, visibility, rfl⟩ := mem_methodsOf member
  simp only [methodAt]
  split
  · exact .inr rfl
  · exact .inl rfl

/-- A method owns each of its lines. -/
theorem owns_lines {index line : Nat} (here : (reader.findMethods file)[index]? = some found)
    (within : found.definition.containsLine line = true) :
    innermostCallable? ((reader.findMethods file).map (·.definition)) line = some index := by
  apply (innermostCallable?_eq_some_iff ?_ ?_ line index).mpr
  · refine ⟨found.definition, ?_, within⟩
    rw [List.getElem?_map, here, Option.map_some]
  · exact List.pairwise_map.mpr (methodsOf_apart _ _ _)
  · intro definition member
    obtain ⟨other, present, rfl⟩ := List.mem_map.mp member
    rcases findMethods_kind present with kind | kind <;> rw [kind] <;> rfl

/-- The call sites of a method are found on its lines, each of which it owns. -/
theorem withCalls_eq (reader : Reader) (acceptance : Acceptance) {index : Nat}
    (here : (reader.findMethods file)[index]? = some found) :
    reader.withCalls acceptance (linesOf file) ((reader.findMethods file).map (·.definition)) index found =
      found.definition.addCalls (callsFrom reader.limits acceptance.accepts (fun _ => true)
        (found.definition.parameters.map (·.name)) found.definition.startLine
        (searchedLines (linesOf file) found)) := by
  rw [withCalls, callsFrom_owned]
  intro offset inside
  have located := reader.findMethods_located file (List.mem_of_getElem? here)
  have length := searchedLines_length (linesOf file) found
  have starts := located.starts
  rw [beq_iff_eq]
  apply owns_lines here
  simp only [Definition.containsLine, Bool.and_eq_true, decide_eq_true_eq]
  omega

/-- The names known before a line of a method, with those that the line binds, are the local ones. -/
theorem isLocal_iff (member : found ∈ reader.findMethods file) {offset : Nat} {name : String}
    (inside : found.definition.startLine + offset ≤ found.definition.endLine) :
    name ∈ localsAfter ((((searchedLines (linesOf file) found).map (·.2)).take offset).foldl localsAfter
        (found.definition.parameters.map (·.name)))
        (searchedText file found.definition (found.definition.startLine + offset)) ↔
      IsLocal file found.definition (found.definition.startLine + offset) name := by
  rw [mem_localsAfter, mem_foldl_localsAfter, or_assoc, IsLocal]
  apply or_congr Iff.rfl
  constructor
  · intro bound
    rcases bound with ⟨text, before, binds⟩ | binds
    · obtain ⟨place, here⟩ := List.mem_iff_getElem?.mp before
      rw [List.getElem?_take] at here
      split at here
      · rename_i less
        rw [searchedLines_texts member, if_pos (by omega)] at here
        cases here
        exact ⟨found.definition.startLine + place, by omega, by omega, binds⟩
      · cases here
    · exact ⟨found.definition.startLine + offset, by omega, Nat.le_refl _, binds⟩
  · intro holds
    obtain ⟨earlier, starts, before, binds⟩ := holds
    obtain ⟨place, rfl⟩ := Nat.exists_eq_add_of_le starts
    by_cases same : place = offset
    · right
      rw [← same]
      exact binds
    · left
      refine ⟨_, List.mem_iff_getElem?.mpr ⟨place, ?_⟩, binds⟩
      rw [List.getElem?_take, if_pos (by omega), searchedLines_texts member, if_pos (by omega)]

/-- What a method is found to call on a line. -/
def Reports (definition : Definition) (name : String) (line : Nat) : Prop :=
  ∃ call ∈ definition.calls, call.callee = name ∧ call.line = line

/-- A name is called by the code of a method on a line: a token of that name is not assigned to, the name is accepted,
and the token stands behind a dot or its name is not local. -/
def Calls (file : SourceFile) (accepts : String → Bool) (definition : Definition) (name : String) (line : Nat) : Prop :=
  ∃ token ∈ tokens (searchedText file definition line), token.name = name ∧ token.assigned = false ∧
    accepts name = true ∧ (token.dotted = true ∨ ¬ IsLocal file definition line name)

theorem reports_addCalls {definition : Definition} (bare : definition.calls = []) {calls : List CallSite}
    {name : String} {line : Nat} :
    Reports (definition.addCalls calls) name line ↔ ∃ call ∈ calls, call.callee = name ∧ call.line = line := by
  constructor
  · intro holds
    obtain ⟨call, member, named, placed⟩ := holds
    rcases Definition.mem_addCalls member with known | added
    · rw [bare] at known
      cases known
    · exact ⟨call, added, named, placed⟩
  · intro holds
    obtain ⟨call, member, named, placed⟩ := holds
    obtain ⟨known, recorded, sameLine, sameCallee⟩ := Definition.records_iff.mp (Definition.records_addCalls member)
    exact ⟨known, recorded, sameCallee.trans named, sameLine.trans placed⟩

/-- The calls of a method, told by its lines. -/
theorem reports_withCalls (acceptance : Acceptance) {index : Nat}
    (here : (reader.findMethods file)[index]? = some found) (name : String) (line : Nat) :
    Reports (reader.withCalls acceptance (linesOf file) ((reader.findMethods file).map (·.definition)) index found)
        name line ↔
      found.definition.containsLine line = true ∧ Calls file acceptance.accepts found.definition name line := by
  have member := List.mem_of_getElem? here
  rw [withCalls_eq reader acceptance here, reports_addCalls (reader.findMethods_located file member).calls,
    reports_callsFrom]
  simp only [Definition.containsLine, Bool.and_eq_true, decide_eq_true_eq]
  constructor
  · intro holds
    obtain ⟨offset, text, listed, placed, called⟩ := holds
    rw [searchedLines_texts member] at listed
    split at listed
    · rename_i inside
      cases listed
      subst placed
      refine ⟨⟨Nat.le_add_right _ _, inside⟩, ?_⟩
      simpa only [Calls, mem_callNames_iff, isLocal_iff member inside] using called
    · cases listed
  · intro holds
    obtain ⟨⟨starts, inside⟩, called⟩ := holds
    obtain ⟨offset, rfl⟩ := Nat.exists_eq_add_of_le starts
    refine ⟨offset, _, by rw [searchedLines_texts member, if_pos inside], rfl, ?_⟩
    simpa only [Calls, mem_callNames_iff, isLocal_iff member inside] using called

/-- A method of an analysis is one that was found, with call sites added. -/
theorem exists_found {registry : Registry} {definition : Definition}
    (member : definition ∈ (reader.analyze file registry).definitions) :
    ∃ index found calls, (reader.findMethods file)[index]? = some found ∧
      definition = reader.withCalls (reader.acceptance (reader.define file).definitions registry) (linesOf file)
        ((reader.findMethods file).map (·.definition)) index found ∧
      definition = { found.definition with calls } := by
  obtain ⟨index, inside, rfl⟩ := List.mem_mapIdx.mp member
  exact ⟨index, _, _, List.getElem?_eq_getElem inside, rfl, Definition.addCalls_eq _ _⟩

/-- A call of a name is reported on a line of a method exactly if a token of that name stands in what is searched of the
line, the token is not assigned to, the name is accepted, and the token stands behind a dot or its name is not local. -/
theorem call_reported_iff (reader : Reader) (file : SourceFile) (registry : Registry) {definition : Definition}
    (member : definition ∈ (reader.analyze file registry).definitions) (name : String) (line : Nat) :
    (∃ call ∈ definition.calls, call.callee = name ∧ call.line = line) ↔
      definition.containsLine line = true ∧
        ∃ token ∈ tokens (searchedText file definition line), token.name = name ∧ token.assigned = false ∧
          (reader.acceptance (reader.define file).definitions registry).accepts name = true ∧
          (token.dotted = true ∨ ¬ IsLocal file definition line name) := by
  obtain ⟨index, found, calls, here, added, same⟩ := exists_found member
  have reported := reports_withCalls (reader.acceptance (reader.define file).definitions registry) here name line
  rw [← added, same] at reported
  rw [same]
  exact reported

/-- A method that assigns to a name, then calls the method of that name. -/
theorem call_reported_iff_price :
    let reader : Reader := ⟨⟨.ruby, []⟩, ⟨9, 20⟩⟩
    let file : SourceFile := .ofText "cart.rb" .ruby
      "def total(rate)\n  price = rate * base\n  each \x7b |tax| tax + price \x7d\n  self.price\nend\n"
    let registry := Registry.ofList ["base", "price", "rate", "tax"]
    ∃ definition ∈ (reader.analyze file registry).definitions,
      definition.calls.map (fun call => (call.callee, call.line)) = [("base", 2), ("price", 4)] ∧
      ∀ name line, (∃ call ∈ definition.calls, call.callee = name ∧ call.line = line) ↔
        definition.containsLine line = true ∧
          ∃ token ∈ tokens (searchedText file definition line), token.name = name ∧ token.assigned = false ∧
            (reader.acceptance (reader.define file).definitions registry).accepts name = true ∧
            (token.dotted = true ∨ ¬ IsLocal file definition line name) := by
  intro reader file registry
  have evaluated : [("base", 2), ("price", 4)] ∈ (reader.analyze file registry).definitions.map
      fun definition => definition.calls.map fun call => (call.callee, call.line) := by
    decide +kernel
  obtain ⟨definition, member, calls⟩ := List.mem_map.mp evaluated
  exact ⟨definition, member, calls, call_reported_iff reader file registry member⟩

end Reader
end CallAtlas.Ruby

import CallAtlas.Proofs.Phases
import CallAtlas.Proofs.RubyHeaders

/-! Well-nested programs are extracted exactly, unless a `do` is hidden or the limit of a block goes beyond a machine word.
The search for the end of a method passes its blocks one by one and no line but a header gives a definition. A block
whose `do` is not seen closes one block too many, so the method then ends too early; and a method so far down that its
line and the limit add up to more than a word is not followed at all. -/
namespace CallAtlas.Ruby.Grammar

open Block
open Blanking (Line)

def Plain.tidy : Plain → Plain
  | statement value => .statement value.tidy
  | assignment target value => .assignment target value.tidy
  | guarded value word known condition => .guarded value word known condition.tidy
  | guardedReturn condition => .guardedReturn condition.tidy
  | otherwise => .otherwise
  | branch word known condition => .branch word known condition.tidy

theorem Plain.tidied_parts (line : Plain) : tidied line.parts = line.tidy.parts := by
  cases line <;> rfl

def Opener.tidy : Opener → Opener
  | conditional word known condition => .conditional word known condition.tidy
  | sequence => .sequence
  | iteration value bound => .iteration value bound
  | assignment target condition => .assignment target condition.tidy

theorem Opener.tidied_parts (line : Opener) : tidied line.parts = line.tidy.parts := by
  cases line <;> rfl

theorem Opener.isHidden_tidy (line : Opener) : line.tidy.isHidden = line.isHidden := by
  cases line <;> rfl

theorem tidied_end : tidied [.word .endWord] = [.word .endWord] := rfl

/-- The number of the line after a block and the lines behind it. -/
theorem Body.index_block (index : Nat) (indent : Indent) (opener : Opener) (inner : Body) (closing : Indent) (body : Body) :
    index + (block indent opener inner closing body).lines.length =
      index + 1 + inner.lines.length + 1 + body.lines.length := by
  simp only [lines, List.length_cons, List.length_append]
  omega

/-- The search reads a line by what it adds to the nesting. -/
theorem follow_line (interruptible : Bool) (depth : Int) (index : Nat) (indent : Indent) {parts : List Part}
    (nonempty : parts ≠ []) (rest : List (List Char)) :
    follow interruptible depth index (indent.line parts :: rest) =
      if depth + delta (spaced (tidied parts)) ≤ 0 then .closed index
      else follow interruptible (depth + delta (spaced (tidied parts))) (index + 1) rest := by
  have filled : (spaced (tidied parts)).isEmpty = false :=
    List.isEmpty_eq_false_iff.mpr (spaced_ne_nil (tidied_ne_nil nonempty))
  simp [follow, trim_line, filled, (unscoped_spaced _).read?]

section Follow

variable {depth : Int} (inside : 0 < depth) (interruptible : Bool) (index : Nat) (indent : Indent)
  (rest : List (List Char))

include inside in
theorem follow_plain (line : Plain) :
    follow interruptible depth index (indent.line line.parts :: rest) = follow interruptible depth (index + 1) rest := by
  have nonempty : line.parts ≠ [] := by cases line <;> exact List.cons_ne_nil _ _
  rw [follow_line _ _ _ _ nonempty, line.tidied_parts, Plain.delta_parts, Int.add_zero, if_neg (by omega)]

include inside in
theorem follow_opener (opener : Opener) :
    follow interruptible depth index (indent.line opener.parts :: rest) =
      follow interruptible (depth + 1 - opener.isHidden.toNat) (index + 1) rest := by
  have nonempty : opener.parts ≠ [] := by cases opener <;> exact List.cons_ne_nil _ _
  have bit : opener.isHidden.toNat ≤ 1 := Bool.toNat_le _
  rw [follow_line _ _ _ _ nonempty, opener.tidied_parts, Opener.delta_parts, opener.isHidden_tidy, if_neg (by omega),
    Int.add_sub_assoc]

theorem follow_end (depth : Int) :
    follow interruptible depth index (indent.endLine :: rest) =
      if depth ≤ 1 then .closed index else follow interruptible (depth - 1) (index + 1) rest := by
  have closes : depth + delta (spaced (tidied [.word .endWord])) = depth - 1 := by rw [tidied_end, delta_end]; rfl
  have last : depth - 1 ≤ 0 ↔ depth ≤ 1 := by omega
  rw [Indent.endLine, follow_line _ _ _ _ (List.cons_ne_nil _ _), closes]
  simp only [last]

end Follow

/-- The search passes a body with fewer hidden blocks than are open, and comes out by so many higher. -/
theorem follow_shown (interruptible : Bool) (body : Body) {depth : Int} (fewer : body.hidden < depth) (index : Nat)
    (rest : List (List Char)) :
    follow interruptible depth index (body.lines ++ rest) =
      follow interruptible (depth - body.hidden) (index + body.lines.length) rest := by
  induction body generalizing depth index rest with
  | done => simp [Body.lines, Body.hidden]
  | plain indent line body ih =>
    rw [Body.hidden] at fewer ⊢
    rw [Body.lines, List.cons_append, follow_plain (by omega), ih fewer, List.length_cons, Nat.add_right_comm,
      Nat.add_assoc]
  | block indent opener inner closing body innerPassed passed =>
    rw [Body.hidden] at fewer
    have left : depth + 1 - opener.isHidden.toNat - inner.hidden - 1 - body.hidden =
        depth - (Body.block indent opener inner closing body).hidden := by
      rw [Body.hidden]
      omega
    rw [Body.index_block, Body.lines, List.cons_append, List.append_assoc, List.cons_append,
      follow_opener (by omega), innerPassed (by omega), follow_end, if_neg (by omega), passed (by omega), left]

/-- A body with as many hidden blocks as are open is left by one of its own `end`s. -/
theorem follow_hidden (interruptible : Bool) (body : Body) {depth : Int} (inside : 0 < depth) (enough : depth ≤ body.hidden)
    (index : Nat) (rest : List (List Char)) :
    ∃ last < index + body.lines.length, follow interruptible depth index (body.lines ++ rest) = .closed last := by
  induction body generalizing depth index rest with
  | done =>
    rw [Body.hidden] at enough
    omega
  | plain indent line body ih =>
    obtain ⟨last, below, closed⟩ := ih inside enough (index + 1) rest
    refine ⟨last, ?_, ?_⟩
    · rw [Body.lines, List.length_cons]
      omega
    · rw [Body.lines, List.cons_append, follow_plain inside, closed]
  | block indent opener inner closing body innerClosed laterClosed =>
    rw [Body.hidden] at enough
    rw [Body.index_block, Body.lines, List.cons_append, List.append_assoc, List.cons_append, follow_opener inside]
    have bit : opener.isHidden.toNat ≤ 1 := Bool.toNat_le _
    by_cases within : depth + 1 - opener.isHidden.toNat ≤ inner.hidden
    · obtain ⟨last, below, closed⟩ := innerClosed (by omega) within (index + 1) (closing.endLine :: (body.lines ++ rest))
      exact ⟨last, by omega, closed⟩
    · rw [follow_shown interruptible inner (by omega), follow_end]
      split
      · exact ⟨_, by omega, rfl⟩
      · exact laterClosed (by omega) (by omega) _ rest

/-- A method ends at its own `end` exactly if no `do` in it is hidden. -/
theorem findEnd_method {limit : UInt64} {index : Nat} (fits : index + limit.toNat < Text.wordLimit) (indent : Indent)
    (signature : Signature) (body : Body) (closing : Indent) (rest : List (List Char))
    (short : body.lines.length + 2 ≤ limit.toNat) :
    ∃ last, findEnd limit index (indent.headerLine signature) (body.lines ++ closing.endLine :: rest) = .closed last ∧
      (last = index + body.lines.length + 1 ↔ body.hidden = 0) := by
  have taken : (body.lines ++ closing.endLine :: rest).take (limit.toNat - 1) =
      body.lines ++ closing.endLine :: rest.take (limit.toNat - 1 - body.lines.length - 1) := by
    rw [List.take_append, List.take_of_length_le (by omega), List.take_cons (by omega)]
  simp only [findEnd, signature.trim_headerLine, signature.delta_text, signature.read?_text, Limits.window_eq fits, taken]
  rw [if_neg (by decide)]
  by_cases shown : body.hidden = 0
  · rw [follow_shown _ body (by omega), follow_end, if_pos (by omega)]
    exact ⟨_, rfl, by omega⟩
  · obtain ⟨last, below, closed⟩ := follow_hidden true body (show (0 : Int) < 1 by decide) (by omega) (index + 1)
      (closing.endLine :: rest.take (limit.toNat - 1 - body.lines.length - 1))
    exact ⟨last, closed, by omega⟩

/-- A line that is read as it stands. -/
def readLine (line : List Char) : Line := ⟨line, line⟩

theorem map_cleaned_readLine (lines : List (List Char)) : (lines.map readLine).map (·.cleaned) = lines := by
  rw [List.map_map]
  exact List.map_id lines

theorem map_raw_readLine (lines : List (List Char)) : (lines.map readLine).map (·.raw) = lines := by
  rw [List.map_map]
  exact List.map_id lines

theorem findings_line (path : String) (limit : UInt64) (index : Nat) (indent : Indent) (parts : List Part) (rest : List Line) :
    findings path limit {} index (readLine (indent.line parts) :: rest) = findings path limit {} (index + 1) rest := by
  have unscoped := unscoped_spaced (tidied parts)
  have plain : '<' ∉ spaced (tidied parts) := fun member => (Printable.spaced _).not_special '<' member (by decide)
  simp [findings, readLine, trim_line, unscoped.visibility.visibilityAfter, unscoped.visibility.visibilityList?,
    startsSingleton_eq_false plain, unscoped.read?]

theorem findings_body (path : String) (limit : UInt64) (index : Nat) (body : Body) (rest : List Line) :
    findings path limit {} index (body.lines.map readLine ++ rest) =
      findings path limit {} (index + body.lines.length) rest := by
  induction body generalizing index rest with
  | done => rfl
  | plain indent line body ih =>
    rw [Body.lines, List.map_cons, List.cons_append, findings_line, ih, List.length_cons, Nat.add_right_comm, Nat.add_assoc]
  | block indent opener inner closing body innerPassed passed =>
    rw [Body.index_block, Body.lines, List.map_cons, List.map_append, List.map_cons, List.cons_append, List.append_assoc,
      List.cons_append, findings_line, innerPassed, Indent.endLine, findings_line, passed]

theorem findings_header (path : String) (limit : UInt64) (index : Nat) (indent : Indent) (signature : Signature)
    (rest : List Line) :
    findings path limit {} index (readLine (indent.headerLine signature) :: rest) =
      .method (methodAt path limit {} index (readLine (indent.headerLine signature)) rest signature.header) ::
        findings path limit {} (index + 1) rest := by
  have keeps := signature.keepsVisibility_text
  have plain : '<' ∉ signature.text := fun member => signature.printable_text.not_special '<' member (by decide)
  have named : isReserved (String.ofList signature.header.name) = false := by
    have free : isKeyword .ruby (String.ofList signature.name.text) = false := by
      simpa [isFree] using signature.name.free
    simp [isReserved, Signature.header, free, signature.known]
  have trimmed : Text.trim (readLine (indent.headerLine signature)).cleaned = signature.text :=
    signature.trim_headerLine indent
  rw [findings, trimmed]
  simp [keeps.visibilityAfter, keeps.visibilityList?, startsSingleton_eq_false plain, signature.read?_text, named]

/-- Where a definition starts, and as what. -/
def heading (definition : Definition) : String × Kind × Nat := (definition.name, definition.kind, definition.startLine)

/-- Whether the limit is out of reach from the first line of a definition. -/
def overruns (limit : UInt64) (definition : Definition) : Bool := Limits.overruns limit definition.startLine

/-- What is said of a method whose end is not found. -/
def endless (definition : Definition) : Diagnostic :=
  .malformedConstruct definition.filePath definition.startLine
    ("method '" ++ definition.name ++ "' has " ++ "no matching end")

section Method

variable (path : String) {limit : UInt64} (index : Nat) (indent : Indent) (signature : Signature) (body : Body)
  (closing : Indent) (rest : List (List Char))

theorem Program.length_methodLines : (methodLines indent signature body closing).length = body.lines.length + 2 := by
  simp [methodLines]

/-- The definition of a header is the one of its method exactly if no `do` in the method is hidden. -/
theorem methodAt_method (fits : index + limit.toNat < Text.wordLimit)
    (short : (Program.methodLines indent signature body closing).length ≤ limit.toNat) {found : Found}
    (read : methodAt path limit {} index (readLine (indent.headerLine signature))
      ((body.lines ++ closing.endLine :: rest).map readLine) signature.header = found) :
    found.diagnostic? = none ∧
      heading found.definition = heading (Program.methodDefinition path (index + 1) signature
        (Program.methodLines indent signature body closing)) ∧
      (found.definition = Program.methodDefinition path (index + 1) signature
        (Program.methodLines indent signature body closing) ↔ body.hidden = 0) := by
  rw [Program.length_methodLines] at short
  obtain ⟨last, closed, proper⟩ := findEnd_method fits indent signature body closing rest short
  have ends : findEnd limit index (readLine (indent.headerLine signature)).cleaned
      (((body.lines ++ closing.endLine :: rest).map readLine).map (·.cleaned)) = .closed last := by
    rw [map_cleaned_readLine]
    exact closed
  have length : index + 1 + (Program.methodLines indent signature body closing).length - 1 =
      index + body.lines.length + 1 + 1 := by
    rw [Program.length_methodLines]
    omega
  subst read
  simp only [methodAt, ends, End.last]
  refine ⟨rfl, by simp [heading, Program.methodDefinition, Signature.header], ?_⟩
  rw [← proper]
  constructor
  · intro same
    have line := congrArg Definition.endLine same
    rw [Program.methodDefinition, length] at line
    exact Nat.succ.inj line
  · rintro rfl
    have code : ((readLine (indent.headerLine signature) :: (body.lines ++ closing.endLine :: rest).map readLine).take
        (index + body.lines.length + 1 + 1 - index)).map (·.raw) = Program.methodLines indent signature body closing := by
      have lines : indent.headerLine signature :: (body.lines ++ closing.endLine :: rest) =
          Program.methodLines indent signature body closing ++ rest := by
        simp [Program.methodLines]
      have count : index + body.lines.length + 1 + 1 - index =
          (Program.methodLines indent signature body closing).length := by
        rw [Program.length_methodLines]
        omega
      rw [count, ← List.map_cons, ← List.map_take, map_raw_readLine, lines, List.take_left]
    rw [code]
    simpa [Program.methodDefinition, length, readLine, Signature.header] using signature.parametersOf_headerLine indent

/-- A method that is not followed is reported, and ends where it starts. -/
theorem methodAt_overrun (wraps : Text.wordLimit ≤ index + limit.toNat) {found : Found}
    (read : methodAt path limit {} index (readLine (indent.headerLine signature))
      ((body.lines ++ closing.endLine :: rest).map readLine) signature.header = found) :
    found.diagnostic? = some (endless (Program.methodDefinition path (index + 1) signature
        (Program.methodLines indent signature body closing))) ∧
      heading found.definition = heading (Program.methodDefinition path (index + 1) signature
        (Program.methodLines indent signature body closing)) ∧
      found.definition ≠ Program.methodDefinition path (index + 1) signature
        (Program.methodLines indent signature body closing) := by
  have opens : 0 < delta (Text.trim (readLine (indent.headerLine signature)).cleaned) := by
    rw [readLine, signature.trim_headerLine, signature.delta_text]
    decide
  have ends := findEnd_unread opens wraps (((body.lines ++ closing.endLine :: rest).map readLine).map (·.cleaned))
  subst read
  simp only [methodAt, ends, End.last]
  refine ⟨rfl, by simp [heading, Program.methodDefinition, Signature.header], ?_⟩
  intro same
  have line := congrArg Definition.endLine same
  simp only [Program.methodDefinition, Program.length_methodLines] at line
  omega

/-- A method gives one finding, and the lines after it are read as if they stood alone. -/
theorem findings_method :
    findings path limit {} index ((Program.methodLines indent signature body closing ++ rest).map readLine) =
      .method (methodAt path limit {} index (readLine (indent.headerLine signature))
        ((body.lines ++ closing.endLine :: rest).map readLine) signature.header) ::
        findings path limit {} (index + (Program.methodLines indent signature body closing).length) (rest.map readLine) := by
  have lines : (Program.methodLines indent signature body closing ++ rest).map readLine =
      readLine (indent.headerLine signature) :: (body.lines ++ closing.endLine :: rest).map readLine := by
    simp [Program.methodLines]
  -- The lines of a method are read on their own too, and none of them is a header.
  have later : findings path limit {} (index + 1) ((body.lines ++ closing.endLine :: rest).map readLine) =
      findings path limit {} (index + (Program.methodLines indent signature body closing).length) (rest.map readLine) := by
    rw [List.map_append, findings_body, List.map_cons, Indent.endLine, findings_line, Program.length_methodLines,
      Nat.add_right_comm index 1, Nat.add_assoc, Nat.add_assoc]
  rw [lines, findings_header, later]

end Method

/-- Methods found for the definitions of a program: each starts as it should, those that overrun the limit are reported,
and all are as they should be exactly if none does and some condition holds. -/
structure Account (limit : UInt64) (found : List Found) (definitions : List Definition) (shown : Prop) : Prop where
  reports : found.filterMap Found.diagnostic? = (definitions.filter (overruns limit)).map endless
  headings : found.map (fun each => heading each.definition) = definitions.map heading
  whole : found.map (·.definition) = definitions ↔
    shown ∧ ∀ definition ∈ definitions, overruns limit definition = false

namespace Account

variable {limit : UInt64}

theorem nil : Account limit [] [] True := ⟨rfl, rfl, by simp⟩

theorem closed {found : Found} {definition : Definition} {shown : Prop} (within : overruns limit definition = false)
    (silent : found.diagnostic? = none) (opened : heading found.definition = heading definition)
    (whole : found.definition = definition ↔ shown) : Account limit [found] [definition] shown :=
  ⟨by simp [silent, within], by simpa using opened, by simp [whole, within]⟩

theorem cut {found : Found} {definition : Definition} {shown : Prop} (beyond : overruns limit definition = true)
    (said : found.diagnostic? = some (endless definition)) (opened : heading found.definition = heading definition)
    (other : found.definition ≠ definition) : Account limit [found] [definition] shown :=
  ⟨by simp [said, beyond], by simpa using opened, by simp [other, beyond]⟩

theorem append {front back : List Found} {first second : List Definition} {before after : Prop}
    (own : Account limit front first before) (later : Account limit back second after) :
    Account limit (front ++ back) (first ++ second) (before ∧ after) := by
  refine ⟨?_, ?_, ?_⟩
  · rw [List.filterMap_append, List.filter_append, List.map_append, own.reports, later.reports]
  · rw [List.map_append, List.map_append, own.headings, later.headings]
  · have length : (front.map (·.definition)).length = first.length := by
      simpa using congrArg List.length own.headings
    rw [List.map_append, List.forall_mem_append, and_and_and_comm, ← own.whole, ← later.whole]
    exact ⟨fun same => List.append_inj same length, fun both => by rw [both.1, both.2]⟩

theorem method (path : String) (index : Nat) (indent : Indent) (signature : Signature) (body : Body) (closing : Indent)
    (rest : List (List Char)) (short : (Program.methodLines indent signature body closing).length ≤ limit.toNat) :
    Account limit [methodAt path limit {} index (readLine (indent.headerLine signature))
        ((body.lines ++ closing.endLine :: rest).map readLine) signature.header]
      [Program.methodDefinition path (index + 1) signature (Program.methodLines indent signature body closing)]
      (body.hidden = 0) := by
  cases reach : Limits.overruns limit (index + 1) with
  | false =>
    obtain ⟨silent, opened, whole⟩ := methodAt_method path index indent signature body closing rest
      (Limits.fits_of_overruns reach) short rfl
    exact .closed reach silent opened whole
  | true =>
    obtain ⟨said, opened, other⟩ := methodAt_overrun path index indent signature body closing rest
      (Limits.wraps_of_overruns reach) rfl
    exact .cut reach said opened other

end Account

/-- A program gives one finding a method, and the lines after it are read as if they stood alone. -/
theorem findings_program {limit : UInt64} (path : String) (program : Program) (short : program.Within limit.toNat)
    (index : Nat) (rest : List (List Char)) :
    ∃ found, findings path limit {} index ((program.lines ++ rest).map readLine) =
        found.map .method ++ findings path limit {} (index + program.lines.length) (rest.map readLine) ∧
      Account limit found (program.definitions path (index + 1)) program.Shown := by
  induction program generalizing index rest with
  | done => exact ⟨[], rfl, .nil⟩
  | plain indent line program ih =>
    obtain ⟨found, same, account⟩ := ih short (index + 1) rest
    have count : index + (Program.plain indent line program).lines.length = index + 1 + program.lines.length := by
      rw [Program.lines, List.length_cons]
      omega
    refine ⟨found, ?_, account⟩
    rw [count, Program.lines, List.cons_append, List.map_cons, findings_line, same]
  | method indent signature body closing program ih =>
    obtain ⟨own, later⟩ := short
    obtain ⟨found, same, account⟩ := ih later (index + (Program.methodLines indent signature body closing).length) rest
    have single := Account.method path index indent signature body closing (program.lines ++ rest) own
    have next : index + (Program.methodLines indent signature body closing).length + 1 =
        index + 1 + (Program.methodLines indent signature body closing).length := Nat.add_right_comm ..
    rw [next] at account
    refine ⟨_ :: found, ?_, single.append account⟩
    rw [Program.lines, List.append_assoc, findings_method, same, List.length_append, ← Nat.add_assoc index]
    rfl
  | container indent word known name inner closing program innerRead read =>
    obtain ⟨inside, later⟩ := short
    obtain ⟨front, first, own⟩ := innerRead inside (index + 1) (closing.endLine :: (program.lines ++ rest))
    obtain ⟨back, second, account⟩ := read later (index + 1 + inner.lines.length + 1) rest
    have count : index + (Program.container indent word known name inner closing program).lines.length =
        index + 1 + inner.lines.length + 1 + program.lines.length := by
      simp only [Program.lines, List.length_cons, List.length_append]
      omega
    refine ⟨front ++ back, ?_, own.append account⟩
    rw [count, Program.lines, List.cons_append, List.append_assoc, List.cons_append, List.map_cons, findings_line,
      first, Indent.endLine, List.map_cons, findings_line, second, List.map_append, List.append_assoc]

theorem Plain.code (line : Plain) (indent : Indent) : Code (indent.line line.parts) := by
  cases line <;> exact code_line indent (by simp) _

theorem Opener.code (line : Opener) (indent : Indent) : Code (indent.line line.parts) := by
  cases line <;> exact code_line indent (by simp) _

theorem Indent.code_endLine (indent : Indent) : Code indent.endLine := code_line indent (by simp) []

theorem Body.code (body : Body) : ∀ line ∈ body.lines, Code line := by
  induction body with
  | done => simp [lines]
  | plain indent line body ih =>
    rw [lines, List.forall_mem_cons]
    exact ⟨line.code indent, ih⟩
  | block indent opener inner closing body innerCode bodyCode =>
    rw [lines, List.forall_mem_cons, List.forall_mem_append, List.forall_mem_cons]
    exact ⟨opener.code indent, innerCode, closing.code_endLine, bodyCode⟩

theorem Program.code (program : Program) : ∀ line ∈ program.lines, Code line := by
  induction program with
  | done => simp [lines]
  | plain indent line program ih =>
    rw [lines, List.forall_mem_cons]
    exact ⟨line.code indent, ih⟩
  | method indent signature body closing program ih =>
    rw [lines, methodLines, List.cons_append, List.append_assoc, List.forall_mem_cons, List.forall_mem_append,
      List.singleton_append, List.forall_mem_cons]
    exact ⟨signature.code_headerLine indent, body.code, closing.code_endLine, ih⟩
  | container indent word known name inner closing program innerCode programCode =>
    rw [lines, List.forall_mem_cons, List.forall_mem_append, List.forall_mem_cons]
    exact ⟨code_line indent (by simp) _, innerCode, closing.code_endLine, programCode⟩

theorem Program.sourceLines_file (program : Program) (path : String) : (program.file path).sourceLines = program.lines := by
  have lines : (program.file path).lines = program.lines := by
    rw [SourceFile.lines, file, SourceFile.ofText, String.toList_ofList, lines_flatMap program.code]
  have counted : (program.file path).lineLimit = (program.file path).lines.length := Nat.min_self _
  rw [SourceFile.sourceLines, counted, List.take_length, lines]

/-- The first reading of a file with the lines of a program. -/
theorem define_program (reader : Reader) {file : SourceFile} {program : Program}
    (read : file.sourceLines = program.lines) (short : program.Within reader.limits.blockLines) :
    ∃ definitions,
      reader.define file =
        { definitions
          diagnostics := ((program.definitions file.path 1).filter (overruns reader.limits.block)).map endless } ∧
      definitions.map heading = (program.definitions file.path 1).map heading ∧
      (definitions = program.definitions file.path 1 ↔ program.Shown ∧
        ∀ definition ∈ program.definitions file.path 1, overruns reader.limits.block definition = false) := by
  have lines : linesOf file = (program.lines ++ []).map readLine := by
    rw [linesOf, read, pairLines_code program.code, List.append_nil]
    rfl
  obtain ⟨found, same, account⟩ := findings_program file.path program short 0 []
  have all : findings file.path reader.limits.block {} 0 (linesOf file) = found.map .method := by
    rw [lines, same, List.map_nil, findings, List.append_nil]
  have methods : foundMethods (found.map .method) = found := by simp [foundMethods, List.filterMap_map]
  have requests : requestedVisibilities (found.map .method) = [] := by simp [requestedVisibilities]
  have whole : reader.findMethods file = found := by
    rw [Reader.findMethods, methodsOf]
    simp only [all, methods, requests]
    exact List.map_id _
  refine ⟨found.map (·.definition), ?_, ?_, account.whole⟩
  · rw [Reader.define, whole]
    simp only [account.reports]
  · rw [List.map_map]
    exact account.headings

/-- A well-nested program gives one definition a method, in order, under its name and from its `def` on, in both
readings. Reported are the methods whose line and the limit add up to more than a machine word, and no others. The
definitions are whole, each up to its own `end`, exactly if there is no such method and no `do` is hidden. -/
theorem extractor_program (reader : Reader) (path : String) (program : Program)
    (short : program.Within reader.limits.blockLines) :
    ∃ definitions diagnostics,
      (extractor reader).define (program.file path) = .ok { definitions, diagnostics } ∧
      diagnostics = ((program.definitions path 1).filter (overruns reader.limits.block)).map endless ∧
      definitions.map heading = (program.definitions path 1).map heading ∧
      (definitions = program.definitions path 1 ↔ program.Shown ∧
        ∀ definition ∈ program.definitions path 1, overruns reader.limits.block definition = false) ∧
      ∀ registry, ∃ found, (extractor reader).analyze (program.file path) registry = .ok found ∧
        found.definitions.map Definition.eraseCalls = definitions ∧ found.diagnostics = diagnostics := by
  obtain ⟨definitions, defined, opened, whole⟩ := define_program reader (program.sourceLines_file path) short
  refine ⟨definitions, _, congrArg Except.ok defined, rfl, opened, whole, fun registry => ⟨_, rfl, ?_, ?_⟩⟩
  · rw [reader.analyze_eraseCalls, defined]
  · exact congrArg Extraction.diagnostics defined

namespace Specimen

def cart : Name := ⟨⟨"Cart".toList, by decide, by decide⟩, by decide⟩
def items : Name := ⟨⟨"items".toList, by decide, by decide⟩, by decide⟩
def item : Name := ⟨⟨"item".toList, by decide, by decide⟩, by decide⟩
def total : Name := ⟨⟨"do_total".toList, by decide, by decide⟩, by decide⟩
def build : Name := ⟨⟨"build".toList, by decide, by decide⟩, by decide⟩

def each : Expression := ⟨"format.each".toList, ⟨by decide, by decide, by decide, by decide⟩⟩
def taxed : Expression := ⟨"item.if_taxed(ending 2) ".toList, ⟨by decide, by decide, by decide, by decide⟩⟩

/-- The name of the receiver is `for` with an accent on its last letter. -/
def accented : Expression :=
  ⟨"for\u0301.each".toList, ⟨by decide, by decide +kernel, by decide +kernel, by decide⟩⟩

def noIndent : Indent := ⟨[], by simp⟩
def indented : Indent := ⟨[' ', '\t'], by decide⟩

/-- Two methods in a class; the first has blocks in blocks and a guarded line. -/
def program : Program :=
  .container noIndent .classWord (by decide) cart
    (.method indented ⟨false, total, by decide, by decide, some [items, item]⟩
      (.block indented (.iteration each item)
        (.block noIndent (.assignment item taxed) (.plain indented (.guarded each .unlessWord (by decide) taxed) .done)
          indented .done)
        noIndent (.plain indented (.guardedReturn taxed) .done))
      indented
      (.method noIndent ⟨true, build, by decide, by decide, none⟩ .done indented .done))
    noIndent .done

/-- A method with a block whose `do` is hidden, and a line behind that block. -/
def hiddenBlock : Program :=
  .method noIndent ⟨false, total, by decide, by decide, none⟩
    (.block indented (.iteration accented item) (.plain indented (.statement each) .done) indented
      (.plain indented (.statement each) .done))
    noIndent .done

end Specimen

theorem extractor_program_specimen :
    Specimen.program.Within 8 ∧ Specimen.program.Shown ∧
      (Specimen.program.definitions "cart.rb" 1).map
        (fun definition => (definition.name, definition.kind, definition.startLine, definition.endLine)) =
        [("do_total", .method, 2, 9), ("build", .classMethod, 10, 11)] ∧
      (extractor ⟨⟨.ruby, []⟩, ⟨8, 40⟩⟩).define (Specimen.program.file "cart.rb") =
        .ok { definitions := Specimen.program.definitions "cart.rb" 1 } := by
  have short : Specimen.program.Within 8 := ⟨⟨by decide, by decide, trivial⟩, trivial⟩
  have shown : Specimen.program.Shown := ⟨⟨by decide, by decide, trivial⟩, trivial⟩
  obtain ⟨definitions, diagnostics, defined, reported, _, whole, _⟩ :=
    extractor_program ⟨⟨.ruby, []⟩, ⟨8, 40⟩⟩ "cart.rb" Specimen.program short
  have within : ∀ definition ∈ Specimen.program.definitions "cart.rb" 1, overruns 8 definition = false := by decide
  have silent : diagnostics = [] := by
    rw [reported, List.filter_eq_nil_iff.mpr fun definition member => by simp [within definition member], List.map_nil]
  exact ⟨short, shown, by decide, by rw [defined, whole.mpr ⟨shown, within⟩, silent]⟩

/-- The method of six lines ends with its fourth. -/
theorem define_hiddenBlock :
    Specimen.hiddenBlock.Within 6 ∧
      (Specimen.hiddenBlock.definitions "cart.rb" 1).map
        (fun definition => (definition.startLine, definition.endLine)) = [(1, 6)] ∧
      (Reader.define ⟨⟨.ruby, []⟩, ⟨6, 40⟩⟩ (Specimen.hiddenBlock.file "cart.rb")).definitions.map
        (fun definition => (definition.startLine, definition.endLine)) = [(1, 4)] :=
  ⟨⟨by decide, trivial⟩, by decide, by decide +kernel⟩

end CallAtlas.Ruby.Grammar

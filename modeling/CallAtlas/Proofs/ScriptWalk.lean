import CallAtlas.Proofs.ScriptLines

/-! The walk over the syntax tree of a structured script. Visiting the trees of a program adds what there is to find in
it to what was found before, and goes on with whatever is pending; no candidate comes before one of an earlier line. -/
namespace CallAtlas.Script.Structured

open Walk (Step)

/-- Visiting some parts adds what is given, but for the texts of the definitions, whatever else is pending. -/
def Yields (file : SourceFile) (steps : List Step) (found : Scan) : Prop :=
  ∃ added : List Definition, added.map Definition.eraseCode = found.definitions ∧
    ∀ definitions candidates pending, Walk.run file definitions candidates (steps ++ pending) =
      Walk.run file (definitions ++ added) (candidates ++ found.candidates) pending

theorem append_lists {α : Type} (items : Array α) (first second : List α) :
    items ++ first ++ second = items ++ (first ++ second) := by
  apply Array.toList_inj.mp
  simp

namespace Yields

variable {file : SourceFile}

theorem nil : Yields file [] {} := by
  refine ⟨[], rfl, ?_⟩
  intro definitions candidates pending
  simp

theorem append {first second : List Step} {found more : Scan} (before : Yields file first found)
    (behind : Yields file second more) : Yields file (first ++ second) (found ++ more) := by
  obtain ⟨added, same, runs⟩ := before
  obtain ⟨others, alike, goesOn⟩ := behind
  refine ⟨added ++ others, ?_, ?_⟩
  · rw [List.map_append, same, alike]
    rfl
  · intro definitions candidates pending
    rw [List.append_assoc, runs, goesOn, append_lists, append_lists]
    rfl

/-- A node adds what it defines and uses itself, and then what the nodes that it leads to add. -/
theorem visit {tree : Tree} {definitions : List Definition} {candidates : List Candidate} {found : Scan}
    (defines : (Walk.definitions file tree).map Definition.eraseCode = definitions)
    (uses : (Walk.used? tree).toList = candidates) (inside : Yields file (Step.enter tree) found) :
    Yields file [.visit tree] ({ definitions, candidates : Scan } ++ found) := by
  obtain ⟨added, same, runs⟩ := inside
  refine ⟨Walk.definitions file tree ++ added, ?_, ?_⟩
  · rw [List.map_append, defines, same]
    rfl
  · intro known before pending
    have next : Step.next (.visit tree) = Step.enter tree := rfl
    have used : Step.candidates (.visit tree) = candidates := uses
    rw [List.singleton_append, Walk.run, next, runs, used, append_lists, append_lists]
    rfl

/-- A node that defines and uses nothing adds what the nodes in it add. -/
theorem enter {tree : Tree} {found : Scan} (plain : Walk.definitions file tree = []) (unused : Walk.used? tree = none)
    (inside : Yields file (Step.enter tree) found) : Yields file [.visit tree] found := by
  have whole := visit rfl rfl inside
  rwa [plain, unused] at whole

end Yields

variable {file : SourceFile}

theorem text_between (text behind : List Char) (first last : Nat) :
    (between (text ++ behind) behind first last).text = text := by
  simp [between, Excerpt.text, Cursor.before]

theorem text_leaf (form : Form) (text behind : List Char) (line : Nat) : (leaf form text behind line).text = text :=
  text_between text behind line line

/-- A node that yields nothing, before others. -/
theorem Yields.skip {tree : Tree} {trees : List Tree} {found : Scan} (silent : Yields file [.visit tree] {})
    (others : Yields file (trees.map .visit) found) : Yields file ((tree :: trees).map .visit) found :=
  silent.append others

theorem Yields.mark (text : String) (behind : List Char) (line : Nat) :
    Yields file [.visit (token text behind line)] {} := .enter rfl rfl .nil

theorem Yields.commas {first second : Tree} {rest : List Tree} {found more : Scan}
    (before : Yields file [.visit first] found)
    (behind : Yields file ((withCommas (second :: rest)).map .visit) more) :
    Yields file ((withCommas (first :: second :: rest)).map .visit) (found ++ more) :=
  before.append (.skip (.enter rfl rfl .nil) behind)

/-- Nodes before a mark yield what the nodes yield. -/
theorem Yields.marked {text : String} {behind : List Char} {line : Nat} {trees : List Tree} {found : Scan}
    (inner : Yields file (trees.map .visit) found) :
    Yields file ((trees ++ [token text behind line]).map .visit) found := by
  have whole := inner.append (Yields.mark text behind line)
  rw [Scan.append_nil] at whole
  rw [List.map_append]
  exact whole

theorem Yields.enclosed {opening closing : String} {inside behind : List Char} {line last : Nat} {trees : List Tree}
    {found : Scan} (inner : Yields file (trees.map .visit) found) :
    Yields file ((token opening inside line :: (trees ++ [token closing behind last])).map .visit) found :=
  .skip (.mark opening inside line) (.marked inner)

namespace Identifier

theorem candidate? (identifier : Identifier) {tree : Tree} (same : tree.text = identifier.text) :
    Walk.candidate? tree (tree.text.dropWhile (· == '#')) =
      some ⟨String.ofList identifier.text, tree.excerpt.firstLine⟩ := by
  obtain ⟨first, more, spelled, starts⟩ := identifier.exists_cons
  have other : first ≠ '#' := ne_of_joins (joins_of_starts starts) (by decide)
  simp [Walk.candidate?, same, spelled, other]

theorem yields_leaf (identifier : Identifier) (role : Field) (behind : List Char) (line : Nat) :
    Yields file [.visit ((leaf .identifier identifier.text behind line).asField role)] {} := .enter rfl rfl .nil

variable (dialect : Dialect) (line : Nat) (behind : List Char)

theorem yields_parameterTree (identifier : Identifier) :
    Yields file [.visit (identifier.parameterTree dialect line behind)] {} := by
  unfold parameterTree
  split
  · exact .enter rfl rfl (identifier.yields_leaf .pattern behind line)
  · exact .enter rfl rfl .nil

theorem yields_parameterTrees : (parameters : List Identifier) →
    Yields file ((withCommas (parameterTrees dialect line behind parameters)).map .visit) {}
  | [] => .nil
  | [last] => last.yields_parameterTree dialect line _
  | first :: second :: rest =>
    .commas (first.yields_parameterTree dialect line _) (yields_parameterTrees (second :: rest))

theorem text_parameterTree (identifier : Identifier) :
    (identifier.parameterTree dialect line behind).text = identifier.text := by
  unfold parameterTree
  split <;> exact text_leaf .identifier identifier.text behind line

/-- Where a parameter is read, its tree is. -/
theorem form_parameterTree (identifier : Identifier) :
    let form := (identifier.parameterTree dialect line behind).form
    form.isNamed = true ∧ (form != .comment) = true := by
  unfold parameterTree
  split <;> exact ⟨rfl, rfl⟩

theorem filter_withCommas (trees : List Tree) :
    (withCommas trees).filter (·.form.isNamed) = trees.filter (·.form.isNamed) := by
  fun_induction withCommas trees with
  | case1 first second rest stop ih =>
    change List.filter (·.form.isNamed) ([first] ++ ([.node (.token ",") none _ []] ++ withCommas (second :: rest))) =
      List.filter (·.form.isNamed) ([first] ++ (second :: rest))
    rw [List.filter_append, List.filter_append, ih, List.filter_append]
    rfl
  | case2 => rfl

/-- The trees of parameters are read as the parameters that they are. -/
theorem classify_parameterTrees (language : Language) (parameters : List Identifier) :
    (((parameterTrees dialect line behind parameters).filter (·.form.isNamed)).filter fun parameter =>
        parameter.form != .comment).filterMap (fun parameter => Parameters.classify? language parameter.text) =
      (parameters.map (·.text)).filterMap (Parameters.classify? language) := by
  induction parameters with
  | nil => rfl
  | cons first rest ih =>
    obtain ⟨named, other⟩ := first.form_parameterTree dialect line (others (rest.map (·.text)) ++ behind)
    have spelled := first.text_parameterTree dialect line (others (rest.map (·.text)) ++ behind)
    simp only [parameterTrees, List.filter_cons, named, other, if_true, List.filterMap_cons, spelled, List.map_cons, ih]

end Identifier

theorem named_append (line : Nat) (first second : List (List Char)) :
    ({ candidates := named line first } : Scan) ++ ({ candidates := named line second } : Scan) =
      { candidates := named line (first ++ second) } := by
  rw [named, named, named, List.map_append]
  rfl

namespace Expression

mutual

theorem yields_tree (line : Nat) (behind : List Char) : (expression : Expression) →
    Yields file [.visit (expression.tree line behind)] { candidates := named line expression.calls : Scan }
  | name identifier => by
    rw [tree]
    exact .enter rfl rfl .nil
  | call callee arguments => by
    have inner := yields_trees line (')' :: behind) arguments
    have argued : Yields file [.visit (inParentheses .arguments .arguments line
        (Parameters.listed (texts arguments) ++ ')' :: behind) behind (trees line (')' :: behind) arguments))]
        { candidates := named line (callsIn arguments) : Scan } := .enter rfl rfl (.enclosed inner)
    have used := callee.candidate? (text_leaf .identifier callee.text
      ('(' :: (Parameters.listed (texts arguments) ++ ')' :: behind)) line)
    have whole : Yields file [.visit ((call callee arguments).tree line behind)]
        ({ candidates := named line [callee.text] } ++ { candidates := named line (callsIn arguments) } : Scan) := by
      rw [tree]
      exact .visit rfl (congrArg Option.toList used) (.skip (callee.yields_leaf _ _ _) argued)
    exact whole

theorem yields_trees (line : Nat) (behind : List Char) : (expressions : List Expression) →
    Yields file ((withCommas (trees line behind expressions)).map .visit)
      { candidates := named line (callsIn expressions) : Scan }
  | [] => .nil
  | [last] => by
    have whole := yields_tree line (others (texts []) ++ behind) last
    rw [callsIn, callsIn, List.append_nil]
    exact whole
  | first :: second :: rest => by
    have whole := (yields_tree line (others (texts (second :: rest)) ++ behind) first).commas
      (yields_trees line behind (second :: rest))
    rw [named_append] at whole
    exact whole

end

theorem yields_statement (line : Nat) (behind : List Char) (value : Expression) :
    Yields file [.visit (value.statement line behind)] { candidates := named line value.calls : Scan } := by
  have ended : Yields file (([value.tree line (';' :: behind)] ++ [token ";" behind line]).map .visit) _ :=
    .marked (value.yields_tree line (';' :: behind))
  exact .enter rfl rfl ended

end Expression

namespace Header

variable (dialect : Dialect) (line last : Nat) (inside behind : List Char)

theorem yields_parameterList (parameters : List Identifier) :
    Yields file [.visit (parameterList dialect line behind parameters)] {} :=
  .enter rfl rfl (.enclosed (Identifier.yields_parameterTrees dialect line _ parameters))

theorem yields_braced (role : Field) {statements : List Tree} {found : Scan}
    (inner : Yields file (statements.map .visit) found) :
    Yields file [.visit (braced role line last inside behind statements)] found := .enter rfl rfl (.enclosed inner)

/-- The parameters of a function with a list of them are those of the list. -/
theorem parameters_eq {function : Tree} {parameters : List Identifier}
    (held : function.childByField? .parameters = some (parameterList dialect line behind parameters))
    (language : Language) :
    function.parameters language =
      (parameters.map (·.text)).filterMap (Parameters.classify? language) := by
  have children : (parameterList dialect line behind parameters).namedChildren =
      (Identifier.parameterTrees dialect line (')' :: behind) parameters).filter (·.form.isNamed) := by
    rw [← Identifier.filter_withCommas]
    change List.filter _ (_ :: (_ ++ [_])) = _
    rw [List.filter_cons, List.filter_append]
    exact List.append_nil _
  rw [Tree.parameters, held]
  change ((parameterList dialect line behind parameters).namedChildren.filter _).filterMap _ = _
  rw [children]
  exact Identifier.classify_parameterTrees dialect line _ language parameters

/-- A function defines what its block does, if the text of the block is that of the node. -/
theorem functionDefinition_eq {dialect : Dialect} {line last : Nat} {behind blockText listed : List Char}
    {name : Identifier} {parameters : List Identifier} {first function tree : Tree} (spelled : first.text = name.text)
    (held : function.childByField? .parameters = some (parameterList dialect line listed parameters))
    (covers : tree.excerpt = between (blockText ++ behind) behind line last) :
    (Walk.functionDefinition file first function tree).eraseCode =
      { name := String.ofList name.text, kind := functionKind name.text blockText, filePath := file.path
        startLine := line, endLine := last
        parameters := (parameters.map (·.text)).filterMap (Parameters.classify? file.language) } := by
  have whole : tree.text = blockText := by rw [Tree.text, covers, text_between]
  rw [Walk.functionDefinition, whole, spelled, parameters_eq dialect line listed held, Tree.definition, Tree.written,
    spelled, covers]
  rfl

/-- The tree of a block yields what the block defines and calls, and what its statements yield. -/
theorem yields_tree (header : Header) {blockText : List Char} {statements : List Tree} {found : Scan}
    (whole : header.text ++ inside = blockText ++ behind) (inner : Yields file (statements.map .visit) found) :
    Yields file [.visit (header.tree dialect line last inside behind statements)]
      ({ definitions := (header.definition? file blockText line last).toList
         candidates := named line (header.calls []) : Scan } ++ found) := by
  cases header with
  | function name parameters =>
    refine .visit ?_ rfl ?_
    · exact congrArg (fun definition => [definition]) (functionDefinition_eq
        (text_leaf .identifier name.text _ line) rfl (congrArg (between · behind line last) whole))
    · exact .skip (.mark _ _ _) (.skip (name.yields_leaf _ _ _) (.skip (yields_parameterList _ _ _ _)
        (yields_braced line last inside behind .body inner)))
  | arrow name parameters =>
    refine .visit ?_ rfl ?_
    · exact congrArg (fun definition => [definition]) (functionDefinition_eq
        (text_leaf .identifier name.text _ line) rfl (congrArg (between · behind line last) whole))
    · refine .skip (.enter rfl rfl .nil) (?_ : Yields file (([_] ++ [token ";" behind last]).map .visit) found)
      refine .marked (.enter rfl rfl (.skip (name.yields_leaf _ _ _) (.skip (.mark _ _ _) ?_)))
      exact .enter rfl rfl (.skip (yields_parameterList _ _ _ _) (.skip (.mark _ _ _)
        (yields_braced line last inside (';' :: behind) .body inner)))
  | branch condition =>
    have asked : Yields file _ _ := condition.yields_tree line (')' :: ' ' :: '{' :: inside)
    have parenthesized : Yields file [.visit (inParentheses .parenthesizedExpression .condition line
        (condition.text ++ ')' :: ' ' :: '{' :: inside) (' ' :: '{' :: inside)
        [condition.tree line (')' :: ' ' :: '{' :: inside)])] { candidates := named line condition.calls : Scan } :=
      .enter rfl rfl (.enclosed asked)
    exact .enter rfl rfl (.skip (.mark _ _ _) (parenthesized.append
      (yields_braced line last inside behind .consequence inner)))

end Header

theorem Program.joinLines_eq (line : List Char) (lines : List (List Char)) :
    Text.joinLines (line :: lines) = line ++ lines.flatMap ('\n' :: ·) := by
  induction lines generalizing line with
  | nil => simp [Text.joinLines, List.intercalate]
  | cons next lines ih =>
    have rest := ih next
    simp only [Text.joinLines, List.intercalate, List.intersperse, List.flatten_cons] at rest ⊢
    simp [rest]

/-- The trees of a program yield what there is to find in it. -/
theorem Program.yields_trees (dialect : Dialect) (program : Program) (line : Nat) (behind : List Char) :
    Yields file ((program.trees dialect line behind).map .visit) (program.found file [] line) := by
  induction program generalizing line behind with
  | done => exact .nil
  | evaluate indent value program ih =>
    exact (value.yields_statement line (program.following ++ behind)).append (ih (line + 1) behind)
  | block indent header body closing program inner later =>
    let behindBlock := program.following ++ behind
    let closed := '\n' :: (closing.blanks ++ (header.closing ++ behindBlock))
    have whole : header.text ++ (body.following ++ closed) = blockText header body closing ++ behindBlock := by
      simp [blockText, joinLines_eq, following, closed]
    have block := header.yields_tree dialect line (line + body.lines.length + 1) _ _ whole (inner (line + 1) closed)
    have both := block.append (later (line + body.lines.length + 1 + 1) behind)
    rw [Scan.append_assoc] at both
    exact both

/-- The candidates are in the order of their lines, from the line `first` on and before the line `last`. -/
structure Ascends (first last : Nat) (candidates : List Candidate) : Prop where
  ordered : candidates.Pairwise fun earlier later => earlier.line ≤ later.line
  bounds : ∀ candidate ∈ candidates, first ≤ candidate.line ∧ candidate.line < last

namespace Ascends

theorem nil (first last : Nat) : Ascends first last [] := ⟨.nil, by simp⟩

theorem named (line : Nat) (names : List (List Char)) : Ascends line (line + 1) (named line names) := by
  have own : ∀ candidate ∈ Structured.named line names, candidate.line = line := by
    intro candidate member
    obtain ⟨name, _, rfl⟩ := List.mem_map.mp member
    rfl
  constructor
  · apply List.pairwise_of_forall_mem_list
    intro earlier before later behind
    rw [own earlier before, own later behind]
  · intro candidate member
    rw [own candidate member]
    omega

theorem append {first middle next last : Nat} {before behind : List Candidate} (start : Ascends first middle before)
    (rest : Ascends next last behind) (apart : first ≤ middle ∧ middle ≤ next ∧ next ≤ last) :
    Ascends first last (before ++ behind) := by
  constructor
  · apply List.pairwise_append.mpr
    refine ⟨start.ordered, rest.ordered, ?_⟩
    intro earlier here later there
    have lower := (start.bounds earlier here).2
    have upper := (rest.bounds later there).1
    omega
  · intro candidate member
    rcases List.mem_append.mp member with here | there
    · have bounds := start.bounds candidate here
      omega
    · have bounds := rest.bounds candidate there
      omega

end Ascends

theorem Program.ascends_found (file : SourceFile) (words : List (List Char)) (program : Program) (line : Nat) :
    Ascends line (line + program.lines.length) (program.found file words line).candidates := by
  induction program generalizing line with
  | done => exact .nil _ _
  | evaluate indent value program ih =>
    have whole := (Ascends.named line value.calls).append (ih (line + 1)) (by omega)
    rwa [Nat.add_assoc, Nat.add_comm 1] at whole
  | block indent header body closing program inner later =>
    have rest := (inner (line + 1)).append (later (line + body.lines.length + 2)) (by omega)
    have whole := (Ascends.named line (header.calls words)).append rest (by omega)
    have last : line + body.lines.length + 2 + program.lines.length =
        line + (Program.block indent header body closing program).lines.length := by
      simp only [lines, List.length_cons, List.length_append]
      omega
    rwa [last] at whole

theorem Program.found_diagnostics (file : SourceFile) (words : List (List Char)) (program : Program) (line : Nat) :
    (program.found file words line).diagnostics = [] := by
  induction program generalizing line with
  | done => rfl
  | evaluate indent value program ih => exact ih (line + 1)
  | block indent header body closing program inner later =>
    have both := congrArg₂ (· ++ ·) (inner (line + 1)) (later (line + body.lines.length + 2))
    exact both

/-- What the walk finds in a program. -/
theorem walk_program (file : SourceFile) (program : Program) {dialect : Dialect} {root : Tree}
    (shaped : root.children = program.trees dialect 1 []) :
    (Walk.scan file root).eraseCode = program.found file [] 1 := by
  obtain ⟨added, same, runs⟩ : Yields file ((program.trees dialect 1 []).map .visit) _ :=
    program.yields_trees dialect 1 []
  have visited := runs #[] #[] []
  rw [List.append_nil, Walk.run] at visited
  have sorted : (program.found file [] 1).candidates.mergeSort (fun first second => first.line ≤ second.line) =
      (program.found file [] 1).candidates := by
    apply List.mergeSort_of_pairwise
    exact (program.ascends_found file [] 1).ordered.imp decide_eq_true
  have silent := program.found_diagnostics file [] 1
  have scanned : Walk.scan file root =
      { definitions := added, candidates := (program.found file [] 1).candidates } := by
    rw [Walk.scan, shaped, visited]
    simp [sorted]
  rw [scanned, Scan.eraseCode, same, ← silent]

end CallAtlas.Script.Structured

import CallAtlas.Parameters
import CallAtlas.Script.Clause
import CallAtlas.Script.Scan
import CallAtlas.Script.Tree
import CallAtlas.SourceFile

/-! The definitions and call candidates of a syntax tree, in the order in which its parts stand in the script. The
walk keeps what is still to be visited in a list, so deep nesting costs no more than long text. -/
namespace CallAtlas.Script

namespace Tree

/-- The text of a node as it is written. -/
def written (tree : Tree) : String := String.ofList tree.text

/-- The text of a string without its quotes. -/
def unquoted (literal : Tree) : String := String.ofList (Text.trimWhile Text.isQuote literal.text)

/-- The name of the function that is called: an identifier, or the property of an object. -/
def calleeName? (function : Tree) : Option Tree :=
  match function.form with
  | .identifier => some function
  | .memberExpression => function.childByField? .property
  | _ => none

def isFunctionValue (tree : Tree) : Bool :=
  match tree.form with
  | .arrowFunction | .functionExpression | .generatorFunction => true
  | _ => false

/-- The first argument of a call. A comment counts as one. -/
def firstArgument? (call : Tree) : Option Tree := do
  let arguments ← call.childByField? .arguments
  arguments.namedChildren.head?

/-- The function that a value is, or that it hands to a wrapper. -/
def boundFunction? (value : Tree) : Option Tree :=
  if value.isFunctionValue then some value
  else if value.form == .callExpression then do
    let callee ← value.childByField? .function >>= calleeName?
    if functionWrappers.contains callee.written then value.firstArgument?.filter isFunctionValue else none
  else none

/-- The module that a value requires. -/
def requiredModule? (value : Tree) : Option String :=
  if value.form == .callExpression then do
    let function ← value.childByField? .function
    if function.form == .identifier && function.text == "require".toList then do
      let first ← value.firstArgument?
      if first.form == .string then some first.unquoted else none
    else none
  else none

/-- The parameters of a function: those of its list, or the single name before an arrow. -/
def parameters (language : Language) (function : Tree) : List Parameter :=
  match function.childByField? .parameters with
  | some list =>
    (list.namedChildren.filter fun parameter => parameter.form != .comment).filterMap fun parameter =>
      Parameters.classify? language parameter.text
  | none => (function.childByField? .parameter).toList.map fun parameter => { name := parameter.written }

def definition (file : SourceFile) (name : String) (kind : Kind) (tree : Tree) : Definition :=
  { name, kind, filePath := file.path, startLine := tree.excerpt.firstLine, endLine := tree.excerpt.lastLine
    code := tree.written }

end Tree

namespace Walk

/-- What a node defines under the name that it has. -/
def named (file : SourceFile) (kind : Kind) (tree : Tree) : List Definition :=
  (tree.childByField? .name).toList.map fun name => tree.definition file name.written kind

/-- A free function, which its name and the text of a node may make a hook or a component. -/
def functionDefinition (file : SourceFile) (name function tree : Tree) : Definition :=
  { tree.definition file name.written (functionKind name.text tree.text) with
    parameters := function.parameters file.language }

def memberDefinition? (file : SourceFile) (member function : Tree) : Option Definition := do
  let name ← (member.childByField? .name).or (member.childByField? .property)
  let modifier := member.childOfForm? .accessibilityModifier
  let isPrivate := modifier.any (·.text == "private".toList) || name.form == .privatePropertyIdentifier
  return { member.definition file (String.ofList (name.text.dropWhile (· == '#')))
      (if member.hasChild (.token "static") then .classMethod else .method) with
    parameters := function.parameters file.language
    visibility := if isPrivate then .privateScope else .publicScope }

/-- The function that a member of an interface stands for: itself if it is a method, or what is said of a property
with an arrow in its type. -/
def signature? (member : Tree) : Option Tree :=
  match member.form with
  | .methodSignature => some member
  | .propertySignature => do
    let type ← member.childByField? .type
    if Text.contains "=>" type.text then type.namedChildren.head? else none
  | _ => none

def interfaceMethod? (file : SourceFile) (member : Tree) : Option Definition := do
  let name ← member.childByField? .name
  let function ← signature? member
  return { member.definition file name.written .interfaceMethod with
    parameters := function.parameters file.language }

def interfaceDefinitions (file : SourceFile) (tree : Tree) : List Definition :=
  match tree.childByField? .name with
  | none => []
  | some name =>
    let members := ((tree.childByField? .body).map Tree.namedChildren).getD []
    tree.definition file name.written .interfaceType :: members.filterMap (interfaceMethod? file)

/-- What one declarator of a statement defines: a required module or a function. -/
def declared? (file : SourceFile) (statement declarator : Tree) : Option Definition :=
  if declarator.form == .variableDeclarator then do
    let name ← declarator.childByField? .name
    let value ← declarator.childByField? .value
    match value.requiredModule? with
    | some source =>
      some { statement.definition file source .importRecord with
        moduleName := some source
        bindings := if name.form == .identifier then [name.written] else importBindings name.text }
    | none =>
      if name.form == .identifier then
        value.boundFunction?.map fun function => functionDefinition file name function statement
      else none
  else none

def imported? (file : SourceFile) (tree : Tree) : Option Definition := do
  let source ← tree.childByField? .source
  let clause := tree.childOfForm? .importClause
  return { tree.definition file source.unquoted .importRecord with
    moduleName := some source.unquoted
    bindings := (clause.map fun clause => importBindings clause.text).getD [] }

private def isBrace (c : Char) : Bool := c == '\x7b' || c == '\x7d'

/-- What an export statement lists: names, everything, or a name that is its value. -/
def exported (file : SourceFile) (tree : Tree) : List Definition :=
  let source := (tree.childByField? .source).map Tree.unquoted
  let record (name : String) : Definition := { tree.definition file name .exportRecord with moduleName := source }
  let space := tree.childOfForm? .namespaceExport
  match tree.childOfForm? .exportClause with
  | some clause =>
    ((Text.trimWhile isBrace clause.text).splitOn ',').filterMap fun specifier =>
      (exportSpecifier? specifier).map fun (name, exported) => { record exported with bindings := [name] }
  | none =>
    if tree.hasChild (.token "*") || space.isSome then
      [record (((space.bind fun space => space.namedChildren.getLast?).map Tree.written).getD "*")]
    else
      match tree.childByField? .value with
      | some value =>
        if value.form == .identifier then
          [{ tree.definition file value.written .exportRecord with bindings := [value.written] }]
        else []
      | none => []

/-- What a node defines where it stands. -/
def definitions (file : SourceFile) (tree : Tree) : List Definition :=
  match tree.form with
  | .functionDeclaration | .generatorFunctionDeclaration =>
    (tree.childByField? .name).toList.map fun name => functionDefinition file name tree tree
  | .classDeclaration | .abstractClassDeclaration | .classExpression => named file .classType tree
  | .interfaceDeclaration => interfaceDefinitions file tree
  | .typeAliasDeclaration => named file .typeAlias tree
  | .enumDeclaration => named file .enumeration tree
  | .lexicalDeclaration | .variableDeclaration => tree.namedChildren.filterMap (declared? file tree)
  | .importStatement => (imported? file tree).toList
  | .exportStatement => exported file tree
  | _ => []

/-- A name that is used like a call, on the line of the node that it is taken from. -/
def candidate? (tree : Tree) (name : List Char) : Option Candidate :=
  if name.isEmpty then none else some ⟨String.ofList name, tree.excerpt.firstLine⟩

/-- The name that a node uses like a call. -/
def used? (tree : Tree) : Option Candidate :=
  match tree.form with
  | .callExpression => do
    let callee ← tree.childByField? .function >>= Tree.calleeName?
    candidate? callee (callee.text.dropWhile (· == '#'))
  | .newExpression => do
    let constructed ← tree.childByField? .constructor
    if constructed.form == .identifier then candidate? constructed constructed.text else none
  | .jsxOpeningElement | .jsxSelfClosingElement => do
    let name ← tree.childByField? .name
    let head := name.text.takeWhile (· != '.')
    if head.head?.any Text.isUpper then candidate? name head else none
  | _ => none

/-- What a member of a class defines; any other part of a class is read as it would be elsewhere. -/
def memberDefinitions (file : SourceFile) (member : Tree) : Option (List Definition) :=
  match member.form with
  | .methodDefinition | .abstractMethodSignature | .methodSignature =>
    some (memberDefinition? file member member).toList
  | .fieldDefinition | .publicFieldDefinition =>
    let function := member.childByField? .value >>= Tree.boundFunction?
    some (function >>= memberDefinition? file member).toList
  | _ => none

/-- A node that is still to be visited. Members of a class are read differently from the same nodes elsewhere. -/
inductive Step where
  | visit (tree : Tree)
  | member (tree : Tree)

namespace Step

def tree : Step → Tree
  | visit tree | member tree => tree

def definitions (file : SourceFile) : Step → List Definition
  | visit tree => Walk.definitions file tree
  | member tree => (memberDefinitions file tree).getD (Walk.definitions file tree)

def candidates (step : Step) : List Candidate := (used? step.tree).toList

/-- The nodes to visit after a node is visited. A class is entered by its members alone; interfaces, type aliases,
enumerations and imports are not entered. -/
def enter (tree : Tree) : List Step :=
  match tree.form with
  | .classDeclaration | .abstractClassDeclaration | .classExpression =>
    match tree.childByField? .body with
    | some body => body.children.map member
    | none => tree.children.map visit
  | .interfaceDeclaration | .typeAliasDeclaration | .enumDeclaration | .importStatement => []
  | _ => tree.children.map visit

def next (step : Step) : List Step := enter step.tree

/-- The number of nodes that several steps have before them. -/
def load (steps : List Step) : Nat := Tree.weights (steps.map tree)

theorem load_map_visit (trees : List Tree) : load (trees.map visit) = Tree.weights trees := by
  simp [load, Function.comp_def, tree]

theorem load_map_member (trees : List Tree) : load (trees.map member) = Tree.weights trees := by
  simp [load, Function.comp_def, tree]

theorem load_append (first second : List Step) : load (first ++ second) = load first + load second := by
  simp [load, Tree.weights_append]

theorem load_enter (tree : Tree) : load (enter tree) < tree.weight := by
  have all : load (tree.children.map visit) < tree.weight := by
    rw [load_map_visit, Tree.weight_eq]
    omega
  unfold enter
  split
  case h_4 | h_5 | h_6 | h_7 => rw [Tree.weight_eq]; exact Nat.zero_lt_succ _
  case h_8 => exact all
  all_goals
    split
    · next body found =>
      have inside := Tree.weight_le_of_mem (List.mem_of_find?_eq_some found)
      rw [Tree.weight_eq] at inside
      rw [load_map_member, Tree.weight_eq tree]
      omega
    · exact all

end Step

/-- Visits what is pending, the first node first and then what it leads to, adding to what was found. -/
def run (file : SourceFile) (definitions : Array Definition) (candidates : Array Candidate) :
    (pending : List Step) → Array Definition × Array Candidate
  | [] => (definitions, candidates)
  | step :: pending =>
    run file (definitions ++ step.definitions file) (candidates ++ step.candidates) (step.next ++ pending)
termination_by pending => Step.load pending
decreasing_by
  have := Step.load_enter step.tree
  rw [Step.load_append]
  simp only [Step.next, Step.load, List.map_cons, Tree.weights] at *
  omega

/-- Everything found in a tree, with the candidates by ascending line. -/
def scan (file : SourceFile) (tree : Tree) : Scan :=
  let (definitions, candidates) := run file #[] #[] (tree.children.map .visit)
  { definitions := definitions.toList
    candidates := candidates.toList.mergeSort fun first second => first.line ≤ second.line }

end Walk
end CallAtlas.Script

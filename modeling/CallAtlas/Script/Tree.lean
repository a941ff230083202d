import CallAtlas.Script.Cursor

/-! Syntax trees of scripts. A node has a form, possibly a field by which its parent knows it, and the stretch of the
script that it covers; whatever else there is to know of it, is looked up among its children. -/
namespace CallAtlas.Script

/-- What a node is. Words and marks that a rule of the grammar spells out are nodes as well, but have no name. -/
inductive Form where
  | token (text : String)
  | comment | program | hashBangLine
  | statementBlock | emptyStatement | expressionStatement | labeledStatement | ifStatement | elseClause
  | switchStatement | switchBody | switchCase | switchDefault | forStatement | forInStatement | whileStatement
  | doStatement | tryStatement | catchClause | finallyClause | returnStatement | throwStatement | breakStatement
  | continueStatement | debuggerStatement | withStatement
  | functionDeclaration | generatorFunctionDeclaration | functionSignature | lexicalDeclaration | variableDeclaration
  | variableDeclarator | classDeclaration | abstractClassDeclaration | classExpression | classHeritage | extendsClause
  | extendsTypeClause | implementsClause | classBody | classStaticBlock | methodDefinition | methodSignature
  | abstractMethodSignature | fieldDefinition | publicFieldDefinition | accessibilityModifier | overrideModifier
  | decorator | interfaceDeclaration | interfaceBody | typeAliasDeclaration | enumDeclaration | enumBody
  | enumAssignment | ambientDeclaration | moduleDeclaration
  | importStatement | importClause | namedImports | namespaceImport | importSpecifier | importAttribute | importAlias
  | importRequireClause | exportStatement | exportClause | exportSpecifier | namespaceExport
  | identifier | propertyIdentifier | privatePropertyIdentifier | statementIdentifier | shorthandPropertyIdentifier
  | shorthandPropertyIdentifierPattern | computedPropertyName | constant | number | string | regex | templateString
  | templateSubstitution | metaProperty | importFunction | parenthesizedExpression | sequenceExpression
  | memberExpression | subscriptExpression | optionalChain | callExpression | arguments | newExpression
  | nonNullExpression | instantiationExpression | unaryExpression | updateExpression | awaitExpression
  | yieldExpression | binaryExpression | assignmentExpression | augmentedAssignmentExpression | ternaryExpression
  | asExpression | satisfiesExpression | typeAssertion | arrowFunction | functionExpression | generatorFunction
  | array | object | pair | spreadElement
  | formalParameters | requiredParameter | optionalParameter | restPattern | assignmentPattern | objectPattern
  | pairPattern | objectAssignmentPattern | arrayPattern
  | ascribedType | typeParameters | typeParameter | constraint | defaultType | typeArguments | asserts
  | typePredicate | functionType | constructorType | callSignature | constructSignature | indexSignature
  | propertySignature | objectType | tupleType | tupleMember | parenthesizedType | typeQuery | importType
  | typeIdentifier | nestedTypeIdentifier | genericType | literalType | templateLiteralType | templateType
  | operatorType | arrayType | unionType | intersectionType | conditionalType
  | jsxElement | jsxOpeningElement | jsxClosingElement | jsxSelfClosingElement | jsxNamespaceName | jsxAttribute
  | jsxExpression | jsxText
  deriving DecidableEq

def Form.isNamed : Form → Bool
  | token _ => false
  | _ => true

inductive Field where
  | name | property | parameters | parameter | body | value | function | arguments | constructor | source | type
  | declaration | object | index | key | label | kind | left | right | operator | argument | condition | consequence
  | alternative | handler | finalizer | pattern | returnType | typeParameters | typeArguments | openTag | closeTag
  deriving DecidableEq

inductive Tree where
  | node (form : Form) (field : Option Field) (excerpt : Excerpt) (children : List Tree)

namespace Tree

def form : Tree → Form
  | node form _ _ _ => form

def field : Tree → Option Field
  | node _ field _ _ => field

def excerpt : Tree → Excerpt
  | node _ _ excerpt _ => excerpt

def children : Tree → List Tree
  | node _ _ _ children => children

def text (tree : Tree) : List Char := tree.excerpt.text

def asField (field : Field) : Tree → Tree
  | node form _ excerpt children => node form (some field) excerpt children

def namedChildren (tree : Tree) : List Tree := tree.children.filter (·.form.isNamed)

def childByField? (field : Field) (tree : Tree) : Option Tree := tree.children.find? (·.field == some field)

def childOfForm? (form : Form) (tree : Tree) : Option Tree := tree.children.find? (·.form == form)

def hasChild (form : Form) (tree : Tree) : Bool := tree.children.any (·.form == form)

mutual

/-- Whether two trees are the same, with a companion for children. -/
def same : Tree → Tree → Bool
  | node form field excerpt children, node other role stretch parts =>
    form == other && field == role && excerpt == stretch && sameAll children parts

def sameAll : List Tree → List Tree → Bool
  | [], [] => true
  | first :: others, second :: more => same first second && sameAll others more
  | _, _ => false

end

mutual

theorem same_iff (first second : Tree) : same first second = true ↔ first = second := by
  cases first
  cases second
  simp [same, sameAll_iff, and_assoc]

theorem sameAll_iff (first second : List Tree) : sameAll first second = true ↔ first = second := by
  cases first <;> cases second <;> simp [sameAll, same_iff, sameAll_iff]

end

instance : DecidableEq Tree := fun first second => decidable_of_iff _ (same_iff first second)

mutual

def weight : Tree → Nat
  | node _ _ _ children => weights children + 1

def weights : List Tree → Nat
  | [] => 0
  | tree :: rest => tree.weight + weights rest

end

theorem weights_append (first second : List Tree) :
    weights (first ++ second) = weights first + weights second := by
  induction first with
  | nil => simp [weights]
  | cons tree rest ih => simp [weights, ih, Nat.add_assoc]

theorem weight_le_of_mem {tree : Tree} {trees : List Tree} (member : tree ∈ trees) :
    tree.weight ≤ weights trees := by
  induction trees with
  | nil => cases member
  | cons head rest ih =>
    simp only [weights]
    cases member with
    | head => omega
    | tail _ member => have := ih member; omega

theorem weight_eq (tree : Tree) : tree.weight = weights tree.children + 1 := by
  cases tree; simp [weight, children]

end Tree
end CallAtlas.Script

import CallAtlas.Proofs.CallNames
import CallAtlas.Script

/-! Plainly structured scripts, printed with one construct a line. A program is a list of expressions that are
evaluated and of blocks: functions, variables that hold an arrow function, and conditions. Every line has an
indentation of its own. Beside its lines a program has the syntax trees of its statements, and what there is to find
in it. -/
namespace CallAtlas

/-- A definition without its text. -/
def Definition.eraseCode (definition : Definition) : Definition := { definition with code := "" }

namespace Script

/-- What a reading yields, without the texts of the definitions. -/
def Scan.eraseCode (found : Scan) : Scan := { found with definitions := found.definitions.map Definition.eraseCode }

theorem Scan.nil_append (found : Scan) : ({} : Scan) ++ found = found := rfl

theorem Scan.append_nil (found : Scan) : found ++ ({} : Scan) = found := by
  change Scan.append found {} = found
  simp [Scan.append]

theorem Scan.append_assoc (first second third : Scan) : first ++ second ++ third = first ++ (second ++ third) := by
  change Scan.append (Scan.append first second) third = Scan.append first (Scan.append second third)
  simp [Scan.append]

theorem Scan.eraseCode_append (first second : Scan) :
    (first ++ second).eraseCode = first.eraseCode ++ second.eraseCode := by
  change Scan.eraseCode (Scan.append first second) = Scan.append first.eraseCode second.eraseCode
  simp [Scan.append, Scan.eraseCode]

namespace Structured

/-- The stretch of a script between two places, given by what is left to read there. -/
def between (start stop : List Char) (firstLine lastLine : Nat) : Excerpt :=
  ⟨.before start firstLine, .before stop lastLine⟩

/-- A node without children, with what is behind it. -/
def leaf (form : Form) (text behind : List Char) (line : Nat) : Tree :=
  .node form none (between (text ++ behind) behind line line) []

def token (text : String) (behind : List Char) (line : Nat) : Tree := leaf (.token text) text.toList behind line

/-- Nodes with a comma right after each but the last. -/
def withCommas : List Tree → List Tree
  | first :: second :: rest =>
    let stop := first.excerpt.stop
    first :: .node (.token ",") none ⟨stop, stop.next⟩ [] :: withCommas (second :: rest)
  | trees => trees

/-- Nodes in parentheses. The text `inside` goes on from the opening one, and `behind` from the closing one. -/
def inParentheses (form : Form) (role : Field) (line : Nat) (inside behind : List Char) (items : List Tree) : Tree :=
  .node form (some role) (between ('(' :: inside) behind line line)
    (token "(" inside line :: (withCommas items ++ [token ")" behind line]))

/-- What follows the first of several texts, when the others are listed after it. -/
def others (texts : List (List Char)) : List Char :=
  if texts.isEmpty then [] else ',' :: ' ' :: Parameters.listed texts

/-- An identifier of ASCII characters that is no keyword. -/
structure Identifier extends Text.Identifier Pattern.startsIdentifier joinsIdentifier where
  free : isKeyword .javascript (String.ofList text) = false
  other : Text.startsWith "function" text = false

namespace Identifier

/-- The tree of a parameter, which has a node of its own around its name where parameters can have types. -/
def parameterTree (dialect : Dialect) (line : Nat) (behind : List Char) (identifier : Identifier) : Tree :=
  let name := leaf .identifier identifier.text behind line
  if dialect.hasTypes then .node .requiredParameter none name.excerpt [name.asField .pattern] else name

def parameterTrees (dialect : Dialect) (line : Nat) (behind : List Char) : List Identifier → List Tree
  | [] => []
  | first :: rest =>
    first.parameterTree dialect line (others (rest.map (·.text)) ++ behind) :: parameterTrees dialect line behind rest

end Identifier

/-- Names, and calls of names with expressions. -/
inductive Expression where
  | name (identifier : Identifier)
  | call (callee : Identifier) (arguments : List Expression)

namespace Expression

mutual

def text : Expression → List Char
  | name identifier => identifier.text
  | call callee arguments => callee.text ++ '(' :: (Parameters.listed (texts arguments) ++ [')'])

def texts : List Expression → List (List Char)
  | [] => []
  | first :: rest => first.text :: texts rest

end

mutual

/-- The names that an expression calls, from left to right. -/
def calls : Expression → List (List Char)
  | name _ => []
  | call callee arguments => callee.text :: callsIn arguments

def callsIn : List Expression → List (List Char)
  | [] => []
  | first :: rest => first.calls ++ callsIn rest

end

mutual

/-- The tree of an expression on a line, with what is behind it. -/
def tree (line : Nat) (behind : List Char) : Expression → Tree
  | name identifier => leaf .identifier identifier.text behind line
  | call callee arguments =>
    let inside := Parameters.listed (texts arguments) ++ ')' :: behind
    .node .callExpression none (between (callee.text ++ '(' :: inside) behind line line)
      [(leaf .identifier callee.text ('(' :: inside) line).asField .function,
       inParentheses .arguments .arguments line inside behind (trees line (')' :: behind) arguments)]

def trees (line : Nat) (behind : List Char) : List Expression → List Tree
  | [] => []
  | first :: rest => first.tree line (others (texts rest) ++ behind) :: trees line behind rest

end

/-- The tree of an expression with a semicolon. -/
def statement (line : Nat) (behind : List Char) (value : Expression) : Tree :=
  .node .expressionStatement none (between (value.text ++ ';' :: behind) behind line line)
    [value.tree line (';' :: behind), token ";" behind line]

end Expression

/-- What opens a block. -/
inductive Header where
  | function (name : Identifier) (parameters : List Identifier)
  | arrow (name : Identifier) (parameters : List Identifier)
  | branch (condition : Expression)

namespace Header

/-- Parameters in brackets. -/
def bracketed (parameters : List Identifier) : List Char :=
  '(' :: (Parameters.listed (parameters.map (·.text)) ++ [')'])

def functionWord : List Char := ['f', 'u', 'n', 'c', 't', 'i', 'o', 'n', ' ']

def constantWord : List Char := ['c', 'o', 'n', 's', 't', ' ']

def conditionWord : List Char := ['i', 'f', ' ', '(']

def text : Header → List Char
  | function name parameters => functionWord ++ (name.text ++ (bracketed parameters ++ [' ', '{']))
  | arrow name parameters =>
    constantWord ++ (name.text ++ ([' ', '=', ' '] ++ (bracketed parameters ++ [' ', '=', '>', ' ', '{'])))
  | branch condition => conditionWord ++ (condition.text ++ [')', ' ', '{'])

/-- What closes the block. -/
def closing : Header → List Char
  | arrow _ _ => ['}', ';']
  | function _ _ | branch _ => ['}']

def parameterList (dialect : Dialect) (line : Nat) (behind : List Char) (parameters : List Identifier) : Tree :=
  let inside := Parameters.listed (parameters.map (·.text)) ++ ')' :: behind
  inParentheses .formalParameters .parameters line inside behind
    (Identifier.parameterTrees dialect line (')' :: behind) parameters)

/-- Statements in braces, likewise. -/
def braced (role : Field) (line last : Nat) (inside behind : List Char) (statements : List Tree) : Tree :=
  .node .statementBlock (some role) (between ('{' :: inside) behind line last)
    (token "\x7b" inside line :: (statements ++ [token "\x7d" behind last]))

/-- The tree of a block with the trees of its statements. -/
def tree (dialect : Dialect) (line last : Nat) (inside behind : List Char) (statements : List Tree) : Header → Tree
  | function name parameters =>
    let listed := bracketed parameters ++ ' ' :: '{' :: inside
    .node .functionDeclaration none (between (text (function name parameters) ++ inside) behind line last)
      [token "function" (' ' :: (name.text ++ listed)) line,
       (leaf .identifier name.text listed line).asField .name,
       parameterList dialect line (' ' :: '{' :: inside) parameters,
       braced .body line last inside behind statements]
  | arrow name parameters =>
    let body := ' ' :: '{' :: inside
    let listed := bracketed parameters ++ ' ' :: '=' :: '>' :: body
    .node .lexicalDeclaration none (between (text (arrow name parameters) ++ inside) behind line last)
      [(token "const" (' ' :: (name.text ++ ' ' :: '=' :: ' ' :: listed)) line).asField .kind,
       .node .variableDeclarator none (between (name.text ++ ' ' :: '=' :: ' ' :: listed) (';' :: behind) line last)
        [(leaf .identifier name.text (' ' :: '=' :: ' ' :: listed) line).asField .name,
         token "=" (' ' :: listed) line,
         .node .arrowFunction (some .value) (between listed (';' :: behind) line last)
          [parameterList dialect line (' ' :: '=' :: '>' :: body) parameters,
           token "=>" body line,
           braced .body line last inside (';' :: behind) statements]],
       token ";" behind last]
  | branch condition =>
    let body := ' ' :: '{' :: inside
    let asked := condition.text ++ ')' :: body
    .node .ifStatement none (between (text (branch condition) ++ inside) behind line last)
      [token "if" (' ' :: '(' :: asked) line,
       inParentheses .parenthesizedExpression .condition line asked body [condition.tree line (')' :: body)],
       braced .consequence line last inside behind statements]

end Header

/-- Blanks before the text of a line. -/
structure Indent where
  blanks : List Char
  blank : ∀ c ∈ blanks, Text.isBlank c = true

inductive Program where
  | done
  | evaluate (indent : Indent) (value : Expression) (rest : Program)
  | block (indent : Indent) (header : Header) (body : Program) (closing : Indent) (rest : Program)

namespace Program

def lines : Program → List (List Char)
  | done => []
  | evaluate indent value rest => (indent.blanks ++ (value.text ++ [';'])) :: rest.lines
  | block indent header body closing rest =>
    (indent.blanks ++ header.text) :: (body.lines ++ (closing.blanks ++ header.closing) :: rest.lines)

/-- The lines of a program, each on from the end of a line before. -/
def following (program : Program) : List Char := program.lines.flatMap ('\n' :: ·)

/-- The text of a block from the start of its header on. -/
def blockText (header : Header) (body : Program) (closing : Indent) : List Char :=
  Text.joinLines (header.text :: (body.lines ++ [closing.blanks ++ header.closing]))

/-- The trees of the statements, when the first line has the number `line` and something is behind the last. -/
def trees (dialect : Dialect) (line : Nat) (behind : List Char) : Program → List Tree
  | done => []
  | evaluate _ value rest =>
    value.statement line (rest.following ++ behind) :: rest.trees dialect (line + 1) behind
  | block _ header body closing rest =>
    let behindBlock := rest.following ++ behind
    let last := line + body.lines.length + 1
    let closed := '\n' :: (closing.blanks ++ (header.closing ++ behindBlock))
    header.tree dialect line last (body.following ++ closed) behindBlock (body.trees dialect (line + 1) closed) ::
      rest.trees dialect (last + 1) behind

end Program

/-- Names used like calls on a line. -/
def named (line : Nat) (names : List (List Char)) : List Candidate := names.map fun name => ⟨String.ofList name, line⟩

namespace Header

/-- The definition that a block with a text on some lines makes. -/
def definition? (file : SourceFile) (blockText : List Char) (line last : Nat) : Header → Option Definition
  | function name parameters | arrow name parameters =>
    some { name := String.ofList name.text, kind := functionKind name.text blockText, filePath := file.path
           startLine := line, endLine := last
           parameters := (parameters.map (·.text)).filterMap (Parameters.classify? file.language) }
  | branch _ => none

/-- The names used like calls in a header, when `words` counts as used before a condition. -/
def calls (words : List (List Char)) : Header → List (List Char)
  | function _ _ | arrow _ _ => []
  | branch condition => words ++ condition.calls

end Header

/-- Everything in a program whose first line has the number `line`. -/
def Program.found (file : SourceFile) (words : List (List Char)) (line : Nat) : Program → Scan
  | done => {}
  | evaluate _ value rest => { candidates := named line value.calls : Scan } ++ rest.found file words (line + 1)
  | block _ header body closing rest =>
    let last := line + body.lines.length + 1
    { definitions := (header.definition? file (blockText header body closing) line last).toList
      candidates := named line (header.calls words) : Scan } ++
        (body.found file words (line + 1) ++ rest.found file words (last + 1))

end Structured
end Script
end CallAtlas

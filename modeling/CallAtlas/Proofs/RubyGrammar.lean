import CallAtlas.Proofs.ParameterLists
import CallAtlas.Proofs.Words
import CallAtlas.Ruby

/-! Well-nested Ruby programs, printed with one construct a line. A program is a list of plain lines, methods and
classes or modules; the body of a method is a list of plain lines and blocks of any depth. Every line has an
indentation of its own. -/
namespace CallAtlas.Ruby.Grammar

/-- Whether a word is no keyword. -/
def isFree (word : List Char) : Bool := !isKeyword .ruby (String.ofList word)

/-- What a name starts with: whatever words are made of, but no digit. -/
def startsWord (c : Char) : Bool := Text.isWord c && !Text.isDigit c

/-- An identifier that is no keyword. -/
structure Name extends Text.Identifier startsWord Text.isWord where
  free : isFree text = true

/-- Whether the round brackets of a text are balanced, when some are already open. -/
def isBalanced : (opened : Nat) → List Char → Bool
  | opened, [] => opened == 0
  | opened, c :: rest =>
    if c = '(' then isBalanced (opened + 1) rest
    else if c = ')' then opened != 0 && isBalanced (opened - 1) rest
    else isBalanced opened rest

/-- Names that are no keywords, digits, dots, blanks and balanced brackets; a name comes first. -/
structure IsExpression (text : List Char) : Prop where
  starts : text.head?.any startsWord = true
  chars : ∀ c ∈ text, Text.isWord c = true ∨ c ∈ ['.', ' ', '(', ')']
  free : ∀ word ∈ Text.words text, isFree word = true
  balanced : isBalanced 0 text = true

structure Expression where
  text : List Char
  valid : IsExpression text

/-- The words that lines are built with. -/
inductive Keyword where
  | ifWord
  | unlessWord
  | whileWord
  | untilWord
  | caseWord
  | beginWord
  | doWord
  | endWord
  | returnWord
  | elseWord
  | elsifWord
  | whenWord
  | classWord
  | moduleWord
  deriving DecidableEq, Repr

def Keyword.all : List Keyword :=
  [ifWord, unlessWord, whileWord, untilWord, caseWord, beginWord, doWord, endWord, returnWord, elseWord, elsifWord,
   whenWord, classWord, moduleWord]

def Keyword.text : Keyword → String
  | ifWord => "if"
  | unlessWord => "unless"
  | whileWord => "while"
  | untilWord => "until"
  | caseWord => "case"
  | beginWord => "begin"
  | doWord => "do"
  | endWord => "end"
  | returnWord => "return"
  | elseWord => "else"
  | elsifWord => "elsif"
  | whenWord => "when"
  | classWord => "class"
  | moduleWord => "module"

/-- What stands between the blanks of a line. -/
inductive Part where
  | word (keyword : Keyword)
  | name (identifier : Name)
  | value (expression : Expression)
  | equals
  | bound (identifier : Name)

def Part.text : Part → List Char
  | word keyword => keyword.text.toList
  | name identifier => identifier.text
  | value expression => expression.text
  | equals => ['=']
  | bound identifier => '|' :: (identifier.text ++ ['|'])

/-- Parts with a blank between neighbours. -/
def spaced : List Part → List Char
  | [] => []
  | [part] => part.text
  | part :: rest => part.text ++ ' ' :: spaced rest

/-- Lines that open and close nothing. -/
inductive Plain where
  | statement (value : Expression)
  | assignment (target : Name) (value : Expression)
  | guarded (value : Expression) (word : Keyword) (known : word ∈ [.ifWord, .unlessWord]) (condition : Expression)
  | guardedReturn (condition : Expression)
  | otherwise
  | branch (word : Keyword) (known : word ∈ [.elsifWord, .whenWord]) (condition : Expression)

def Plain.parts : Plain → List Part
  | statement value => [.value value]
  | assignment target value => [.name target, .equals, .value value]
  | guarded value word _ condition => [.value value, .word word, .value condition]
  | guardedReturn condition => [.word .returnWord, .word .ifWord, .value condition]
  | otherwise => [.word .elseWord]
  | branch word _ condition => [.word word, .value condition]

/-- Lines that open a block. -/
inductive Opener where
  | conditional (word : Keyword) (known : word ∈ [.ifWord, .unlessWord, .whileWord, .untilWord, .caseWord])
      (condition : Expression)
  | sequence
  | iteration (value : Expression) (bound : Name)
  | assignment (target : Name) (condition : Expression)

def Opener.parts : Opener → List Part
  | conditional word _ condition => [.word word, .value condition]
  | sequence => [.word .beginWord]
  | iteration value bound => [.value value, .word .doWord, .bound bound]
  | assignment target condition => [.name target, .equals, .word .ifWord, .value condition]

/-- Whether a text starts with the word of a loop that goes on in a mark: a character that words are made of, but no
letter, digit or underscore. -/
def startsMarkedLoop (text : List Char) : Bool :=
  Block.loops.any fun word =>
    match Text.after? word text with
    | some (c :: _) => Text.isWord c && !(Text.isAlphanumeric c || c == '_')
    | _ => false

/-- Whether the `do` of a line is taken for the one of a loop. -/
def Opener.isHidden : Opener → Bool
  | iteration value _ => startsMarkedLoop value.text
  | _ => false

/-- The first line of a method whose name the word tables leave free. The name starts with an ASCII letter or an
underscore, as no other is read. -/
structure Signature where
  onSelf : Bool
  name : Name
  read : name.text.head?.any Text.startsName = true
  known : isBuiltin .ruby (String.ofList name.text) = false
  parameters : Option (List Name)

/-- Names with a comma and a blank between neighbours. -/
def listed (names : List Name) : List Char := Parameters.listed (names.map (·.text))

def Signature.parameterText (signature : Signature) : List Char :=
  match signature.parameters with
  | none => []
  | some names => '(' :: (listed names ++ [')'])

def Signature.text (signature : Signature) : List Char :=
  "def ".toList ++ ((if signature.onSelf then "self.".toList else []) ++
    (signature.name.text ++ signature.parameterText))

/-- Blanks before the text of a line. -/
structure Indent where
  blanks : List Char
  blank : ∀ c ∈ blanks, Text.isBlank c = true ∧ c ≠ '\n'

/-- The line of some parts. -/
def Indent.line (indent : Indent) (parts : List Part) : List Char := indent.blanks ++ spaced parts

def Indent.endLine (indent : Indent) : List Char := indent.line [.word .endWord]

def Indent.headerLine (indent : Indent) (signature : Signature) : List Char := indent.blanks ++ signature.text

/-- Plain lines and blocks. -/
inductive Body where
  | done
  | plain (indent : Indent) (line : Plain) (rest : Body)
  | block (indent : Indent) (opener : Opener) (inner : Body) (closing : Indent) (rest : Body)

def Body.lines : Body → List (List Char)
  | done => []
  | plain indent line rest => indent.line line.parts :: rest.lines
  | block indent opener inner closing rest =>
    indent.line opener.parts :: (inner.lines ++ closing.endLine :: rest.lines)

/-- The number of blocks in a body whose `do` is hidden. -/
def Body.hidden : Body → Nat
  | done => 0
  | plain _ _ rest => rest.hidden
  | block _ opener inner _ rest => opener.isHidden.toNat + inner.hidden + rest.hidden

/-- Plain lines, methods, and classes or modules around programs. -/
inductive Program where
  | done
  | plain (indent : Indent) (line : Plain) (rest : Program)
  | method (indent : Indent) (signature : Signature) (body : Body) (closing : Indent) (rest : Program)
  | container (indent : Indent) (word : Keyword) (known : word ∈ [.classWord, .moduleWord]) (name : Name)
      (inner : Program) (closing : Indent) (rest : Program)

namespace Program

/-- The lines of a method. -/
def methodLines (indent : Indent) (signature : Signature) (body : Body) (closing : Indent) : List (List Char) :=
  indent.headerLine signature :: (body.lines ++ [closing.endLine])

def lines : Program → List (List Char)
  | done => []
  | plain indent line rest => indent.line line.parts :: rest.lines
  | method indent signature body closing rest => methodLines indent signature body closing ++ rest.lines
  | container indent word _ name inner closing rest =>
    indent.line [.word word, .name name] :: (inner.lines ++ closing.endLine :: rest.lines)

/-- The file that holds a program, every line of it ended. -/
def file (program : Program) (path : String) : SourceFile :=
  .ofText path .ruby (String.ofList (program.lines.flatMap fun line => line ++ ['\n']))

/-- No method has more than `limit` lines. -/
def Within (limit : Nat) : Program → Prop
  | done => True
  | plain _ _ rest => rest.Within limit
  | method indent signature body closing rest =>
    (methodLines indent signature body closing).length ≤ limit ∧ rest.Within limit
  | container _ _ _ _ inner _ rest => inner.Within limit ∧ rest.Within limit

/-- No method has a block whose `do` is hidden. -/
def Shown : Program → Prop
  | done => True
  | plain _ _ rest => rest.Shown
  | method _ _ body _ rest => body.hidden = 0 ∧ rest.Shown
  | container _ _ _ _ inner _ rest => inner.Shown ∧ rest.Shown

/-- The definition of a method whose first line has the number `line`. -/
def methodDefinition (path : String) (line : Nat) (signature : Signature) (lines : List (List Char)) : Definition where
  name := String.ofList signature.name.text
  kind := if signature.onSelf then .classMethod else .method
  filePath := path
  startLine := line
  endLine := line + lines.length - 1
  code := String.ofList (Text.joinLines lines)
  parameters := (signature.parameters.getD []).map fun name => { name := String.ofList name.text }

/-- One definition a method, in order, when the first line of the program has the number `line`. -/
def definitions (path : String) (line : Nat) : Program → List Definition
  | done => []
  | plain _ _ rest => rest.definitions path (line + 1)
  | method indent signature body closing rest =>
    let lines := methodLines indent signature body closing
    methodDefinition path line signature lines :: rest.definitions path (line + lines.length)
  | container _ _ _ _ inner _ rest =>
    inner.definitions path (line + 1) ++ rest.definitions path (line + inner.lines.length + 2)

end Program
end CallAtlas.Ruby.Grammar

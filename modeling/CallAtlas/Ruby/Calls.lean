import CallAtlas.Text.Occurrences
import CallAtlas.Vocabulary

/-! Call names on a cleaned line of Ruby. A bare name that is assigned, or bound as a block parameter, is a local
variable from its line on; a name after a dot is always a call. -/
namespace CallAtlas.Ruby

/-- An identifier that could name a method. -/
structure Token where
  name : String
  dotted : Bool
  assigned : Bool
  deriving DecidableEq, Repr

namespace Token

def continuesName (c : Char) : Bool := Text.isLetter c || Text.isDigit c || c == '_'

private def compoundAssignments : List String :=
  ["+=", "-=", "*=", "/=", "%=", "**=", "||=", "&&=", "<<="]

def startsAssignment (text : List Char) : Bool :=
  match Text.trimStart text with
  | '=' :: rest => !(rest.head?.any fun c => c ∈ ['=', '~', '>'])
  | rest => compoundAssignments.any fun operator => Text.startsWith operator rest

/-- A name with the question or exclamation mark that belongs to it. -/
def marked (word rest : List Char) : List Char × List Char :=
  match rest with
  | mark :: after =>
    if (mark = '?' ∨ mark = '!') ∧ after.head? ≠ some '=' then (word ++ [mark], after) else (word, rest)
  | [] => (word, rest)

/-- Whether the characters before a name, nearest first, make it a name called on something. -/
def isDotted (before : List Char) : Bool :=
  before.head? == some '.' && before.tail.head? != some '.'

/-- Whether the characters before a name make it a variable, a symbol or a constant path. -/
def isSigiled (before : List Char) : Bool :=
  (before.head?.any fun c => c ∈ ['@', '$', ':', '.']) && before.tail.head? != some '.'

def isLabel : List Char → Bool
  | ':' :: ':' :: _ => false
  | ':' :: _ => true
  | _ => false

def read? (before word rest : List Char) : Option Token :=
  let (name, rest) := marked word rest
  let dotted := isDotted before
  if before.head?.any continuesName then none
  else if !dotted && isSigiled before then none
  else if isLabel rest then none
  else if !dotted && name.head?.any Text.isUpper then none
  else some { name := String.ofList name, dotted, assigned := startsAssignment rest }

/-- An identifier, and the token it makes unless the characters around it forbid one. -/
def pattern : Text.Pattern (Option Token) := fun before text =>
  match text with
  | c :: more =>
    if Text.startsName c then
      let rest := more.dropWhile continuesName
      some (read? before (c :: more.takeWhile continuesName) rest, rest)
    else none
  | [] => none

end Token

def tokens (text : List Char) : List Token := (Text.occurrences Token.pattern text).filterMap id

/-- The parameter list of a block: what stands between bars after `do` or an opening brace. -/
def blockParameters : Text.Pattern (List Char) := fun before text =>
  let opened := match text with
    | '{' :: rest => some rest
    | _ => if Text.atWordStart before then Text.after? "do" text else none
  match opened.map Text.trimStart with
  | some ('|' :: rest) =>
    match Text.cutAt? "|" rest with
    | some (list, left) => some (list, left)
    | none => none
  | _ => none

private def parameterName (piece : List Char) : List Char :=
  Text.dropEndWhile (· == ')') ((Text.trim piece).dropWhile fun c => c ∈ ['*', '&', '('])

def blockNames (text : List Char) : List String :=
  (Text.occurrences blockParameters text).flatMap fun list =>
    (((list.splitOn ',').map parameterName).filter fun name => !name.isEmpty).map String.ofList

/-- The local variables known after a text: those known before, bare assignment targets, block parameters. -/
def localsAfter (locals : List String) (text : List Char) : List String :=
  let assigned := ((tokens text).filter fun token => !token.dotted && token.assigned).map (·.name)
  locals ++ assigned ++ blockNames text

/-- Whether a token is a call, given the local variables of its line. -/
def Token.isCall (accepts : String → Bool) (locals : List String) (token : Token) : Bool :=
  !token.assigned && (token.dotted || !locals.contains token.name) && accepts token.name

def callNames (accepts : String → Bool) (locals : List String) (text : List Char) : List String :=
  let known := localsAfter locals text
  ((tokens text).filter fun token => token.isCall accepts known).foldl
    (fun names token => if names.contains token.name then names else names ++ [token.name]) []

end CallAtlas.Ruby

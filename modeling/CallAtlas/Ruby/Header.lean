import CallAtlas.Bracket
import CallAtlas.Definition
import CallAtlas.Text.Cut

/-! Headers of Ruby methods: the line that starts with `def`, possibly after a visibility word. -/
namespace CallAtlas.Ruby

/-- The parts of a `def` line. The list of parameters may have brackets around it; the body is what follows. -/
structure Header where
  name : List Char
  onSelf : Bool
  visibility : Option Visibility
  parameters : Option (List Char)
  body : List Char
  deriving DecidableEq, Repr

namespace Header

/-- A visibility word and the blanks after it. Protected methods count as public. -/
def visibilityWord? (text : List Char) : Option (Visibility × List Char) :=
  match Text.afterSpacedWord? "private" text with
  | some rest => some (.privateScope, rest)
  | none =>
    match Text.afterSpacedWord? "protected" text with
    | some rest => some (.publicScope, rest)
    | none => (Text.afterSpacedWord? "public" text).map fun rest => (.publicScope, rest)

def name? : List Char → Option (List Char × List Char)
  | [] => none
  | c :: text =>
    if Text.startsName c then
      let word := c :: text.takeWhile Text.isWord
      match text.dropWhile Text.isWord with
      | mark :: rest =>
        if mark ∈ ['?', '!', '='] then some (word ++ [mark], rest) else some (word, mark :: rest)
      | [] => some (word, [])
    else none

/-- The equals sign belongs to the name of a setter only if a bracket follows; otherwise it starts the body
of an endless method. -/
def settle (name rest : List Char) : List Char × List Char :=
  if name.getLast? = some '=' ∧ rest.head? ≠ some '(' then (name.dropLast, '=' :: rest) else (name, rest)

def signature (rest : List Char) : Option (List Char) × List Char :=
  match rest with
  | '(' :: inside =>
    match Bracket.enclosed? rest with
    | some (list, body) => (some list, body)
    | none => (some inside, [])
  | _ =>
    match Text.trimStart rest with
    | [] | '=' :: _ | ';' :: _ => (none, rest)
    | _ => (some (rest.takeWhile (· != ';')), rest.dropWhile (· != ';'))

def finish (visibility : Option Visibility) (onSelf : Bool) (name rest : List Char) : Header :=
  let (name, rest) := settle name rest
  let (parameters, body) := signature rest
  { name, onSelf, visibility, parameters, body }

/-- Reads a trimmed line as a header. -/
def read? (line : List Char) : Option Header :=
  let (visibility, rest) := match visibilityWord? line with
    | some (visibility, rest) => (some visibility, rest)
    | none => (none, line)
  match Text.afterSpacedWord? "def" rest with
  | none => none
  | some text =>
    match (Text.after? "self." text).bind name? with
    | some (name, rest) => some (finish visibility true name rest)
    | none => (name? text).map fun (name, rest) => finish visibility false name rest

/-- Whether the method has its whole body after an equals sign on the header line. -/
def isEndless (header : Header) : Bool :=
  match Text.trimStart header.body with
  | '=' :: '=' :: _ | '=' :: '~' :: _ => false
  | '=' :: _ => true
  | _ => false

end Header
end CallAtlas.Ruby

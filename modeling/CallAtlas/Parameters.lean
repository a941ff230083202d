import CallAtlas.Definition
import CallAtlas.Language
import CallAtlas.Text.Cut

/-! Parameter lists. A list is split at the commas outside brackets and quotes, and each fragment is read by the
rules of its language. -/
namespace CallAtlas.Parameters

/-- What the splitter knows at a character: open brackets, the open quote, the character before. -/
structure Nesting where
  depth : Int32 := 0
  quote : Option Char := none
  previous : Char := '\x00'
  deriving DecidableEq, Repr

namespace Nesting

/-- Brackets and angle brackets count, the angle of an arrow does not. -/
def depthAfter (nesting : Nesting) (c : Char) : Int32 :=
  if c ∈ ['(', '{', '[', '<'] then nesting.depth + 1
  else if c ∈ [')', '}', ']'] then nesting.depth - 1
  else if c = '>' ∧ nesting.previous ≠ '=' then nesting.depth - 1
  else nesting.depth

/-- The nesting after a character. A quote closes unless a backslash stands before it. -/
def next (nesting : Nesting) (c : Char) : Nesting :=
  match nesting.quote with
  | some quote =>
    { nesting with quote := if c = quote ∧ nesting.previous ≠ '\\' then none else some quote, previous := c }
  | none =>
    { depth := nesting.depthAfter c, quote := if Text.isQuote c then some c else none, previous := c }

def separates (nesting : Nesting) (c : Char) : Bool :=
  nesting.quote.isNone && c == ',' && nesting.depth ≤ 0

end Nesting

def pieces : Nesting → List Char → List (List Char)
  | _, [] => [[]]
  | nesting, c :: rest =>
    match nesting.separates c, pieces (nesting.next c) rest with
    | true, more => [] :: more
    | false, piece :: more => (c :: piece) :: more
    | false, [] => [[c]]

/-- The fragments of a parameter list, trimmed, without empty ones. -/
def split (list : List Char) : List (List Char) :=
  ((pieces {} list).map Text.trim).filter fun piece => !piece.isEmpty

/-- A search for a mark outside brackets and quotes; here every repetition of the quote closes it. -/
structure Search where
  depth : Int32 := 0
  quote : Option Char := none
  previous : Option Char := none
  deriving DecidableEq, Repr

namespace Search

def next (search : Search) (c : Char) : Search :=
  match search.quote with
  | some quote => { search with quote := if c = quote then none else some quote, previous := some c }
  | none =>
    let depth :=
      if c ∈ ['(', '{', '[', '<'] then search.depth + 1
      else if c ∈ [')', '}', ']'] then search.depth - 1
      else if c = '>' ∧ search.previous ≠ some '=' then search.depth - 1
      else search.depth
    { depth, quote := if Text.isQuote c then some c else none, previous := some c }

/-- An equals sign that belongs to an arrow or a comparison. -/
def inOperator (previous following : Option Char) : Bool :=
  following == some '>' || following == some '=' ||
    previous == some '=' || previous == some '!' || previous == some '<' || previous == some '>'

def hits (search : Search) (mark c : Char) (following : Option Char) : Bool :=
  search.quote.isNone && c == mark && search.depth ≤ 0 &&
    !(mark == '=' && inOperator search.previous following)

end Search

/-- The text around the first `mark` outside brackets and quotes. -/
def cut? (mark : Char) : Search → List Char → Option (List Char × List Char)
  | _, [] => none
  | search, c :: rest =>
    if search.hits mark c rest.head? then some ([], rest)
    else (cut? mark (search.next c) rest).map fun (before, after) => (c :: before, after)

def string (text : List Char) : String := String.ofList text

def prefixed (sign : String) (rest : List Char) (passing : Parameter.Passing) : Parameter :=
  let name := Text.trim rest
  { name := if name.isEmpty then sign else string name, passing := some passing }

def isKeywordName (name : List Char) : Bool :=
  !name.isEmpty && name.all fun c => Text.isAlphanumeric c || c == '_'

def nonempty (text : List Char) : Option String := if text.isEmpty then none else some (string text)

/-- A fragment with a default value, or a plain name. -/
def rubyPlain (fragment : List Char) : Parameter :=
  match cut? '=' {} fragment with
  | some (name, value) =>
    { name := string (Text.trim name), defaultValue := some (string (Text.trim value)),
      passing := some .defaulted }
  | none => { name := string fragment }

/-- Reads `**n`, `*n`, `&n`, `n:`, `n: d`, `n = d` and `n`, in this order. -/
def rubyParameter (fragment : List Char) : Parameter :=
  match fragment with
  | '*' :: '*' :: rest => prefixed "**" rest .doubleSplat
  | '*' :: rest => prefixed "*" rest .splat
  | '&' :: rest => prefixed "&" rest .block
  | _ =>
    match Text.cutAt? ":" fragment with
    | some (name, value) =>
      if isKeywordName name then
        { name := string name, defaultValue := nonempty (Text.trim value), passing := some .keyword }
      else rubyPlain fragment
    | none => rubyPlain fragment

/-- Words that may stand before a parameter of a constructor, each at most once and in this order. -/
def modifiers : List String := ["public ", "private ", "protected ", "readonly ", "override "]

def withoutModifiers (fragment : List Char) : List Char :=
  modifiers.foldl
    (fun rest modifier =>
      match Text.after? modifier rest with
      | some stripped => Text.trimStart stripped
      | none => rest)
    fragment

/-- Reads a name with its optional mark, type, default value and dots of a rest parameter. -/
def scriptParameter (fragment : List Char) : Parameter :=
  let bare := withoutModifiers fragment
  let (head, defaultValue) := match cut? '=' {} bare with
    | some (before, value) => (Text.trim before, some (string (Text.trim value)))
    | none => (bare, none)
  let (head, isRest) := match Text.after? "..." head with
    | some name => (Text.trim name, true)
    | none => (head, false)
  let destructured := Text.startsWith "\x7b" head || Text.startsWith "[" head
  let (head, type) := match cut? ':' {} head with
    | some (name, type) => (Text.trim name, nonempty (Text.trim type))
    | none => (head, none)
  let optional := Text.endsWith "?" head
  let name := Text.trim (Text.dropEndWhile (· == '?') head)
  let passing : Option Parameter.Passing :=
    if isRest then some .rest
    else if destructured then some .destructured
    else if defaultValue.isSome then some .defaulted
    else if optional then some .optional
    else none
  { name := string name, type, defaultValue, passing }

/-- Reads one fragment by the rules of a language; a blank fragment is no parameter. -/
def classify? (language : Language) (fragment : List Char) : Option Parameter :=
  let fragment := Text.trim fragment
  if fragment.isEmpty then none
  else if language.isRubyLike then some (rubyParameter fragment)
  else some (scriptParameter fragment)

def parse (language : Language) (list : List Char) : List Parameter :=
  (split list).filterMap (classify? language)

end CallAtlas.Parameters

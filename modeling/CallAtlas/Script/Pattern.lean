import CallAtlas.Bracket
import CallAtlas.Script.Clause
import CallAtlas.Text.Occurrences

/-! Line patterns of scripts: how declarations, members, imports and exports look at the start of a text. A
pattern gives the names it reads and what is left behind them. -/
namespace CallAtlas.Script.Pattern

def startsIdentifier (c : Char) : Bool := Text.isLetter c || c == '_' || c == '$'

def continuesIdentifier (c : Char) : Bool := Text.isWord c || c == '$'

def identifier? : List Char → Option (List Char × List Char)
  | [] => none
  | c :: rest =>
    if startsIdentifier c then
      some (c :: rest.takeWhile continuesIdentifier, rest.dropWhile continuesIdentifier)
    else none

def mark? (mark : Char) : List Char → Option (List Char)
  | [] => none
  | c :: rest => if c = mark then some rest else none

/-- The rest after an optional character. -/
def skipMark (mark : Char) (text : List Char) : List Char := (mark? mark text).getD text

private def isPlainQuote (c : Char) : Bool := c == '\'' || c == '"'

/-- Text between single or double quotes, which need not be the same at both ends. -/
def quoted? : List Char → Option (List Char × List Char)
  | [] => none
  | c :: rest =>
    if isPlainQuote c then
      match rest.takeWhile (fun d => !isPlainQuote d), rest.dropWhile (fun d => !isPlainQuote d) with
      | [], _ => none
      | _, [] => none
      | text, _ :: left => some (text, left)
    else none

def skipExport (text : List Char) : List Char := Text.skipSpacedWord "export" text

def skipExportDefault (text : List Char) : List Char :=
  match Text.afterSpacedWord? "export" text with
  | some rest => Text.skipSpacedWord "default" rest
  | none => text

def skipDeclare (text : List Char) : List Char := Text.skipSpacedWord "declare" text

/-- A function declaration, read up to its name. -/
def function? (text : List Char) : Option (List Char × List Char) := do
  let rest := Text.skipSpacedWord "async" (skipDeclare (skipExportDefault text))
  let rest ← Text.after? "function" rest
  identifier? (Text.trimStart (skipMark '*' (Text.trimStart rest)))

def class? (text : List Char) : Option (List Char × List Char) := do
  let rest := Text.skipSpacedWord "abstract" (skipDeclare (skipExportDefault text))
  identifier? (← Text.afterSpacedWord? "class" rest)

def interface? (text : List Char) : Option (List Char × List Char) := do
  identifier? (← Text.afterSpacedWord? "interface" (skipDeclare (skipExportDefault text)))

/-- A type alias, read up to its name; type parameters or the type itself have to follow. -/
def alias? (text : List Char) : Option (List Char × List Char) := do
  let (name, rest) ← identifier? (← Text.afterSpacedWord? "type" (skipDeclare (skipExport text)))
  match Text.trimStart rest with
  | '<' :: _ | '=' :: _ => some (name, rest)
  | _ => none

def enumeration? (text : List Char) : Option (List Char × List Char) := do
  let rest := Text.skipSpacedWord "const" (skipDeclare (skipExport text))
  identifier? (← Text.afterSpacedWord? "enum" rest)

def variableWord? (text : List Char) : Option (List Char) :=
  ["const", "let", "var"].findSome? fun word => Text.afterSpacedWord? word text

/-- An optional type annotation, an equals sign and the blanks after it. The annotation ends at the first
equals sign. -/
def initializer? (text : List Char) : Option (List Char) :=
  match Text.trimStart text with
  | ':' :: '=' :: _ => none
  | ':' :: type => (mark? '=' (type.dropWhile (· != '='))).map Text.trimStart
  | rest => (mark? '=' rest).map Text.trimStart

/-- A variable with a value: its name, and the text of the value. -/
def boundName? (text : List Char) : Option (List Char × List Char) := do
  let (name, rest) ← identifier? (← variableWord? (skipDeclare (skipExport text)))
  return (name, ← initializer? rest)

private def skipOptional (text : List Char) : List Char :=
  Text.trimStart (skipMark '?' (Text.trimStart text))

/-- Optional type parameters, which hold no opening bracket, and then an opening bracket. -/
private def parameterList? (text : List Char) : Option (List Char) :=
  match text with
  | '<' :: rest =>
    match Text.trimEnd (rest.takeWhile (· != '(')) |>.getLast? with
    | some '>' => mark? '(' (rest.dropWhile (· != '('))
    | _ => none
  | _ => mark? '(' (Text.trimStart text)

/-- Modifiers at the start of a class member, as many as let `member` read what follows. -/
private def modified? {α : Type} (words : List String) (member : List Char → Option α) :
    (bound : Nat) → List Char → Option (List String × α)
  | 0, text => (member text).map fun found => ([], found)
  | bound + 1, text =>
    let longer := (words.findSome? fun word => (Text.afterSpacedWord? word text).map (word, ·)).bind
      fun (word, rest) => (modified? words member bound rest).map fun (more, found) => (word :: more, found)
    match longer with
    | some found => some found
    | none => (member text).map fun found => ([], found)

private def memberName? (text : List Char) : Option (List Char × List Char) :=
  match text with
  | '#' :: rest => (identifier? rest).map fun (name, rest) => ('#' :: name, rest)
  | _ => identifier? text

structure Member where
  modifiers : List String
  name : List Char
  rest : List Char
  deriving DecidableEq, Repr

def methodModifiers : List String :=
  ["public", "private", "protected", "static", "readonly", "override", "abstract", "async", "get", "set",
   "declare"]

def fieldModifiers : List String :=
  ["public", "private", "protected", "static", "readonly", "override", "declare"]

def classMethod? (text : List Char) : Option Member :=
  let member (text : List Char) : Option (List Char × List Char) := do
    let (name, rest) ← memberName? (Text.trimStart (skipMark '*' text))
    let _ ← parameterList? (skipOptional rest)
    return (name, rest)
  (modified? methodModifiers member text.length text).map fun (modifiers, name, rest) =>
    { modifiers, name, rest }

def classField? (text : List Char) : Option Member :=
  let member (text : List Char) : Option (List Char × List Char) := do
    let (name, rest) ← memberName? text
    return (name, ← initializer? (skipOptional rest))
  (modified? fieldModifiers member text.length text).map fun (modifiers, name, rest) =>
    { modifiers, name, rest }

private def unlessReadonly {α : Type} (member : List Char → Option α) (text : List Char) : Option α :=
  ((Text.afterSpacedWord? "readonly" text).bind member).or (member text)

def interfaceMethod? (text : List Char) : Option (List Char × List Char) :=
  unlessReadonly (fun text => do
    let (name, rest) ← identifier? text
    let _ ← parameterList? (skipOptional rest)
    return (name, rest)) text

/-- A property of an interface whose type is a function, read up to its name. -/
def interfaceProperty? (text : List Char) : Option (List Char × List Char) :=
  unlessReadonly (fun text => do
    let (name, rest) ← identifier? text
    let type ← mark? ':' (skipOptional rest)
    let list ← parameterList? (Text.trimStart type)
    let after ← mark? ')' (list.dropWhile (· != ')'))
    let _ ← Text.after? "=>" (Text.trimStart after)
    return (name, rest)) text

def startsImport (text : List Char) : Bool :=
  match Text.after? "import" text with
  | some (c :: _) => Text.isBlank c || c ∈ ['{', '*', '\'', '"']
  | _ => false

def source? (text : List Char) : Option (List Char × List Char) := do
  quoted? (Text.trimStart (← Text.after? "from" (Text.trimStart text)))

/-- The shortest clause in front of a source. -/
def clause? : List Char → Option (List Char × List Char)
  | [] => none
  | c :: rest =>
    match source? (c :: rest) with
    | some (module, _) => some ([], module)
    | none => (clause? rest).map fun (clause, module) => (c :: clause, module)

def importFrom? (text : List Char) : Option (List Char × List Char) := do
  let rest ← Text.afterSpacedWord? "import" text
  ((Text.afterSpacedWord? "type" rest).bind clause?).or (clause? rest)

def importBare? (text : List Char) : Option (List Char) := do
  let rest ← Text.after? "import" text
  return (← quoted? (Text.trimStart rest)).1

def requireTarget? (text : List Char) : Option (List Char × List Char) :=
  match text with
  | '{' :: rest =>
    (mark? '}' (rest.dropWhile (· != '}'))).map fun left =>
      ('{' :: rest.takeWhile (· != '}') ++ ['}'], left)
  | _ => identifier? text

/-- A variable bound to a required module: what is bound, and the module. -/
def require? (text : List Char) : Option (List Char × List Char) := do
  let (target, rest) ← requireTarget? (← variableWord? (skipExport text))
  let rest ← mark? '=' (Text.trimStart rest)
  let rest ← Text.after? "require" (Text.trimStart rest)
  let rest ← mark? '(' (Text.trimStart rest)
  return (target, (← quoted? (Text.trimStart rest)).1)

/-- A default export of a name, with nothing behind it. -/
def exportDefault? (text : List Char) : Option (List Char) := do
  let rest ← Text.afterSpacedWord? "export" text
  let (name, rest) ← identifier? (← Text.afterSpacedWord? "default" rest)
  if (Text.trimStart (skipMark ';' (Text.trimStart rest))).isEmpty then some name else none

/-- A list of exported names: the text between the braces, and the module if one is named. -/
def exportList? (text : List Char) : Option (List Char × Option (List Char)) := do
  let rest ← Text.afterSpacedWord? "export" text
  let rest ← mark? '{' (Text.skipSpacedWord "type" rest)
  let left ← mark? '}' (rest.dropWhile (· != '}'))
  return (rest.takeWhile (· != '}'), (source? left).map (·.1))

/-- An export of everything: the name it is given, if any, and the module. -/
def exportStar? (text : List Char) : Option (Option (List Char) × List Char) := do
  let rest ← mark? '*' (Text.trimStart (← Text.after? "export" text))
  let rest := Text.trimStart rest
  let named : Option (List Char × List Char) := do
    let (name, left) ← identifier? (← Text.afterSpacedWord? "as" rest)
    return (name, ← Text.afterBlank? left)
  match named with
  | some (name, left) => return (some name, (← source? left).1)
  | none => return (none, (← source? rest).1)

/-- Type arguments without brackets or further type arguments inside. -/
def skipTypeArguments (text : List Char) : List Char :=
  match text with
  | '<' :: rest =>
    match rest.dropWhile fun c => c ∉ ['<', '>', '(', ')'] with
    | '>' :: left => Text.trimStart left
    | _ => text
  | _ => text

/-- A name in front of an argument list, and the character before the name. -/
def call : Text.Pattern (Option Char × List Char) := fun before text => do
  let (name, rest) ← identifier? text
  let left ← mark? '(' (skipTypeArguments (Text.trimStart rest))
  return ((before.head?, name), left)

/-- The name of an opening element, and the character before its angle bracket. -/
def element : Text.Pattern (Option Char × List Char) := fun before text => do
  let rest ← mark? '<' text
  let (name, left) ← identifier? rest
  if name.head?.any Text.isUpper then some ((before.head?, name), left) else none

def wrapped? (text : List Char) : Option (List Char) :=
  let text := Text.trimStart text
  let bare := (Text.after? "React." text).getD text
  functionWrappers.findSome? fun word => (Text.after? word bare).bind fun rest => parameterList? (Text.trimStart rest)

def inBrackets? (text : List Char) : Option (List Char) :=
  (Bracket.enclosed? (text.dropWhile (· != '('))).map (·.1)

def skipAsync (text : List Char) : List Char :=
  match Text.after? "async" text with
  | some (c :: rest) => if Text.isBlank c || c == '(' then Text.trimStart (c :: rest) else text
  | _ => text

/-- The parameter list of an arrow function: in brackets with an arrow or a type behind, or a single name. -/
def arrowParameters? (text : List Char) : Option (List Char) :=
  match text with
  | '(' :: _ => do
    let (list, rest) ← Bracket.enclosed? text
    let after := Text.trimStart rest
    if Text.startsWith "=>" after || (Text.startsWith ":" after && Text.contains "=>" after) then some list
    else none
  | _ => do
    let (name, rest) ← identifier? text
    let _ ← Text.after? "=>" (Text.trimStart rest)
    return name

/-- The parameter list of the function expression or arrow function that a text starts with. -/
def functionExpression? (text : List Char) : Option (List Char) :=
  let text := skipAsync (Text.trimStart text)
  match Text.after? "function" text with
  | some rest => inBrackets? rest
  | none =>
    match text with
    | '<' :: _ => do
      let (_, rest) ← Bracket.enclosed? text
      arrowParameters? (Text.trimStart rest)
    | _ => arrowParameters? text

/-- The parameter list of a function that stands as a value, on its own or wrapped. -/
def boundFunction? (text : List Char) : Option (List Char) :=
  (functionExpression? text).or ((wrapped? text).bind functionExpression?)

end CallAtlas.Script.Pattern

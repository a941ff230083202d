import CallAtlas.Definition
import CallAtlas.Text.Occurrences

/-! Facts about script text that do not depend on how it is read: what an import clause binds, what an export
specifier names, and what kind of function a name and a text make. -/
namespace CallAtlas.Script

def isIdentifierChar (c : Char) : Bool := Text.isAlphanumeric c || c == '_' || c == '$'

def isIdentifier (text : List Char) : Bool :=
  !text.isEmpty && text.all isIdentifierChar && !(text.head?.any Text.isDigit)

/-- Adds a trimmed identifier that is not there yet; any other text adds nothing. -/
def addIdentifier (names : List String) (text : List Char) : List String :=
  let text := Text.trim text
  let name := String.ofList text
  if isIdentifier text && !names.contains name then names ++ [name] else names

def braced? (clause : List Char) : Option (List Char × List Char) :=
  match Text.cutAt? "\x7b" clause with
  | none => none
  | some (before, rest) =>
    match Text.cutAt? "\x7d" rest.reverse with
    | some (_, inside) => some (before, inside.reverse)
    | none => none

def addPlain (names : List String) (part : List Char) : List String :=
  match Text.trim part with
  | '*' :: rest =>
    match Text.after? "as" (Text.trim rest) with
    | some name => addIdentifier names name
    | none => names
  | part => addIdentifier names (Text.dropRepeated "type " part)

def addNamed (names : List String) (specifier : List Char) : List String :=
  let specifier := Text.dropRepeated "type " (Text.trim specifier)
  addIdentifier names (Text.afterLast ":" (Text.afterLast " as " specifier))

/-- The local names that an import clause binds, such as `React, { useState, Foo as Bar }`, `* as ns` or the
pattern of a destructured require. -/
def importBindings (clause : List Char) : List String :=
  let clause := Text.trim clause
  match braced? clause with
  | some (before, inside) =>
    (inside.splitOn ',').foldl addNamed ((before.splitOn ',').foldl addPlain [])
  | none => (clause.splitOn ',').foldl addPlain []

/-- The local and the exported name of an export specifier. -/
def exportSpecifier? (specifier : List Char) : Option (String × String) :=
  let specifier := Text.trim (Text.dropRepeated "type " (Text.trim specifier))
  if specifier.isEmpty then none
  else
    match Text.cutAt? " as " specifier with
    | some (name, exported) =>
      some (String.ofList (Text.trim name), String.ofList (Text.trim exported))
    | none => some (String.ofList specifier, String.ofList specifier)

def isHookName (name : List Char) : Bool :=
  match name with
  | 'u' :: 's' :: 'e' :: c :: _ => Text.isUpper c
  | _ => false

/-- An element that is returned, or is the body of an arrow function. -/
def returnedElement : Text.Pattern Unit := fun before text =>
  let opened := match Text.after? "=>" text with
    | some rest => some rest
    | none => if Text.atWordStart before then Text.after? "return" text else none
  match opened.map Text.trimStart with
  | none => none
  | some rest =>
    let inside := match rest with
      | '(' :: more => Text.trimStart more
      | _ => rest
    match inside with
    | '<' :: c :: more => if Text.isLetter c || c == '>' || c == '/' then some ((), more) else none
    | _ => none

/-- Components have an upper-case name and return an element or set a class name. -/
def isComponent (name text : List Char) : Bool :=
  name.head?.any Text.isUpper &&
    (!(Text.occurrences returnedElement text).isEmpty || Text.contains "className=" text)

def functionKind (name text : List Char) : Kind :=
  if isHookName name then .customHook
  else if isComponent name text then .component
  else .function

/-- Functions whose first argument is the function that is being defined. -/
def functionWrappers : List String :=
  ["memo", "forwardRef", "useCallback", "useMemo", "useEffect", "useLayoutEffect"]

private def markup : Text.Pattern Unit := fun _ text =>
  match text with
  | '<' :: '/' :: c :: rest => if Text.isLetter c then some ((), rest) else none
  | '/' :: '>' :: rest => some ((), rest)
  | '<' :: '>' :: rest => some ((), rest)
  | _ => none

/-- Whether a text holds a closing tag, a self-closing tag or a fragment. -/
def hasMarkup (text : List Char) : Bool := !(Text.occurrences markup text).isEmpty

end CallAtlas.Script

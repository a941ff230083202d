import CallAtlas.Language
import CallAtlas.Text.Bytes
import CallAtlas.Text.Lines

/-! Blanking: string and comment text is replaced by blanks while every character of code keeps its column. The
scan of a line moves by steps of one or two characters, and each step writes as many characters as it reads,
so a blanked line differs from its source line only by blanks and by a dropped end. -/
namespace CallAtlas.Blanking

inductive Mode where
  | code
  | quoted (quote : Char)
  | comment
  deriving DecidableEq, Repr

/-- Code interpolated into a string, with the quote of that string and the braces open inside the code. -/
structure Frame where
  quote : Char
  depth : Nat
  deriving DecidableEq, Repr

/-- What is carried from character to character; the innermost frame comes first. -/
structure State where
  mode : Mode := .code
  frames : List Frame := []
  deriving DecidableEq, Repr

structure Style where
  blankStrings : Bool
  dropComments : Bool
  deriving DecidableEq, Repr

inductive Step where
  | one (written : Char) (next : State)
  | two (first second : Char) (next : State)
  | lineComment
  deriving DecidableEq, Repr

def interpolates (language : Language) (quote : Char) : Bool :=
  if language.isRubyLike then quote == '"' else quote == '\x60'

/-- The character that opens interpolated code together with a brace. -/
def sigil (language : Language) : Char := if language.isRubyLike then '#' else '$'

def startsLineComment (language : Language) (c : Char) (next : Option Char) : Bool :=
  if language.isRubyLike then c == '#' && next != some '{' else c == '/' && next == some '/'

def stepComment (style : Style) (state : State) (c : Char) (next : Option Char) : Step :=
  if c == '*' && next == some '/' then
    if style.dropComments then .two ' ' ' ' { state with mode := .code }
    else .two '*' '/' { state with mode := .code }
  else .one (if style.dropComments then ' ' else c) state

def stepQuoted (language : Language) (style : Style) (state : State) (quote c : Char)
    (next : Option Char) : Step :=
  if c == '\\' then
    match next with
    | some escaped => if style.blankStrings then .two ' ' ' ' state else .two c escaped state
    | none => .one (if style.blankStrings then ' ' else c) state
  else if c == quote then .one c { state with mode := .code }
  else if interpolates language quote && c == sigil language && next == some '{' then
    .two c '{' { mode := .code, frames := ⟨quote, 0⟩ :: state.frames }
  else .one (if style.blankStrings then ' ' else c) state

/-- A step in code, once the braces of an interpolation have been counted. -/
def stepPlain (language : Language) (style : Style) (state : State) (c : Char)
    (next : Option Char) : Step :=
  if startsLineComment language c next then .lineComment
  else if !language.isRubyLike && c == '/' && next == some '*' then
    if style.dropComments then .two ' ' ' ' { state with mode := .comment }
    else .two '/' '*' { state with mode := .comment }
  else if Text.isQuote c then .one c { state with mode := .quoted c }
  else .one c state

def stepCode (language : Language) (style : Style) (state : State) (c : Char)
    (next : Option Char) : Step :=
  match state.frames with
  | [] => stepPlain language style state c next
  | frame :: outer =>
    if c == '{' then
      stepPlain language style { state with frames := { frame with depth := frame.depth + 1 } :: outer } c next
    else if c == '}' then
      if frame.depth = 0 then .one '}' { mode := .quoted frame.quote, frames := outer }
      else
        stepPlain language style { state with frames := { frame with depth := frame.depth - 1 } :: outer } c next
    else stepPlain language style state c next

/-- The move of the scan at a character, given the character after it. -/
def step (language : Language) (style : Style) (state : State) (c : Char) (next : Option Char) : Step :=
  match state.mode with
  | .comment => stepComment style state c next
  | .quoted quote => stepQuoted language style state quote c next
  | .code => stepCode language style state c next

/-- Scans to the end of a line: what is written, and the state in which the line ends. -/
def scan (language : Language) (style : Style) : State → List Char → List Char × State
  | state, [] => ([], state)
  | state, c :: rest =>
    match step language style state c rest.head? with
    | .one written next =>
      let (text, last) := scan language style next rest
      (written :: text, last)
    | .two first second next =>
      match rest with
      | [] => ([first], next)
      | _ :: rest =>
        let (text, last) := scan language style next rest
        (first :: second :: text, last)
    | .lineComment => (if style.dropComments then [] else c :: rest, state)

/-- What a line hands to the next one: of all literals only templates of scripts and their block comments
run on. -/
def State.atLineEnd (language : Language) (state : State) : State :=
  if language.isRubyLike then {}
  else
    match state.mode with
    | .quoted quote => if quote == '\x60' then state else { state with mode := .code }
    | _ => state

def stripStrings (language : Language) (line : List Char) : List Char :=
  (scan language ⟨true, false⟩ {} line).1

/-- Drops the comments of a line and the blanks before its end. -/
def stripComments (language : Language) (line : List Char) : List Char :=
  Text.trimEnd (scan language ⟨false, true⟩ {} line).1

/-- What a cleaner carries from line to line of one file: also whether a documentation block is open, and the word that
ends an open heredoc. -/
structure Cleaner where
  state : State := {}
  inDocument : Bool := false
  heredoc : Option (List Char) := none
  deriving DecidableEq, Repr

def isHeredocStart (c : Char) : Bool := Text.isUpper c || c == '_'

def isHeredocRest (c : Char) : Bool := Text.isUpper c || Text.isDigit c || c == '_'

def heredocWord? (text : List Char) : Option (List Char) :=
  match Text.after? "<<" text with
  | none => none
  | some rest =>
    let unmarked := match rest with
      | '~' :: more | '-' :: more => more
      | _ => rest
    let unquoted := match unmarked with
      | '\'' :: more | '"' :: more => more
      | _ => unmarked
    match unquoted with
    | c :: more => if isHeredocStart c then some (c :: more.takeWhile isHeredocRest) else none
    | [] => none

/-- The first place in a line where a heredoc seems to open: the text before it and the end word. -/
def firstHeredoc? : List Char → Option (List Char × List Char)
  | [] => none
  | c :: rest =>
    match heredocWord? (c :: rest) with
    | some word => some ([], word)
    | none => (firstHeredoc? rest).map fun (before, word) => (c :: before, word)

/-- The heredoc that a line opens. The first candidate counts when the cleaned line holds its mark at the
same byte offset. -/
def openedHeredoc? (line cleaned : List Char) : Option (List Char) :=
  match firstHeredoc? line with
  | none => none
  | some (before, word) =>
    match Text.dropBytes? (Text.byteLength before) cleaned with
    | some rest => if Text.startsWith "<<" rest then some word else none
    | none => none

/-- Blanks strings and comments of the next line of a file. -/
def Cleaner.clean (language : Language) (cleaner : Cleaner) (line : List Char) : List Char × Cleaner :=
  let (text, last) := scan language ⟨true, true⟩ cleaner.state line
  let state := last.atLineEnd language
  if language.isRubyLike then
    match cleaner.heredoc with
    | some word => ([], if Text.trim line = word then { cleaner with heredoc := none } else cleaner)
    | none =>
      if cleaner.inDocument then
        ([], if Text.startsWith "=end" line then { cleaner with inDocument := false } else cleaner)
      else if Text.startsWith "=begin" line then ([], { cleaner with inDocument := true })
      else (text, { cleaner with state, heredoc := openedHeredoc? line text })
  else (text, { cleaner with state })

def Cleaner.cleanAll (language : Language) : Cleaner → List (List Char) → List (List Char)
  | _, [] => []
  | cleaner, line :: rest =>
    let (text, next) := cleaner.clean language line
    text :: next.cleanAll language rest

def cleanLines (language : Language) (lines : List (List Char)) : List (List Char) :=
  ({} : Cleaner).cleanAll language lines

structure Line where
  raw : List Char
  cleaned : List Char
  deriving DecidableEq, Repr

def pairLines (language : Language) (lines : List (List Char)) : List Line :=
  List.zipWith Line.mk lines (cleanLines language lines)

end CallAtlas.Blanking

/-! Glob patterns for paths: stars, question marks, character classes, alternatives in braces and double stars for
any number of directories. A pattern matches a path when one way of reading it leaves nothing over. -/
namespace CallAtlas

namespace Glob

/-- One part of a pattern, over the bytes of a path. Directories can stand at the start of a path, at its end with all
that is below, or between two others. -/
inductive Token where
  | literal (byte : UInt8)
  | any
  | star
  | leading
  | trailing
  | between
  | oneOf (negated : Bool) (ranges : List (UInt8 × UInt8))
  | alternatives (branches : List (List Token))
  deriving Repr

/-- Which patterns are accepted and what their wildcards match. -/
structure Rules where
  slashIsSpecial : Bool
  bareBrackets : Bool

/-- What was read of a pattern: the branches of the innermost open brace, last first, each with its tokens, last
first, and the branches of the braces around it. Outside of all braces there is one branch. -/
structure Draft where
  branches : List (List Token) := [[]]
  outer : List (List (List Token)) := []

namespace Draft

def push (draft : Draft) (token : Token) : Draft :=
  { draft with branches := (token :: draft.branches.headD []) :: draft.branches.tail }

def current (draft : Draft) : List Token := draft.branches.headD []

def replaceLast (draft : Draft) (token : Token) : Draft :=
  { draft with branches := (token :: draft.current.tail) :: draft.branches.tail }

def pushStars (draft : Draft) : Draft := (draft.push .star).push .star

def openBrace (draft : Draft) : Draft := { branches := [[]], outer := draft.branches :: draft.outer }

def closeBrace? (draft : Draft) : Option Draft :=
  match draft.outer with
  | [] => none
  | branches :: outer =>
    some (({ branches, outer } : Draft).push (.alternatives (draft.branches.map List.reverse).reverse))

/-- A comma begins a new branch inside of braces and stands for itself elsewhere. -/
def comma (draft : Draft) : Draft :=
  if draft.outer.isEmpty then draft.push (.literal 44) else { draft with branches := [] :: draft.branches }

/-- The tokens of a pattern whose braces are all closed. -/
def tokens? (draft : Draft) : Option (List Token) :=
  if draft.outer.isEmpty then some draft.current.reverse else none

end Draft

private def bytes (c : Char) : List UInt8 := (String.singleton c).toUTF8.toList

private def pushChar (draft : Draft) (c : Char) : Draft :=
  (bytes c).foldl (fun draft byte => draft.push (.literal byte)) draft

/-- The bytes that a range of characters matches. -/
private def byteRanges (range : Char × Char) : List (UInt8 × UInt8) :=
  let single (byte : UInt8) := (byte, byte)
  if range.1 = range.2 then (bytes range.1).map single
  else
    let first := bytes range.1
    let last := bytes range.2
    first.dropLast.map single ++ [(first.getLastD 0, last.headD 0)] ++ last.tail.map single

/-- What a class in brackets can be found to be. -/
private inductive ClassReading where
  | closed (ranges : List (Char × Char)) (rest : List Char)
  | unclosed
  | descending

/-- The ranges of a class, last first, up to its closing bracket. A hyphen between two characters makes a range of
them; anywhere else it stands for itself, as a closing bracket does at the start. -/
private def readClass (first inRange : Bool) (ranges : List (Char × Char)) : List Char → ClassReading
  | [] => .unclosed
  | c :: rest =>
    if c == ']' && !first then
      .closed (if inRange then ('-', '-') :: ranges else ranges).reverse rest
    else if c == '-' && !first && !inRange then readClass false true ranges rest
    else
      match inRange, ranges with
      | true, (low, _) :: others =>
        if c < low then .descending else readClass false false ((low, c) :: others) rest
      | _, _ => readClass false false ((c, c) :: ranges) rest

/-- Two stars, with the character before them and the text behind them. They stand for directories only where
nothing but slashes, or the ends of a branch, is beside them. -/
private def doubleStar (draft : Draft) (before : Option Char) (rest : List Char) : Draft × List Char :=
  if draft.current.isEmpty then
    match rest with
    | [] => (draft.push .leading, [])
    | '/' :: after => (draft.push .leading, after)
    | _ => (draft.pushStars, rest)
  else if before == some '/' then
    let put (token : Token) : Draft :=
      match draft.current with
      | .leading :: _ | .trailing :: _ => draft
      | _ => draft.replaceLast token
    match rest with
    | [] => (put .trailing, [])
    | '/' :: after => (put .between, after)
    | c :: _ =>
      if (c == ',' || c == '\x7d') && !draft.outer.isEmpty then (put .trailing, rest)
      else (draft.pushStars, rest)
  else (draft.pushStars, rest)

private def readFrom (rules : Rules) : (bound : Nat) → (bare : Bool) → Draft → (before : Option Char) →
    List Char → Option Draft
  | _, _, draft, _, [] => some draft
  | 0, _, _, _, _ :: _ => none
  | bound + 1, bare, draft, before, c :: rest =>
    let go (draft : Draft) : Option Draft := readFrom rules bound bare draft (some c) rest
    match c with
    | '?' => go (draft.push .any)
    | '*' =>
      match rest with
      | '*' :: rest =>
        let (draft, rest') := doubleStar draft before rest
        readFrom rules bound bare draft (if rest'.length < rest.length then some '/' else some '*') rest'
      | _ => go (draft.push .star)
    | '[' =>
      if bare then go (pushChar draft c)
      else
        let (negated, inside) := match rest with
          | '!' :: inside | '^' :: inside => (true, inside)
          | _ => (false, rest)
        match readClass true false [] inside with
        | .closed ranges rest =>
          readFrom rules bound bare (draft.push (.oneOf negated (ranges.flatMap byteRanges))) (some ']') rest
        | .unclosed => if rules.bareBrackets then readFrom rules bound true (pushChar draft c) (some c) rest else none
        | .descending => none
    | '\x7b' => go draft.openBrace
    | '\x7d' => draft.closeBrace? >>= go
    | ',' => go draft.comma
    | '\\' =>
      match rest with
      | escaped :: rest => readFrom rules bound bare (pushChar draft escaped) (some escaped) rest
      | [] => none
    | _ => go (pushChar draft c)

end Glob

structure Glob where
  tokens : List Glob.Token
  slashIsSpecial : Bool
  deriving Repr

namespace Glob

def parse? (rules : Rules) (pattern : String) : Option Glob := do
  let text := pattern.toList
  let draft ← readFrom rules text.length false {} none text
  return ⟨← draft.tokens?, rules.slashIsSpecial⟩

private def slash : UInt8 := 47

/-- What can be left after a run of bytes that satisfy `passes`. -/
private def leftAfterRun (passes : UInt8 → Bool) : List UInt8 → List (List UInt8)
  | [] => [[]]
  | byte :: rest => (byte :: rest) :: (if passes byte then leftAfterRun passes rest else [])

/-- What can be left after any directories: everything that follows a slash. -/
private def leftAfterSlash : List UInt8 → List (List UInt8)
  | [] => []
  | byte :: rest => if byte == slash then rest :: leftAfterSlash rest else leftAfterSlash rest

private def inRanges (byte : UInt8) (ranges : List (UInt8 × UInt8)) : Bool :=
  ranges.any fun range => range.1 ≤ byte && byte ≤ range.2

/-- A branch that can match nothing at all is no alternative if it has no tokens. -/
private def isBlankBranch : List Token → Bool
  | [] => true
  | _ => false

mutual

def Token.left (passes : UInt8 → Bool) (path : List UInt8) : Token → List (List UInt8)
  | .literal byte =>
    match path with
    | first :: rest => if first == byte then [rest] else []
    | [] => []
  | .any =>
    match path with
    | first :: rest => if passes first then [rest] else []
    | [] => []
  | .star => leftAfterRun passes path
  | .leading => path :: leftAfterSlash path
  | .trailing =>
    match path with
    | first :: rest => if first == slash then leftAfterRun (fun _ => true) rest else []
    | [] => []
  | .between =>
    match path with
    | first :: rest => if first == slash then rest :: leftAfterSlash rest else []
    | [] => []
  | .oneOf negated ranges =>
    match path with
    | first :: rest => if inRanges first ranges != negated then [rest] else []
    | [] => []
  | .alternatives branches =>
    if branches.all isBlankBranch then [path] else Token.leftOfBranches passes path branches

def Token.leftOfSequence (passes : UInt8 → Bool) (paths : List (List UInt8)) : List Token → List (List UInt8)
  | [] => paths
  | token :: rest =>
    Token.leftOfSequence passes (paths.flatMap fun path => token.left passes path).eraseDups rest

/-- What can be left of a path after one of several sequences that are not empty. -/
def Token.leftOfBranches (passes : UInt8 → Bool) (path : List UInt8) : List (List Token) → List (List UInt8)
  | [] => []
  | branch :: rest =>
    (if isBlankBranch branch then [] else Token.leftOfSequence passes [path] branch) ++
      Token.leftOfBranches passes path rest

end

/-- Whether a pattern matches the whole of a path. Two stars alone match every path. -/
def isMatch (glob : Glob) (path : String) : Bool :=
  match glob.tokens with
  | [.leading] => true
  | tokens =>
    let passes (byte : UInt8) : Bool := !glob.slashIsSpecial || byte != slash
    (Token.leftOfSequence passes [path.toUTF8.toList] tokens).any List.isEmpty

end Glob
end CallAtlas

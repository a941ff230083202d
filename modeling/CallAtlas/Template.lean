import CallAtlas.Blanking
import CallAtlas.Extraction
import CallAtlas.Ruby.Calls

/-! Templates that embed Ruby between `<%` and `%>`. Templates define nothing; all calls of a file are gathered
in one record that carries the file's name. -/
namespace CallAtlas.Template

/-- Ruby code from one line of one tag, both counted from one. -/
structure Segment where
  line : Nat
  code : List Char
  tag : Nat
  deriving DecidableEq, Repr

/-- Where in a template the reading stands: in a tag, what was read of it on this line is held, last character first. -/
inductive Place where
  | outside
  | opening (comment : Bool)
  | inside (comment : Bool) (held : List Char)
  deriving DecidableEq, Repr

def segment? (line tag : Nat) (comment : Bool) (code : List Char) : Option Segment :=
  if comment || (Text.trim code).isEmpty then none else some { line, code, tag }

def isMarker (c : Char) : Bool := c == '=' || c == '-' || c == '#'

def body (held : List Char) : List Char := (held.dropWhile (· == '-')).reverse

/-- The segments on the rest of a line, and the number of tags and the place at its end. -/
def readLine (line : Nat) : (tag : Nat) → Place → List Char → List Segment × Nat × Place
  | tag, place, [] =>
    match place with
    | .outside => ([], tag, .outside)
    | .opening comment => ([], tag, .inside comment [])
    | .inside comment held =>
      ((segment? line tag comment held.reverse).toList, tag, .inside comment [])
  | tag, .outside, '<' :: '%' :: '%' :: rest => readLine line tag .outside rest
  | tag, .outside, '<' :: '%' :: rest =>
    readLine line (tag + 1) (.opening (rest.head? == some '#')) rest
  | tag, .outside, _ :: rest => readLine line tag .outside rest
  | tag, .opening _, '%' :: '>' :: rest => readLine line tag .outside rest
  | tag, .opening comment, c :: rest =>
    if isMarker c then readLine line tag (.opening comment) rest
    else readLine line tag (.inside comment [c]) rest
  | tag, .inside comment held, '%' :: '>' :: rest =>
    let (segments, last) := readLine line tag .outside rest
    ((segment? line tag comment (body held)).toList ++ segments, last)
  | tag, .inside comment held, c :: rest => readLine line tag (.inside comment (c :: held)) rest

def segmentsFrom (line tag : Nat) (place : Place) : List (List Char) → List Segment
  | [] => []
  | text :: rest =>
    let (segments, tag, place) := readLine line tag place text
    segments ++ segmentsFrom (line + 1) tag place rest

def segments (lines : List (List Char)) : List Segment := segmentsFrom 1 0 .outside lines

/-- The segments with their code cleaned. Every tag starts afresh; the lines of one tag are cleaned one after
another. -/
def cleanedFrom (tag : Nat) (cleaner : Blanking.Cleaner) : List Segment → List (Nat × List Char)
  | [] => []
  | segment :: rest =>
    let (text, next) := (if segment.tag = tag then cleaner else {}).clean .erb segment.code
    (segment.line, text) :: cleanedFrom segment.tag next rest

/-- The call names of cleaned segments with their lines. Local variables last to the end of the file. -/
def callsFrom (accepts : String → Bool) (locals : List String) :
    List (Nat × List Char) → List (Nat × String)
  | [] => []
  | (line, text) :: rest =>
    (Ruby.callNames accepts locals text).map (fun name => (line, name)) ++
      callsFrom accepts (Ruby.localsAfter locals text) rest

def siteOf (limits : Limits) (lines : List (List Char)) (call : Nat × String) : CallSite :=
  { callee := call.2, line := call.1,
    snippet := String.ofList (Text.snippet limits.snippetLength (lines.getD (call.1 - 1) [])) }

/-- What is accepted as a call in a template, which has no names of its own. -/
def acceptance (vocabulary : Vocabulary) (registry : Registry) : Acceptance :=
  { vocabulary, corpus := registry, file := .empty }

def callSites (acceptance : Acceptance) (limits : Limits) (lines : List (List Char)) : List CallSite :=
  (callsFrom acceptance.accepts [] (cleanedFrom 0 {} (segments lines))).map (siteOf limits lines)

def record (file : SourceFile) : Definition :=
  let lines := file.sourceLines
  { name := file.fileName, kind := .templateCalls, filePath := file.path, startLine := 1,
    endLine := lines.length, code := codeOf lines 1 lines.length }

def analyze (vocabulary : Vocabulary) (limits : Limits) (file : SourceFile) (registry : Registry) :
    Extraction :=
  let calls := callSites (acceptance vocabulary registry) limits file.sourceLines
  if calls.isEmpty then {}
  else
    let definition := (record file).addCalls calls
    { definitions := [definition], templateCalls := TemplateCall.collect definition }

def extractor (vocabulary : Vocabulary) (limits : Limits) : Extractor where
  name := "erb"
  supports := fun language => language == .erb
  define := fun _ => .ok {}
  analyze := fun file registry => .ok (analyze vocabulary limits file registry)

end CallAtlas.Template

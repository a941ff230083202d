/-! Places in a script, and the stretches of text between two of them. -/
namespace CallAtlas.Script

/-- A place in a script: what is left to read, how much that is, and the line, counted from one. -/
structure Cursor where
  rest : List Char
  left : Nat
  line : Nat
  left_eq : left = rest.length
  deriving DecidableEq, Repr

namespace Cursor

def before (rest : List Char) (line : Nat) : Cursor := ⟨rest, rest.length, line, rfl⟩

def ofText (text : List Char) : Cursor := before text 1

/-- One character further on; the end stays the end. -/
def next : Cursor → Cursor
  | ⟨[], left, line, same⟩ => ⟨[], left, line, same⟩
  | ⟨c :: rest, left, line, same⟩ => ⟨rest, left - 1, if c = '\n' then line + 1 else line, by simp [same]⟩

def skip : Nat → Cursor → Cursor
  | 0, cursor => cursor
  | count + 1, cursor => skip count cursor.next

/-- Past the longest run of characters that satisfy `passes`. -/
def skipWhile (passes : Char → Bool) (cursor : Cursor) : Cursor :=
  skip (cursor.rest.takeWhile passes).length cursor

end Cursor

/-- A stretch of a script. -/
structure Excerpt where
  start : Cursor
  stop : Cursor
  deriving DecidableEq, Repr

namespace Excerpt

def text (excerpt : Excerpt) : List Char := excerpt.start.rest.take (excerpt.start.left - excerpt.stop.left)

def firstLine (excerpt : Excerpt) : Nat := excerpt.start.line

def lastLine (excerpt : Excerpt) : Nat := excerpt.stop.line

end Excerpt
end CallAtlas.Script

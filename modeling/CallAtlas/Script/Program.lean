import CallAtlas.Script.Grammar.Statement

/-! Whole scripts. The parts of the grammar are put inside each other as deep as a script is long, which no script can
use up: every level of nesting takes at least a character. -/
namespace CallAtlas.Script

open Reading

namespace Grammar

/-- The grammar whose parts hold the parts of another. -/
def deeper (inner : Grammar) : Grammar :=
  { dialect := inner.dialect
    statement := inner.anyStatement
    expression := inner.anyExpression
    operand := inner.anyOperand
    binding := inner.bindingTarget
    type := inner.anyType
    element := inner.anyElement }

def ofDepth (dialect : Dialect) (depth : Nat) : Grammar := Nat.repeat deeper depth (empty dialect)

/-- The statements of a script, after a first line that names its interpreter. -/
def program (grammar : Grammar) : Reading Unit := nodeHere do
  maybe (leafHere .hashBangLine do
    exact "#!"
    move (Cursor.skipWhile (· != '\n')))
  many grammar.statement
  finished
  return .program

end Grammar

/-- A way to read the syntax tree of a script; nothing comes of a script with something wrong in it. -/
abbrev Tree.Parser := Dialect → List Char → Option Tree

def Tree.parse? : Tree.Parser := fun dialect text => do
  let grammar := Grammar.ofDepth dialect (text.length + 4)
  let ((), stop) ← grammar.program { cursor := .ofText text }
  stop.siblings.head?

end CallAtlas.Script

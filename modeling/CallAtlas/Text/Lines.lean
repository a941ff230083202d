import CallAtlas.Text.Cut

/-! Lines of a text. A line feed ends a line, one carriage return before it belongs to the line ending, and a
text that ends with a line feed has no empty last line. -/
namespace CallAtlas.Text

def withoutReturn : List Char → List Char
  | '\r' :: rest => rest
  | held => held

/-- Lines of a text, where `held` is what was read of the current line, last character first. -/
def linesFrom (held : List Char) : List Char → List (List Char)
  | [] => if held.isEmpty then [] else [held.reverse]
  | c :: text =>
    if c = '\n' then (withoutReturn held).reverse :: linesFrom [] text
    else linesFrom (c :: held) text

def lines (text : List Char) : List (List Char) := linesFrom [] text

/-- Lines joined with a line feed between neighbours. -/
def joinLines (lines : List (List Char)) : List Char := ['\n'].intercalate lines

end CallAtlas.Text

/-! Byte offsets in the UTF-8 form of a text, as a measure on its characters. -/
namespace CallAtlas.Text

/-- The least number that does not fit in a word of eight bytes. -/
def wordLimit : Nat := 18446744073709551616

def byteLength (text : List Char) : Nat := text.foldr (fun c total => c.utf8Size + total) 0

/-- The text from a byte offset on, if the offset is inside the text and between two characters. -/
def dropBytes? : (offset : Nat) → (text : List Char) → Option (List Char)
  | 0, text => some text
  | _ + 1, [] => none
  | offset + 1, c :: text =>
    if c.utf8Size ≤ offset + 1 then dropBytes? (offset + 1 - c.utf8Size) text else none

end CallAtlas.Text

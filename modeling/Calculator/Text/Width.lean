import Calculator.Text.Blank
import Calculator.Text.Width.Wide
import Calculator.Text.Width.Zero

/-!
# Display width

How many columns of a fixed-width display a character takes, outside an East Asian context and
seen by itself. Control characters take none.
-/

namespace Calculator

/-- The columns of a character. The Khmer sign U+17D8 is the only one of width three. -/
def charWidth (c : Char) : Nat :=
  let code := c.toNat
  if code < 0x20 then 0
  else if code < 0x7F then 1
  else if code < 0xA0 then 0
  else if code = 0x17D8 then 3
  else if inRanges zeroWidthRanges code then 0
  else if inRanges doubleWidthRanges code then 2
  else 1

def textWidth (cs : List Char) : Nat :=
  cs.foldl (fun columns c => columns + charWidth c) 0

end Calculator

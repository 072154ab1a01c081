/-!
# Lines of a file

A line ends with a line feed, and a carriage return right before the line feed belongs to the end as
well. The last line needs no end; an empty rest behind the last end is no line.
-/

namespace Calculator

/-- A line, its characters latest first, without a final carriage return. -/
def withoutReturn : List Char → List Char
  | '\r' :: rest => rest
  | line => line

/-- The lines of the rest of a text, behind the characters of the current `line` and the lines
already `found`, both latest first. -/
def linesFrom : List Char → (line : List Char) → (found : List (List Char)) → List (List Char)
  | [], line, found => (if line.isEmpty then found else line.reverse :: found).reverse
  | c :: rest, line, found =>
    if c = '\n' then linesFrom rest [] ((withoutReturn line).reverse :: found)
    else linesFrom rest (c :: line) found

def lines (text : List Char) : List (List Char) :=
  linesFrom text [] []

end Calculator

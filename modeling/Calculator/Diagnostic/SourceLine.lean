import Calculator.Span

/-!
# Source lines

The text of a faulty expression is shown line by line. Each line covers the span of its characters
and one position more, so that a fault at the end of a text falls on a line. A line ends before a
line feed. It also ends before a carriage return, but unless a line feed follows, the line goes on
behind the return as well and is listed again at its next end.
-/

namespace Calculator

/-- The characters of a line, and the positions that it covers. -/
structure SourceLine where
  span : Span
  text : List Char
deriving DecidableEq, Repr

namespace SourceLine

/-- The line from `start` that ends before `position`; `text` holds its latest character first. -/
def ending (start position : Nat) (text : List Char) : SourceLine :=
  ⟨⟨start, position + 1⟩, text.reverse⟩

/-- The lines of the rest of a text from `position` on, behind the lines already `found`, latest
first. The current line began at `start` with `text`, latest character first, and `listed` tells
whether it has just been listed. -/
def listFrom : List Char → (start position : Nat) → (text : List Char) → (listed : Bool) →
    (found : List SourceLine) → List SourceLine
  | [], start, position, text, listed, found =>
    (if listed then found else ending start position text :: found).reverse
  | c :: rest, start, position, text, listed, found =>
    if c = '\r' then
      listFrom rest start (position + 1) (c :: text) true (ending start position text :: found)
    else if c = '\n' then
      listFrom rest (position + 1) (position + 1) [] false
        (if listed then found else ending start position text :: found)
    else listFrom rest start (position + 1) (c :: text) false found

def list (text : List Char) : List SourceLine :=
  listFrom text 0 0 [] false []

/-- The part of `s` that lies in the line, counted from the start of the line. -/
def clip (l : SourceLine) (s : Span) : Span :=
  ⟨s.start - l.span.start, min (s.stop - l.span.start) l.span.length⟩

def clipAll (l : SourceLine) (spans : List Span) : List Span :=
  (spans.filter fun s => s.meets l.span).map l.clip

end SourceLine

end Calculator

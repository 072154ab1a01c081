import Calculator.Span
import Calculator.Text.Width

/-!
# Marks under a line

The spans of a line are marked in a row under it, column for column: the row is measured in the
display widths of the characters above it. Each mark is at least one column wide, so a span behind
the end of the line, or of characters without width, is marked as well.
-/

namespace Calculator

structure Mark where
  offset : Nat
  width : Nat
deriving DecidableEq, Repr

/-- The marks of `spans` above the characters `rest`, which begin at `position`. Each mark goes on
where the last one ended. -/
def marksFrom : List Span → (position : Nat) → (rest : List Char) → List Mark
  | [], _, _ => []
  | s :: spans, position, rest =>
    let here := rest.drop (s.start - position)
    let start := max position s.start
    ⟨textWidth (rest.take (s.start - position)), max 1 (textWidth (here.take (s.stop - start)))⟩ ::
      marksFrom spans (max start s.stop) (here.drop (s.stop - start))

/-- The marks of spans in increasing order under a line. -/
def marks (line : List Char) (spans : List Span) : List Mark :=
  marksFrom spans 0 line

end Calculator

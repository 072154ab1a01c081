/-!
# Spans

A span is a half-open range of character positions in an expression. Positions count characters,
not bytes, and nothing forces a span to lie inside a text or its end to follow its start.
-/

namespace Calculator

/-- The positions from `start` up to, not including, `stop`. -/
structure Span where
  start : Nat
  stop : Nat
deriving DecidableEq, Repr

namespace Span

def single (p : Nat) : Span :=
  ⟨p, p + 1⟩

def across (a b : Span) : Span :=
  ⟨a.start, b.stop⟩

def length (s : Span) : Nat :=
  s.stop - s.start

def isEmpty (s : Span) : Bool :=
  s.length == 0

def contains (s : Span) (p : Nat) : Bool :=
  s.start ≤ p && p < s.stop

/-- Two spans meet when one of them contains the start of the other. -/
def meets (s t : Span) : Bool :=
  s.contains t.start || t.contains s.start

@[simp] theorem contains_iff {s : Span} {p : Nat} :
    s.contains p = true ↔ s.start ≤ p ∧ p < s.stop := by
  simp [contains]

end Span

end Calculator

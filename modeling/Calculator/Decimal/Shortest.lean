import Calculator.Decimal

/-!
# The shortest decimal of a float

The decimals that round to a float fill an interval around it. Among the grids of multiples of
`10 ^ p` the coarsest one with a point in that interval is found; its point nearest to the float has
the fewest digits of all decimals that read back as the float. Two points can be equally near, and
the caller says which of them is meant.
-/

namespace Calculator

def quartersPerUnit : Nat :=
  4 * Binary64.stepsPerUnit

/-- The numbers that round to a float, in quarters of a step. -/
structure RoundingInterval where
  low : Nat
  value : Nat
  high : Nat
  closed : Bool
deriving DecidableEq, Repr

namespace RoundingInterval

/-- Half a unit of the last place to either side, but only a quarter below a power of two, where the
unit below is half as large. The ends round to the float itself if its significand is even. -/
def ofPattern (pattern : Nat) : RoundingInterval :=
  let m := Binary64.significand pattern
  let unit := Nat.pow 2 (Binary64.scale pattern)
  let below := if m = Binary64.implicitBit ∧ 0 < Binary64.scale pattern then 1 else 2
  ⟨(4 * m - below) * unit, 4 * m * unit, (4 * m + 2) * unit, m % 2 == 0⟩

def contains (i : RoundingInterval) (num den : Nat) : Bool :=
  if i.closed then i.low * den ≤ num && num ≤ i.high * den
  else i.low * den < num && num < i.high * den

end RoundingInterval

/-- Which of two equally near decimals is meant. -/
inductive Tie where
  | up
  | even
deriving DecidableEq, Repr

def Tie.isUp (tie : Tie) (below : Nat) : Bool :=
  match tie with
  | .up => true
  | .even => below % 2 == 1

namespace Decimal

/-- The point of the grid of multiples of `10 ^ p` that is nearest to the float, among the points
inside its interval. Only the neighbours of the float can be. -/
def onGrid? (tie : Tie) (i : RoundingInterval) (p : Int) : Option Nat :=
  let unit := Nat.pow 10 p.toNat * quartersPerUnit
  let den := Nat.pow 10 (-p).toNat
  let below := i.value * den / unit
  let twice := 2 * (i.value * den % unit)
  let upper := unit < twice || (twice == unit && tie.isUp below)
  match i.contains (below * unit) den, i.contains ((below + 1) * unit) den with
  | true, true => some (if upper then below + 1 else below)
  | true, false => some below
  | false, true => some (below + 1)
  | false, false => none

/-- Tries the grids from `10 ^ p` down, at most `fuel` of them. The grid it ends on at the latest is
taken without a look at the interval. -/
def coarsest (tie : Tie) (i : RoundingInterval) : Nat → Int → Nat × Int
  | 0, p => (i.value * Nat.pow 10 (-p).toNat / (Nat.pow 10 p.toNat * quartersPerUnit), p)
  | fuel + 1, p =>
    match onGrid? tie i p with
    | some c => (c, p)
    | none => coarsest tie i fuel (p - 1)

/-- A power of ten above every number of `n` quarter steps or less: two decimal logarithms more
than the binary one says. -/
def ceilingPower (n : Nat) : Int :=
  ((n.log2 : Int) - 1075) * 30103 / 100000 + 2

/-- The shortest decimal that rounds to a finite float. The float is a point of the grid of
multiples of `10 ^ -1076`, so the search needs no finer one. -/
def shortest (tie : Tie) (negative : Bool) (pattern : Nat) : Decimal :=
  if pattern = 0 then ⟨negative, 0, 0⟩
  else
    let i := RoundingInterval.ofPattern pattern
    let top := ceilingPower i.value
    let (coefficient, exponent) := coarsest tie i (top + 1076).toNat top
    ⟨negative, coefficient, exponent⟩

/-- The decimal with `places` places after the point that is nearest to a finite float, a tie going
to the even last digit. -/
def withPlaces (places : Nat) (negative : Bool) (pattern : Nat) : Decimal :=
  ⟨negative, roundHalfEven (Binary64.steps pattern * Nat.pow 10 places) Binary64.stepsPerUnit,
    -places⟩

end Decimal

end Calculator

import Calculator.Binary64

/-!
# Decimal numbers

A decimal number is a sign, a coefficient and a power of ten. Literals are read into one, and the
float of a literal is the one nearest to it.
-/

namespace Calculator

structure Decimal where
  negative : Bool
  coefficient : Nat
  exponent : Int
deriving DecidableEq, Repr

namespace Decimal

/-- The pattern of the float nearest to the magnitude, if that is finite. Far outside the range of
floats the power of ten is not computed: from `10 ^ 400` on every number is too large, and below
`10 ^ -400` every number rounds to zero. -/
def pattern? (d : Decimal) : Option Nat :=
  if d.coefficient = 0 then some 0
  else if 400 < d.exponent then none
  else if d.exponent + d.coefficient.log2 < -400 then some 0
  else
    let pattern := Binary64.nearest
      (d.coefficient * Nat.pow 10 d.exponent.toNat * Binary64.stepsPerUnit)
      (Nat.pow 10 (-d.exponent).toNat)
    if pattern < Binary64.infinity then some pattern else none

def toFloat? (d : Decimal) : Option Float :=
  d.pattern?.map (Binary64.toFloat d.negative)

end Decimal

end Calculator

/-!
# Binary64 numbers as whole multiples of a step

Every finite binary64 number is a whole multiple of `2 ^ -1074`, here called a step, and the pattern
of a number without its sign bit grows with the number. So nearest numbers and neighbours are found
in exact whole-number arithmetic: `steps` reads a pattern and `nearest` writes one.
-/

namespace Calculator

/-- `num / den` rounded to the nearest whole number, a half to the even one. -/
def roundHalfEven (num den : Nat) : Nat :=
  let below := num / den
  let twice := 2 * (num % den)
  if twice < den || (twice == den && below % 2 == 0) then below else below + 1

namespace Binary64

/-- The bit before the fraction, which normal numbers have without its being stored. -/
def implicitBit : Nat :=
  Nat.pow 2 52

def stepsPerUnit : Nat :=
  Nat.pow 2 1074

/-- The pattern of infinity, the first that is not finite. -/
def infinity : Nat :=
  2047 * implicitBit

def signBit : Nat :=
  Nat.pow 2 63

/-- The significand of a finite pattern: its fraction, with the implicit bit unless subnormal. -/
def significand (pattern : Nat) : Nat :=
  if pattern < implicitBit then pattern else implicitBit + pattern % implicitBit

def scale (pattern : Nat) : Nat :=
  pattern / implicitBit - 1

def steps (pattern : Nat) : Nat :=
  significand pattern * Nat.pow 2 (scale pattern)

/-- The pattern nearest to `num / den` steps, a tie going to the even significand. It is `infinity`
or more when the number is too large. The scale leaves 53 bits before the binary point, fewer only
below the normal numbers; a significand that rounds up to 54 bits carries into the scale. -/
def nearest (num den : Nat) : Nat :=
  let scale := (num / den).log2 - 52
  scale * implicitBit + roundHalfEven num (den * Nat.pow 2 scale)

/-- What a float is, told apart by its pattern. -/
inductive Shape where
  | notANumber
  | infinite (negative : Bool)
  | finite (negative : Bool) (pattern : Nat)
deriving DecidableEq, Repr

def Shape.ofBits (bits : Nat) : Shape :=
  let negative := decide (signBit ≤ bits)
  let pattern := bits % signBit
  if pattern < infinity then .finite negative pattern
  else if pattern = infinity then .infinite negative
  else .notANumber

def shape (x : Float) : Shape :=
  .ofBits x.toBits.toNat

def toFloat (negative : Bool) (pattern : Nat) : Float :=
  .ofBits (.ofNat (if negative then signBit + pattern else pattern))

end Binary64

end Calculator

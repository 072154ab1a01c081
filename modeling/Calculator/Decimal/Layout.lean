import Calculator.Decimal.Shortest

/-!
# Numbers as text

A result is shown positionally, never with a power of ten: by its shortest decimal, or with a given
number of places. Reports write numbers as JSON does: positionally in a middle range, with a power
of ten outside it, and always with a mark that tells a float from a whole number.
-/

namespace Calculator

namespace Decimal

def sign (negative : Bool) : List Char :=
  if negative then ['-'] else []

def digits (n : Nat) : List Char :=
  Nat.toDigits 10 n

/-- The digits of `n` with a point before the last `places` of them, and at least one digit before
the point. -/
def pointed (n places : Nat) : List Char :=
  let padded := List.replicate (places + 1 - (digits n).length) '0' ++ digits n
  let whole := padded.length - places
  padded.take whole ++ '.' :: padded.drop whole

/-- The magnitude without a power of ten. -/
def positional (d : Decimal) : List Char :=
  if d.exponent < 0 then pointed d.coefficient (-d.exponent).toNat
  else digits d.coefficient ++ List.replicate d.exponent.toNat '0'

def leadingPower (d : Decimal) : Int :=
  (digits d.coefficient).length + d.exponent - 1

/-- The magnitude with one digit before the point and a power of ten, whose sign is always
written. A point is written only with digits behind it. -/
def scientific (d : Decimal) : List Char :=
  let power := d.leadingPower
  let powerSign := if power < 0 then '-' else '+'
  let mantissa := match digits d.coefficient with
    | first :: second :: rest => first :: '.' :: second :: rest
    | only => only
  mantissa ++ 'e' :: powerSign :: digits power.natAbs

end Decimal

/-- A float as shown to a person. Without a number of places it is written by its shortest
decimal; of two equally short and near ones the larger is written. -/
def plainNumber (places : Option Nat) (x : Float) : String :=
  match Binary64.shape x with
  | .notANumber => "NaN"
  | .infinite negative => String.ofList (Decimal.sign negative ++ ['i', 'n', 'f'])
  | .finite negative pattern =>
    let d := match places with
      | none => Decimal.shortest .up negative pattern
      | some p => Decimal.withPlaces p negative pattern
    String.ofList (Decimal.sign negative ++ d.positional)

/-- The literal of a float in a report: positional from `1e-5` up to, not including, `1e16`, where a
whole number is marked by a zero place. What is not finite has no literal. -/
def jsonNumber? (x : Float) : Option String :=
  match Binary64.shape x with
  | .notANumber | .infinite _ => none
  | .finite negative pattern =>
    let d := Decimal.shortest .even negative pattern
    let magnitude :=
      if -5 ≤ d.leadingPower ∧ d.leadingPower < 16 then
        if d.exponent < 0 then d.positional else d.positional ++ ['.', '0']
      else d.scientific
    some (String.ofList (Decimal.sign negative ++ magnitude))

end Calculator

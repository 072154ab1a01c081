import Calculator.Decimal

/-!
# Number literals

A literal is an optional sign, digits with at most one point among them, and an optional power of
ten behind `e` or `E`. One digit before the power is enough, so `5.` and `.5` are literals. Nothing
else may stand before, between or behind.
-/

namespace Calculator

namespace Decimal

def takeSign : List Char → Bool × List Char
  | '-' :: rest => (true, rest)
  | '+' :: rest => (false, rest)
  | rest => (false, rest)

def ofDigits (digits : List Char) : Nat :=
  Nat.ofDigitChars 10 digits 0

/-- A whole number with an optional sign and nothing else. -/
def readPower? (cs : List Char) : Option Int :=
  let (negative, digits) := takeSign cs
  if digits.isEmpty || !digits.all Char.isDigit then none
  else some (if negative then -(ofDigits digits : Int) else ofDigits digits)

def readExponent? : List Char → Option Int
  | [] => some 0
  | c :: rest => if c == 'e' || c == 'E' then readPower? rest else none

/-- The digits after the point, if there is one, and what follows them. -/
def takeFraction : List Char → List Char × List Char
  | '.' :: rest => (rest.takeWhile Char.isDigit, rest.dropWhile Char.isDigit)
  | rest => ([], rest)

def ofLiteral? (literal : List Char) : Option Decimal :=
  let (negative, unsigned) := takeSign literal
  let whole := unsigned.takeWhile Char.isDigit
  let (fraction, rest) := takeFraction (unsigned.dropWhile Char.isDigit)
  if whole.isEmpty && fraction.isEmpty then none
  else (readExponent? rest).map fun power =>
    ⟨negative, ofDigits (whole ++ fraction), power - fraction.length⟩

end Decimal

/-- The float of a literal: none if the text is no literal, or denotes a number too large. -/
def literalValue? (literal : String) : Option Float :=
  (Decimal.ofLiteral? literal.toList).bind Decimal.toFloat?

end Calculator

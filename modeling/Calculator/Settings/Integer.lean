import Calculator.Settings.Quoted

/-!
# Whole numbers in a settings file

A number is written in decimal, with an optional sign and without a leading zero, or without a sign
in hexadecimal, octal or binary behind `0x`, `0o` or `0b`. An underscore may stand between two
digits.
-/

namespace Calculator

namespace SettingsFile

/-- The value of the rest of a row of digits below `base`, behind the digits of `value`. Each
underscore needs a digit on either side; `afterDigit` tells of the left one. -/
def digitsFrom (base : Nat) : List Char → (value : Nat) → (afterDigit : Bool) → Option Nat
  | [], value, afterDigit => if afterDigit then some value else none
  | c :: rest, value, afterDigit =>
    if c = '_' then if afterDigit then digitsFrom base rest value false else none
    else
      match hexValue? c with
      | some d => if d < base then digitsFrom base rest (base * value + d) true else none
      | none => none

def readDigits? (base : Nat) (cs : List Char) : Option Nat :=
  digitsFrom base cs 0 false

def readDecimal? : List Char → Option Nat
  | ['0'] => some 0
  | '0' :: _ => none
  | cs => readDigits? 10 cs

def readInteger? : List Char → Option Int
  | '0' :: 'x' :: rest => (readDigits? 16 rest).map Int.ofNat
  | '0' :: 'o' :: rest => (readDigits? 8 rest).map Int.ofNat
  | '0' :: 'b' :: rest => (readDigits? 2 rest).map Int.ofNat
  | '+' :: rest => (readDecimal? rest).map Int.ofNat
  | '-' :: rest => (readDecimal? rest).map fun n => -Int.ofNat n
  | cs => (readDecimal? cs).map Int.ofNat

end SettingsFile

end Calculator

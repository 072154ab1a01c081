/-!
# Coloured text

Text for a terminal can be set in bold blue or bold red. Without colour it is left as it is.
-/

namespace Calculator

inductive Tint where
  | blue
  | red
deriving DecidableEq, Repr

namespace Tint

def opening : Tint → String
  | blue => "\x1b[1;34m"
  | red => "\x1b[1;31m"

def closing : String :=
  "\x1b[0m"

end Tint

/-- `text` in bold `tint` if `colour` is wanted. -/
def paint (colour : Bool) (tint : Tint) (text : String) : String :=
  if colour then tint.opening ++ text ++ Tint.closing else text

end Calculator

import Calculator.Decimal.Layout
import Calculator.Fault
import Calculator.Json

/-!
# Reports

What was asked of one expression ends in an outcome or in a fault. A report tells a program about
it in one JSON object: the number of the line the expression stood on, if there is one, and then the
value, the tokens or the faults.
-/

namespace Calculator

inductive Outcome where
  | value (x : Float)
  | tokens (tokens : List Token)
  | postfixOrder (tokens : List Token)
  | checked

namespace Report

def ofSpan (s : Span) : Json :=
  .object [("start", .count s.start), ("end", .count s.stop)]

def ofFault (f : Fault) : Json :=
  .object [("stage", .text f.stage.name), ("spans", .array (f.spans.map ofSpan)),
    ("desc", .text f.description)]

def ofTokens (tokens : List Token) : Json :=
  .array (tokens.map fun t => .text t.text)

/-- A float that is not finite is reported as no value. -/
def ofValue (x : Float) : Json :=
  match jsonNumber? x with
  | some literal => .number literal
  | none => .null

/-- The field that tells the result. A checked expression has an empty list of faults. -/
def body : Except Fault Outcome → String × Json
  | .ok (.value x) => ("value", ofValue x)
  | .ok (.tokens tokens) => ("tokens", ofTokens tokens)
  | .ok (.postfixOrder tokens) => ("postfix", ofTokens tokens)
  | .ok .checked => ("errors", .array [])
  | .error f => ("errors", .array [ofFault f])

def json (line : Option Nat) (result : Except Fault Outcome) : Json :=
  .object ((line.map fun n => ("line", Json.count n)).toList ++ [body result])

end Report

end Calculator

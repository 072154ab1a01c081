import Calculator.Diagnostic
import Calculator.Evaluation
import Calculator.Report
import Calculator.Settings

/-!
# Answers

The answer to one expression is what is written for it and whether it succeeded. Everything else
the program does is a sequence of answers.
-/

namespace Calculator

/-- How far an expression is worked on: checking it stops before its evaluation. -/
inductive Mode where
  | evaluate
  | check
deriving DecidableEq, Repr

structure Answer where
  succeeded : Bool
  output : String
deriving DecidableEq, Repr

def outcome (emission : Emission) (mode : Mode) (expression : String) : Except Fault Outcome :=
  match mode, emission with
  | .check, _ => (postfixTokens expression).map fun _ => .checked
  | .evaluate, .value => (calculate expression).map .value
  | .evaluate, .tokens => (Token.scan expression).map .tokens
  | .evaluate, .postfixOrder => (postfixTokens expression).map .postfixOrder

namespace Answer

/-- What a person is shown: one line for an outcome, none for a passed check, and for a fault a
diagnostic with an empty line behind it. -/
def pretty (p : Presentation) (line : Option Nat) (expression : String) :
    Except Fault Outcome → String
  | .ok (.value x) => plainNumber p.places x ++ "\n"
  | .ok (.tokens tokens) => Token.line tokens ++ "\n"
  | .ok (.postfixOrder tokens) => Token.line tokens ++ "\n"
  | .ok .checked => ""
  | .error f => Diagnostic.render p.coloured (line.getD 1) expression f ++ "\n\n"

def text (p : Presentation) (line : Option Nat) (expression : String)
    (result : Except Fault Outcome) : String :=
  match p.format with
  | .pretty => pretty p line expression result
  | .json => (Report.json line result).write ++ "\n"

/-- The answer to an expression, which may stand on a numbered line. -/
def give (p : Presentation) (mode : Mode) (line : Option Nat) (expression : String) : Answer :=
  let result := outcome p.emission mode expression
  ⟨result.isOk, text p line expression result⟩

end Answer

end Calculator

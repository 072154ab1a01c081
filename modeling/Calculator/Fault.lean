import Calculator.Token

/-!
# Faults

Why an expression has no value. A fault names its cause and the spans of the expression to blame;
what a person reads about it is a function of the fault.
-/

namespace Calculator

inductive Fault where
  | invalidCharacter (c : Char) (span : Span)
  | mismatchedParentheses (span : Span)
  /-- A literal that denotes no finite number. -/
  | invalidNumber (span : Span)
  | insufficientOperands (span : Span)
  | divisionByZero (operator divisor : Span)
  /-- Operands that no operator joins, or no operand at all. -/
  | malformedExpression (span : Span)
deriving DecidableEq, Repr

/-- The part of the work that found a fault. -/
inductive Stage where
  | scanning
  | ordering
  | evaluation
deriving DecidableEq, Repr

namespace Stage

def name : Stage → String
  | scanning => "lex"
  | ordering => "syntax"
  | evaluation => "eval"

end Stage

namespace Fault

def stage : Fault → Stage
  | invalidCharacter .. => .scanning
  | mismatchedParentheses _ => .ordering
  | invalidNumber _ | insufficientOperands _ | divisionByZero .. | malformedExpression _ =>
    .evaluation

/-- The spans to blame, in the order in which they are reported. -/
def spans : Fault → List Span
  | invalidCharacter _ s => [s]
  | mismatchedParentheses s => [s]
  | invalidNumber s => [s]
  | insufficientOperands s => [s]
  | divisionByZero operator divisor => [operator, divisor]
  | malformedExpression s => [s]

def message : Fault → String
  | invalidCharacter c s =>
    "Invalid character '" ++ c.toString ++ "' at position " ++ s.start.repr
  | mismatchedParentheses _ => "Mismatched parentheses"
  | invalidNumber _ => "Invalid number"
  | insufficientOperands _ => "Insufficient operands"
  | divisionByZero .. => "Division by zero"
  | malformedExpression _ => "Malformed expression"

def description : Fault → String
  | invalidCharacter c _ => "Found an invalid character '" ++ c.toString ++ "'"
  | mismatchedParentheses _ => "Parentheses do not match"
  | invalidNumber _ => "Invalid number format"
  | insufficientOperands _ => "Missing an operand"
  | divisionByZero .. => "Attempted to divide by 0"
  | malformedExpression _ => "Malformed expression"

end Fault

end Calculator

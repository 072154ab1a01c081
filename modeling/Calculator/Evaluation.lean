import Calculator.Decimal.Literal
import Calculator.Token.Postfix
import Calculator.Token.Scan

/-!
# Evaluation

Tokens in postfix order are evaluated with a stack of operands. Each operand keeps the span it was
computed from, so a division by zero can name its divisor. The first fault met ends the evaluation.
`calculate` joins scanning, ordering and evaluation.
-/

namespace Calculator

/-- A value and the part of the expression it comes from. -/
structure Operand where
  value : Float
  span : Span

namespace Operator

def apply : Operator → Float → Float → Float
  | add, a, b => a + b
  | sub, a, b => a - b
  | mul, a, b => a * b
  | div, a, b => a / b

end Operator

namespace Operand

/-- `a op b` for an operator at `span`. Only a zero divisor is refused: a result may be infinite or
not a number. -/
def combine (op : Operator) (span : Span) (a b : Operand) : Except Fault Operand :=
  if op = .div ∧ b.value == 0 then .error (.divisionByZero span b.span)
  else .ok ⟨op.apply a.value b.value, .across a.span b.span⟩

/-- Takes one token: a number joins the stack, and an operator replaces the two topmost operands.
The top of the stack comes first. -/
def step (stack : List Operand) (t : Token) : Except Fault (List Operand) :=
  match t.lexeme with
  | .number literal =>
    match literalValue? literal with
    | some value => .ok (⟨value, t.span⟩ :: stack)
    | none => .error (.invalidNumber t.span)
  | .operator op =>
    match stack with
    | b :: a :: rest => (combine op t.span a b).map (· :: rest)
    | _ => .error (.insufficientOperands t.span)
  | .paren _ => .error (.malformedExpression t.span)

def finish : List Operand → Except Fault Float
  | [] => .error (.malformedExpression (.single 0))
  | [result] => .ok result.value
  | last :: rest => .error (.malformedExpression (.across (rest.getLastD last).span last.span))

end Operand

def Token.evaluate (tokens : List Token) : Except Fault Float :=
  tokens.foldlM Operand.step [] >>= Operand.finish

def postfixTokens (expression : String) : Except Fault (List Token) :=
  Token.scan expression >>= Token.postfixOrder

/-- The value of an expression, or the first fault found in it. -/
def calculate (expression : String) : Except Fault Float :=
  postfixTokens expression >>= Token.evaluate

end Calculator

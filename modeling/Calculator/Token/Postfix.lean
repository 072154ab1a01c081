import Calculator.Fault

/-!
# Postfix order

Infix tokens are put into postfix order in one pass with a stack of waiting operators and opening
parentheses. All operators group to the left. Only the parentheses are checked: tokens in any other
disorder are ordered all the same, and left to the evaluation.

`Reordering.step` takes one token; the states that can be reached are the results of folding it over
a token list.
-/

namespace Calculator

/-- Where the pass stands: the tokens released so far, latest first, and the waiting ones, top of
the stack first. -/
structure Reordering where
  released : List Token
  waiting : List Token
deriving DecidableEq, Repr

namespace Reordering

def start : Reordering :=
  ⟨[], []⟩

/-- Whether a waiting token is released before `op` joins the stack: it is an operator that binds
at least as tightly. -/
def yieldsTo (op : Operator) (waiting : Token) : Bool :=
  match waiting.operator? with
  | some top => op.precedence ≤ top.precedence
  | none => false

def isOpening (t : Token) : Bool :=
  t.paren? == some .opening

def release (p : Token → Bool) (o : Reordering) : Reordering :=
  ⟨(o.waiting.takeWhile p).reverse ++ o.released, o.waiting.dropWhile p⟩

def push (t : Token) (o : Reordering) : Reordering :=
  ⟨o.released, t :: o.waiting⟩

/-- Takes one token: a number is released at once, an operator joins the stack after those that it
yields to, and a closing parenthesis releases its group and removes the opening one. -/
def step (o : Reordering) (t : Token) : Except Fault Reordering :=
  match t.lexeme with
  | .number _ => .ok ⟨t :: o.released, o.waiting⟩
  | .operator op => .ok ((o.release (yieldsTo op)).push t)
  | .paren .opening => .ok (o.push t)
  | .paren .closing =>
    let group := o.release fun w => !isOpening w
    match group.waiting with
    | _ :: outer => .ok ⟨group.released, outer⟩
    | [] => .error (.mismatchedParentheses t.span)

def finish (o : Reordering) : Except Fault (List Token) :=
  match o.waiting.find? fun w => w.paren?.isSome with
  | some p => .error (.mismatchedParentheses p.span)
  | none => .ok (o.released.reverse ++ o.waiting)

end Reordering

def Token.postfixOrder (tokens : List Token) : Except Fault (List Token) :=
  tokens.foldlM Reordering.step .start >>= Reordering.finish

end Calculator

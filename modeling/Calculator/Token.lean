import Calculator.Span

/-!
# Tokens

An expression is written with number literals, four operators and two parentheses. A token is one
of these together with the span it was read from. Literals are kept as text: whether a text denotes
a number is decided when it is evaluated.
-/

namespace Calculator

inductive Operator where
  | add
  | sub
  | mul
  | div
deriving DecidableEq, Repr

namespace Operator

/-- Operators of higher precedence bind tighter. -/
def precedence : Operator → Nat
  | add | sub => 1
  | mul | div => 2

def symbol : Operator → Char
  | add => '+'
  | sub => '-'
  | mul => '*'
  | div => '/'

end Operator

inductive Paren where
  | opening
  | closing
deriving DecidableEq, Repr

namespace Paren

def symbol : Paren → Char
  | opening => '('
  | closing => ')'

def isOpening : Paren → Bool
  | opening => true
  | closing => false

end Paren

inductive Lexeme where
  | number (literal : String)
  | operator (op : Operator)
  | paren (p : Paren)
deriving DecidableEq, Repr

namespace Lexeme

def text : Lexeme → String
  | number literal => literal
  | operator op => op.symbol.toString
  | paren p => p.symbol.toString

end Lexeme

structure Token where
  lexeme : Lexeme
  span : Span
deriving DecidableEq, Repr

namespace Token

def text (t : Token) : String :=
  t.lexeme.text

def literal? (t : Token) : Option String :=
  match t.lexeme with
  | .number literal => some literal
  | _ => none

def operator? (t : Token) : Option Operator :=
  match t.lexeme with
  | .operator op => some op
  | _ => none

def paren? (t : Token) : Option Paren :=
  match t.lexeme with
  | .paren p => some p
  | _ => none

/-- The tokens on one line, with a single space between neighbours. -/
def line (tokens : List Token) : String :=
  " ".intercalate (tokens.map text)

end Token

end Calculator

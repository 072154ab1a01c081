import Calculator.Fault
import Calculator.Text.Blank

/-!
# Scanning

An expression is cut into tokens in one pass. Digits and points collect into a literal until some
other character ends it; blanks end a literal and are dropped; any other character that is no
operator and no parenthesis is a fault at its position. Literals are not looked into: `1.2.3` is
one token.
-/

namespace Calculator

/-- What a single character means to the scanner. -/
inductive CharClass where
  | literal
  | symbol (lexeme : Lexeme)
  | blank
  | foreign
deriving DecidableEq, Repr

def CharClass.of (c : Char) : CharClass :=
  if c.isDigit || c == '.' then .literal
  else if c == '+' then .symbol (.operator .add)
  else if c == '-' then .symbol (.operator .sub)
  else if c == '*' then .symbol (.operator .mul)
  else if c == '/' then .symbol (.operator .div)
  else if c == '(' then .symbol (.paren .opening)
  else if c == ')' then .symbol (.paren .closing)
  else if isBlank c then .blank
  else .foreign

namespace Token

/-- `found` with the literal that ends before `position` put in front. Both `literal` and `found`
hold their latest element first. -/
def endLiteral (position : Nat) (literal : List Char) (found : List Token) : List Token :=
  if literal.isEmpty then found
  else ⟨.number (String.ofList literal.reverse), ⟨position - literal.length, position⟩⟩ :: found

/-- Scans the rest of an expression from `position` on, behind the pending characters of a literal
and the tokens already found. -/
def scanFrom : List Char → Nat → List Char → List Token → Except Fault (List Token)
  | [], position, literal, found => .ok (endLiteral position literal found).reverse
  | c :: rest, position, literal, found =>
    match CharClass.of c with
    | .literal => scanFrom rest (position + 1) (c :: literal) found
    | .symbol lexeme =>
      scanFrom rest (position + 1) []
        (⟨lexeme, .single position⟩ :: endLiteral position literal found)
    | .blank => scanFrom rest (position + 1) [] (endLiteral position literal found)
    | .foreign => .error (.invalidCharacter c (.single position))

def scan (expression : String) : Except Fault (List Token) :=
  scanFrom expression.toList 0 [] []

end Token

end Calculator

import Calculator.Answer
import Calculator.Text.Lines

/-!
# Scripts

A script is a text with an expression on each line. Blank lines are skipped but counted, and every
other line is answered by itself, whatever became of the lines before it.
-/

namespace Calculator

namespace Script

/-- The lines with something on them, numbered from one on. -/
def expressions (text : String) : List (Nat × String) :=
  ((lines text.toList).zipIdx 1).filterMap fun (line, n) =>
    if (trimBlanks line).isEmpty then none else some (n, String.ofList line)

def answers (p : Presentation) (mode : Mode) (text : String) : List Answer :=
  (expressions text).map fun (n, expression) => Answer.give p mode (some n) expression

def run (p : Presentation) (mode : Mode) (text : String) : Answer :=
  let given := answers p mode text
  ⟨given.all (·.succeeded), String.join (given.map (·.output))⟩

end Script

end Calculator

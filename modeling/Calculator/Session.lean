import Calculator.Answer

/-!
# Interactive sessions

A session reads lines and answers each of them. The word `exit` ends it, `clear` clears the screen,
and a blank line is passed over. A person sees a greeting and a prompt before each line read, a
program only the answers.
-/

namespace Calculator

namespace Session

def clearScreen : String :=
  "\x1b[1;1H\x1b[2J"

def greeting (p : Presentation) : String :=
  match p.format with
  | .pretty => paint p.coloured .blue "Started interactive repl" ++ "\n"
  | .json => ""

def prompt (p : Presentation) : String :=
  match p.format with
  | .pretty => paint p.coloured .blue " >> "
  | .json => ""

/-- What is written for a line, or none if it ends the session. -/
def reply? (p : Presentation) (line : String) : Option String :=
  match String.ofList (trimBlanks line.toList) with
  | "exit" => none
  | "clear" => some clearScreen
  | "" => some ""
  | expression => some (Answer.give p .evaluate none expression).output

structure Transcript where
  output : String
  broken : Bool
deriving DecidableEq, Repr

def continueWith (p : Presentation) : List ByteArray → (output : String) → Transcript
  | [], output => ⟨output ++ prompt p, false⟩
  | bytes :: rest, output =>
    match String.fromUTF8? bytes with
    | none => ⟨output ++ prompt p, true⟩
    | some line =>
      match reply? p line with
      | none => ⟨output ++ prompt p, false⟩
      | some reply => continueWith p rest (output ++ prompt p ++ reply)

/-- The lines of the rest of an input, behind the bytes of the current `line` and the lines already
`found`, both latest first. -/
def linesFrom : List UInt8 → (line : List UInt8) → (found : List ByteArray) → List ByteArray
  | [], line, found => (if line.isEmpty then found else line.reverse.toByteArray :: found).reverse
  | b :: rest, line, found =>
    if b = 10 then linesFrom rest [] ((b :: line).reverse.toByteArray :: found)
    else linesFrom rest (b :: line) found

/-- The lines of an input, each with its line feed, which only the last may lack. -/
def inputLines (input : ByteArray) : List ByteArray :=
  linesFrom input.toList [] []

def transcript (p : Presentation) (input : ByteArray) : Transcript :=
  continueWith p (inputLines input) (greeting p)

end Session

end Calculator

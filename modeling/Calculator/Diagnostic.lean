import Calculator.Diagnostic.Marks
import Calculator.Diagnostic.SourceLine
import Calculator.Fault
import Calculator.Style

/-!
# Diagnostics

A fault is shown with the lines of the expression that it blames. Each line stands behind its
number and above a row of marks, an ellipsis stands for lines left out between two others, and the
description of the fault comes last. All rows share a margin as wide as the last number shown.
-/

namespace Calculator

/-- A line to show: its number, its text, and the spans to mark in it. -/
structure Excerpt where
  number : Nat
  text : List Char
  spans : List Span
deriving DecidableEq, Repr

namespace Diagnostic

/-- The lines that meet one of the spans, numbered from `firstLine` on. -/
def excerpts (firstLine : Nat) (text : List Char) (spans : List Span) : List Excerpt :=
  (SourceLine.list text).zipIdx.filterMap fun (l, i) =>
    let inside := l.clipAll spans
    if inside.isEmpty then none else some ⟨firstLine + i, l.text, inside⟩

/-- The columns for the line numbers: the digits of the last one. -/
def marginWidth (shown : List Excerpt) : Nat :=
  match shown.getLast? with
  | some e => (Nat.toDigits 10 e.number).length
  | none => 1

def blanks (n : Nat) : String :=
  String.ofList (List.replicate n ' ')

def bar (colour : Bool) : String :=
  " " ++ paint colour .blue "│" ++ " "

def numberText (width n : Nat) : String :=
  let digits := n.repr
  blanks (width - digits.length) ++ digits

def markText (colour : Bool) (m : Mark) : String :=
  blanks m.offset ++ paint colour .red (String.ofList (List.replicate m.width '^'))

def excerptText (colour : Bool) (width : Nat) (e : Excerpt) : String :=
  paint colour .blue (numberText width e.number) ++ bar colour ++ String.ofList e.text ++ "\n" ++
    (blanks width ++ bar colour ++
      String.join ((marks e.text e.spans).map (markText colour)) ++ "\n")

/-- The row between two excerpts: an ellipsis if lines were left out. -/
def gapText (colour : Bool) (previous : Option Nat) (number : Nat) : String :=
  match previous with
  | some n => if n + 1 < number then paint colour .blue "..." ++ "\n" else ""
  | none => ""

def excerptsText (colour : Bool) (width : Nat) (shown : List Excerpt) : String :=
  let previous := none :: shown.map (some ·.number)
  String.join ((previous.zip shown).map fun (p, e) =>
    gapText colour p e.number ++ excerptText colour width e)

/-- The fault as shown to the person who typed `text`, whose first line has the number
`firstLine`. -/
def render (colour : Bool) (firstLine : Nat) (text : String) (fault : Fault) : String :=
  let shown := excerpts firstLine text.toList fault.spans
  let width := marginWidth shown
  excerptsText colour width shown ++
    (blanks width ++ bar colour ++ paint colour .red fault.description)

end Diagnostic

end Calculator

import Calculator.Settings.Integer

/-!
# Statements of a settings file

A settings file is a TOML document. Settings are strings and whole numbers, and a named choice may
also be written as a table with that name as its only key and nothing under it, so these are the
only values that are read; any other, and any text that is no document, is refused. A key has one
part or two, since nothing in the settings lies deeper.
-/

namespace Calculator

namespace SettingsFile

inductive Value where
  | text (s : List Char)
  | integer (n : Int)
  | empty
  /-- A table whose only key has an empty array or table. -/
  | choice (name : List Char)
deriving DecidableEq, Repr

structure Key where
  first : List Char
  second : Option (List Char)
deriving DecidableEq, Repr

inductive Statement where
  | assign (key : Key) (value : Value)
  /-- The statements that follow belong to the table of this key. -/
  | header (key : Key)
deriving DecidableEq, Repr

def isSpace (c : Char) : Bool :=
  c == ' ' || c == '\t'

def skipSpaces (cs : List Char) : List Char :=
  cs.dropWhile isSpace

def skipComment (cs : List Char) : List Char :=
  cs.dropWhile (· != '\n')

/-- Skips blanks, line feeds and comments; `comment` tells that one goes on here. -/
def skipFiller : (comment : Bool) → List Char → List Char
  | _, [] => []
  | comment, c :: rest =>
    if c = '\n' then skipFiller false rest
    else if comment then skipFiller true rest
    else if c = '#' then skipFiller true rest
    else if isSpace c then skipFiller false rest
    else c :: rest

def isBare (c : Char) : Bool :=
  c.isAlphanum || c == '_' || c == '-'

/-- A part of a key: a string on one line, or letters, digits, underscores and hyphens. -/
def readKeyPart? (cs : List Char) : Option (List Char × List Char) :=
  match cs with
  | '"' :: _ | '\'' :: _ => readString? cs
  | _ =>
    let part := cs.takeWhile isBare
    if part.isEmpty then none else some (part, cs.dropWhile isBare)

def readKey? (cs : List Char) : Option (Key × List Char) := do
  let (first, rest) ← readKeyPart? cs
  match skipSpaces rest with
  | '.' :: rest =>
    let (second, rest) ← readKeyPart? (skipSpaces rest)
    return (⟨first, some second⟩, skipSpaces rest)
  | rest => return (⟨first, none⟩, rest)

def readEmpty? : List Char → Option (List Char)
  | '[' :: rest =>
    match skipFiller false rest with
    | ']' :: rest => some rest
    | _ => none
  | '\x7b' :: rest =>
    match skipFiller false rest with
    | '\x7d' :: rest => some rest
    | _ => none
  | _ => none

/-- The end of a table in braces, behind its only entry and perhaps a comma. -/
def closeTable? (cs : List Char) : Option (List Char) :=
  let rest := match skipFiller false cs with
    | ',' :: rest => skipFiller false rest
    | rest => rest
  match rest with
  | '\x7d' :: rest => some rest
  | _ => none

/-- A table in braces that is a choice. Unlike a statement it may run over several lines, also on
either side of its equals sign. -/
def readChoice? : List Char → Option (List Char × List Char)
  | '\x7b' :: rest => do
    let (name, rest) ← readKeyPart? (skipFiller false rest)
    match skipFiller false rest with
    | '=' :: rest =>
      let rest ← readEmpty? (skipFiller false rest)
      return (name, ← closeTable? rest)
    | _ => none
  | _ => none

def isNumberChar (c : Char) : Bool :=
  c.isAlphanum || c == '_' || c == '+' || c == '-'

def readValue? (cs : List Char) : Option (Value × List Char) :=
  match cs with
  | '"' :: _ | '\'' :: _ => (readAnyString? cs).map fun (s, rest) => (.text s, rest)
  | '[' :: _ => (readEmpty? cs).map fun rest => (.empty, rest)
  | '\x7b' :: _ =>
    match readEmpty? cs with
    | some rest => some (.empty, rest)
    | none => (readChoice? cs).map fun (name, rest) => (.choice name, rest)
  | _ =>
    (readInteger? (cs.takeWhile isNumberChar)).map fun n =>
      (.integer n, cs.dropWhile isNumberChar)

def readAssignment? (cs : List Char) : Option (Statement × List Char) := do
  let (key, rest) ← readKey? cs
  match rest with
  | '=' :: rest =>
    let (value, rest) ← readValue? (skipSpaces rest)
    return (.assign key value, rest)
  | _ => none

def readHeader? : List Char → Option (Statement × List Char)
  | '[' :: rest => do
    let (key, rest) ← readKey? (skipSpaces rest)
    match rest with
    | ']' :: rest => return (.header key, rest)
    | _ => none
  | _ => none

def readStatement? (cs : List Char) : Option (Statement × List Char) :=
  match cs with
  | '[' :: _ => readHeader? cs
  | _ => readAssignment? cs

/-- The end of a statement: blanks, perhaps a comment, and then a line feed or the end of the
text, which is left standing. -/
def endStatement? (cs : List Char) : Option (List Char) :=
  match skipSpaces cs with
  | [] => some []
  | '\n' :: rest => some ('\n' :: rest)
  | '#' :: rest => some (skipComment rest)
  | _ => none

/-- The statements in the rest of a text, behind those already `found`, latest first. A statement
takes more than one character, so `fuel` need not exceed the length of the text. -/
def statementsFrom : (fuel : Nat) → List Char → (found : List Statement) → Option (List Statement)
  | 0, cs, found => if (skipFiller false cs).isEmpty then some found.reverse else none
  | fuel + 1, cs, found =>
    match skipFiller false cs with
    | [] => some found.reverse
    | cs => do
      let (statement, rest) ← readStatement? cs
      statementsFrom fuel (← endStatement? rest) (statement :: found)

/-- A document has no control characters but tabs and line feeds, and carriage returns only before
line feeds. -/
def isClean : List Char → Bool
  | [] => true
  | '\r' :: rest =>
    match rest with
    | '\n' :: _ => isClean rest
    | _ => false
  | c :: rest => (c == '\t' || c == '\n' || (0x20 ≤ c.toNat && c.toNat != 0x7F)) && isClean rest

/-- A byte order mark may open a document. -/
def withoutMark : List Char → List Char
  | '\uFEFF' :: rest => rest
  | cs => cs

def statements? (text : List Char) : Option (List Statement) :=
  let document := withoutMark text
  if isClean document then
    let document := document.filter (· != '\r')
    statementsFrom document.length document []
  else none

end SettingsFile

end Calculator

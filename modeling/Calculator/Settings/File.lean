import Calculator.Settings
import Calculator.Settings.Document

/-!
# Reading a settings file

The statements of a document are gathered key by key. A key is given once: as a value, as a table
in braces or under a dotted key, or as a table whose parts stand under headers. What was gathered
then has to be a setting; the settings that are not given keep their defaults.
-/

namespace Calculator

namespace SettingsFile

inductive Entry where
  | text (s : List Char)
  | integer (n : Int)
  /-- A table with at most one `choice`. It is `closed` if headers cannot add to it, and `opened`
  once a header has named the table itself. -/
  | table (closed opened : Bool) (choice : Option (List Char))
deriving DecidableEq, Repr

/-- What has been gathered so far, and the header it stands under. -/
structure Gathering where
  under : Option Key
  entries : List (List Char × Entry)
deriving DecidableEq, Repr

namespace Gathering

def start : Gathering :=
  ⟨none, []⟩

def entry? (g : Gathering) (name : List Char) : Option Entry :=
  g.entries.lookup name

def add? (g : Gathering) (name : List Char) (e : Entry) : Option Gathering :=
  match g.entry? name with
  | none => some ⟨g.under, (name, e) :: g.entries⟩
  | some _ => none

def replace (g : Gathering) (name : List Char) (e : Entry) : Gathering :=
  ⟨g.under, g.entries.map fun (n, old) => if n = name then (n, e) else (n, old)⟩

def assignTop? (g : Gathering) (key : Key) (value : Value) : Option Gathering :=
  match key.second, value with
  | none, .text s => g.add? key.first (.text s)
  | none, .integer n => g.add? key.first (.integer n)
  | none, .choice name => g.add? key.first (.table true true (some name))
  | some name, .empty => g.add? key.first (.table true true (some name))
  | _, _ => none

/-- Takes an assignment under the header of a table, where a choice is named. -/
def assignUnder? (g : Gathering) (header key : Key) (value : Value) : Option Gathering :=
  match header.second, key.second, value, g.entry? header.first with
  | none, none, .empty, some (.table closed opened none) =>
    some (g.replace header.first (.table closed opened (some key.first)))
  | _, _, _, _ => none

/-- Takes a header, which opens a table or names a choice of one. -/
def header? (g : Gathering) (key : Key) : Option Gathering :=
  let g : Gathering := ⟨some key, g.entries⟩
  match key.second, g.entry? key.first with
  | none, none => g.add? key.first (.table false true none)
  | none, some (.table false false choice) =>
    some (g.replace key.first (.table false true choice))
  | some name, none => g.add? key.first (.table false false (some name))
  | some name, some (.table false opened none) =>
    some (g.replace key.first (.table false opened (some name)))
  | _, _ => none

def step? (g : Gathering) : Statement → Option Gathering
  | .header key => g.header? key
  | .assign key value =>
    match g.under with
    | none => g.assignTop? key value
    | some header => g.assignUnder? header key value

end Gathering

def entries? (statements : List Statement) : Option (List (List Char × Entry)) :=
  (statements.foldlM Gathering.step? .start).map (·.entries)

def Entry.choice? : Entry → Option String
  | text s => some (String.ofList s)
  | table _ _ (some name) => some (String.ofList name)
  | _ => none

def Entry.places? : Entry → Option Nat
  | integer n => if 0 ≤ n ∧ n < placesBound then some n.toNat else none
  | _ => none

def set? (s : Settings) (entry : List Char × Entry) : Option Settings :=
  match String.ofList entry.1 with
  | "format" => (entry.2.choice?.bind Format.ofName?).map fun f => { s with format := f }
  | "emit" => (entry.2.choice?.bind Emission.ofName?).map fun e => { s with emission := e }
  | "color" => (entry.2.choice?.bind ColourChoice.ofName?).map fun c => { s with colour := c }
  | "precision" => entry.2.places?.map fun p => { s with places := some p }
  | _ => none

end SettingsFile

/-- The settings that a file gives, if it is one. -/
def Settings.read? (text : String) : Option Settings := do
  let statements ← SettingsFile.statements? text.toList
  let entries ← SettingsFile.entries? statements
  entries.foldlM SettingsFile.set? {}

end Calculator

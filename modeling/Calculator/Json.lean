import Calculator.Json.Quoted

/-!
# JSON values

Reports are JSON values written on one line without blanks. Fields keep the order they are given
in, and a number is kept as the literal it is written with.
-/

namespace Calculator

inductive Json where
  | null
  | number (literal : String)
  | text (s : String)
  | array (items : List Json)
  | object (fields : List (String × Json))
deriving Repr

namespace Json

def count (n : Nat) : Json :=
  .number n.repr

def quote (s : String) : String :=
  String.ofList (quoted s.toList)

def write : Json → String
  | null => "null"
  | number literal => literal
  | text s => quote s
  | array items => "[" ++ ",".intercalate (items.map write) ++ "]"
  | object fields =>
    "\x7b" ++ ",".intercalate (fields.map fun f => quote f.1 ++ ":" ++ f.2.write) ++ "\x7d"
decreasing_by
  · have := List.sizeOf_lt_of_mem ‹_ ∈ items›
    simp only [array.sizeOf_spec]
    omega
  · have := List.sizeOf_lt_of_mem ‹_ ∈ fields›
    rcases f with ⟨k, v⟩
    simp only [Prod.mk.sizeOf_spec] at this
    simp only [object.sizeOf_spec]
    omega

end Json

end Calculator

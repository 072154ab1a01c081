import Calculator.Answer
import Calculator.Proofs.Forest
import Calculator.Proofs.Grammar
import Calculator.Proofs.JsonReading
import Calculator.Proofs.Patterns
import Calculator.Proofs.Reports
import Calculator.Proofs.Scan

/-!
# Which values are reported as numbers

Literals are finite, so a value can only cease to be finite in an operation on two finite operands
(`Tree.overflows_of_value`). An expression with such a value succeeds all the same, and its report
has no number for it (`Answer.reports_value`).
-/

namespace Calculator

namespace Tree

/-- In some operation two finite operands have a result that is not finite. -/
def Overflows : Tree → Prop
  | leaf _ _ => False
  | node op _ l r => l.Overflows ∨ r.Overflows ∨ ∃ a b, l.value = .ok a ∧ r.value = .ok b ∧
      a.isFinite = true ∧ b.isFinite = true ∧ (op.apply a b).isFinite = false

theorem value_leaf_eq_ok {literal : String} {s : Span} {x : Float}
    (h : (leaf literal s).value = .ok x) : literalValue? literal = some x := by
  unfold value at h
  split at h
  · rename_i v hv
    cases h
    exact hv
  · cases h

theorem value_node_eq_ok {op : Operator} {s : Span} {l r : Tree} {x : Float}
    (h : (node op s l r).value = .ok x) :
    ∃ a b, l.value = .ok a ∧ r.value = .ok b ∧ x = op.apply a b := by
  unfold value at h
  obtain ⟨a, ha, h⟩ := bind_eq_ok.1 h
  obtain ⟨b, hb, h⟩ := bind_eq_ok.1 h
  split_ifs at h
  cases h
  exact ⟨a, b, ha, hb, rfl⟩

theorem overflows_of_value : ∀ {t : Tree} {x : Float}, t.value = .ok x → x.isFinite = false →
    t.Overflows
  | leaf literal s, x, h, hx => by
    rw [isFinite_of_literalValue? (value_leaf_eq_ok h)] at hx
    cases hx
  | node op s l r, x, h, hx => by
    obtain ⟨a, b, ha, hb, rfl⟩ := value_node_eq_ok h
    by_cases hl : a.isFinite = true
    · by_cases hr : b.isFinite = true
      · exact .inr (.inr ⟨a, b, ha, hb, hl, hr, hx⟩)
      · exact .inr (.inl (overflows_of_value hb (Bool.eq_false_iff.2 hr)))
    · exact .inl (overflows_of_value ha (Bool.eq_false_iff.2 hl))

end Tree

theorem exists_tree_of_calculate {s : String} {x : Float} (h : calculate s = .ok x) :
    ∃ t : Tree, postfixTokens s = .ok t.postorder ∧ t.value = .ok x := by
  obtain ⟨ts, hts, he⟩ := bind_eq_ok.1 h
  obtain ⟨t, rfl, hv⟩ := evaluate_eq_ok_iff.1 he
  exact ⟨t, hts, hv⟩

namespace Report

theorem isSome_jsonNumber?_iff {x : Float} : (jsonNumber? x).isSome = true ↔ x.isFinite = true := by
  rw [← Binary64.exists_shape_iff]
  unfold jsonNumber?
  split
  · rename_i h
    simp [h]
  · rename_i h
    simp [h]
  · rename_i negative pattern h
    simp [h]

theorem ofValue_eq_number_iff {x : Float} :
    (∃ literal, ofValue x = .number literal) ↔ x.isFinite = true := by
  rw [← isSome_jsonNumber?_iff, ofValue]
  rcases jsonNumber? x with _ | literal
  · simp
  · simp

theorem ofValue_eq_null_iff {x : Float} : ofValue x = .null ↔ x.isFinite = false := by
  rw [← Bool.not_eq_true, ← isSome_jsonNumber?_iff, ofValue]
  rcases jsonNumber? x with _ | literal
  · simp
  · simp

end Report

namespace Answer

variable {p : Presentation}

theorem succeeded_give_value (line : Option Nat) (s : String) (he : p.emission = .value) :
    (give p .evaluate line s).succeeded = true ↔ ∃ x, calculate s = .ok x := by
  show (outcome p.emission .evaluate s).isOk = true ↔ _
  rw [he, outcome]
  rcases calculate s with f | x
  · simp [Except.isOk, Except.toBool]
  · simp [Except.isOk, Except.toBool]

theorem output_give_value (line : Option Nat) {s : String} {x : Float} (hp : p.format = .json)
    (he : p.emission = .value) (h : calculate s = .ok x) :
    (give p .evaluate line s).output = (Report.json line (.ok (.value x))).write ++ "\n" := by
  show text p line s (outcome p.emission .evaluate s) = _
  rw [he, outcome, h, text, hp]
  rfl

/-- A report of a value is asked for and succeeds exactly if the expression has a value. The report
is an object with that value, which is a number exactly if it is finite and null otherwise, and then
an operation on finite operands has left the finite numbers. -/
theorem reports_value (p : Presentation) (line : Option Nat) (s : String) (hp : p.format = .json)
    (he : p.emission = .value) :
    ((give p .evaluate line s).succeeded = true ↔ ∃ x, calculate s = .ok x) ∧
      ∀ x, calculate s = .ok x → ∃ row v, (give p .evaluate line s).output = row ++ "\n" ∧
        Json.Reads row
          (.object ((line.map fun n => ("line", Json.count n)).toList ++ [("value", v)])) ∧
        ((∃ literal, v = .number literal) ↔ x.isFinite = true) ∧
        (v = .null ↔ x.isFinite = false) ∧
        (x.isFinite = false → ∃ t : Tree, postfixTokens s = .ok t.postorder ∧ t.Overflows) := by
  refine ⟨succeeded_give_value line s he, fun x hx => ?_⟩
  refine ⟨_, Report.ofValue x, output_give_value line hp he hx, ?_, Report.ofValue_eq_number_iff,
    Report.ofValue_eq_null_iff, fun hinfinite => ?_⟩
  · exact (Report.written_json line (.ok (.value x))).reads
  · obtain ⟨t, ht, hv⟩ := exists_tree_of_calculate hx
    exact ⟨t, ht, Tree.overflows_of_value hv hinfinite⟩

/-- A quotient of finite numbers that is finite. -/
theorem reports_value_quotient :
    let p : Presentation := ⟨.json, .value, false, none⟩
    p.format = .json ∧ p.emission = .value ∧ (give p .evaluate (some 3) "6/4").succeeded = true ∧
      ∃ row literal, (give p .evaluate (some 3) "6/4").output = row ++ "\n" ∧
        Json.Reads row (.object [("line", .count 3), ("value", .number literal)]) := by
  intro p
  obtain ⟨hok, hvalue⟩ := reports_value p (some 3) "6/4" rfl rfl
  have hx : calculate "6/4" = .ok 1.5 := by decide +kernel
  obtain ⟨row, v, hrow, hreads, hnumber, -, -⟩ := hvalue _ hx
  obtain ⟨literal, rfl⟩ := hnumber.2 (by decide +kernel)
  exact ⟨rfl, rfl, hok.2 ⟨_, hx⟩, row, literal, hrow, hreads⟩

theorem write_null : (Json.object [("value", .null)]).write = "\x7b\"value\":null\x7d" := by
  rw [Json.write, List.map_singleton, Json.write]
  decide

theorem output_give_of_infinite {s : String} {x : Float} (hp : p.format = .json)
    (he : p.emission = .value) (h : calculate s = .ok x) (hx : x.isFinite = false) :
    (give p .evaluate none s).output = "\x7b\"value\":null\x7d" ++ "\n" := by
  rw [output_give_value none hp he h, ← write_null, ← Report.ofValue_eq_null_iff.2 hx]
  rfl

/-- The row is read as another object. -/
theorem not_reads_number (number : String) :
    ¬ Json.Reads "\x7b\"value\":null\x7d" (.object [("value", .number number)]) := by
  intro h
  have hnull : Json.Reads (Json.object [("value", .null)]).write (.object [("value", .null)]) :=
    (Json.written_object (by simpa using Json.written_null)).reads
  rw [write_null] at hnull
  have hsame := (h _).1 ((hnull _).2 rfl)
  simp at hsame

/-- The digits of `10 ^ 155`, whose square is too large for a float. -/
def largeDigits : List Char :=
  '1' :: List.replicate 155 '0'

def largeLiteral : String :=
  String.ofList largeDigits

theorem literalValue?_ofList (cs : List Char) :
    literalValue? (String.ofList cs) = (Decimal.ofLiteral? cs).bind Decimal.toFloat? := by
  rw [literalValue?, String.toList_ofList]

theorem literalValue?_largeLiteral :
    literalValue? largeLiteral = some (.ofBits 0x601dd55745cbb7ed) := by
  have hdecimal : Decimal.ofLiteral? largeDigits = some ⟨false, Nat.pow 10 155, 0⟩ := by
    decide +kernel
  have hfloat : Decimal.toFloat? ⟨false, Nat.pow 10 155, 0⟩
      = some (.ofBits 0x601dd55745cbb7ed) := by
    decide +kernel
  refine (literalValue?_ofList largeDigits).trans ?_
  exact Option.bind_eq_some_iff.2 ⟨_, hdecimal, hfloat⟩

theorem scan_square {cs : List Char} (hne : cs ≠ []) (hcs : ∀ c ∈ cs, isLiteralChar c = true) :
    Token.scan (String.ofList cs ++ "*" ++ String.ofList cs)
      = .ok [⟨.number (String.ofList cs), ⟨0, cs.length⟩⟩,
        ⟨.operator .mul, ⟨cs.length, cs.length + 1⟩⟩,
        ⟨.number (String.ofList cs), ⟨cs.length + 1, cs.length + 1 + cs.length⟩⟩] := by
  have htimes : CharClass.of '*' = .symbol (.operator .mul) := by decide
  have hliteral : Cuts cs [⟨.number (String.ofList cs), ⟨0, cs.length⟩⟩] := cuts_literal hne hcs
  have hcuts := (hliteral.append (cuts_symbol htimes) (apart_singleton (by decide))).append
    hliteral (apart_concat (by decide))
  refine Token.scan_of_cuts ?_
  simpa [Token.shift, Span.shift, Span.single, Nat.add_comm, Nat.add_left_comm] using hcuts

theorem calculate_square {cs : List Char} {x : Float} (hne : cs ≠ [])
    (hcs : ∀ c ∈ cs, isLiteralChar c = true) (h : literalValue? (String.ofList cs) = some x) :
    calculate (String.ofList cs ++ "*" ++ String.ofList cs) = .ok (x * x) := by
  have hexpr : Derives .expr _ (.node .mul ⟨cs.length, cs.length + 1⟩
      (.leaf (String.ofList cs) ⟨0, cs.length⟩)
      (.leaf (String.ofList cs) ⟨cs.length + 1, cs.length + 1 + cs.length⟩)) :=
    .term (.multiply (.factor .number) (.inl rfl) .number)
  rw [calculate_of_derives (scan_square hne hcs) hexpr, Tree.value_node]
  simp [Tree.value, h]

theorem isLiteralChar_of_mem_largeDigits {c : Char} (h : c ∈ largeDigits) :
    isLiteralChar c = true := by
  rcases List.mem_cons.1 h with rfl | h
  · decide
  · rw [List.eq_of_mem_replicate h]
    decide

/-- The product of two literals is too large, and is reported as a success without a number. -/
theorem reports_value_overflow :
    let p : Presentation := ⟨.json, .value, false, none⟩
    let a := give p .evaluate none (largeLiteral ++ "*" ++ largeLiteral)
    p.format = .json ∧ p.emission = .value ∧ a.succeeded = true ∧
      a.output = "\x7b\"value\":null\x7d" ++ "\n" ∧
      ¬ ∃ row number, a.output = row ++ "\n" ∧
        Json.Reads row (.object [("value", .number number)]) := by
  intro p a
  have hx : calculate (largeLiteral ++ "*" ++ largeLiteral) = _ :=
    calculate_square (List.cons_ne_nil _ _) (fun _ => isLiteralChar_of_mem_largeDigits)
      literalValue?_largeLiteral
  have hinfinite : (Float.ofBits 0x601dd55745cbb7ed * .ofBits 0x601dd55745cbb7ed).isFinite
      = false := by
    decide +kernel
  have hok : a.succeeded = true := (succeeded_give_value none _ rfl).2 ⟨_, hx⟩
  have hout : a.output = "\x7b\"value\":null\x7d" ++ "\n" :=
    output_give_of_infinite rfl rfl hx hinfinite
  refine ⟨rfl, rfl, hok, hout, ?_⟩
  rintro ⟨row, number, hrow, hnumber⟩
  rw [hout, String.append_left_inj] at hrow
  rw [← hrow] at hnumber
  exact not_reads_number number hnumber

end Answer

end Calculator

import Calculator.Decimal.Layout
import Calculator.Evaluation
import Calculator.Proofs.DecimalValues
import Calculator.Proofs.JsonText
import Calculator.Proofs.Scan

/-!
# The values of literals

A literal without a sign and a power of ten is digits with at most one point among them. The place
of a digit says what it counts for (`decimalValue`), and a literal is read to the decimal of that
value (`Decimal.exists_ofLiteral?_iff`). So an expression that is a literal has the float nearest to
its exact value, if that is not too large, and is an invalid number otherwise
(`calculate_literal`).
-/

namespace Calculator

def digitValue (c : Char) : ℕ :=
  c.toNat - '0'.toNat

/-- Digits before the point. -/
def wholeValue : List Char → ℚ
  | [] => 0
  | c :: cs => digitValue c * 10 ^ cs.length + wholeValue cs

/-- Digits behind the point. -/
def fractionValue : List Char → ℚ
  | [] => 0
  | c :: cs => (digitValue c + fractionValue cs) / 10

/-- The exact value of digits with a point among them, or without one. -/
def decimalValue (cs : List Char) : ℚ :=
  wholeValue (cs.takeWhile (· != '.')) + fractionValue ((cs.dropWhile (· != '.')).drop 1)

/-- A digit is needed, and a second point is not allowed. -/
def IsDecimal (cs : List Char) : Prop :=
  (∃ c ∈ cs, c.isDigit = true) ∧ cs.count '.' ≤ 1
deriving Decidable

theorem wholeValue_nonneg : ∀ cs : List Char, 0 ≤ wholeValue cs
  | [] => le_rfl
  | c :: cs => add_nonneg (by positivity) (wholeValue_nonneg cs)

theorem fractionValue_nonneg : ∀ cs : List Char, 0 ≤ fractionValue cs
  | [] => le_rfl
  | c :: cs => div_nonneg (add_nonneg (Nat.cast_nonneg _) (fractionValue_nonneg cs)) (by norm_num)

theorem decimalValue_nonneg (cs : List Char) : 0 ≤ decimalValue cs :=
  add_nonneg (wholeValue_nonneg _) (fractionValue_nonneg _)

theorem wholeValue_append : ∀ cs us : List Char,
    wholeValue (cs ++ us) = wholeValue cs * 10 ^ us.length + wholeValue us
  | [], us => by simp [wholeValue]
  | c :: cs, us => by
    rw [List.cons_append, wholeValue, wholeValue_append cs us, wholeValue, List.length_append,
      pow_add]
    ring

/-- Behind the point digits count for less by the power of ten of their number. -/
theorem fractionValue_eq : ∀ cs : List Char, fractionValue cs = wholeValue cs / 10 ^ cs.length
  | [] => by simp [fractionValue, wholeValue]
  | c :: cs => by
    rw [fractionValue, fractionValue_eq cs, wholeValue, List.length_cons, pow_succ]
    field_simp

theorem cast_ofDigitChars : ∀ (cs : List Char) (n : ℕ),
    (Nat.ofDigitChars 10 cs n : ℚ) = n * 10 ^ cs.length + wholeValue cs
  | [], n => by simp [wholeValue]
  | c :: cs, n => by
    rw [Nat.ofDigitChars_cons, cast_ofDigitChars cs, wholeValue, digitValue, List.length_cons,
      pow_succ]
    push_cast
    ring

section Pointed

variable {whole fraction : List Char} (h : ∀ c ∈ whole, c.isDigit = true)

include h

theorem ne_point_of_digits : ∀ c ∈ whole, (c != '.') = true := by
  intro c hc
  have := h c hc
  rw [bne_iff_ne]
  rintro rfl
  cases this

theorem decimalValue_of_digits : decimalValue whole = wholeValue whole := by
  have hp := ne_point_of_digits h
  rw [decimalValue, List.takeWhile_eq_self_iff.2 hp, List.dropWhile_eq_nil_iff.2 hp]
  exact add_zero _

theorem decimalValue_of_point :
    decimalValue (whole ++ '.' :: fraction) = wholeValue whole + fractionValue fraction := by
  have hp := ne_point_of_digits h
  rw [decimalValue, takeWhile_run hp (by simp), dropWhile_run hp (by simp)]
  rfl

end Pointed

namespace Decimal

theorem cast_ofDigits (cs : List Char) : (ofDigits cs : ℚ) = wholeValue cs := by
  rw [ofDigits, cast_ofDigitChars, Nat.cast_zero, zero_mul, zero_add]

theorem takeSign_append (negative : Bool) {cs : List Char}
    (h : ∀ c ∈ cs.head?, isLiteralChar c = true) :
    takeSign (sign negative ++ cs) = (negative, cs) := by
  rcases negative with _ | _
  · show takeSign cs = (false, cs)
    unfold takeSign
    split
    · exact absurd (h '-' rfl) (by decide)
    · exact absurd (h '+' rfl) (by decide)
    · rfl
  · rfl

section Parts

variable (negative : Bool) {whole fraction rest : List Char}

theorem isLiteralChar_of_isDigit {c : Char} (h : c.isDigit = true) : isLiteralChar c = true := by
  rw [isLiteralChar, h, Bool.true_or]

/-- Digits with a point behind them or among them. -/
theorem ofLiteral?_of_point (hw : ∀ c ∈ whole, c.isDigit = true)
    (hf : ∀ c ∈ fraction, c.isDigit = true) (hrest : ∀ c ∈ rest.head?, c.isDigit = false) :
    ofLiteral? (sign negative ++ (whole ++ '.' :: (fraction ++ rest))) =
      if whole ++ fraction = [] then none
      else (readExponent? rest).map fun power =>
        ⟨negative, ofDigits (whole ++ fraction), power - fraction.length⟩ := by
  have hpoint : ∀ c ∈ ('.' :: (fraction ++ rest)).head?, c.isDigit = false := by
    rintro c ⟨⟩
    decide
  have hfirst : ∀ c ∈ (whole ++ '.' :: (fraction ++ rest)).head?, isLiteralChar c = true := by
    intro c hc
    rcases whole with _ | ⟨d, whole⟩
    · cases hc
      decide
    · cases hc
      exact isLiteralChar_of_isDigit (hw _ List.mem_cons_self)
  simp only [ofLiteral?, takeSign_append negative hfirst, takeWhile_run hw hpoint,
    dropWhile_run hw hpoint, takeFraction, takeWhile_run hf hrest, dropWhile_run hf hrest,
    Bool.and_eq_true, List.isEmpty_iff, List.append_eq_nil_iff]

theorem ofLiteral?_of_fraction (hw : ∀ c ∈ whole, c.isDigit = true)
    (hf : ∀ c ∈ fraction, c.isDigit = true) :
    ofLiteral? (sign negative ++ (whole ++ '.' :: fraction)) =
      if whole ++ fraction = [] then none
      else some ⟨negative, ofDigits (whole ++ fraction), -fraction.length⟩ := by
  have hend : ∀ c ∈ ([] : List Char).head?, c.isDigit = false := by simp
  have hread := ofLiteral?_of_point negative hw hf hend
  rwa [List.append_nil, readExponent?, Option.map_some, zero_sub] at hread

/-- Digits without a point. -/
theorem ofLiteral?_of_digits (hw : ∀ c ∈ whole, c.isDigit = true) (hne : whole ≠ [])
    (hrest : ∀ c ∈ rest.head?, c.isDigit = false ∧ c ≠ '.') :
    ofLiteral? (sign negative ++ (whole ++ rest)) =
      (readExponent? rest).map fun power => ⟨negative, ofDigits whole, power⟩ := by
  have hfraction : takeFraction rest = ([], rest) := by
    unfold takeFraction
    split
    · exact absurd rfl (hrest '.' rfl).2
    · rfl
  have hfirst : ∀ c ∈ (whole ++ rest).head?, isLiteralChar c = true := by
    intro c hc
    rcases whole with _ | ⟨d, whole⟩
    · exact absurd rfl hne
    · cases hc
      exact isLiteralChar_of_isDigit (hw _ List.mem_cons_self)
  have hdigit : ∀ c ∈ rest.head?, c.isDigit = false := fun c hc => (hrest c hc).1
  simp [ofLiteral?, takeSign_append negative hfirst, takeWhile_run hw hdigit,
    dropWhile_run hw hdigit, hfraction, hne]

theorem count_point_of_digits (h : ∀ c ∈ whole, c.isDigit = true) : whole.count '.' = 0 := by
  rw [List.count_eq_zero]
  intro hmem
  have := h '.' hmem
  cases this

/-- Digits and points begin with digits, up to the first point. -/
theorem exists_digits_append : ∀ {cs : List Char}, (∀ c ∈ cs, isLiteralChar c = true) →
    ∃ whole, (∀ c ∈ whole, c.isDigit = true) ∧ (cs = whole ∨ ∃ rest, cs = whole ++ '.' :: rest)
  | [], _ => ⟨[], by simp, .inl rfl⟩
  | c :: cs, h => by
    rcases hc : c.isDigit with _ | _
    · obtain rfl : c = '.' := by simpa [isLiteralChar, hc] using h c List.mem_cons_self
      exact ⟨[], by simp, .inr ⟨cs, rfl⟩⟩
    · obtain ⟨whole, hw, hrest⟩ :=
        exists_digits_append fun d hd => h d (List.mem_cons_of_mem c hd)
      refine ⟨c :: whole, by simpa using ⟨hc, hw⟩, ?_⟩
      exact hrest.imp (congrArg _) (Exists.imp fun rest hrest => congrArg _ hrest)

theorem exists_isDigit_iff (h : ∀ c ∈ whole, c.isDigit = true) :
    (∃ c ∈ whole, c.isDigit = true) ↔ whole ≠ [] := by
  rcases whole with _ | ⟨c, whole⟩
  · simp
  · simp [h c]

theorem magnitude_of_places (whole fraction : List Char) :
    magnitude ⟨negative, ofDigits (whole ++ fraction), -fraction.length⟩
      = wholeValue whole + fractionValue fraction := by
  rw [magnitude, cast_ofDigits, wholeValue_append, fractionValue_eq, zpow_neg, zpow_natCast]
  field_simp

end Parts

/-- Digits and points are a literal if one of them is a digit and not two are points, and then the
literal has the value that the places of the digits say. -/
theorem ofLiteral?_spec {cs : List Char} (hcs : ∀ c ∈ cs, isLiteralChar c = true) :
    (IsDecimal cs → ∃ d, ofLiteral? cs = some d ∧ d.negative = false ∧
      d.magnitude = decimalValue cs) ∧ (¬ IsDecimal cs → ofLiteral? cs = none) := by
  obtain ⟨whole, hw, rfl | ⟨rest, rfl⟩⟩ := exists_digits_append hcs
  · have hdecimal : IsDecimal cs ↔ cs ≠ [] := by
      rw [IsDecimal, exists_isDigit_iff hw, count_point_of_digits hw]
      simp
    rw [hdecimal]
    refine ⟨fun hne => ?_, fun hnil => ?_⟩
    · have hend : ∀ c ∈ ([] : List Char).head?, c.isDigit = false ∧ c ≠ '.' := by simp
      have hread := ofLiteral?_of_digits false hw hne hend
      rw [List.append_nil] at hread
      refine ⟨_, hread, rfl, ?_⟩
      rw [decimalValue_of_digits hw, magnitude, cast_ofDigits, zpow_zero, mul_one]
    · rw [not_not.1 hnil]
      rfl
  · have hrest : ∀ c ∈ rest, isLiteralChar c = true := fun c hc => hcs c (by simp [hc])
    obtain ⟨fraction, hf, rfl | ⟨more, rfl⟩⟩ := exists_digits_append hrest
    · have hread := ofLiteral?_of_fraction false hw hf
      have hdecimal : IsDecimal (whole ++ '.' :: rest) ↔ whole ++ rest ≠ [] := by
        have hdigits : ∀ c ∈ whole ++ rest, c.isDigit = true := fun c hc =>
          (List.mem_append.1 hc).elim (hw c) (hf c)
        rw [← exists_isDigit_iff hdigits, IsDecimal, List.count_append, List.count_cons_self,
          count_point_of_digits hw, count_point_of_digits hf]
        simp [or_and_right, exists_or]
      rw [hdecimal]
      refine ⟨fun hne => ?_, fun hnil => hread.trans (if_pos (not_not.1 hnil))⟩
      rw [if_neg hne] at hread
      exact ⟨_, hread, rfl, by rw [decimalValue_of_point hw, magnitude_of_places]⟩
    · -- a second point
      have hmore : ∀ c ∈ ('.' :: more).head?, c.isDigit = false := by
        rintro c ⟨⟩
        decide
      have hread := ofLiteral?_of_point false hw hf hmore
      refine ⟨fun hdecimal => ?_, fun _ => hread.trans (by simp [readExponent?])⟩
      have hcount := hdecimal.2
      simp only [List.count_append, List.count_cons_self] at hcount
      omega

end Decimal

open Binary64

variable {s : String}

/-- A literal of digits and points has the float nearest to its exact value, if it is a number below
the threshold. -/
theorem literalValue?_eq_some_iff (hs : ∀ c ∈ s.toList, isLiteralChar c = true) {x : Float} :
    literalValue? s = some x ↔ (IsDecimal s.toList ∧ decimalValue s.toList < overflowThreshold) ∧
      Nearest (decimalValue s.toList) x := by
  obtain ⟨hread, hnone⟩ := Decimal.ofLiteral?_spec hs
  have hnonneg := decimalValue_nonneg s.toList
  by_cases hdecimal : IsDecimal s.toList
  · obtain ⟨⟨negative, coefficient, exponent⟩, hd, hsign, hvalue⟩ := hread hdecimal
    simp only at hsign
    subst hsign
    rw [literalValue?, hd, Option.bind_some, Decimal.toFloat?, Option.map_eq_some_iff]
    simp only [Decimal.pattern?_eq_some_iff, hvalue, hdecimal, true_and, and_assoc]
    by_cases hlt : decimalValue s.toList < overflowThreshold
    · rw [nearest_iff hnonneg hlt]
      simp only [hlt, true_and]
    · simp only [hlt, false_and, iff_false, not_exists, not_and]
      intro p hp hround
      exact absurd (lt_overflowThreshold_iff.2 (hround.lt_infinity_iff.1 hp)) hlt
  · simp [literalValue?, hnone hdecimal, hdecimal]

theorem exists_literalValue? (hs : ∀ c ∈ s.toList, isLiteralChar c = true)
    (hdecimal : IsDecimal s.toList) (hlt : decimalValue s.toList < overflowThreshold) :
    ∃ x, literalValue? s = some x := by
  have hnonneg := decimalValue_nonneg s.toList
  obtain ⟨p, hp⟩ := exists_roundsTo (mul_nonneg hnonneg perUnit_pos.le)
  have hfinite := hp.lt_infinity_iff.2 (lt_overflowThreshold_iff.1 hlt)
  exact ⟨_, (literalValue?_eq_some_iff hs).2 ⟨⟨hdecimal, hlt⟩, nearest_toFloat hnonneg hfinite hp⟩⟩

/-- Digits and points are one number. -/
theorem calculate_of_literal (hne : s ≠ "") (hs : ∀ c ∈ s.toList, isLiteralChar c = true) :
    calculate s = match literalValue? s with
      | some x => .ok x
      | none => .error (.invalidNumber ⟨0, s.length⟩) := by
  have hscan : Token.scan s = .ok [⟨.number s, ⟨0, s.length⟩⟩] := by
    have hcuts := cuts_literal (mt String.toList_eq_nil_iff.1 hne) hs
    rw [String.ofList_toList] at hcuts
    exact Token.scan_of_cuts hcuts
  rw [calculate, postfixTokens, hscan]
  show Token.evaluate [⟨.number s, ⟨0, s.length⟩⟩] = _
  simp only [Token.evaluate, List.foldlM_cons, Operand.step]
  rcases literalValue? s with _ | x <;> rfl

/-- A text of digits and points has a value exactly if it has a digit, at most one point and an
exact value below the threshold. The value is the one float that is nearest to the exact one. -/
theorem calculate_literal (hne : s ≠ "") (hs : ∀ c ∈ s.toList, isLiteralChar c = true) :
    ((∃ x, calculate s = .ok x) ↔
        IsDecimal s.toList ∧ decimalValue s.toList < overflowThreshold) ∧
      (∀ x, calculate s = .ok x ↔
        (IsDecimal s.toList ∧ decimalValue s.toList < overflowThreshold) ∧
          Nearest (decimalValue s.toList) x) ∧
      (¬ (IsDecimal s.toList ∧ decimalValue s.toList < overflowThreshold) →
        calculate s = .error (.invalidNumber ⟨0, s.length⟩)) := by
  have hok {x : Float} : calculate s = .ok x ↔ literalValue? s = some x := by
    rw [calculate_of_literal hne hs]
    rcases literalValue? s with _ | y <;> simp
  refine ⟨⟨fun ⟨x, hx⟩ => ?_, fun ⟨hdecimal, hlt⟩ => ?_⟩, fun x => ?_, fun hnot => ?_⟩
  · exact ((literalValue?_eq_some_iff hs).1 (hok.1 hx)).1
  · exact (exists_literalValue? hs hdecimal hlt).imp fun x hx => hok.2 hx
  · exact hok.trans (literalValue?_eq_some_iff hs)
  · have hnone : literalValue? s = none :=
      Option.eq_none_iff_forall_ne_some.2 fun x hx => hnot ((literalValue?_eq_some_iff hs).1 hx).1
    rw [calculate_of_literal hne hs, hnone]

/-- Halfway between two floats, the even one is meant. -/
theorem calculate_literal_tie :
    ("9007199254740993" ≠ "" ∧ ∀ c ∈ "9007199254740993".toList, isLiteralChar c = true) ∧
      calculate "9007199254740993" = .ok (.ofBits 0x4340000000000000) ∧
      Nearest (decimalValue "9007199254740993".toList) (.ofBits 0x4340000000000000) := by
  have hne : "9007199254740993" ≠ "" := by decide
  have hs : ∀ c ∈ "9007199254740993".toList, isLiteralChar c = true :=
    List.all_eq_true.1 (by decide +kernel)
  have hvalue : literalValue? "9007199254740993" = some (.ofBits 0x4340000000000000) := by
    decide +kernel
  have hok : calculate "9007199254740993" = .ok (.ofBits 0x4340000000000000) := by
    rw [calculate_of_literal hne hs, hvalue]
  exact ⟨⟨hne, hs⟩, hok, (((calculate_literal hne hs).2.1 _).1 hok).2⟩

end Calculator

import Calculator.Proofs.NumberTexts
import Calculator.Proofs.Runs

/-!
# Numbers that are shown can be typed

The shortest decimal of a finite float is shown without a power of ten, and so its magnitude is a
literal (`isLiteralChar_of_mem_positional`) that has the float as its value
(`literalValue?_positional`). An expression has no signs but operators. So a number that is shown
without a sign evaluates to the float it was made from, and one with a sign lacks the left operand
of its minus (`calculate_plainNumber`).
-/

namespace Calculator

namespace Decimal

variable {d : Decimal}

/-- Digits without a point are read as they stand. -/
theorem readsAs_positional (d : Decimal) : ReadsAs (sign d.negative ++ d.positional) d := by
  rcases lt_or_ge d.exponent 0 with h | h
  · rw [positional, if_pos h]
    exact readsAs_pointed h
  · have hdigits : ∀ c ∈ digits d.coefficient ++ List.replicate d.exponent.toNat '0',
        c.isDigit = true := fun c hc =>
      (List.mem_append.1 hc).elim isDigit_of_mem_digits isDigit_of_mem_zeros
    have hne : digits d.coefficient ++ List.replicate d.exponent.toNat '0' ≠ [] := by
      simp [digits_ne_nil]
    have hend : ∀ c ∈ ([] : List Char).head?, c.isDigit = false ∧ c ≠ '.' := by simp
    have hread := ofLiteral?_of_digits d.negative hdigits hne hend
    rw [List.append_nil, readExponent?, Option.map_some, ofDigits_append_zeros,
      ofDigits_digits] at hread
    rw [positional, if_neg (not_lt.2 h)]
    refine ⟨_, hread, rfl, ?_⟩
    obtain ⟨k, hk⟩ := Int.eq_ofNat_of_zero_le h
    rw [magnitude, magnitude, hk, Int.toNat_natCast, zpow_zero, zpow_natCast]
    push_cast
    ring

theorem isLiteralChar_of_mem_positional {c : Char} (h : c ∈ d.positional) :
    isLiteralChar c = true := by
  unfold positional at h
  split_ifs at h with hexponent
  · obtain ⟨whole, fraction, -, htext, hwhole, hfraction, -, -⟩ :=
      exists_pointed d.coefficient (show 0 < (-d.exponent).toNat by omega)
    rw [htext, List.mem_append, List.mem_cons] at h
    rcases h with hc | rfl | hc
    · exact isLiteralChar_of_isDigit (hwhole.1.2 c hc)
    · decide
    · exact isLiteralChar_of_isDigit (hfraction.2 c hc)
  · rcases List.mem_append.1 h with hc | hc
    · exact isLiteralChar_of_isDigit (isDigit_of_mem_digits hc)
    · exact isLiteralChar_of_isDigit (isDigit_of_mem_zeros hc)

theorem positional_ne_nil (d : Decimal) : d.positional ≠ [] := by
  unfold positional
  split_ifs
  · simp [pointed]
  · simp [digits_ne_nil]

/-- The sign has no part in the digits. -/
theorem positional_shortest (tie : Tie) (negative : Bool) (p : ℕ) :
    (shortest tie negative p).positional = (shortest tie false p).positional := by
  unfold shortest
  split_ifs <;> rfl

end Decimal

open Binary64

variable {p : ℕ}

theorem literalValue?_positional (tie : Tie) (negative : Bool) (hp : p < infinity) :
    literalValue? (String.ofList (Decimal.shortest tie negative p).positional)
      = some (toFloat false p) := by
  have hread := Decimal.readsAs_positional (Decimal.shortest tie false p)
  have hround := Decimal.roundsTo_shortest tie false p
  have hshape := shape_toFloat false hp
  rw [Decimal.positional_shortest]
  rw [← Decimal.negative_shortest tie false p] at hshape
  have hvalue := hread.literalValue? hshape hround
  rwa [Decimal.negative_shortest] at hvalue

/-- A minus in front of a literal is an operator without a left operand. -/
theorem calculate_negated {cs : List Char} {x : Float} (hne : cs ≠ [])
    (hcs : ∀ c ∈ cs, isLiteralChar c = true) (hx : literalValue? (String.ofList cs) = some x) :
    calculate (String.ofList ('-' :: cs)) = .error (.insufficientOperands (.single 0)) := by
  have hminus : CharClass.of '-' = .symbol (.operator .sub) := by decide
  have hapart : Apart ['-'] cs := @apart_concat [] cs '-' (by decide)
  have hcuts : Cuts ('-' :: cs) [⟨.operator .sub, .single 0⟩,
      (⟨.number (String.ofList cs), ⟨0, cs.length⟩⟩ : Token).shift 1] :=
    (cuts_symbol hminus).append (cuts_literal hne hcs) hapart
  have hscan := Token.scan_of_cuts (s := String.ofList ('-' :: cs)) (by simpa using hcuts)
  have horder : Token.postfixOrder [⟨.operator .sub, .single 0⟩,
      (⟨.number (String.ofList cs), ⟨0, cs.length⟩⟩ : Token).shift 1]
      = .ok [(⟨.number (String.ofList cs), ⟨0, cs.length⟩⟩ : Token).shift 1,
        ⟨.operator .sub, .single 0⟩] := rfl
  rw [calculate, postfixTokens, hscan, ok_bind, horder]
  simp [Token.evaluate, Operand.step, Token.shift, hx]

/-- The text of a finite float evaluates to the float itself, with the same bits. If the sign bit is
set, which that of `-0` is too, the text begins with a minus that lacks an operand. -/
theorem calculate_plainNumber {x : Float} (hx : x.isFinite = true) :
    (x.toBits.toNat < signBit → calculate (plainNumber none x) = .ok x) ∧
      (signBit ≤ x.toBits.toNat →
        calculate (plainNumber none x) = .error (.insufficientOperands (.single 0))) := by
  obtain ⟨negative, p, hshape⟩ := exists_shape_iff.2 hx
  obtain ⟨hnegative, -, hp⟩ := shape_eq_finite_iff.1 hshape
  have hvalue := literalValue?_positional .up negative hp
  have hchars : ∀ c ∈ (Decimal.shortest .up negative p).positional, isLiteralChar c = true :=
    fun c hc => Decimal.isLiteralChar_of_mem_positional hc
  have hne := Decimal.positional_ne_nil (Decimal.shortest .up negative p)
  have htext : plainNumber none x = String.ofList
      (Decimal.sign negative ++ (Decimal.shortest .up negative p).positional) := by
    simp only [plainNumber, hshape]
  rw [htext]
  constructor
  · intro hunsigned
    obtain rfl : negative = false := by
      rw [← hnegative]
      exact decide_eq_false (Nat.not_le.2 hunsigned)
    rw [toFloat_of_shape hshape] at hvalue
    rw [Decimal.sign, if_neg (by decide), List.nil_append,
      calculate_of_literal (by simpa using hne) (by simpa using hchars), hvalue]
  · intro hsigned
    obtain rfl : negative = true := by
      rw [← hnegative]
      exact decide_eq_true hsigned
    exact calculate_negated hne hchars hvalue

/-- The smallest float, which is shown with 324 places, and the zero that has a sign. -/
theorem calculate_plainNumber_smallest :
    let smallest : Float := .ofBits 1
    let minusZero : Float := .ofBits 0x8000000000000000
    smallest.isFinite = true ∧ smallest.toBits.toNat < signBit ∧
      calculate (plainNumber none smallest) = .ok smallest ∧
      minusZero.isFinite = true ∧ signBit ≤ minusZero.toBits.toNat ∧
      calculate (plainNumber none minusZero) = .error (.insufficientOperands (.single 0)) := by
  intro smallest minusZero
  have hfinite : smallest.isFinite = true := by decide +kernel
  have hunsigned : smallest.toBits.toNat < signBit := by decide +kernel
  have hzero : minusZero.isFinite = true := by decide +kernel
  have hsigned : signBit ≤ minusZero.toBits.toNat := by decide +kernel
  exact ⟨hfinite, hunsigned, (calculate_plainNumber hfinite).1 hunsigned, hzero, hsigned,
    (calculate_plainNumber hzero).2 hsigned⟩

end Calculator

import Calculator.Decimal.Literal
import Calculator.Proofs.FloatValues

/-!
# The values of decimals

A decimal is a rational number, and its pattern is the one that the number rounds to if that is
finite (`Decimal.pattern?_eq_some_iff`). The powers of ten that are too large or too small to be
computed are not needed: such a number is infinite or zero in any case.
-/

namespace Calculator

namespace Binary64

variable {r : ℚ} {p : ℕ}

theorem two_pow_le_ten_pow : (2 : ℚ) ^ 1203 ≤ 10 ^ 401 := by
  rw [show 1203 = 3 * 401 from rfl, pow_mul]
  exact pow_le_pow_left₀ (by norm_num) (by norm_num) 401

/-- From `10 ^ 401` on a number is too large to be finite. -/
theorem not_lt_infinity_of_large (h : RoundsTo (r * perUnit) p) (hr : 10 ^ 401 ≤ r) :
    ¬ p < infinity := by
  have hpred := cast_steps_lt (show infinity - 1 < infinity by decide)
  have hlarge : (2 : ℚ) ^ 1024 ≤ r :=
    (pow_le_pow_right₀ one_le_two (by norm_num)).trans (two_pow_le_ten_pow.trans hr)
  have hsteps := mul_le_mul_of_nonneg_right hlarge perUnit_pos.le
  rw [← cast_steps_infinity] at hsteps
  rw [h.lt_infinity_iff, not_lt]
  linarith

/-- A number below twice `10 ^ -401` rounds to zero. -/
theorem roundsTo_zero_of_small (hsmall : r * 10 ^ 401 < 2) : RoundsTo (r * perUnit) 0 where
  above := by
    have hone : steps 1 = 1 := steps_of_lt (by decide)
    have hunit : perUnit * 4 ≤ 10 ^ 401 := by
      refine le_trans ?_ two_pow_le_ten_pow
      rw [perUnit, show (4 : ℚ) = 2 ^ 2 by norm_num, ← pow_add]
      exact pow_le_pow_right₀ one_le_two (by norm_num)
    rw [steps_zero, Nat.zero_add, hone, Nat.cast_zero, Nat.cast_one, zero_add]
    generalize (10 : ℚ) ^ 401 = t at hsmall hunit
    left
    rcases lt_or_ge 0 r with hr | hr
    · have := mul_le_mul_of_nonneg_left hunit hr.le
      linarith
    · have := mul_nonpos_of_nonpos_of_nonneg hr perUnit_pos.le
      linarith
  below k hk := by omega

end Binary64

namespace Decimal

open Binary64

def magnitude (d : Decimal) : ℚ :=
  d.coefficient * 10 ^ d.exponent

theorem magnitude_nonneg (d : Decimal) : 0 ≤ d.magnitude := by
  rw [magnitude]
  positivity

/-- The quotient that stands for a power of ten. -/
theorem zpow_eq_div (e : ℤ) :
    (10 : ℚ) ^ e = (Nat.pow 10 e.toNat : ℕ) / (Nat.pow 10 (-e).toNat : ℕ) := by
  have hten : (10 : ℚ) ≠ 0 := by norm_num
  rw [Nat.pow_eq, Nat.pow_eq, Nat.cast_pow, Nat.cast_pow, Nat.cast_ofNat, ← zpow_natCast,
    ← zpow_natCast, ← zpow_sub₀ hten]
  congr 1
  omega

theorem le_magnitude_of_exponent {d : Decimal} (hc : d.coefficient ≠ 0) (he : 400 < d.exponent) :
    10 ^ 401 ≤ d.magnitude := by
  have hone : (1 : ℚ) ≤ d.coefficient := by exact_mod_cast Nat.one_le_iff_ne_zero.2 hc
  have hpow : (10 : ℚ) ^ (401 : ℤ) ≤ 10 ^ d.exponent :=
    zpow_le_zpow_right₀ (by norm_num) (by omega)
  rw [magnitude, ← one_mul ((10 : ℚ) ^ 401)]
  exact mul_le_mul hone hpow (by positivity) (by positivity)

theorem magnitude_lt_of_exponent {d : Decimal} (he : d.exponent + d.coefficient.log2 < -400) :
    d.magnitude * 10 ^ 401 < 2 := by
  have hten : (10 : ℚ) ≠ 0 := by norm_num
  have hcoefficient : (d.coefficient : ℚ) < 2 * 10 ^ (d.coefficient.log2 : ℤ) := by
    calc (d.coefficient : ℚ) < 2 ^ (d.coefficient.log2 + 1) := by exact_mod_cast Nat.lt_log2_self
      _ = 2 * 2 ^ d.coefficient.log2 := pow_succ' _ _
      _ ≤ 2 * 10 ^ d.coefficient.log2 := by gcongr; norm_num
      _ = 2 * 10 ^ (d.coefficient.log2 : ℤ) := by rw [zpow_natCast]
  have hpower : (10 : ℚ) ^ (d.coefficient.log2 + (d.exponent + 401) : ℤ) ≤ 1 :=
    zpow_le_one_of_nonpos₀ (by norm_num) (by omega)
  have hshift : (0 : ℚ) < 10 ^ (d.exponent + 401) := by positivity
  calc d.magnitude * 10 ^ 401 = d.coefficient * 10 ^ (d.exponent + 401) := by
        rw [magnitude, mul_assoc, zpow_add₀ hten]
        rfl
    _ < 2 * 10 ^ (d.coefficient.log2 : ℤ) * 10 ^ (d.exponent + 401) :=
        mul_lt_mul_of_pos_right hcoefficient hshift
    _ = 2 * 10 ^ (d.coefficient.log2 + (d.exponent + 401) : ℤ) := by
        rw [mul_assoc, ← zpow_add₀ hten]
    _ ≤ 2 := by linarith

theorem exists_roundsTo_pattern? (d : Decimal) : ∃ p, RoundsTo (d.magnitude * perUnit) p ∧
    d.pattern? = if p < infinity then some p else none := by
  have hzero : 0 < infinity := by decide
  simp only [pattern?]
  split_ifs with hc hlarge hsmall hlt
  · refine ⟨0, ?_, (if_pos hzero).symm⟩
    rw [magnitude, hc, Nat.cast_zero, zero_mul, zero_mul, ← Nat.cast_zero, ← steps_zero]
    exact roundsTo_steps 0
  · obtain ⟨p, hp⟩ := exists_roundsTo (mul_nonneg d.magnitude_nonneg perUnit_pos.le)
    have := not_lt_infinity_of_large hp (le_magnitude_of_exponent hc hlarge)
    exact ⟨p, hp, (if_neg this).symm⟩
  · exact ⟨0, roundsTo_zero_of_small (magnitude_lt_of_exponent hsmall), (if_pos hzero).symm⟩
  all_goals
    refine ⟨_, ?_, by first | exact (if_pos hlt).symm | exact (if_neg hlt).symm⟩
    have hden : 0 < Nat.pow 10 (-d.exponent).toNat := Nat.pow_pos (by decide)
    have hround :=
      roundsTo_nearest (d.coefficient * Nat.pow 10 d.exponent.toNat * stepsPerUnit) hden
    rwa [Nat.cast_mul, Nat.cast_mul, cast_stepsPerUnit, mul_div_right_comm, mul_div_assoc,
      ← zpow_eq_div] at hround

theorem pattern?_eq_some_iff {d : Decimal} {p : ℕ} :
    d.pattern? = some p ↔ p < infinity ∧ RoundsTo (d.magnitude * perUnit) p := by
  obtain ⟨o, ho, heq⟩ := exists_roundsTo_pattern? d
  rw [heq]
  constructor
  · intro h
    split_ifs at h with hlt
    cases h
    exact ⟨hlt, ho⟩
  · rintro ⟨hlt, hp⟩
    rw [← ho.unique hp, if_pos (ho.unique hp ▸ hlt)]

end Decimal

end Calculator

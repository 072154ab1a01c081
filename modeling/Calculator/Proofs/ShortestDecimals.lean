import Calculator.Proofs.DecimalValues
import Calculator.Proofs.Reports

/-!
# The shortest decimal of a float rounds back to it

The interval that is searched for decimals reaches from the midpoint to the pattern before up to the
midpoint to the next one (`RoundingInterval.low_ofPattern`, `high_ofPattern`), so every decimal in
it rounds to the pattern (`roundsTo_of_contains`). The last grid, which is taken without a look at
the interval, has the float itself among its points (`roundsTo_last`). So the search returns a
decimal that rounds to the pattern in any case (`Decimal.roundsTo_shortest`).
-/

namespace Calculator

open Binary64

namespace RoundingInterval

theorem high_ofPattern (p : ℕ) : (ofPattern p).high = 2 * (steps p + steps (p + 1)) := by
  have hunit : Nat.pow 2 (scale p) = 2 ^ scale p := rfl
  rw [steps_succ, steps, hunit]
  simp only [ofPattern, hunit]
  ring

/-- The unit below is half as large behind a power of two, and the same otherwise. -/
theorem unit_below (k : ℕ) :
    (if significand (k + 1) = implicitBit ∧ 0 < scale (k + 1) then 1 else 2) * 2 ^ scale (k + 1)
      = 2 * 2 ^ scale k := by
  have hscale (n : ℕ) : scale n = n / implicitBit - 1 := rfl
  split_ifs with h
  · obtain ⟨hm, hpos⟩ := h
    have hnext : scale (k + 1) = scale k + 1 := by
      rw [significand] at hm
      rw [hscale] at hpos
      rw [hscale, hscale]
      rw [implicitBit_eq] at *
      split_ifs at hm <;> omega
    rw [hnext, one_mul, pow_succ']
  · have hsame : scale (k + 1) = scale k := by
      rw [significand, hscale, not_and, not_lt] at h
      rw [hscale, hscale]
      rw [implicitBit_eq] at *
      split_ifs at h <;> omega
    rw [hsame]

theorem low_ofPattern (k : ℕ) : (ofPattern (k + 1)).low = 2 * (steps k + steps (k + 1)) := by
  have hbelow := unit_below k
  have hsucc := steps_succ k
  have hunit : Nat.pow 2 (scale (k + 1)) = 2 ^ scale (k + 1) := rfl
  have hvalue : steps (k + 1) = significand (k + 1) * 2 ^ scale (k + 1) := rfl
  simp only [ofPattern, hunit]
  rw [Nat.sub_mul, mul_assoc, ← hvalue, hbelow]
  omega

theorem closed_ofPattern (p : ℕ) : (ofPattern p).closed = true ↔ p % 2 = 0 := by
  simp only [ofPattern, significand, beq_iff_eq]
  rw [implicitBit_eq]
  split_ifs <;> omega

theorem contains_iff {i : RoundingInterval} {num den : ℕ} (h : 0 < den) :
    i.contains num den = true ↔
      ((i.low : ℚ) < num / den ∨ (i.low : ℚ) = num / den ∧ i.closed = true) ∧
        ((num / den : ℚ) < i.high ∨ (num / den : ℚ) = i.high ∧ i.closed = true) := by
  have hpos : (0 : ℚ) < den := by exact_mod_cast h
  have hlow : i.low * den ≤ num ↔ (i.low : ℚ) ≤ num / den := by
    rw [le_div_iff₀ hpos]
    exact_mod_cast Iff.rfl
  have hhigh : num ≤ i.high * den ↔ (num / den : ℚ) ≤ i.high := by
    rw [div_le_iff₀ hpos]
    exact_mod_cast Iff.rfl
  have hlow' : i.low * den < num ↔ (i.low : ℚ) < num / den := by
    rw [lt_div_iff₀ hpos]
    exact_mod_cast Iff.rfl
  have hhigh' : num < i.high * den ↔ (num / den : ℚ) < i.high := by
    rw [div_lt_iff₀ hpos]
    exact_mod_cast Iff.rfl
  unfold contains
  split_ifs with hclosed
  · simp [hclosed, hlow, hhigh, le_iff_lt_or_eq]
  · simp [hclosed, hlow', hhigh']

/-- The quotient counts quarters of a step. -/
theorem roundsTo_of_contains {p num den : ℕ} (hp : p ≠ 0) (hden : 0 < den)
    (h : (ofPattern p).contains num den = true) : RoundsTo (num / den / 4) p := by
  obtain ⟨k, rfl⟩ := Nat.exists_eq_succ_of_ne_zero hp
  have hlow : ((ofPattern (k + 1)).low : ℚ) = 2 * (steps k + steps (k + 1)) := by
    rw [low_ofPattern]
    push_cast
    rfl
  have hhigh : ((ofPattern (k + 1)).high : ℚ) = 2 * (steps (k + 1) + steps (k + 1 + 1)) := by
    rw [high_ofPattern]
    push_cast
    rfl
  rw [contains_iff hden, hlow, hhigh, closed_ofPattern] at h
  obtain ⟨hbelow, habove⟩ := h
  refine ⟨habove.imp (fun h => ?_) (And.imp_left fun h => ?_), fun o ho => ?_⟩
  · linarith
  · linarith
  · obtain rfl : o = k := by omega
    exact hbelow.imp (fun h => by linarith) (And.imp_left fun h => by linarith)

end RoundingInterval

namespace Decimal

variable {tie : Tie} {p : ℕ}

/-- The point of a grid in quarters of a step. -/
theorem magnitude_of_grid (negative : Bool) (c : ℕ) (e : ℤ) :
    magnitude ⟨negative, c, e⟩ * perUnit =
      ((c * (Nat.pow 10 e.toNat * quartersPerUnit) : ℕ) / (Nat.pow 10 (-e).toNat : ℕ) / 4 : ℚ) := by
  have hquarters : (quartersPerUnit : ℚ) = 4 * perUnit := by
    rw [quartersPerUnit, Nat.cast_mul, cast_stepsPerUnit]
    rfl
  rw [magnitude, zpow_eq_div, Nat.cast_mul, Nat.cast_mul, hquarters]
  ring

theorem value_ofPattern (p : ℕ) : (RoundingInterval.ofPattern p).value = 4 * steps p :=
  Nat.mul_assoc 4 _ _

theorem two_pow_dvd_ten_pow {k n : ℕ} (h : k ≤ n) : Nat.pow 2 k ∣ Nat.pow 10 n :=
  (Nat.pow_dvd_pow 2 h).trans (pow_dvd_pow_of_dvd (show 2 ∣ 10 by decide) n)

theorem quartersPerUnit_dvd {n : ℕ} (h : 1074 ≤ n) : quartersPerUnit ∣ 4 * Nat.pow 10 n := by
  delta quartersPerUnit stepsPerUnit
  generalize 1074 = k at h
  exact Nat.mul_dvd_mul_left 4 (two_pow_dvd_ten_pow h)

/-- The float is a point of every grid that is fine enough, and the one that is taken there. -/
theorem roundsTo_last (negative : Bool) {e : ℤ} (he : e ≤ -1074) :
    RoundsTo (magnitude ⟨negative, (coarsest tie (.ofPattern p) 0 e).1, e⟩ * perUnit) p := by
  have hwhole : e.toNat = 0 := by omega
  have hpos : (0 : ℚ) < (Nat.pow 10 (-e).toNat : ℕ) := by
    exact_mod_cast Nat.pow_pos (show 0 < 10 by decide)
  have hdvd : Nat.pow 10 e.toNat * quartersPerUnit ∣
      (RoundingInterval.ofPattern p).value * Nat.pow 10 (-e).toNat := by
    rw [hwhole, value_ofPattern, Nat.mul_comm 4, Nat.mul_assoc]
    have := (quartersPerUnit_dvd (show 1074 ≤ (-e).toNat by omega)).mul_left (steps p)
    simpa using this
  rw [magnitude_of_grid, coarsest, Nat.div_mul_cancel hdvd, value_ofPattern, Nat.cast_mul,
    mul_div_cancel_right₀ _ hpos.ne', Nat.cast_mul, Nat.cast_ofNat,
    mul_div_cancel_left₀ _ (by norm_num)]
  exact roundsTo_steps p

/-- The search begins above the last grid. -/
theorem le_ceilingPower (n : ℕ) : -1076 ≤ ceilingPower n := by
  rw [ceilingPower]
  omega

/-- The shortest decimal rounds to the pattern that it was found for. -/
theorem roundsTo_shortest (tie : Tie) (negative : Bool) (p : ℕ) :
    RoundsTo ((shortest tie negative p).magnitude * perUnit) p := by
  unfold shortest
  split_ifs with hp
  · rw [hp, magnitude, Nat.cast_zero, zero_mul, zero_mul, ← Nat.cast_zero, ← steps_zero]
    exact roundsTo_steps 0
  · simp only
    rcases @coarsest_cases tie (.ofPattern p) _ _ with hgrid | hlast
    · rw [magnitude_of_grid]
      exact RoundingInterval.roundsTo_of_contains hp (Nat.pow_pos (by decide))
        (contains_of_onGrid? hgrid)
    · have := le_ceilingPower (RoundingInterval.ofPattern p).value
      have hpower : ceilingPower (RoundingInterval.ofPattern p).value
          - (ceilingPower (RoundingInterval.ofPattern p).value + 1076).toNat = -1076 := by omega
      rw [hpower] at hlast
      rw [hlast]
      exact roundsTo_last negative (by decide)

end Decimal

end Calculator

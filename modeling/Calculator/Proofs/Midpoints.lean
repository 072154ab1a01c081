import Calculator.Binary64
import Mathlib

/-!
# Midpoints between neighbouring floats

The next pattern is one unit of the last place further (`Binary64.steps_succ`), so patterns are in
the order of their numbers. A number rounds to a pattern if it lies between the midpoints to the
neighbours of the pattern, and on a midpoint only if the pattern is even (`Binary64.RoundsTo`). It
does so for one pattern only (`RoundsTo.unique`), which `Binary64.nearest` finds
(`roundsTo_nearest`), and which no other pattern is as near as (`RoundsTo.nearer`).
-/

namespace Calculator

/-- The quotient lies within a half of what it is rounded to, and a half away only if that is
even. -/
theorem roundHalfEven_near (num : ℕ) {den : ℕ} (h : 0 < den) :
    (2 * (num / den : ℚ) < 2 * roundHalfEven num den + 1 ∨
        2 * (num / den : ℚ) = 2 * roundHalfEven num den + 1 ∧ roundHalfEven num den % 2 = 0) ∧
      ((2 * roundHalfEven num den : ℚ) < 2 * (num / den) + 1 ∨
        (2 * roundHalfEven num den : ℚ) = 2 * (num / den) + 1 ∧
          roundHalfEven num den % 2 = 0) := by
  have hden : (0 : ℚ) < den := by exact_mod_cast h
  -- the quotient is its whole part and a fraction, which is compared with a half
  have hquot : (num / den : ℚ) = (num / den : ℕ) + (num % den : ℕ) / den := by
    rw [eq_comm, ← eq_sub_iff_add_eq', div_eq_iff hden.ne', sub_mul, div_mul_cancel₀ _ hden.ne',
      eq_sub_iff_add_eq]
    exact_mod_cast Nat.mod_add_div' num den
  have hlt : ((num % den : ℕ) / den : ℚ) < 1 := by
    rw [div_lt_one hden]
    exact_mod_cast Nat.mod_lt num h
  have hnonneg : (0 : ℚ) ≤ (num % den : ℕ) / den := by positivity
  have hhalf : 2 * (num % den) < den ↔ ((num % den : ℕ) / den : ℚ) < 1 / 2 := by
    rw [div_lt_div_iff₀ hden two_pos, one_mul, mul_comm]
    exact_mod_cast Iff.rfl
  have htie : 2 * (num % den) = den ↔ ((num % den : ℕ) / den : ℚ) = 1 / 2 := by
    rw [div_eq_div_iff hden.ne' two_ne_zero, one_mul, mul_comm]
    exact_mod_cast Iff.rfl
  rw [hquot]
  simp only [roundHalfEven, Bool.or_eq_true, Bool.and_eq_true, decide_eq_true_eq, beq_iff_eq,
    hhalf, htie]
  generalize ((num % den : ℕ) / den : ℚ) = t at *
  generalize num / den = q at *
  split_ifs with hc
  · rcases hc with hc | ⟨hc, heven⟩
    · exact ⟨.inl (by linarith), .inl (by linarith)⟩
    · exact ⟨.inr ⟨by linarith, heven⟩, .inl (by linarith)⟩
  · rw [not_or, not_lt, not_and] at hc
    push_cast
    rcases hc.1.lt_or_eq with hlt' | heq
    · exact ⟨.inl (by linarith), .inl (by linarith)⟩
    · have hodd := hc.2 heq.symm
      exact ⟨.inl (by linarith), .inr ⟨by linarith, by omega⟩⟩

theorem div_le_roundHalfEven (num den : ℕ) : num / den ≤ roundHalfEven num den := by
  simp only [roundHalfEven]
  split <;> omega

theorem roundHalfEven_le (num den : ℕ) : roundHalfEven num den ≤ num / den + 1 := by
  simp only [roundHalfEven]
  split <;> omega

namespace Binary64

theorem implicitBit_eq : implicitBit = 4503599627370496 := by decide

theorem steps_of_lt {p : ℕ} (h : p < implicitBit) : steps p = p := by
  have hscale : scale p = 0 := by
    rw [scale, Nat.div_eq_of_lt h]
  rw [steps, significand, if_pos h, hscale]
  exact Nat.mul_one p

theorem steps_normal (e : ℕ) {m : ℕ} (h : m < implicitBit) :
    steps ((e + 1) * implicitBit + m) = (implicitBit + m) * 2 ^ e := by
  have hpos : 0 < implicitBit := by decide
  have hdiv : ((e + 1) * implicitBit + m) / implicitBit = e + 1 := by
    rw [Nat.add_comm, Nat.add_mul_div_right _ _ hpos, Nat.div_eq_of_lt h, Nat.zero_add]
  have hmod : ((e + 1) * implicitBit + m) % implicitBit = m := by
    rw [Nat.add_comm, Nat.add_mul_mod_self_right, Nat.mod_eq_of_lt h]
  have hge : ¬ (e + 1) * implicitBit + m < implicitBit := by
    rw [Nat.add_mul]
    omega
  rw [steps, significand, scale, if_neg hge, hdiv, hmod]
  rfl

theorem steps_power (e : ℕ) : steps ((e + 1) * implicitBit) = implicitBit * 2 ^ e := by
  simpa only [Nat.add_zero] using steps_normal e (m := 0) (by decide)

/-- Significands beside the normal ones, as carries leave them. -/
theorem steps_add {e m : ℕ} (h : m ≤ 2 * implicitBit) (he : e = 0 ∨ implicitBit ≤ m) :
    steps (e * implicitBit + m) = m * 2 ^ e := by
  rcases Nat.lt_or_ge m implicitBit with hlt | hge
  · obtain rfl : e = 0 := he.resolve_right (Nat.not_le.2 hlt)
    rw [Nat.zero_mul, Nat.zero_add, steps_of_lt hlt, pow_zero, Nat.mul_one]
  · obtain ⟨d, rfl⟩ := Nat.exists_eq_add_of_le hge
    rcases Nat.lt_or_ge d implicitBit with hlt | hge'
    · rw [← steps_normal e hlt]
      ring_nf
    · obtain rfl : d = implicitBit := by omega
      rw [show e * implicitBit + (implicitBit + implicitBit) = (e + 1 + 1) * implicitBit by ring,
        steps_power]
      ring

theorem scale_add {e m : ℕ} (he : e = 0 ∨ implicitBit ≤ m) : e ≤ scale (e * implicitBit + m) := by
  rcases he with rfl | hge
  · exact Nat.zero_le _
  · have hquot : e + 1 ≤ (e * implicitBit + m) / implicitBit := by
      rw [Nat.le_div_iff_mul_le (by decide), Nat.add_mul]
      omega
    rw [scale]
    omega

theorem exists_eq_add (p : ℕ) : ∃ m, p = scale p * implicitBit + m ∧ m < 2 * implicitBit ∧
    (scale p = 0 ∨ implicitBit ≤ m) := by
  have hpos : 0 < implicitBit := by decide
  have hdiv := Nat.div_add_mod p implicitBit
  have hlt := Nat.mod_lt p hpos
  rcases hq : p / implicitBit with _ | e
  · have hscale : scale p = 0 := by rw [scale, hq]
    rw [hq] at hdiv
    exact ⟨p, by rw [hscale]; omega, by omega, .inl hscale⟩
  · have hscale : scale p = e := by rw [scale, hq, Nat.add_sub_cancel]
    rw [hq, Nat.mul_add, Nat.mul_one, Nat.mul_comm] at hdiv
    exact ⟨implicitBit + p % implicitBit, by rw [hscale]; omega, by omega, .inr (by omega)⟩

/-- The next pattern is one unit of the last place further. -/
theorem steps_succ (p : ℕ) : steps (p + 1) = steps p + 2 ^ scale p := by
  obtain ⟨m, hp, hm, he⟩ := exists_eq_add p
  generalize scale p = e at hp he
  subst hp
  rw [steps_add (Nat.le_of_lt hm) he, Nat.add_assoc, steps_add hm (he.imp_right Nat.le_succ_of_le),
    Nat.succ_mul]

theorem steps_strictMono : StrictMono steps :=
  strictMono_nat_of_lt_succ fun p => by
    rw [steps_succ]
    exact Nat.lt_add_of_pos_right (Nat.two_pow_pos _)

theorem steps_infinity : steps infinity = 2 ^ 2098 := by
  rw [infinity, show 2047 = 2046 + 1 from rfl, steps_power, show implicitBit = 2 ^ 52 from rfl,
    ← pow_add]

/-- `r` steps lie between the midpoints to the neighbours of `p`, and on one only if `p` is even. -/
structure RoundsTo (r : ℚ) (p : ℕ) : Prop where
  above : 2 * r < steps p + steps (p + 1) ∨ 2 * r = steps p + steps (p + 1) ∧ p % 2 = 0
  below : ∀ k, k + 1 = p →
    (steps k + steps p : ℚ) < 2 * r ∨ (steps k + steps p : ℚ) = 2 * r ∧ p % 2 = 0

variable {r : ℚ} {p q : ℕ}

theorem cast_steps_lt (h : p < q) : (steps p : ℚ) < steps q := by
  exact_mod_cast steps_strictMono h

theorem cast_steps_le (h : p ≤ q) : (steps p : ℚ) ≤ steps q := by
  exact_mod_cast steps_strictMono.monotone h

theorem RoundsTo.le_of_lt (h : RoundsTo r p) (hpq : p < q) :
    2 * r < steps p + steps q ∨ 2 * r = steps p + steps q ∧ p % 2 = 0 ∧ q = p + 1 := by
  rcases Nat.lt_or_ge (p + 1) q with hlt | hge
  · have := cast_steps_lt hlt
    exact .inl (by rcases h.above with h | h <;> linarith)
  · obtain rfl : q = p + 1 := by omega
    exact h.above.imp_right fun h => ⟨h.1, h.2, rfl⟩

theorem RoundsTo.ge_of_lt (h : RoundsTo r p) (hqp : q < p) :
    (steps q + steps p : ℚ) < 2 * r ∨
      (steps q + steps p : ℚ) = 2 * r ∧ p % 2 = 0 ∧ p = q + 1 := by
  obtain ⟨k, rfl⟩ := Nat.exists_eq_add_of_lt hqp
  rcases Nat.eq_zero_or_pos k with rfl | hk
  · exact (h.below q rfl).imp_right fun h => ⟨h.1, h.2, rfl⟩
  · have hlt := cast_steps_lt (show q < q + k by omega)
    exact .inl (by rcases h.below (q + k) rfl with h | h <;> linarith)

theorem RoundsTo.unique (hp : RoundsTo r p) (hq : RoundsTo r q) : p = q := by
  -- a midpoint between two patterns belongs to the even one
  have hlt {p q : ℕ} (hp : RoundsTo r p) (hq : RoundsTo r q) : ¬ p < q := by
    intro hpq
    rcases hp.le_of_lt hpq with h | ⟨h, heven, -⟩ <;>
      rcases hq.ge_of_lt hpq with h' | ⟨h', heven', hnext⟩
    · linarith
    · linarith
    · linarith
    · omega
  have := hlt hp hq
  have := hlt hq hp
  omega

/-- No other pattern is as near, unless the number lies in the middle: then the other is odd. -/
theorem RoundsTo.nearer (h : RoundsTo r p) (hne : q ≠ p) :
    |r - steps p| < |r - steps q| ∨
      |r - steps p| = |r - steps q| ∧ p % 2 = 0 ∧ q % 2 = 1 := by
  rcases Nat.lt_or_gt_of_ne hne with hlt | hgt
  · have hsteps := cast_steps_lt hlt
    rcases h.ge_of_lt hlt with hr | ⟨hr, heven, hnext⟩
    · left
      rw [abs_of_pos (show 0 < r - steps q by linarith), abs_lt]
      constructor <;> linarith
    · right
      refine ⟨?_, heven, by omega⟩
      rw [abs_of_pos (show 0 < r - steps q by linarith),
        abs_of_neg (show r - steps p < 0 by linarith)]
      linarith
  · have hsteps := cast_steps_lt hgt
    rcases h.le_of_lt hgt with hr | ⟨hr, heven, hnext⟩
    · left
      rw [abs_of_neg (show r - steps q < 0 by linarith), abs_lt]
      constructor <;> linarith
    · right
      refine ⟨?_, heven, by omega⟩
      rw [abs_of_neg (show r - steps q < 0 by linarith),
        abs_of_pos (show 0 < r - steps p by linarith)]
      linarith

theorem roundsTo_steps (p : ℕ) : RoundsTo (steps p) p where
  above := by
    have := cast_steps_lt (Nat.lt_succ_self p)
    exact .inl (by linarith)
  below k hk := by
    have := cast_steps_lt (show k < p by omega)
    exact .inl (by linarith)

/-- A number is finite if it lies below the midpoint to infinity. -/
theorem RoundsTo.lt_infinity_iff (h : RoundsTo r p) :
    p < infinity ↔ 2 * r < steps (infinity - 1) + steps infinity := by
  have hpred : infinity - 1 + 1 = infinity := by decide
  constructor
  · intro hp
    rcases h.le_of_lt hp with hr | ⟨hr, heven, hnext⟩
    · have := cast_steps_le (show p ≤ infinity - 1 by omega)
      linarith
    · -- the last finite pattern is odd
      have hodd : (infinity - 1) % 2 = 1 := by decide
      omega
  · intro hr
    by_contra hp
    have hle : infinity ≤ p := by omega
    have := cast_steps_le hle
    rcases h.ge_of_lt (show infinity - 1 < p by omega) with h | ⟨h, -⟩ <;> linarith

/-- The scale leaves 53 bits before the point, fewer only if it is zero. -/
theorem scale_bounds (n : ℕ) : n < 2 * implicitBit * 2 ^ (n.log2 - 52) ∧
    (n.log2 - 52 = 0 ∨ implicitBit * 2 ^ (n.log2 - 52) ≤ n) := by
  have hbit : implicitBit = 2 ^ 52 := rfl
  have hupper : n < 2 ^ (n.log2 + 1) := Nat.lt_log2_self
  rcases Nat.lt_or_ge 52 n.log2 with hlt | hge
  · have hn : n ≠ 0 := by
      rintro rfl
      exact absurd hlt (by decide)
    have hsplit : 2 ^ n.log2 = implicitBit * 2 ^ (n.log2 - 52) := by
      rw [hbit, ← pow_add, Nat.add_sub_cancel' (Nat.le_of_lt hlt)]
    refine ⟨?_, .inr (hsplit ▸ Nat.log2_self_le hn)⟩
    rw [Nat.mul_assoc, ← hsplit, ← pow_succ']
    exact hupper
  · have hzero : n.log2 - 52 = 0 := by omega
    refine ⟨?_, .inl hzero⟩
    rw [hzero, pow_zero, Nat.mul_one, hbit, ← pow_succ']
    exact Nat.lt_of_lt_of_le hupper (Nat.pow_le_pow_right (by decide) (by omega))

/-- What `nearest` finds is a scale, and the significand rounded at that scale. -/
theorem nearest_eq (num : ℕ) {den : ℕ} (h : 0 < den) :
    ∃ e m, nearest num den = e * implicitBit + m ∧ m = roundHalfEven num (den * 2 ^ e) ∧
      m ≤ 2 * implicitBit ∧
      (e = 0 ∨ implicitBit ≤ m ∧ (implicitBit * 2 ^ e : ℚ) ≤ num / den) := by
  obtain ⟨hupper, hlower⟩ := scale_bounds (num / den)
  refine ⟨(num / den).log2 - 52, _, rfl, rfl, ?_⟩
  generalize (num / den).log2 - 52 = e at hupper hlower
  have hquot : num / (den * 2 ^ e) = num / den / 2 ^ e := (Nat.div_div_eq_div_mul _ _ _).symm
  have hlt : num / (den * 2 ^ e) < 2 * implicitBit := by
    rw [hquot]
    exact Nat.div_lt_of_lt_mul (by rwa [Nat.mul_comm])
  refine ⟨(roundHalfEven_le num (den * 2 ^ e)).trans hlt, hlower.imp_right fun hle => ⟨?_, ?_⟩⟩
  · have hge : implicitBit ≤ num / (den * 2 ^ e) := by
      rw [hquot]
      exact (Nat.le_div_iff_mul_le (Nat.two_pow_pos e)).2 hle
    exact hge.trans (div_le_roundHalfEven _ _)
  · have hmul : implicitBit * 2 ^ e * den ≤ num := (Nat.le_div_iff_mul_le h).1 hle
    rw [le_div_iff₀ (by exact_mod_cast h)]
    exact_mod_cast hmul

theorem roundsTo_nearest (num : ℕ) {den : ℕ} (h : 0 < den) :
    RoundsTo (num / den) (nearest num den) := by
  obtain ⟨e, m, heq, hm, hle, he⟩ := nearest_eq num h
  have hunit : (0 : ℚ) < 2 ^ e := by positivity
  have hscaled : (num : ℚ) / (den * 2 ^ e : ℕ) * 2 ^ e = num / den := by
    push_cast
    rw [div_mul_eq_mul_div, mul_div_mul_right _ _ hunit.ne']
  have hparity : (e * implicitBit + m) % 2 = m % 2 := by
    rw [implicitBit_eq]
    omega
  have hsteps : (steps (e * implicitBit + m) : ℚ) = m * 2 ^ e := by
    exact_mod_cast steps_add hle (he.imp_right And.left)
  obtain ⟨habove, hbelow⟩ := roundHalfEven_near num (Nat.mul_pos h (Nat.two_pow_pos e))
  rw [← hm] at habove hbelow
  rw [heq, ← hscaled]
  rw [← hscaled] at he
  generalize (num : ℚ) / (den * 2 ^ e : ℕ) = x at habove hbelow he
  refine ⟨?_, fun k hk => ?_⟩
  · have hnext : ((m + 1) * 2 ^ e : ℚ) ≤ steps (e * implicitBit + m + 1) := by
      rw [steps_succ]
      push_cast
      rw [hsteps, add_mul, one_mul, add_le_add_iff_left]
      exact_mod_cast Nat.pow_le_pow_right two_pos (scale_add (he.imp_right And.left))
    rw [hparity, hsteps]
    rcases habove with hlt | ⟨hmid, heven⟩
    · have := mul_lt_mul_of_pos_right hlt hunit
      exact .inl (by linarith)
    · have : 2 * x * 2 ^ e = (2 * m + 1) * 2 ^ e := by rw [hmid]
      rcases hnext.lt_or_eq with hnext | hnext
      · exact .inl (by linarith)
      · exact .inr ⟨by linarith, heven⟩
  · have hlt : (steps k : ℚ) < steps (e * implicitBit + m) := cast_steps_lt (by omega)
    by_cases hcarry : 0 < e ∧ m = implicitBit
    · -- the unit below is half as large, but the number does not lie below the power of two
      obtain ⟨he0, rfl⟩ := hcarry
      have hbit := (he.resolve_left he0.ne').2
      rw [hsteps] at hlt ⊢
      exact .inl (by linarith)
    · have hpos : 0 < m := by
        rcases he with rfl | ⟨hge, -⟩
        · omega
        · exact Nat.lt_of_lt_of_le (by decide) hge
      obtain ⟨m, rfl⟩ := Nat.exists_eq_succ_of_ne_zero hpos.ne'
      have hk' : k = e * implicitBit + m := by omega
      have hprevious : (steps k : ℚ) = m * 2 ^ e := by
        rw [hk']
        exact_mod_cast steps_add (by omega) (by omega)
      rw [hparity, hprevious, hsteps]
      push_cast at hbelow ⊢
      rcases hbelow with hlt | ⟨hmid, heven⟩
      · have := mul_lt_mul_of_pos_right hlt hunit
        exact .inl (by linarith)
      · have : 2 * ((m : ℚ) + 1) * 2 ^ e = (2 * x + 1) * 2 ^ e := by rw [hmid]
        exact .inr ⟨by linarith, heven⟩

theorem exists_roundsTo (hr : 0 ≤ r) : ∃ p, RoundsTo r p := by
  refine ⟨nearest r.num.toNat r.den, ?_⟩
  have hnum : (r.num.toNat : ℚ) = r.num := by
    exact_mod_cast Int.toNat_of_nonneg (Rat.num_nonneg.2 hr)
  have h := roundsTo_nearest r.num.toNat r.den_pos
  rwa [hnum, Rat.num_div_den] at h

end Binary64

end Calculator

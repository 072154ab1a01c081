import Calculator.Proofs.Midpoints
import Calculator.Proofs.Patterns

/-!
# The exact values of floats

A finite float is a significand times a power of two, and so a rational number (`exactValue`). It is
the number of steps of its pattern, with its sign (`exactValue_of_shape`). The float nearest to a
number is told by the values of floats alone (`Nearest`). For a number that is not negative there is
one at most, and it is the float of the pattern that the number rounds to (`nearest_iff`).
-/

namespace Calculator

namespace Binary64

open Float.Model Float.Model.UnpackedFloat

/-- The steps of a unit, as a rational number. -/
def perUnit : ℚ :=
  2 ^ 1074

theorem cast_pow_two (n : ℕ) : (Nat.pow 2 n : ℚ) = 2 ^ n := by
  rw [Nat.pow_eq, Nat.cast_pow, Nat.cast_ofNat]

theorem cast_stepsPerUnit : (stepsPerUnit : ℚ) = perUnit := by
  delta stepsPerUnit perUnit
  -- the exponent is made a variable, so that no power of this size is computed
  generalize 1074 = n
  exact cast_pow_two n

theorem perUnit_pos : 0 < perUnit :=
  pow_pos two_pos _

def unpackedValue : UnpackedFloat → ℚ
  | .finite s m e _ => (s.apply m : ℤ) * 2 ^ e
  | _ => 0

/-- The exact value of a finite float. -/
def exactValue (x : Float) : ℚ :=
  unpackedValue x.toModel.unpack

section Fields

variable {b : BitVec Format.binary64.numBits}

theorem toNat_unpackExponent : (unpackExponent b).toNat = b.toNat / 2 ^ 52 % 2 ^ 11 := by
  rw [unpackExponent_def, BitVec.extractLsb'_toNat, Nat.shiftRight_eq_div_pow]

theorem toNat_unpackMantissa : (unpackMantissa b).toNat = b.toNat % 2 ^ 52 := by
  rw [unpackMantissa_def, BitVec.extractLsb'_toNat, Nat.shiftRight_eq_div_pow, pow_zero,
    Nat.div_one]

theorem toNat_unpackSign : (unpackSign b).toNat = b.toNat / 2 ^ 63 % 2 := by
  rw [unpackSign_def, BitVec.extractLsb'_toNat, Nat.shiftRight_eq_div_pow]
  rfl

theorem toNat_implicit (m : BitVec 52) : (1#1 ++ m).toNat = implicitBit + m.toNat := by
  have hm : m.toNat < 2 ^ 52 := m.isLt
  rw [BitVec.toNat_append, ← Nat.shiftLeft_add_eq_or_of_lt hm]
  rfl

theorem apply_ofBitVec (c : BitVec 1) (n : ℤ) :
    (Sign.ofBitVec c).apply n = (if c.toNat = 1 then -1 else 1) * n := by
  have hc : c.toNat < 2 := c.isLt
  unfold Sign.ofBitVec
  split
  · rename_i hzero
    simp [hzero, Sign.apply]
  · rename_i hone
    rw [← BitVec.toNat_inj, BitVec.toNat_ofNat] at hone
    rw [if_pos (by omega)]
    simp [Sign.apply]

/-- The steps of the fields, whichever way the fields are read. -/
theorem unpackedValue_unpack (h : unpackExponent b ≠ -1#_) :
    unpackedValue (UnpackedFloat.unpack Format.binary64 b)
      = (if b.toNat / 2 ^ 63 % 2 = 1 then -1 else 1) *
        (steps (b.toNat / 2 ^ 52 % 2 ^ 11 * implicitBit + b.toNat % 2 ^ 52) / perUnit) := by
  have hm : b.toNat % 2 ^ 52 < implicitBit := Nat.mod_lt _ (by decide)
  have hunit : perUnit = 2 ^ ((1074 : ℕ) : ℤ) := by rw [perUnit, zpow_natCast]
  have hbias : (Format.binary64.exponentBias + (52 : ℕ) : ℤ) = 1075 := by decide
  unfold UnpackedFloat.unpack
  simp only [if_neg h, hbias]
  rcases Nat.eq_zero_or_pos (unpackExponent b).toNat with hzero | hpos
  · have hvec : unpackExponent b = 0#_ := BitVec.toNat_inj.1 hzero
    rw [if_pos hvec, hzero, ← toNat_unpackExponent, hzero, Nat.zero_mul, Nat.zero_add,
      steps_of_lt hm, ← toNat_unpackMantissa]
    split
    · rename_i hmantissa
      simp [hmantissa, unpackedValue]
    · rw [unpackedValue, apply_ofBitVec, toNat_unpackSign]
      simp only [Int.cast_mul, Int.cast_ite, Int.cast_neg, Int.cast_one, Int.cast_natCast]
      rw [mul_assoc, div_eq_mul_inv, hunit, ← zpow_neg]
      rfl
  · have hvec : unpackExponent b ≠ 0#_ := fun h0 => by simp [h0] at hpos
    obtain ⟨e, he⟩ := Nat.exists_eq_succ_of_ne_zero hpos.ne'
    rw [if_neg hvec, he, ← toNat_unpackExponent, he, steps_normal e hm, ← toNat_unpackMantissa,
      unpackedValue, apply_ofBitVec, toNat_unpackSign, toNat_implicit]
    push_cast
    rw [mul_assoc, mul_div_assoc, div_eq_mul_inv, hunit, ← zpow_natCast, ← zpow_neg,
      ← zpow_add₀ two_ne_zero]
    congr 3
    push_cast
    ring

end Fields

theorem exactValue_of_shape {x : Float} {negative : Bool} {p : ℕ}
    (h : shape x = .finite negative p) :
    exactValue x = (if negative then -1 else 1) * (steps p / perUnit) := by
  obtain ⟨hsign, hp, hlt⟩ := shape_eq_finite_iff.1 h
  have hbits : x.toBits.toBitVec.toNat = x.toBits.toNat := rfl
  have hbound : x.toBits.toNat < 2 ^ 64 := x.toBits.toNat_lt
  have hbit : signBit = 2 ^ 63 := rfl
  have hfinite := (lt_infinity_iff x.toBits.toNat).1 (hp ▸ hlt)
  have hsplit : x.toBits.toNat / 2 ^ 52 % 2 ^ 11 * implicitBit + x.toBits.toNat % 2 ^ 52 = p := by
    rw [← hp, implicitBit_eq, hbit]
    omega
  have hnegative : x.toBits.toNat / 2 ^ 63 % 2 = 1 ↔ negative = true := by
    rw [← hsign, decide_eq_true_eq, hbit]
    omega
  have hvalue := unpackedValue_unpack (b := x.toBits.toBitVec) (by rwa [Ne, unpackExponent_eq_iff])
  rw [hbits, hsplit] at hvalue
  simp only [hnegative] at hvalue
  exact hvalue

theorem exactValue_toFloat (negative : Bool) {p : ℕ} (h : p < infinity) :
    exactValue (toFloat negative p) = (if negative then -1 else 1) * (steps p / perUnit) :=
  exactValue_of_shape (shape_toFloat negative h)

/-- The midpoint between the largest finite float and infinity. -/
def overflowThreshold : ℚ :=
  2 ^ 1024 - 2 ^ 970

theorem cast_steps_infinity : (steps infinity : ℚ) = 2 ^ 1024 * perUnit := by
  have hcast {n : ℕ} (h : steps infinity = 2 ^ n) (hn : n = 1024 + 1074) :
      (steps infinity : ℚ) = 2 ^ 1024 * perUnit := by
    rw [h, Nat.cast_pow, Nat.cast_ofNat, hn, pow_add, perUnit]
  exact hcast steps_infinity rfl

theorem cast_steps_largest :
    (steps (infinity - 1) : ℚ) = (2 ^ 1024 - 2 * 2 ^ 970) * perUnit := by
  have hscale : scale (infinity - 1) = 1 + 970 + 1074 := by decide
  have hsucc := steps_succ (infinity - 1)
  rw [show infinity - 1 + 1 = infinity by decide] at hsucc
  rw [sub_mul, ← cast_steps_infinity, hsucc, Nat.cast_add, Nat.cast_pow, Nat.cast_ofNat, hscale,
    pow_add, pow_add, pow_one, perUnit, add_sub_cancel_right]

/-- A number is finite below the threshold. -/
theorem lt_overflowThreshold_iff {q : ℚ} : q < overflowThreshold ↔
    2 * (q * perUnit) < steps (infinity - 1) + steps infinity := by
  have hunit := perUnit_pos
  rw [cast_steps_largest, cast_steps_infinity, overflowThreshold,
    ← mul_lt_mul_iff_of_pos_right hunit]
  generalize (2 : ℚ) ^ 1024 = a
  generalize (2 : ℚ) ^ 970 = b
  constructor <;> intro h <;> linarith

/-- No finite float is nearer to `q`, and if one with another value is as near, the significand of
this one is even. The sign is that of a number that is not negative. -/
structure Nearest (q : ℚ) (x : Float) : Prop where
  finite : x.isFinite = true
  unsigned : x.toBits.toNat < signBit
  le : ∀ y : Float, y.isFinite = true → |q - exactValue x| ≤ |q - exactValue y|
  even : ∀ y : Float, y.isFinite = true → exactValue y ≠ exactValue x →
    |q - exactValue x| = |q - exactValue y| → x.toBits.toNat % 2 = 0

section Nearest

variable {q : ℚ} {p : ℕ}

/-- Distances in units are distances in steps. -/
theorem abs_sub_steps (q : ℚ) (p : ℕ) :
    |q - steps p / perUnit| = |q * perUnit - steps p| / perUnit := by
  have hunit := perUnit_pos
  rw [← abs_of_pos hunit, ← abs_div, abs_of_pos hunit, sub_div, mul_div_cancel_right₀ _ hunit.ne']

theorem RoundsTo.near (h : RoundsTo (q * perUnit) p) {o : ℕ} (hne : o ≠ p) :
    |q - steps p / perUnit| < |q - steps o / perUnit| ∨
      |q - steps p / perUnit| = |q - steps o / perUnit| ∧ p % 2 = 0 ∧ o % 2 = 1 := by
  have hunit := perUnit_pos
  rw [abs_sub_steps, abs_sub_steps, div_lt_div_iff_of_pos_right hunit,
    div_left_inj' hunit.ne']
  exact h.nearer hne

/-- A number that is not negative is no farther from a magnitude than from its negative. -/
theorem abs_sub_le_of_sign (hq : 0 ≤ q) (negative : Bool) {a : ℚ} (ha : 0 ≤ a) :
    |q - a| ≤ |q - (if negative then -1 else 1) * a| := by
  cases negative
  · simp
  · rw [if_pos rfl, neg_one_mul, sub_neg_eq_add, abs_of_nonneg (add_nonneg hq ha), abs_le]
    constructor <;> linarith

theorem steps_div_nonneg (p : ℕ) : (0 : ℚ) ≤ steps p / perUnit :=
  div_nonneg (Nat.cast_nonneg _) perUnit_pos.le

theorem steps_zero : steps 0 = 0 :=
  steps_of_lt (by decide)

theorem eq_zero_of_near_neg (hq : 0 ≤ q) (h : RoundsTo (q * perUnit) p)
    (heq : |q - steps p / perUnit| = |q + steps p / perUnit|) : p = 0 := by
  have ha := steps_div_nonneg p
  rw [abs_of_nonneg (add_nonneg hq ha)] at heq
  generalize hvalue : (steps p / perUnit : ℚ) = a at ha heq
  rcases abs_cases (q - a) with ⟨habs, -⟩ | ⟨habs, -⟩
  · have hzero : a = 0 := by linarith
    rw [← hvalue, div_eq_zero_iff, or_iff_left perUnit_pos.ne'] at hzero
    exact steps_strictMono.injective (by rw [steps_zero]; exact_mod_cast hzero)
  · have hzero : q = 0 := by linarith
    rw [hzero, zero_mul] at h
    have hsteps := roundsTo_steps 0
    rw [steps_zero, Nat.cast_zero] at hsteps
    exact h.unique hsteps

theorem nearest_toFloat (hq : 0 ≤ q) (hp : p < infinity) (h : RoundsTo (q * perUnit) p) :
    Nearest q (toFloat false p) := by
  have hbits : (toFloat false p).toBits.toNat = p := toNat_toBits_toFloat false hp
  have hvalue : exactValue (toFloat false p) = steps p / perUnit := by
    simpa using exactValue_toFloat false hp
  refine ⟨isFinite_toFloat hp, ?_, fun y hy => ?_, fun y hy hne heq => ?_⟩
  · rw [hbits]
    exact hp.trans (by decide)
  · obtain ⟨negative, o, ho⟩ := exists_shape_iff.2 hy
    rw [hvalue, exactValue_of_shape ho]
    refine le_trans ?_ (abs_sub_le_of_sign hq negative (steps_div_nonneg o))
    rcases eq_or_ne o p with rfl | hop
    · exact le_rfl
    · exact (h.near hop).elim le_of_lt fun h => h.1.le
  · obtain ⟨negative, o, ho⟩ := exists_shape_iff.2 hy
    rw [hvalue, exactValue_of_shape ho] at hne heq
    rw [hbits]
    have hsign := abs_sub_le_of_sign hq negative (steps_div_nonneg o)
    rcases eq_or_ne o p with rfl | hop
    · -- the same pattern has another value only with a sign, which is as near only to zero
      rw [eq_zero_of_near_neg hq h]
      rcases negative with _ | _
      · simp at hne
      · simpa using heq
    · rcases h.near hop with hlt | ⟨-, heven, -⟩
      · linarith
      · exact heven

/-- Below the threshold a number has one nearest float, that of the pattern it rounds
to. -/
theorem nearest_iff (hq : 0 ≤ q) (hlt : q < overflowThreshold) {x : Float} :
    Nearest q x ↔ ∃ p, p < infinity ∧ RoundsTo (q * perUnit) p ∧ toFloat false p = x := by
  constructor
  · intro h
    obtain ⟨negative, o, ho⟩ := exists_shape_iff.2 h.finite
    obtain ⟨hnegative, hbits, hinfinity⟩ := shape_eq_finite_iff.1 ho
    rw [Nat.mod_eq_of_lt h.unsigned] at hbits
    obtain rfl : negative = false := by
      rw [← hnegative]
      exact decide_eq_false (Nat.not_le.2 h.unsigned)
    obtain ⟨p, hp⟩ := exists_roundsTo (mul_nonneg hq perUnit_pos.le)
    have hfinite : p < infinity := hp.lt_infinity_iff.2 (lt_overflowThreshold_iff.1 hlt)
    have hvalue : exactValue (toFloat false p) = steps p / perUnit := by
      simpa using exactValue_toFloat false hfinite
    have hvalue' : exactValue x = steps o / perUnit := by
      simpa using exactValue_of_shape ho
    have hle := h.le (toFloat false p) (isFinite_toFloat hfinite)
    have heven := h.even (toFloat false p) (isFinite_toFloat hfinite)
    rw [hvalue, hvalue', hbits] at heven
    rw [hvalue, hvalue'] at hle
    rcases eq_or_ne o p with rfl | hne
    · exact ⟨o, hinfinity, hp, toFloat_of_shape ho⟩
    · rcases hp.near hne with hnear | ⟨hnear, -, hodd⟩
      · linarith
      · have hvalues : (steps p / perUnit : ℚ) ≠ steps o / perUnit := by
          rw [Ne, div_left_inj' perUnit_pos.ne']
          exact_mod_cast steps_strictMono.injective.ne hne.symm
        have := heven hvalues hnear.symm
        omega
  · rintro ⟨p, hp, hr, rfl⟩
    exact nearest_toFloat hq hp hr

end Nearest

end Binary64

end Calculator

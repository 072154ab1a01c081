import Calculator.Decimal.Literal
import Mathlib

/-!
# Finite floats and their patterns

A float is finite exactly if its pattern without the sign bit lies below that of infinity
(`Binary64.isFinite_iff`), and such a pattern is kept by the float made of it
(`Binary64.toBits_ofBits`). So a literal, whose pattern is looked at before it becomes a float,
always has a finite value (`isFinite_of_literalValue?`).
-/

namespace Calculator

namespace Binary64

open Float.Model Float.Model.UnpackedFloat

section Fields

variable {b : BitVec Format.binary64.numBits}

theorem unpackExponent_eq_iff : unpackExponent b = -1#_ ↔ b.toNat / 2 ^ 52 % 2 ^ 11 = 2047 := by
  rw [← BitVec.toNat_inj, unpackExponent_def, BitVec.extractLsb'_toNat, Nat.shiftRight_eq_div_pow]
  simp

theorem isFinite_unpack_iff :
    (UnpackedFloat.unpack Format.binary64 b).isFinite = true ↔ unpackExponent b ≠ -1#_ := by
  unfold UnpackedFloat.unpack
  by_cases h : unpackExponent b = -1#_
  · simp only [h, if_true, ne_eq, not_true, iff_false]
    split_ifs <;> simp [UnpackedFloat.isFinite]
  · simp only [h, if_false, ne_eq, not_false_iff, iff_true]
    split_ifs <;> rfl

end Fields

/-- The exponent of infinity is the largest one. -/
theorem lt_infinity_iff (n : ℕ) : n % signBit < infinity ↔ n / 2 ^ 52 % 2 ^ 11 ≠ 2047 := by
  show n % 2 ^ 63 < 2047 * 2 ^ 52 ↔ _
  omega

theorem isFinite_iff {x : Float} : x.isFinite = true ↔ x.toBits.toNat % signBit < infinity := by
  rw [lt_infinity_iff]
  show (UnpackedFloat.unpack Format.binary64 x.toBits.toBitVec).isFinite = true ↔ _
  rw [isFinite_unpack_iff, Ne, unpackExponent_eq_iff]
  rfl

theorem toBits_ofBits {b : UInt64} (h : b.toNat % signBit < infinity) :
    (Float.ofBits b).toBits = b := by
  rw [lt_infinity_iff] at h
  have hnumber : ¬ @isNaNBits Format.binary64 b.toBitVec = true := fun hnan =>
    h (unpackExponent_eq_iff.1 (of_decide_eq_true hnan).1)
  show UInt64.ofBitVec (UnpackedFloat.pack Format.binary64
    (UnpackedFloat.unpack Format.binary64 b.toBitVec)) = b
  rw [pack_unpack, if_neg hnumber]

theorem exists_shape_iff {x : Float} :
    (∃ negative pattern, shape x = .finite negative pattern) ↔ x.isFinite = true := by
  rw [isFinite_iff, shape, Shape.ofBits]
  by_cases h : x.toBits.toNat % signBit < infinity
  · simp [h]
  · simp only [h, if_false, iff_false, not_exists]
    intro negative pattern
    split <;> simp

/-- A finite pattern and its sign are the bits of the float made of them. -/
theorem toNat_toBits_toFloat (negative : Bool) {pattern : ℕ} (h : pattern < infinity) :
    (toFloat negative pattern).toBits.toNat = if negative then signBit + pattern else pattern := by
  have hinfinity : infinity < signBit := by decide
  have hsign : 2 * signBit = 2 ^ 64 := by decide
  have hbits : (if negative then signBit + pattern else pattern) < 2 ^ 64 := by
    split <;> omega
  have hpattern : (if negative then signBit + pattern else pattern) % signBit = pattern := by
    split
    · rw [Nat.add_mod_left, Nat.mod_eq_of_lt (by omega)]
    · exact Nat.mod_eq_of_lt (by omega)
  have hkept : (UInt64.ofNat (if negative then signBit + pattern else pattern)).toNat % signBit
      < infinity := by
    rw [UInt64.toNat_ofNat_of_lt' hbits, hpattern]
    exact h
  rw [toFloat, toBits_ofBits hkept, UInt64.toNat_ofNat_of_lt' hbits]

theorem shape_eq_finite_iff {x : Float} {negative : Bool} {pattern : ℕ} :
    shape x = .finite negative pattern ↔ decide (signBit ≤ x.toBits.toNat) = negative ∧
      x.toBits.toNat % signBit = pattern ∧ pattern < infinity := by
  simp only [shape, Shape.ofBits]
  split_ifs with hlt heq
  · rw [Shape.finite.injEq]
    exact and_congr_right fun _ => ⟨fun h => ⟨h, h ▸ hlt⟩, And.left⟩
  · simp only [false_iff, not_and]
    rintro - rfl
    exact hlt
  · simp only [false_iff, not_and]
    rintro - rfl
    exact hlt

theorem shape_toFloat (negative : Bool) {pattern : ℕ} (h : pattern < infinity) :
    shape (toFloat negative pattern) = .finite negative pattern := by
  have hinfinity : infinity < signBit := by decide
  rw [shape_eq_finite_iff, toNat_toBits_toFloat negative h]
  rcases negative with _ | _
  · exact ⟨by simpa using h.trans hinfinity, Nat.mod_eq_of_lt (h.trans hinfinity), h⟩
  · exact ⟨by simp, by simpa using Nat.mod_eq_of_lt (h.trans hinfinity), h⟩

theorem toFloat_of_shape {x : Float} {negative : Bool} {pattern : ℕ}
    (h : shape x = .finite negative pattern) : toFloat negative pattern = x := by
  obtain ⟨hnegative, hpattern, hlt⟩ := shape_eq_finite_iff.1 h
  have hsign : 2 * signBit = 2 ^ 64 := by decide
  have hbound : x.toBits.toNat < 2 ^ 64 := x.toBits.toNat_lt
  rw [← Float.toBits_inj, ← UInt64.toNat_inj, toNat_toBits_toFloat negative hlt]
  rcases negative with _ | _
  · have := of_decide_eq_false hnegative
    rw [← hpattern, Nat.mod_eq_of_lt (by omega)]
    rfl
  · have := of_decide_eq_true hnegative
    rw [← hpattern, Nat.mod_eq_sub_mod this, Nat.mod_eq_of_lt (by omega)]
    exact Nat.add_sub_cancel' this

theorem isFinite_toFloat {negative : Bool} {pattern : ℕ} (h : pattern < infinity) :
    (toFloat negative pattern).isFinite = true :=
  exists_shape_iff.1 ⟨negative, pattern, shape_toFloat negative h⟩

end Binary64

/-- A literal that denotes too large a number has no value. -/
theorem isFinite_of_literalValue? {literal : String} {x : Float}
    (h : literalValue? literal = some x) : x.isFinite = true := by
  obtain ⟨d, -, hx⟩ := Option.bind_eq_some_iff.1 h
  obtain ⟨pattern, hp, rfl⟩ := Option.map_eq_some_iff.1 hx
  refine Binary64.isFinite_toFloat ?_
  simp only [Decimal.pattern?] at hp
  split_ifs at hp with _ _ _ hlt
  · cases hp
    decide
  · cases hp
    decide
  · rw [Option.some.injEq] at hp
    exact hp ▸ hlt

end Calculator

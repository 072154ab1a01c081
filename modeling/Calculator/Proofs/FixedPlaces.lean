import Calculator.Proofs.NumberTexts

/-!
# Numbers with a fixed number of places

A number with a given number of places is shown as a whole number without leading zeros and, if
there are any places, a point and that many digits (`Decimal.exists_positional_places`). The digits
are the exact value of the float rounded once, so the text denotes the nearest number that has so
many places, with an even last digit if two are equally near (`plainNumber_places`).
-/

namespace Calculator

/-- Of the multiples of `10 ^ -places`, `v` is the nearest to `q`. If another one is equally near,
the last digit of `v` is even. -/
structure NearestMultiple (places : ℕ) (q v : ℚ) (last : Char) : Prop where
  multiple : ∃ n : ℤ, v = n / 10 ^ places
  le : ∀ n : ℤ, |q - v| ≤ |q - n / 10 ^ places|
  even : ∀ n : ℤ, n / 10 ^ places ≠ v → |q - v| = |q - n / 10 ^ places| →
    digitValue last % 2 = 0

/-- The quotient is at most a half away from what it is rounded to, and a half only if that is
even. -/
theorem abs_sub_roundHalfEven (num : ℕ) {den : ℕ} (h : 0 < den) :
    |(num / den : ℚ) - roundHalfEven num den| ≤ 1 / 2 ∧
      (|(num / den : ℚ) - roundHalfEven num den| = 1 / 2 → roundHalfEven num den % 2 = 0) := by
  obtain ⟨habove, hbelow⟩ := roundHalfEven_near num h
  refine ⟨abs_le.2 ⟨?_, ?_⟩, fun heq => ?_⟩
  · rcases hbelow with h | ⟨h, -⟩ <;> linarith
  · rcases habove with h | ⟨h, -⟩ <;> linarith
  · rcases (abs_eq (by norm_num)).1 heq with heq | heq
    · rcases habove with h | ⟨-, heven⟩
      · linarith
      · exact heven
    · rcases hbelow with h | ⟨-, heven⟩
      · linarith
      · exact heven

/-- Other whole numbers are at least a half away. -/
theorem roundHalfEven_nearest (num : ℕ) {den : ℕ} (h : 0 < den) {n : ℤ}
    (hne : n ≠ roundHalfEven num den) :
    |(num / den : ℚ) - roundHalfEven num den| ≤ |(num / den : ℚ) - n| ∧
      (|(num / den : ℚ) - roundHalfEven num den| = |(num / den : ℚ) - n| →
        roundHalfEven num den % 2 = 0) := by
  obtain ⟨hnear, heven⟩ := abs_sub_roundHalfEven num h
  generalize roundHalfEven num den = r at hne hnear heven
  have hunit : (1 : ℚ) ≤ |(r : ℚ) - n| := by
    have := abs_pos.2 (sub_ne_zero.2 hne.symm)
    exact_mod_cast (show 1 ≤ |(r : ℤ) - n| by omega)
  have hsum := abs_sub_le (r : ℚ) (num / den) n
  rw [abs_sub_comm (r : ℚ) (num / den)] at hsum
  exact ⟨by linarith, fun heq => heven (by linarith)⟩

theorem NearestMultiple.neg {places : ℕ} {q v : ℚ} {last : Char}
    (h : NearestMultiple places q v last) : NearestMultiple places (-q) (-v) last := by
  have hvalue : |-q - -v| = |q - v| := by rw [neg_sub_neg, abs_sub_comm]
  have hother (n : ℤ) : |-q - n / 10 ^ places| = |q - (-n : ℤ) / 10 ^ places| := by
    rw [← abs_neg]
    congr 1
    push_cast
    ring
  refine ⟨?_, fun n => ?_, fun n hne heq => ?_⟩
  · obtain ⟨n, rfl⟩ := h.multiple
    exact ⟨-n, by push_cast; ring⟩
  · rw [hvalue, hother]
    exact h.le (-n)
  · rw [hvalue, hother] at heq
    refine h.even (-n) (fun hv => hne ?_) heq
    rw [← hv]
    push_cast
    ring

/-- Distances scale with the power of ten. -/
theorem nearestMultiple_roundHalfEven (places num : ℕ) {den : ℕ} (h : 0 < den) {last : Char}
    (hlast : roundHalfEven num den % 2 = digitValue last % 2) :
    NearestMultiple places (num / den / 10 ^ places) (roundHalfEven num den / 10 ^ places)
      last := by
  have hten : (0 : ℚ) < 10 ^ places := by positivity
  have hdist (m : ℚ) : |(num / den : ℚ) / 10 ^ places - m / 10 ^ places|
      = |(num / den : ℚ) - m| / 10 ^ places := by
    rw [← sub_div, abs_div, abs_of_pos hten]
  refine ⟨⟨roundHalfEven num den, by push_cast; rfl⟩, fun n => ?_, fun n hne heq => ?_⟩
  · rw [hdist, hdist, div_le_div_iff_of_pos_right hten]
    rcases eq_or_ne n (roundHalfEven num den) with rfl | hne
    · rfl
    · exact (roundHalfEven_nearest num h hne).1
  · rw [hdist, hdist, div_left_inj' hten.ne'] at heq
    have hwhole : n ≠ roundHalfEven num den := by
      rintro rfl
      exact hne (by push_cast; rfl)
    rw [← hlast]
    exact (roundHalfEven_nearest num h hwhole).2 heq

namespace Decimal

/-- A number with places as it is written. -/
theorem exists_positional_places (negative : Bool) (n places : ℕ) :
    ∃ whole fraction, positional ⟨negative, n, -places⟩
        = whole ++ (if places = 0 then [] else '.' :: fraction) ∧
      Json.Whole whole ∧ (∀ c ∈ fraction, c.isDigit = true) ∧ fraction.length = places ∧
        ofDigits (whole ++ fraction) = n := by
  rcases Nat.eq_zero_or_pos places with rfl | hpos
  · refine ⟨digits n, [], ?_, Json.whole_toDigits n, by simp, rfl, ?_⟩
    · simp [positional]
    · rw [List.append_nil, ofDigits_digits]
  · obtain ⟨whole, fraction, zeros, htext, hwhole, hfraction, hlength, hjoin⟩ :=
      exists_pointed n hpos
    refine ⟨whole, fraction, ?_, hwhole, hfraction.2, hlength, ?_⟩
    · rw [positional, if_pos (by simpa using hpos), if_neg hpos.ne', ← htext, neg_neg,
        Int.toNat_natCast]
    · rw [hjoin, ofDigits_zeros_append, ofDigits_digits]

theorem decimalValue_places {whole : List Char} (hwhole : ∀ c ∈ whole, c.isDigit = true)
    (fraction : List Char) :
    decimalValue (whole ++ (if fraction.length = 0 then [] else '.' :: fraction))
      = ofDigits (whole ++ fraction) / 10 ^ fraction.length := by
  have hvalue := magnitude_of_places false whole fraction
  rw [magnitude, zpow_neg, zpow_natCast, ← div_eq_mul_inv] at hvalue
  rw [hvalue]
  split_ifs with hnil
  · rw [List.length_eq_zero_iff] at hnil
    rw [hnil, List.append_nil, decimalValue_of_digits hwhole, fractionValue, add_zero]
  · exact decimalValue_of_point hwhole

theorem getLast?_places (whole fraction : List Char) :
    (whole ++ (if fraction.length = 0 then [] else '.' :: fraction)).getLast?
      = (whole ++ fraction).getLast? := by
  rcases fraction with _ | ⟨c, fraction⟩
  · rfl
  · simp [List.getLast?_append, List.getLast?_cons]

/-- A number is even if its last digit is. -/
theorem ofDigits_mod_two {ds : List Char} {last : Char} (h : ds.getLast? = some last) :
    ofDigits ds % 2 = digitValue last % 2 := by
  obtain ⟨before, rfl⟩ := List.getLast?_eq_some_iff.1 h
  rw [ofDigits, Nat.ofDigitChars_append, Nat.ofDigitChars_cons, Nat.ofDigitChars_nil, digitValue]
  omega

end Decimal

open Binary64

theorem steps_div_perUnit (p places : ℕ) : (steps p / perUnit : ℚ)
    = (steps p * Nat.pow 10 places : ℕ) / stepsPerUnit / 10 ^ places := by
  rw [cast_stepsPerUnit, Nat.cast_mul, Nat.pow_eq, Nat.cast_pow, Nat.cast_ofNat]
  field_simp

/-- The digits of a float with places denote the nearest number with so many. -/
theorem nearestMultiple_steps {p : ℕ} {whole fraction : List Char} {last : Char}
    (hwhole : ∀ c ∈ whole, c.isDigit = true)
    (hdigits : Decimal.ofDigits (whole ++ fraction)
      = roundHalfEven (steps p * Nat.pow 10 fraction.length) stepsPerUnit)
    (hlast : (whole ++ fraction).getLast? = some last) :
    NearestMultiple fraction.length (steps p / perUnit)
      (decimalValue (whole ++ (if fraction.length = 0 then [] else '.' :: fraction))) last := by
  have hpos : 0 < stepsPerUnit := by
    have hunit := perUnit_pos
    rw [← cast_stepsPerUnit] at hunit
    exact_mod_cast hunit
  rw [steps_div_perUnit p fraction.length, Decimal.decimalValue_places hwhole, hdigits]
  refine nearestMultiple_roundHalfEven _ _ hpos ?_
  rw [← Decimal.ofDigits_mod_two hlast, hdigits]

/-- The text of a finite float with a number of places has a minus sign exactly if the sign bit is
set, a whole number without leading zeros, and exactly so many digits behind a point, which stands
there only with digits. It denotes the nearest number with so many places. -/
theorem plainNumber_places {x : Float} (hx : x.isFinite = true) (places : ℕ) :
    ∃ magnitude whole fraction last,
      (plainNumber (some places) x).toList
        = (if signBit ≤ x.toBits.toNat then ['-'] else []) ++ magnitude ∧
      magnitude = whole ++ (if places = 0 then [] else '.' :: fraction) ∧
      Json.Whole whole ∧ (∀ c ∈ fraction, c.isDigit = true) ∧ fraction.length = places ∧
      magnitude.getLast? = some last ∧
      NearestMultiple places (exactValue x)
        ((if signBit ≤ x.toBits.toNat then -1 else 1) * decimalValue magnitude) last := by
  obtain ⟨negative, p, hshape⟩ := exists_shape_iff.2 hx
  have hnegative : signBit ≤ x.toBits.toNat ↔ negative = true := by
    rw [← (shape_eq_finite_iff.1 hshape).1, decide_eq_true_iff]
  obtain ⟨whole, fraction, htext, hwhole, hfraction, rfl, hdigits⟩ :=
    Decimal.exists_positional_places negative
      (roundHalfEven (steps p * Nat.pow 10 places) stepsPerUnit) places
  obtain ⟨last, hlast⟩ := Option.ne_none_iff_exists'.1 (mt List.getLast?_eq_none_iff.1
    (List.append_ne_nil_of_left_ne_nil hwhole.1.1 fraction))
  have hnearest := nearestMultiple_steps hwhole.1.2 hdigits hlast
  refine ⟨_, whole, fraction, last, ?_, rfl, hwhole, hfraction, rfl, ?_, ?_⟩
  · simp only [plainNumber, hshape, hnegative, Decimal.withPlaces, htext, String.toList_ofList]
    rfl
  · rw [Decimal.getLast?_places, hlast]
  · rw [exactValue_of_shape hshape]
    simp only [hnegative]
    cases negative
    · simpa using hnearest
    · simpa using hnearest.neg

/-- `-9.5` is as near to `-9` as to `-10`, which has one digit more. -/
theorem plainNumber_places_carry :
    let x : Float := .ofBits 0xc023000000000000
    x.isFinite = true ∧ plainNumber (some 0) x = "-10" ∧
      ∃ magnitude last, "-10".toList = ['-'] ++ magnitude ∧ magnitude.getLast? = some last ∧
        NearestMultiple 0 (exactValue x) (-1 * decimalValue magnitude) last := by
  intro x
  have hx : x.isFinite = true := by decide +kernel
  have hsigned : signBit ≤ x.toBits.toNat := by decide +kernel
  have htext : plainNumber (some 0) x = "-10" := by decide +kernel
  obtain ⟨magnitude, whole, fraction, last, hparts, -, -, -, -, hlast, hnearest⟩ :=
    plainNumber_places hx 0
  rw [htext, if_pos hsigned] at hparts
  rw [if_pos hsigned] at hnearest
  exact ⟨hx, htext, magnitude, last, hparts, hlast, hnearest⟩

end Calculator

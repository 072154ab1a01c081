import Calculator.Proofs.Literals
import Calculator.Proofs.ShortestDecimals

/-!
# Reported numbers are read back

Each layout of a decimal is a literal of a decimal with the same sign and magnitude
(`Decimal.ofLiteral?_pointed`, `ofLiteral?_marked`, `ofLiteral?_scientific`). The decimal of a
report rounds to the float it was made from, so its literal has that float as its value
(`literalValue?_of_jsonNumber?`).
-/

namespace Calculator

namespace Decimal

variable {d : Decimal} {cs : List Char}

@[simp] theorem ofDigits_digits (n : ℕ) : ofDigits (digits n) = n :=
  Nat.ofDigitChars_ten_toDigits

theorem ofDigits_zeros_append (k : ℕ) (cs : List Char) :
    ofDigits (List.replicate k '0' ++ cs) = ofDigits cs := by
  rw [ofDigits, Nat.ofDigitChars_append, Nat.ofDigitChars_replicate_zero, Nat.mul_zero, ofDigits]

theorem ofDigits_append_zeros (k : ℕ) (cs : List Char) :
    ofDigits (cs ++ List.replicate k '0') = 10 ^ k * ofDigits cs := by
  rw [ofDigits, Nat.ofDigitChars_append, Nat.ofDigitChars_replicate_zero, ofDigits]

theorem digits_ne_nil (n : ℕ) : digits n ≠ [] :=
  Nat.toDigits_ne_nil

/-- What a layout is read to. -/
def ReadsAs (cs : List Char) (d : Decimal) : Prop :=
  ∃ r, ofLiteral? cs = some r ∧ r.negative = d.negative ∧ r.magnitude = d.magnitude

theorem readsAs_pointed (h : d.exponent < 0) :
    ReadsAs (sign d.negative ++ pointed d.coefficient (-d.exponent).toNat) d := by
  obtain ⟨whole, fraction, zeros, htext, hwhole, hfraction, hlength, hjoin⟩ :=
    exists_pointed d.coefficient (show 0 < (-d.exponent).toNat by omega)
  have hread := ofLiteral?_of_fraction d.negative hwhole.1.2 hfraction.2
  have hne : whole ++ fraction ≠ [] := List.append_ne_nil_of_left_ne_nil hwhole.1.1 _
  have hexponent : -(fraction.length : ℤ) = d.exponent := by omega
  rw [if_neg hne, hjoin, ofDigits_zeros_append, ofDigits_digits, hexponent] at hread
  rw [htext]
  exact ⟨d, hread, rfl, rfl⟩

theorem readsAs_marked (h : 0 ≤ d.exponent) :
    ReadsAs (sign d.negative ++ (d.positional ++ ['.', '0'])) d := by
  have hdigits : ∀ c ∈ digits d.coefficient ++ List.replicate d.exponent.toNat '0',
      c.isDigit = true := fun c hc =>
    (List.mem_append.1 hc).elim isDigit_of_mem_digits isDigit_of_mem_zeros
  have hzero : ∀ c ∈ ['0'], c.isDigit = true := by simp
  have hread := ofLiteral?_of_fraction d.negative hdigits hzero
  rw [positional, if_neg (Int.not_lt.2 h)]
  refine ⟨_, hread.trans (if_neg (by simp)), rfl, ?_⟩
  have hvalue :=
    ofDigits_append_zeros 1 (digits d.coefficient ++ List.replicate d.exponent.toNat '0')
  rw [List.replicate_one, ofDigits_append_zeros, ofDigits_digits] at hvalue
  obtain ⟨k, hk⟩ := Int.eq_ofNat_of_zero_le h
  rw [magnitude, hvalue, magnitude, hk, Int.toNat_natCast, zpow_natCast, List.length_singleton]
  push_cast
  rw [zpow_neg_one]
  ring

theorem readExponent?_power (power : ℤ) :
    readExponent? ('e' :: (if power < 0 then '-' else '+') :: digits power.natAbs)
      = some power := by
  have hall : (digits power.natAbs).all Char.isDigit = true :=
    List.all_eq_true.2 fun c => isDigit_of_mem_digits
  rcases lt_or_ge power 0 with h | h
  · have habs : (power.natAbs : ℤ) = -power := Int.ofNat_natAbs_of_nonpos h.le
    simp [readExponent?, readPower?, takeSign, h, hall, digits_ne_nil, habs]
  · have habs : (power.natAbs : ℤ) = power := Int.natAbs_of_nonneg h
    simp [readExponent?, readPower?, takeSign, not_lt.2 h, hall, digits_ne_nil, habs]

theorem readsAs_scientific (d : Decimal) : ReadsAs (sign d.negative ++ d.scientific) d := by
  have hall : ∀ c ∈ digits d.coefficient, c.isDigit = true := fun c => isDigit_of_mem_digits
  have hstop : ∀ c ∈ ('e' :: (if d.leadingPower < 0 then '-' else '+') ::
      digits d.leadingPower.natAbs).head?, c.isDigit = false ∧ c ≠ '.' := by
    rintro c ⟨⟩
    decide
  have hpower := readExponent?_power d.leadingPower
  have hleading : d.leadingPower = (digits d.coefficient).length + d.exponent - 1 := rfl
  have hvalue := ofDigits_digits d.coefficient
  simp only [scientific]
  generalize 'e' :: (if d.leadingPower < 0 then '-' else '+') ::
      digits d.leadingPower.natAbs = rest at hstop hpower
  rcases hd : digits d.coefficient with _ | ⟨first, _ | ⟨second, more⟩⟩
  · exact absurd hd (digits_ne_nil _)
  · rw [hd] at hall hleading hvalue
    have hread := ofLiteral?_of_digits d.negative hall (List.cons_ne_nil _ _) hstop
    rw [hpower, hvalue, Option.map_some] at hread
    have hexponent : d.leadingPower = d.exponent := by
      rw [hleading, List.length_singleton]
      omega
    exact ⟨_, hread, rfl, by rw [magnitude, hexponent, magnitude]⟩
  · rw [hd] at hall hleading hvalue
    have hfirst : ∀ c ∈ [first], c.isDigit = true := fun c hc => hall c (by simp_all)
    have hmore : ∀ c ∈ second :: more, c.isDigit = true := fun c hc =>
      hall c (List.mem_cons_of_mem first hc)
    have hread := ofLiteral?_of_point d.negative hfirst hmore fun c hc => (hstop c hc).1
    have hjoin : [first] ++ second :: more = first :: second :: more := rfl
    rw [if_neg (by simp), hpower, hjoin, hvalue, Option.map_some] at hread
    have hexponent : d.leadingPower - (second :: more).length = d.exponent := by
      simp only [hleading, List.length_cons]
      omega
    exact ⟨_, hread, rfl, by rw [magnitude, hexponent, magnitude]⟩

theorem negative_shortest (tie : Tie) (negative : Bool) (p : ℕ) :
    (shortest tie negative p).negative = negative := by
  unfold shortest
  split <;> rfl

end Decimal

open Binary64

theorem Decimal.ReadsAs.literalValue? {cs : List Char} {d : Decimal} {p : ℕ} {x : Float}
    (h : ReadsAs cs d) (hx : shape x = .finite d.negative p)
    (hround : RoundsTo (d.magnitude * perUnit) p) :
    literalValue? (String.ofList cs) = some x := by
  obtain ⟨r, hread, hsign, hvalue⟩ := h
  have hp : p < infinity := (shape_eq_finite_iff.1 hx).2.2
  have hpattern : r.pattern? = some p := pattern?_eq_some_iff.2 ⟨hp, hvalue ▸ hround⟩
  rw [Calculator.literalValue?, String.toList_ofList, hread, Option.bind_some, toFloat?, hpattern,
    hsign, Option.map_some, toFloat_of_shape hx]

/-- The literal of a report denotes the float that it was made from, its sign included. -/
theorem literalValue?_of_jsonNumber? {x : Float} {literal : String}
    (h : jsonNumber? x = some literal) : literalValue? literal = some x := by
  unfold jsonNumber? at h
  split at h
  · cases h
  · cases h
  · rename_i negative p hshape
    have hsign := Decimal.negative_shortest .even negative p
    have hround := Decimal.roundsTo_shortest .even negative p
    simp only [Option.some.injEq] at h
    subst h
    generalize Decimal.shortest .even negative p = d at hsign hround
    subst hsign
    refine Decimal.ReadsAs.literalValue? ?_ hshape hround
    split_ifs with _ hexponent
    · rw [Decimal.positional, if_pos hexponent]
      exact Decimal.readsAs_pointed hexponent
    · exact Decimal.readsAs_marked (Int.not_lt.1 hexponent)
    · exact Decimal.readsAs_scientific d

end Calculator

import Calculator.Report
import Calculator.Proofs.JsonText
import Mathlib.Algebra.Order.Ring.Nat

/-!
# Reports are JSON texts

A report is written from texts, from counts and from the literal of a float. Only the literal needs
an argument: digits are padded with zeros behind them when the shortest decimal lies on a grid of
large numbers, and that is a number without a leading zero because the decimal is not zero
(`coefficient_ne_zero_of_shortest`). So every report is a text of a JSON object
(`Report.written_json`), which is `Report.write_json` in full.
-/

namespace Calculator

namespace Decimal

open Json

variable {tie : Tie} {i : RoundingInterval}

/-- The search ends on a grid with a point in the interval, or on the last grid. -/
theorem coarsest_cases : ∀ (fuel : Nat) (p : Int),
    onGrid? tie i (coarsest tie i fuel p).2 = some (coarsest tie i fuel p).1 ∨
      coarsest tie i fuel p = coarsest tie i 0 (p - fuel)
  | 0, p => by simp
  | fuel + 1, p => by
    rcases hgrid : onGrid? tie i p with _ | c
    · have hnext : coarsest tie i (fuel + 1) p = coarsest tie i fuel (p - 1) := by
        simp only [coarsest, hgrid]
      have hlast : p - (fuel + 1 : Nat) = p - 1 - fuel := by omega
      rw [hnext, hlast]
      exact coarsest_cases fuel (p - 1)
    · have hfound : coarsest tie i (fuel + 1) p = (c, p) := by simp only [coarsest, hgrid]
      rw [hfound]
      exact .inl hgrid

theorem contains_of_onGrid? {p : Int} {c : Nat} (h : onGrid? tie i p = some c) :
    i.contains (c * (Nat.pow 10 p.toNat * quartersPerUnit)) (Nat.pow 10 (-p).toNat) = true := by
  simp only [onGrid?] at h
  split at h
  · rename_i hbelow habove
    cases h
    split
    · exact habove
    · exact hbelow
  · rename_i hbelow _
    cases h
    exact hbelow
  · rename_i _ habove
    cases h
    exact habove
  · cases h

theorem low_ofPattern_pos {pattern : Nat} (h : pattern ≠ 0) :
    0 < (RoundingInterval.ofPattern pattern).low := by
  have hm : 0 < Binary64.significand pattern := by
    unfold Binary64.significand
    split
    · omega
    · exact Nat.add_pos_left (by decide) _
  simp only [RoundingInterval.ofPattern]
  refine Nat.mul_pos ?_ (Nat.pow_pos (by decide))
  split <;> omega

theorem ne_zero_of_onGrid? (hi : 0 < i.low) {p : Int} {c : Nat} (h : onGrid? tie i p = some c) :
    c ≠ 0 := by
  rintro rfl
  have hin := contains_of_onGrid? h
  have hlow : 0 < i.low * Nat.pow 10 (-p).toNat := Nat.mul_pos hi (Nat.pow_pos (by decide))
  unfold RoundingInterval.contains at hin
  split at hin
  · simp only [Nat.zero_mul, Bool.and_eq_true, decide_eq_true_eq] at hin
    omega
  · simp at hin

/-- Zero is on no grid with a point in the interval, and the last grid is far below one. -/
theorem coefficient_ne_zero_of_shortest {negative : Bool} {pattern : Nat}
    (h : 0 < (shortest tie negative pattern).exponent) :
    (shortest tie negative pattern).coefficient ≠ 0 := by
  unfold shortest at h ⊢
  split
  · rename_i hp
    rw [if_pos hp] at h
    simp at h
  · rename_i hp
    rw [if_neg hp] at h
    simp only at h ⊢
    rcases @coarsest_cases tie (.ofPattern pattern) _ _ with hgrid | hlast
    · exact ne_zero_of_onGrid? (low_ofPattern_pos hp) hgrid
    · rw [hlast] at h
      simp only [coarsest] at h
      omega

theorem isDigit_of_mem_zeros {k : Nat} {c : Char} (h : c ∈ List.replicate k '0') :
    c.isDigit = true := by
  rw [List.eq_of_mem_replicate h]
  decide

theorem isDigit_of_mem_digits {n : Nat} {c : Char} (h : c ∈ digits n) : c.isDigit = true :=
  (whole_toDigits n).1.2 c h

/-- The digits before a point. A zero may stand first only if it stands alone there. -/
theorem whole_take {cs : List Char} {places : Nat} (hd : ∀ c ∈ cs, c.isDigit = true)
    (hlen : places < cs.length) (hzero : cs.head? = some '0' → cs.length = places + 1) :
    Whole (cs.take (cs.length - places)) := by
  have hne : cs ≠ [] := List.ne_nil_of_length_pos (by omega)
  refine ⟨⟨by simp [hne]; omega, fun c hc => hd c (List.mem_of_mem_take hc)⟩, fun h => ?_⟩
  rw [List.head?_take, if_neg (by omega)] at h
  obtain ⟨rest, rfl⟩ := List.head?_eq_some_iff.1 h
  have hone : ('0' :: rest).length - places = 1 := by
    have := hzero h
    omega
  rw [hone, List.take_succ_cons, List.take_zero]

/-- A number with a point, the parts on both sides of it, and what they are together. -/
theorem exists_pointed (n : Nat) {places : Nat} (h : 0 < places) :
    ∃ whole fraction zeros, pointed n places = whole ++ '.' :: fraction ∧ Whole whole ∧
      Digits fraction ∧ fraction.length = places ∧
        whole ++ fraction = List.replicate zeros '0' ++ digits n := by
  have hpos : 0 < (digits n).length := Nat.length_toDigits_pos
  have hd : ∀ c ∈ List.replicate (places + 1 - (digits n).length) '0' ++ digits n,
      c.isDigit = true := fun c hc =>
    (List.mem_append.1 hc).elim isDigit_of_mem_zeros isDigit_of_mem_digits
  have hlen : places
      < (List.replicate (places + 1 - (digits n).length) '0' ++ digits n).length := by
    rw [List.length_append, List.length_replicate]
    omega
  refine ⟨_, _, _, rfl, whole_take hd hlen fun hzero => ?_, ⟨?_, fun c hc => ?_⟩, ?_,
    List.take_append_drop _ _⟩
  · rw [List.length_append, List.length_replicate]
    rcases Nat.lt_or_ge (digits n).length (places + 2) with hlt | hge
    · omega
    · -- nothing is padded, so the number itself would begin with a zero
      rw [show places + 1 - (digits n).length = 0 by omega, List.replicate_zero,
        List.nil_append] at hzero
      rw [digits, eq_zero_of_head?_toDigits n hzero, Nat.toDigits_zero] at hge
      simp at hge
  · rw [Ne, List.drop_eq_nil_iff]
    omega
  · exact hd c (List.mem_of_mem_drop hc)
  · rw [List.length_drop]
    omega

theorem magnitude_pointed (n : Nat) {places : Nat} (h : 0 < places) :
    Magnitude (pointed n places) := by
  obtain ⟨whole, fraction, -, htext, hwhole, hfraction, -, -⟩ := exists_pointed n h
  rw [htext]
  simpa using Magnitude.mk hwhole (.some hfraction) .none

theorem whole_positional {d : Decimal} (h : 0 ≤ d.exponent)
    (hc : 0 < d.exponent → d.coefficient ≠ 0) : Whole d.positional := by
  have hdigits : Digits (digits d.coefficient) := (whole_toDigits _).1
  obtain ⟨first, rest, hd⟩ := List.exists_cons_of_ne_nil hdigits.1
  rw [positional, if_neg (by omega)]
  refine ⟨⟨by simp [hd], fun c hc => ?_⟩, fun hzero => ?_⟩
  · exact (List.mem_append.1 hc).elim isDigit_of_mem_digits isDigit_of_mem_zeros
  · rw [hd, List.cons_append, List.head?_cons] at hzero
    have hcoefficient : d.coefficient = 0 :=
      eq_zero_of_head?_toDigits _ (by rw [← digits, hd, List.head?_cons, hzero])
    have hexponent : d.exponent.toNat = 0 := by
      have := mt hc
      omega
    rw [hexponent, List.replicate_zero, List.append_nil, hcoefficient]
    exact Nat.toDigits_zero 10

theorem magnitude_scientific (d : Decimal) : Magnitude d.scientific := by
  have hdigits : Digits (digits d.coefficient) := (whole_toDigits _).1
  have hone {c : Char} (hc : c.isDigit = true) : Whole [c] :=
    ⟨⟨by simp, by simpa using hc⟩, by simp⟩
  have hpower : Power ('e' :: ([if d.leadingPower < 0 then '-' else '+'] ++
      digits d.leadingPower.natAbs)) := by
    refine .some (by decide) ?_ (whole_toDigits _).1
    split <;> decide
  unfold scientific
  rcases hd : digits d.coefficient with _ | ⟨first, _ | ⟨second, rest⟩⟩
  · exact absurd hd hdigits.1
  · rw [hd] at hdigits
    simpa using Magnitude.mk (hone (hdigits.2 first (by simp))) .none hpower
  · rw [hd] at hdigits
    have hfraction : Digits (second :: rest) := ⟨by simp, fun c hc => hdigits.2 c (by simp [hc])⟩
    simpa using Magnitude.mk (hone (hdigits.2 first (by simp))) (.some hfraction) hpower

theorem numberText_sign {negative : Bool} {cs : List Char} (h : Magnitude cs) :
    NumberText (sign negative ++ cs) := by
  rcases negative with _ | _
  · exact .positive h
  · exact .negative h

theorem numberText_of_jsonNumber? {x : Float} {literal : String}
    (h : jsonNumber? x = some literal) : NumberText literal.toList := by
  unfold jsonNumber? at h
  split at h
  · cases h
  · cases h
  · rename_i negative pattern _
    simp only [Option.some.injEq] at h
    subst h
    rw [String.toList_ofList]
    refine numberText_sign ?_
    split
    · split
      · rename_i hexponent
        rw [positional, if_pos hexponent]
        exact magnitude_pointed _ (by omega)
      · rename_i hexponent
        have hw : Whole (shortest .even negative pattern).positional :=
          whole_positional (by omega) coefficient_ne_zero_of_shortest
        have hzero : Digits ['0'] := ⟨by simp, fun c hc => isDigit_of_mem_zeros (k := 1) hc⟩
        simpa using Magnitude.mk hw (.some hzero) .none
    · exact magnitude_scientific _

end Decimal

namespace Report

open Json

theorem written_ofSpan (s : Span) : Written (ofSpan s) :=
  written_object (by simpa using ⟨written_count s.start, written_count s.stop⟩)

theorem written_ofFault (f : Fault) : Written (ofFault f) := by
  have hspans : Written (.array (f.spans.map ofSpan)) := by
    refine written_array fun v hv => ?_
    obtain ⟨s, -, rfl⟩ := List.mem_map.1 hv
    exact written_ofSpan s
  exact written_object
    (by simpa using ⟨written_text f.stage.name, hspans, written_text f.description⟩)

theorem written_ofTokens (tokens : List Token) : Written (ofTokens tokens) := by
  refine written_array fun v hv => ?_
  obtain ⟨t, -, rfl⟩ := List.mem_map.1 hv
  exact written_text _

theorem written_ofValue (x : Float) : Written (ofValue x) := by
  unfold ofValue
  split
  · rename_i literal h
    exact written_number (Decimal.numberText_of_jsonNumber? h)
  · exact written_null

theorem written_body : ∀ result : Except Fault Outcome, Written (body result).2
  | .ok (.value x) => written_ofValue x
  | .ok (.tokens tokens) => written_ofTokens tokens
  | .ok (.postfixOrder tokens) => written_ofTokens tokens
  | .ok .checked => written_array (by simp)
  | .error f => written_array (by simpa using written_ofFault f)

theorem written_json (line : Option Nat) (result : Except Fault Outcome) :
    Written (json line result) := by
  refine written_object fun f hf => ?_
  rcases List.mem_append.1 hf with hf | hf
  · simp only [Option.mem_toList, Option.map_eq_some_iff] at hf
    obtain ⟨n, -, rfl⟩ := hf
    exact written_count n
  · rw [List.mem_singleton.1 hf]
    exact written_body result

def spanText (s : Span) : String :=
  "\x7b\"start\":" ++ s.start.repr ++ ",\"end\":" ++ s.stop.repr ++ "\x7d"

def faultText (f : Fault) : String :=
  "\x7b\"stage\":" ++ quote f.stage.name ++ ",\"spans\":[" ++
    ",".intercalate (f.spans.map spanText) ++ "],\"desc\":" ++ quote f.description ++ "\x7d"

def tokensText (tokens : List Token) : String :=
  "[" ++ ",".intercalate (tokens.map fun t => quote t.text) ++ "]"

/-- The field of a report that tells the result, as it is written. -/
def fieldText : Except Fault Outcome → String
  | .ok (.value x) => "\"value\":" ++ (jsonNumber? x).getD "null"
  | .ok (.tokens tokens) => "\"tokens\":" ++ tokensText tokens
  | .ok (.postfixOrder tokens) => "\"postfix\":" ++ tokensText tokens
  | .ok .checked => "\"errors\":[]"
  | .error f => "\"errors\":[" ++ faultText f ++ "]"

theorem write_ofSpan (s : Span) : (ofSpan s).write = spanText s := by
  have hstart : quote "start" = "\"start\"" := by decide
  have hend : quote "end" = "\"end\"" := by decide
  simp [ofSpan, count, Json.write, hstart, hend, spanText, ← String.toList_inj]

theorem write_ofFault (f : Fault) : (ofFault f).write = faultText f := by
  have hstage : quote "stage" = "\"stage\"" := by decide
  have hspans : quote "spans" = "\"spans\"" := by decide
  have hdesc : quote "desc" = "\"desc\"" := by decide
  simp [ofFault, Json.write, hstage, hspans, hdesc, Function.comp_def, write_ofSpan, faultText,
    ← String.toList_inj]

theorem write_ofTokens (tokens : List Token) : (ofTokens tokens).write = tokensText tokens := by
  simp [ofTokens, Json.write, tokensText, Function.comp_def]

theorem write_ofValue (x : Float) : (ofValue x).write = (jsonNumber? x).getD "null" := by
  unfold ofValue
  split
  · rename_i literal h
    simp [Json.write, h]
  · rename_i h
    simp [Json.write, h]

theorem write_body (result : Except Fault Outcome) :
    quote (body result).1 ++ ":" ++ (body result).2.write = fieldText result := by
  have hvalue : quote "value" = "\"value\"" := by decide
  have htokens : quote "tokens" = "\"tokens\"" := by decide
  have hpostfix : quote "postfix" = "\"postfix\"" := by decide
  have herrors : quote "errors" = "\"errors\"" := by decide
  rcases result with f | x | tokens | tokens | _
  · simp [body, fieldText, Json.write, write_ofFault, herrors, ← String.append_assoc]
  · simp [body, fieldText, write_ofValue, hvalue]
  · simp [body, fieldText, write_ofTokens, htokens]
  · simp [body, fieldText, write_ofTokens, hpostfix]
  · simp [body, fieldText, Json.write, herrors]

/-- A report is written as the number of its line and one more field. -/
theorem write_json (line : Option Nat) (result : Except Fault Outcome) :
    (json line result).write = "\x7b" ++ (line.elim "" fun n => "\"line\":" ++ n.repr ++ ",") ++
      fieldText result ++ "\x7d" := by
  have hline : quote "line" = "\"line\"" := by decide
  rw [← write_body]
  rcases line with _ | n
  · simp [json, Json.write]
  · simp [json, count, Json.write, hline, ← String.toList_inj]

end Report

end Calculator

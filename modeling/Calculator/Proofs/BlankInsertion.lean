import Calculator.Proofs.FaultSpans
import Calculator.Proofs.Respan

/-!
# Inserting a blank

A blank may be put anywhere into an expression but into a number: no token changes but in its
position, and so neither does the value nor the kind of the fault (`calculate_insert_blank`). The
text is cut in two at the place, which no token reaches across, and the pieces are joined again
with the blank between them.

A span is moved by its ends. One that ends where the blank is put stays as it is, and one that
begins there moves.
-/

namespace Calculator

open Token

/-- The span with room made for one character at position `i`. -/
def Span.makeRoom (i : Nat) (s : Span) : Span :=
  ⟨if i ≤ s.start then s.start + 1 else s.start, if i < s.stop then s.stop + 1 else s.stop⟩

/-- The fault with its spans moved. Position 0 stays where it is blamed for want of anything
else. -/
def Fault.moved (h : Span → Span) (f : Fault) : Fault :=
  if f = .malformedExpression (.single 0) then f else f.respan h

section Cut

variable {cs us : List Char} {ts : List Token}

/-- Where no number reaches across, no digit or point stands beside another one. -/
theorem apart_of_cuts (h : Cuts (cs ++ us) ts)
    (hin : ∀ t ∈ numbers ts, ¬ (t.span.start < cs.length ∧ cs.length < t.span.stop)) :
    Apart cs us := by
  intro c d hc hd hlit
  have hlen : 0 < cs.length := List.length_pos_iff.2 (by rintro rfl; cases hc)
  have hcp : (cs ++ us)[cs.length - 1]? = some c := by
    rw [List.getElem?_append_left (by omega), ← hc, List.getLast?_eq_getElem?]
  have hblank : isBlank c = false := by
    by_contra hb
    rw [isLiteralChar_eq_false_of_isBlank (by simpa using hb)] at hlit
    cases hlit
  obtain ⟨t, ht, hp⟩ := (h.covers _ c hcp).2 hblank
  rcases h.token_at ht hp hcp with ⟨literal, hl, -, hrun⟩ | ⟨hsym, -, -⟩
  · have hnumber : t ∈ numbers ts := List.mem_filter.2 ⟨ht, by simp [literal?, hl]⟩
    have hstop : t.span.stop = cs.length := by
      have := hin t hnumber
      omega
    refine hrun.behind d ?_
    rw [hstop, List.getElem?_append_right (Nat.le_refl _), Nat.sub_self, ← List.head?_eq_getElem?,
      hd]
  · rw [isLiteralChar_eq_false_of_isSymbolChar hsym] at hlit
    cases hlit

theorem exists_cuts {cs : List Char} (h : ∀ c ∈ cs, isLegal c = true) : ∃ ts, Cuts cs ts := by
  obtain ⟨ts, hs⟩ := exists_scan_iff (s := String.ofList cs).2 (by simpa using h)
  exact ⟨ts, by simpa using cuts_of_scan hs⟩

/-- A text is cut in two where no number reaches across. -/
theorem cuts_split (h : Cuts (cs ++ us) ts)
    (hin : ∀ t ∈ numbers ts, ¬ (t.span.start < cs.length ∧ cs.length < t.span.stop)) :
    Apart cs us ∧ ∃ ts₁ ts₂, Cuts cs ts₁ ∧ Cuts us ts₂ ∧
      ts = ts₁ ++ ts₂.map (·.shift cs.length) := by
  have hapart := apart_of_cuts h hin
  obtain ⟨ts₁, h₁⟩ := exists_cuts fun c hc => h.isLegal (List.mem_append_left us hc)
  obtain ⟨ts₂, h₂⟩ := exists_cuts fun c hc => h.isLegal (List.mem_append_right cs hc)
  exact ⟨hapart, ts₁, ts₂, h₁, h₂, h.unique (h₁.append h₂ hapart)⟩

theorem respan_makeRoom_of_stop_le {t : Token} {i : Nat} (hne : t.span.start < t.span.stop)
    (hi : t.span.stop ≤ i) : t.respan (Span.makeRoom i) = t := by
  have hstart : ¬ i ≤ t.span.start := by omega
  have hstop : ¬ i < t.span.stop := by omega
  simp only [respan, Span.makeRoom, if_neg hstart, if_neg hstop]

theorem respan_makeRoom_shift {t : Token} {i : Nat} (hne : t.span.start < t.span.stop) :
    (t.shift i).respan (Span.makeRoom i) = t.shift (i + 1) := by
  have hstart : i ≤ t.span.start + i := by omega
  have hstop : i < t.span.stop + i := by omega
  simp only [respan, shift, Span.shift, Span.makeRoom, if_pos hstart, if_pos hstop, Nat.add_assoc]

theorem cuts_insert_blank (h : Cuts (cs ++ us) ts)
    (hin : ∀ t ∈ numbers ts, ¬ (t.span.start < cs.length ∧ cs.length < t.span.stop)) {w : Char}
    (hw : isBlank w = true) :
    Cuts (cs ++ [w] ++ us) (ts.map (·.respan (Span.makeRoom cs.length))) := by
  obtain ⟨-, ts₁, ts₂, h₁, h₂, rfl⟩ := cuts_split h hin
  have hlit := isLiteralChar_eq_false_of_isBlank hw
  have hleft : Cuts (cs ++ [w]) ts₁ := by
    simpa using h₁.append (cuts_blank hw) (apart_singleton hlit)
  have hstay : ts₁.map (·.respan (Span.makeRoom cs.length)) = ts₁ := by
    refine (List.map_congr_left fun t ht => ?_).trans (List.map_id ts₁)
    exact respan_makeRoom_of_stop_le (h₁.nonempty t ht) (h₁.inside t ht)
  have hmove : (ts₂.map (·.shift cs.length)).map (·.respan (Span.makeRoom cs.length))
      = ts₂.map (·.shift (cs ++ [w]).length) := by
    rw [List.map_map, List.length_append, List.length_singleton]
    exact List.map_congr_left fun t ht => respan_makeRoom_shift (h₂.nonempty t ht)
  rw [List.map_append, hstay, hmove]
  exact hleft.append h₂ (apart_concat hlit)

end Cut

/-- Strings with the same tokens at other positions have the same outcome but for the spans. -/
theorem calculate_respan {s s' : String} {ts : List Token} {h : Span → Span}
    (hacross : ∀ a b, h (.across a b) = .across (h a) (h b)) (hs : scan s = .ok ts)
    (hs' : scan s' = .ok (ts.map (·.respan h))) :
    calculate s' = (calculate s).mapError (Fault.moved h) := by
  have hmove : ∀ f, calculate s = .error f → postfixOrder ts ≠ .ok [] →
      f.moved h = f.respan h := by
    intro f hf hne
    refine if_neg ?_
    rintro rfl
    obtain ⟨ts', out, hts, hord, hn, ho⟩ := calculate_eq_nothing_iff.1 hf
    rw [hs, Except.ok.injEq] at hts
    subst hts
    rw [eq_nil_of_postfixOrder hord hn ho] at hord
    exact hne hord
  have hord := postfixOrder_respan h ts
  have hcalc : calculate s = postfixOrder ts >>= evaluate := by
    rw [calculate, postfixTokens, hs, ok_bind]
  rw [calculate, postfixTokens, hs', ok_bind, hord]
  rcases hp : postfixOrder ts with f | out
  · rw [hp, error_bind] at hcalc
    rw [hcalc, mapError_error, hmove f hcalc (by rw [hp]; simp)]
    rfl
  · rw [hp, ok_bind] at hcalc
    rw [hcalc, map_ok, mapError_ok, ok_bind]
    rcases eq_or_ne out [] with rfl | hne
    · rfl
    · rw [evaluate_respan hacross hne]
      rcases he : evaluate out with f | v
      · rw [he] at hcalc
        rw [mapError_error, mapError_error, hmove f hcalc (by rw [hp]; simpa using hne)]
      · rfl

/-- A blank between two texts, where no number reaches from one into the other, moves the tokens
behind it and changes nothing else: neither their lexemes, nor the value, nor the kind of the
fault. -/
theorem calculate_insert_blank {before after : String} {ts : List Token}
    (hs : scan (before ++ after) = .ok ts)
    (hin : ∀ t ∈ numbers ts, ¬ (t.span.start < before.length ∧ before.length < t.span.stop))
    {w : Char} (hw : isBlank w = true) :
    scan (before ++ String.singleton w ++ after)
        = .ok (ts.map (·.respan (Span.makeRoom before.length))) ∧
      calculate (before ++ String.singleton w ++ after)
        = (calculate (before ++ after)).mapError (Fault.moved (Span.makeRoom before.length)) := by
  have hcuts : Cuts (before.toList ++ after.toList) ts := by simpa using cuts_of_scan hs
  rw [← String.length_toList] at hin ⊢
  have hscan : scan (before ++ String.singleton w ++ after)
      = .ok (ts.map (·.respan (Span.makeRoom before.toList.length))) :=
    scan_of_cuts (by simpa using cuts_insert_blank hcuts hin hw)
  exact ⟨hscan, calculate_respan (fun _ _ => rfl) hs hscan⟩

/-- A blank at the end of the first number, and right before the operator. -/
theorem calculate_insert_blank_boundary :
    scan ("12" ++ "/(3-3)") = .ok [⟨.number "12", ⟨0, 2⟩⟩, ⟨.operator .div, ⟨2, 3⟩⟩,
        ⟨.paren .opening, ⟨3, 4⟩⟩, ⟨.number "3", ⟨4, 5⟩⟩, ⟨.operator .sub, ⟨5, 6⟩⟩,
        ⟨.number "3", ⟨6, 7⟩⟩, ⟨.paren .closing, ⟨7, 8⟩⟩] ∧
      isBlank '\u3000' = true ∧
      calculate ("12" ++ "/(3-3)") = .error (.divisionByZero ⟨2, 3⟩ ⟨4, 7⟩) ∧
      calculate ("12" ++ String.singleton '\u3000' ++ "/(3-3)")
        = .error (.divisionByZero ⟨3, 4⟩ ⟨5, 8⟩) := by
  have hs : scan ("12" ++ "/(3-3)") = .ok [⟨.number "12", ⟨0, 2⟩⟩, ⟨.operator .div, ⟨2, 3⟩⟩,
        ⟨.paren .opening, ⟨3, 4⟩⟩, ⟨.number "3", ⟨4, 5⟩⟩, ⟨.operator .sub, ⟨5, 6⟩⟩,
        ⟨.number "3", ⟨6, 7⟩⟩, ⟨.paren .closing, ⟨7, 8⟩⟩] := by decide
  have hc : calculate ("12" ++ "/(3-3)") = .error (.divisionByZero ⟨2, 3⟩ ⟨4, 7⟩) := by
    decide +kernel
  have hw : isBlank '\u3000' = true := by decide
  refine ⟨hs, hw, hc, ?_⟩
  rw [(calculate_insert_blank hs (by decide) hw).2, hc]
  rfl

end Calculator

import Calculator.Proofs.Forest
import Calculator.Proofs.Parentheses
import Calculator.Proofs.Scan

/-!
# The spans of a fault

Spans are joined without a look at which comes first, on a stack that is filled in postfix order.
They lie in order all the same, since the numbers keep the order of the text: each operand is a
block of neighbouring numbers, and later blocks lie higher on the stack. So what a fault blames are
characters of the text (`blames_of_calculate`), with a single exception: where no number and no
operator is there to point at, position 0 is blamed even if the text is empty.
-/

namespace Calculator

open Token

/-- What a fault that is found behind the scanning blames among the tokens of the text. -/
inductive Blames (ts : List Token) : Fault → Prop
  | closing {before after : List Token} {p : Nat}
    (h : ts = before ++ ⟨.paren .closing, .single p⟩ :: after) (hb : Balanced before) :
    Blames ts (.mismatchedParentheses (.single p))
  | opening {before after : List Token} {p : Nat}
    (h : ts = before ++ ⟨.paren .opening, .single p⟩ :: after) (ha : Balanced after) :
    Blames ts (.mismatchedParentheses (.single p))
  | number {literal : String} {s : Span} (h : ⟨.number literal, s⟩ ∈ ts)
    (hv : literalValue? literal = none) : Blames ts (.invalidNumber s)
  /-- In postfix order fewer than two operands are left for the operator. -/
  | operator {before after : List Token} {op : Operator} {p : Nat}
    (h : ⟨.operator op, .single p⟩ ∈ ts)
    (ho : postfixOrder ts = .ok (before ++ ⟨.operator op, .single p⟩ :: after))
    (hn : (numbers before).length < (operators before).length + 2) :
    Blames ts (.insufficientOperands (.single p))
  | division {p : Nat} {a b : Token} (h : ⟨.operator .div, .single p⟩ ∈ ts)
    (ha : a ∈ numbers ts) (hb : b ∈ numbers ts) (hab : a = b ∨ a.span.stop ≤ b.span.start) :
    Blames ts (.divisionByZero (.single p) (.across a.span b.span))
  | surplus {a b : Token} (ha : (numbers ts).head? = some a)
    (hb : (numbers ts).getLast? = some b) (hab : a.span.stop ≤ b.span.start) :
    Blames ts (.malformedExpression (.across a.span b.span))
  | nothing (hn : numbers ts = []) (ho : operators ts = []) :
    Blames ts (.malformedExpression (.single 0))

/-- What comes in order comes before the last, unless it is the last. -/
theorem eq_or_rel_of_getLast? {α : Type} {R : α → α → Prop} {l : List α} {b : α}
    (h : l.Pairwise R) (hb : l.getLast? = some b) : ∀ a ∈ l, a = b ∨ R a b := by
  obtain ⟨before, rfl⟩ := List.getLast?_eq_some_iff.1 hb
  intro a ha
  rcases List.mem_append.1 ha with ha | ha
  · exact .inr ((List.pairwise_append.1 h).2.2 a ha b (List.mem_singleton_self b))
  · exact .inl (List.mem_singleton.1 ha)

/-- The ends of a list in order are in order, unless they are one. -/
theorem rel_of_head?_getLast? {α : Type} {R : α → α → Prop} {l : List α} {a b : α}
    (h : l.Pairwise R) (ha : l.head? = some a) (hb : l.getLast? = some b) :
    l = [a] ∧ a = b ∨ R a b := by
  rcases l with _ | ⟨c, l⟩
  · cases ha
  · cases ha
    rcases List.mem_cons.1 (List.mem_of_getLast? hb) with rfl | hmem
    · rcases l with _ | ⟨d, l⟩
      · exact .inl ⟨rfl, rfl⟩
      · rw [List.getLast?_cons_cons] at hb
        exact .inr ((List.pairwise_cons.1 h).1 _ (List.mem_of_getLast? hb))
    · exact .inr ((List.pairwise_cons.1 h).1 b hmem)

section Cut

variable {cs : List Char} {ts : List Token}

theorem Cuts.span_eq_single (h : Cuts cs ts) {t : Token} (ht : t ∈ ts) (hl : t.literal? = none) :
    ∃ p, t = ⟨t.lexeme, .single p⟩ := by
  have hstop := h.symbol t ht hl
  obtain ⟨l, a, b⟩ := t
  simp only at hstop
  exact ⟨a, by rw [hstop]; rfl⟩

theorem Cuts.numbers_ordered (h : Cuts cs ts) :
    (numbers ts).Pairwise fun a b => a.span.stop ≤ b.span.start :=
  h.ordered.filter _

theorem mem_of_mem_numbers {t : Token} (h : t ∈ numbers ts) : t ∈ ts :=
  (List.mem_filter.1 h).1

theorem mem_of_postfixOrder {out : List Token} (h : postfixOrder ts = .ok out) {t : Token}
    (ht : t ∈ out) : t ∈ ts := by
  have hparen := (Reordering.numbers_of_postfixOrder h).2 t ht
  have hperm : (out.filter fun t => t.paren?.isNone).Perm (ts.filter fun t => t.paren?.isNone) :=
    Reordering.filter_perm_of_postfixOrder (fun _ _ => rfl) h
  exact (List.mem_filter.1 (hperm.mem_iff.1 (List.mem_filter.2 ⟨ht, by simp [hparen]⟩))).1

theorem blames_of_mismatch (hcuts : Cuts cs ts) {f : Fault} (h : postfixOrder ts = .error f) :
    Blames ts f := by
  rcases Reordering.mismatch_of_postfixOrder h with
    ⟨before, c, after, rfl, hb, rfl⟩ | ⟨before, o, after, rfl, ha, rfl⟩
  · obtain ⟨p, hp⟩ := hcuts.span_eq_single (t := ⟨.paren .closing, c⟩) (by simp) rfl
    cases hp
    exact .closing rfl hb
  · obtain ⟨p, hp⟩ := hcuts.span_eq_single (t := ⟨.paren .opening, o⟩) (by simp) rfl
    cases hp
    exact .opening rfl ha

theorem blames_of_offends (hcuts : Cuts cs ts) {before after : List Token} {t : Token} {f : Fault}
    (ho : postfixOrder ts = .ok (before ++ t :: after)) (h : Offends before t f) :
    Blames ts f := by
  have hmem : t ∈ ts := mem_of_postfixOrder ho (by simp)
  cases h with
  | number hv => exact .number hmem hv
  | @paren p s =>
    have hparen := (Reordering.numbers_of_postfixOrder ho).2 ⟨.paren p, s⟩ (by simp)
    cases hparen
  | operands hn =>
    obtain ⟨p, hp⟩ := hcuts.span_eq_single hmem rfl
    cases hp
    exact .operator hmem ho hn
  | @divisor _ rest l r b hsplit =>
    obtain ⟨p, hp⟩ := hcuts.span_eq_single hmem rfl
    cases hp
    have hblock : (numbers r.postorder).Sublist (numbers ts) := by
      have hnumbers : numbers (before ++ ⟨.operator .div, .single p⟩ :: after) = numbers ts :=
        (Reordering.numbers_of_postfixOrder ho).1
      rw [← hnumbers, hsplit]
      simp only [numbers_append, List.append_assoc]
      exact (List.sublist_append_left _ _).trans
        ((List.sublist_append_right _ _).trans (List.sublist_append_right _ _))
    obtain ⟨first, hfirst, hleft⟩ := Option.map_eq_some_iff.1 (Tree.head?_numbers_postorder r)
    obtain ⟨last, hlast, hright⟩ := Option.map_eq_some_iff.1 (Tree.getLast?_numbers_postorder r)
    have hextent : r.extent = .across first.span last.span := by
      rw [Tree.extent, Span.across, hleft, hright]
    rw [hextent]
    exact .division hmem (hblock.subset (List.mem_of_head? hfirst))
      (hblock.subset (List.mem_of_getLast? hlast))
      ((rel_of_head?_getLast? (hcuts.numbers_ordered.sublist hblock) hfirst hlast).imp_left
        And.right)

theorem blames_of_leftover (hcuts : Cuts cs ts) {out : List Token} {f : Fault}
    (ho : postfixOrder ts = .ok out) (h : Leftover out f) : Blames ts f := by
  have hnumbers : numbers out = numbers ts := (Reordering.numbers_of_postfixOrder ho).1
  cases h with
  | nothing hout =>
    subst hout
    have hoperators : ([] : List Token).Perm (operators ts) :=
      Reordering.filter_perm_of_postfixOrder (fun _ _ => rfl) ho
    exact .nothing hnumbers.symm (List.nil_perm.1 hoperators)
  | several hlen hf hl =>
    rw [hnumbers] at hlen hf hl
    refine .surplus hf hl ((rel_of_head?_getLast? hcuts.numbers_ordered hf hl).resolve_left ?_)
    rintro ⟨hone, -⟩
    rw [hone, List.length_singleton] at hlen
    omega

theorem blames_of_calculate {s : String} {f : Fault} (hs : scan s = .ok ts)
    (h : calculate s = .error f) : Blames ts f := by
  have hcuts := cuts_of_scan hs
  rw [calculate, postfixTokens, hs, ok_bind] at h
  rcases bind_eq_error.1 h with hord | ⟨out, ho, he⟩
  · exact blames_of_mismatch hcuts hord
  · rcases evaluate_eq_error_iff.1 he with ⟨before, t, after, rfl, -, ht⟩ | ⟨-, hleft⟩
    · exact blames_of_offends hcuts ho ht
    · exact blames_of_leftover hcuts ho hleft

/-- The span holds at least one character of the text, and nothing else. -/
def Span.Within (cs : List Char) (x : Span) : Prop :=
  x.start < x.stop ∧ x.stop ≤ cs.length

theorem Cuts.within (h : Cuts cs ts) {t : Token} (ht : t ∈ ts) : t.span.Within cs :=
  ⟨h.nonempty t ht, h.inside t ht⟩

theorem Span.Within.across {a b : Span} (ha : a.Within cs) (hb : b.Within cs)
    (hab : a = b ∨ a.stop ≤ b.start) : (Span.across a b).Within cs := by
  refine ⟨?_, hb.2⟩
  rcases hab with rfl | hab
  · exact ha.1
  · exact Nat.lt_of_lt_of_le ha.1 (Nat.le_trans hab (Nat.le_of_lt hb.1))

theorem within_single_zero (h : cs ≠ []) : (Span.single 0).Within cs :=
  ⟨Nat.one_pos, List.length_pos_iff.2 h⟩

/-- What is blamed lies in the text, unless there is no text. -/
theorem within_of_blames (hcuts : Cuts cs ts) {f : Fault} (h : Blames ts f) :
    (∀ x ∈ f.spans, x.Within cs) ∨ f = .malformedExpression (.single 0) ∧ cs = [] := by
  cases h with
  | @closing before after p h =>
    have hmem : ⟨.paren .closing, .single p⟩ ∈ ts := by simp [h]
    exact .inl (by simpa [Fault.spans] using hcuts.within hmem)
  | @opening before after p h =>
    have hmem : ⟨.paren .opening, .single p⟩ ∈ ts := by simp [h]
    exact .inl (by simpa [Fault.spans] using hcuts.within hmem)
  | number h => exact .inl (by simpa [Fault.spans] using hcuts.within h)
  | operator h => exact .inl (by simpa [Fault.spans] using hcuts.within h)
  | division h ha hb hab =>
    have hdivisor := (hcuts.within (mem_of_mem_numbers ha)).across
      (hcuts.within (mem_of_mem_numbers hb)) (hab.imp_left (congrArg Token.span))
    exact .inl (by simpa [Fault.spans] using ⟨hcuts.within h, hdivisor⟩)
  | surplus ha hb hab =>
    have hsurplus := (hcuts.within (mem_of_mem_numbers (List.mem_of_head? ha))).across
      (hcuts.within (mem_of_mem_numbers (List.mem_of_getLast? hb))) (.inr hab)
    exact .inl (by simpa [Fault.spans] using hsurplus)
  | nothing =>
    rcases eq_or_ne cs [] with rfl | hne
    · exact .inr ⟨rfl, rfl⟩
    · exact .inl (by simpa [Fault.spans] using within_single_zero hne)

/-- Position 0 is blamed for an expression that is malformed only if there is nothing else to
blame: surplus numbers are two at least, and end behind it. -/
theorem nothing_of_blames (hcuts : Cuts cs ts)
    (h : Blames ts (.malformedExpression (.single 0))) : numbers ts = [] ∧ operators ts = [] := by
  generalize hf : Fault.malformedExpression (.single 0) = f at h
  cases h with
  | @surplus a b ha hb hab =>
    have hfirst := hcuts.nonempty a (mem_of_mem_numbers (List.mem_of_head? ha))
    have hlast := hcuts.nonempty b (mem_of_mem_numbers (List.mem_of_getLast? hb))
    simp only [Fault.malformedExpression.injEq, Span.single, Span.across, Span.mk.injEq] at hf
    omega
  | nothing hn ho => exact ⟨hn, ho⟩
  | _ => cases hf

end Cut

/-- The character that ends a scan is to blame for it, and nothing of the text behind it is read. -/
theorem invalidCharacter_of_scan {s : String} {f : Fault} (h : scan s = .error f) :
    calculate s = .error f ∧ ∃ before c after, s.toList = before ++ c :: after ∧
      isLegal c = false ∧ f = .invalidCharacter c (.single before.length) := by
  obtain ⟨before, c, after, hs, -, hc, rfl⟩ := (scanFrom_eq_error_iff _ _ _ _).1 h
  refine ⟨by rw [calculate, postfixTokens, h, error_bind, error_bind], before, c, after, hs, hc, ?_⟩
  rw [Nat.zero_add]

theorem scan_or_blames {s : String} {f : Fault} (h : calculate s = .error f) :
    (∃ before c after, s.toList = before ++ c :: after ∧ isLegal c = false ∧
        f = .invalidCharacter c (.single before.length)) ∨
      ∃ ts, scan s = .ok ts ∧ Blames ts f := by
  rcases hs : scan s with g | ts
  · obtain ⟨hg, hc⟩ := invalidCharacter_of_scan hs
    rw [h, Except.error.injEq] at hg
    exact .inl (hg ▸ hc)
  · exact .inr ⟨ts, rfl, blames_of_calculate hs h⟩

/-- Without numbers and operators nothing is put into postfix order. -/
theorem eq_nil_of_postfixOrder {ts out : List Token} (h : postfixOrder ts = .ok out)
    (hn : numbers ts = []) (ho : operators ts = []) : out = [] := by
  have hnumbers : numbers out = [] := (Reordering.numbers_of_postfixOrder h).1.trans hn
  have hoperators : (operators out).Perm (operators ts) :=
    Reordering.filter_perm_of_postfixOrder (fun _ _ => rfl) h
  rw [ho, List.perm_nil] at hoperators
  refine List.eq_nil_iff_forall_not_mem.2 ?_
  rintro ⟨literal | op | p, x⟩ ht
  · exact List.filter_eq_nil_iff.1 hnumbers _ ht rfl
  · exact List.filter_eq_nil_iff.1 hoperators _ ht rfl
  · cases (Reordering.numbers_of_postfixOrder h).2 _ ht

theorem calculate_eq_nothing_iff {s : String} :
    calculate s = .error (.malformedExpression (.single 0)) ↔
      ∃ ts out, scan s = .ok ts ∧ postfixOrder ts = .ok out ∧ numbers ts = [] ∧
        operators ts = [] := by
  constructor
  · intro h
    rcases scan_or_blames h with ⟨before, c, after, -, -, hf⟩ | ⟨ts, hs, hb⟩
    · cases hf
    · obtain ⟨hn, ho⟩ := nothing_of_blames (cuts_of_scan hs) hb
      rcases hord : postfixOrder ts with f | out
      · rw [calculate, postfixTokens, hs, ok_bind, hord, error_bind] at h
        cases h
        rcases Reordering.mismatch_of_postfixOrder hord with
          ⟨_, _, _, _, _, hf⟩ | ⟨_, _, _, _, _, hf⟩ <;> cases hf
      · exact ⟨ts, out, hs, hord, hn, ho⟩
  · rintro ⟨ts, out, hs, hord, hn, ho⟩
    rw [calculate, postfixTokens, hs, ok_bind, hord, ok_bind, eq_nil_of_postfixOrder hord hn ho]
    rfl

theorem within_of_calculate {s : String} {f : Fault} (h : calculate s = .error f) :
    (∀ x ∈ f.spans, x.Within s.toList) ∨ f = .malformedExpression (.single 0) ∧ s = "" := by
  rcases scan_or_blames h with ⟨before, c, after, hs, -, rfl⟩ | ⟨ts, hs, hb⟩
  · refine .inl ?_
    rw [hs]
    simp [Fault.spans, Span.single, Span.Within]
  · rw [← String.toList_eq_nil_iff]
    exact within_of_blames (cuts_of_scan hs) hb

theorem start_lt_of_calculate {s : String} {f : Fault} (hs : s ≠ "") (h : calculate s = .error f) :
    ∀ x ∈ f.spans, x.start < s.toList.length := by
  rcases within_of_calculate h with hin | ⟨-, rfl⟩
  · exact fun x hx => Nat.lt_of_lt_of_le (hin x hx).1 (hin x hx).2
  · exact absurd rfl hs

/-- Whatever is wrong with an expression, its fault blames characters of it: an illegal one, or
what `Blames` says of its tokens. Only an expression without numbers and operators whose
parentheses match is blamed at position 0 for want of anything else, which lies behind the end of
the empty one. -/
theorem calculate_fault_spans (s : String) :
    (∀ f, calculate s = .error f →
      (∀ x ∈ f.spans, x.start < x.stop ∧
        (x.stop ≤ s.length ∨ f = .malformedExpression (.single 0) ∧ s = "")) ∧
      ((∃ before c after, s.toList = before ++ c :: after ∧ isLegal c = false ∧
          f = .invalidCharacter c (.single before.length)) ∨
        ∃ ts, scan s = .ok ts ∧ Blames ts f)) ∧
    (calculate s = .error (.malformedExpression (.single 0)) ↔
      ∃ ts out, scan s = .ok ts ∧ postfixOrder ts = .ok out ∧ numbers ts = [] ∧
        operators ts = []) := by
  refine ⟨fun f h => ⟨?_, scan_or_blames h⟩, calculate_eq_nothing_iff⟩
  rcases within_of_calculate h with hin | ⟨rfl, rfl⟩
  · intro x hx
    rw [← String.length_toList]
    exact ⟨(hin x hx).1, .inl (hin x hx).2⟩
  · simp [Fault.spans, Span.single]

/-- Postfix order can take a divisor from both sides of its operator. -/
theorem calculate_fault_spans_around :
    calculate "9 1/(1-)" = .error (.divisionByZero ⟨3, 4⟩ ⟨2, 6⟩) ∧
      (∀ x ∈ (Fault.divisionByZero ⟨3, 4⟩ ⟨2, 6⟩).spans, x.start < x.stop ∧
        (x.stop ≤ "9 1/(1-)".length ∨
          Fault.divisionByZero ⟨3, 4⟩ ⟨2, 6⟩ = .malformedExpression (.single 0) ∧
            "9 1/(1-)" = "")) ∧
      ((∃ before c after, "9 1/(1-)".toList = before ++ c :: after ∧ isLegal c = false ∧
          Fault.divisionByZero ⟨3, 4⟩ ⟨2, 6⟩ = .invalidCharacter c (.single before.length)) ∨
        ∃ ts, scan "9 1/(1-)" = .ok ts ∧ Blames ts (.divisionByZero ⟨3, 4⟩ ⟨2, 6⟩)) :=
  have h : calculate "9 1/(1-)" = .error (.divisionByZero ⟨3, 4⟩ ⟨2, 6⟩) := by decide +kernel
  ⟨h, (calculate_fault_spans "9 1/(1-)").1 _ h⟩

end Calculator

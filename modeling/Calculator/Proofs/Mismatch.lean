import Calculator.Proofs.Parentheses

/-!
# The parenthesis without a partner

Tokens are put into postfix order exactly if their parentheses are balanced, whatever stands between
them, and otherwise one parenthesis is to blame (`postfixOrder_mismatch`): the first closing one
that closes nothing, or else, if there is none, the last opening one that is never closed.

A run that reaches the end tells that no prefix closes more than it opens (`exists_run_iff`), and a
run over what stands behind an opening parenthesis ends at its partner (`closed_iff`). So both
conditions are about runs, and the parentheses that are open at the end of a run are those without a
partner.
-/

namespace Calculator

open Token

/-- More parentheses are closed than opened. -/
def Overclosed (ts : List Token) : Prop :=
  ts.countP Reordering.isOpening < ts.countP isClosing

/-- An opening parenthesis right before these tokens has its partner among them. -/
def Closed (ts : List Token) : Prop :=
  ∃ inner c rest, ts = inner ++ ⟨.paren .closing, c⟩ :: rest ∧ Balanced inner

/-- The span of the parenthesis to blame for tokens that are not balanced. -/
inductive Unmatched (ts : List Token) : Span → Prop
  /-- It ends the shortest prefix with more closing parentheses than opening ones. -/
  | closing {before after : List Token} {c : Span}
    (h : ts = before ++ ⟨.paren .closing, c⟩ :: after)
    (hover : Overclosed (before ++ [⟨.paren .closing, c⟩]))
    (hfirst : ∀ shorter, shorter <+: before → ¬ Overclosed shorter) : Unmatched ts c
  /-- There is no such prefix, and it is the last opening parenthesis without a partner. -/
  | opening {before after : List Token} {o : Span}
    (hnone : ∀ first, first <+: ts → ¬ Overclosed first)
    (h : ts = before ++ ⟨.paren .opening, o⟩ :: after) (hopen : ¬ Closed after)
    (hlast : ∀ between o' rest, after = between ++ ⟨.paren .opening, o'⟩ :: rest → Closed rest) :
    Unmatched ts o

section Prefixes

variable {ts before after : List Token} {c o : Span}

theorem not_overclosed_of_nested {opens : List Token} (h : Nested opens ts) : ¬ Overclosed ts := by
  have hcount := countP_of_nested h
  unfold Overclosed
  omega

theorem overclosed_of_balanced (h : Balanced before) (c : Span) :
    Overclosed (before ++ [⟨.paren .closing, c⟩]) := by
  have hcount := countP_of_balanced h
  simp [Overclosed, hcount, Reordering.isOpening, isClosing, paren?]

namespace Reordering

theorem exists_run_iff : (∃ r, ts.foldlM step .start = .ok r) ↔
    ∀ first, first <+: ts → ¬ Overclosed first := by
  constructor
  · rintro ⟨r, hr⟩ first ⟨rest, rfl⟩
    obtain ⟨m, hm, -⟩ := foldlM_append_eq_ok.1 hr
    exact not_overclosed_of_nested (nested_of_run hm)
  · intro h
    rcases hr : ts.foldlM step .start with f | r
    · obtain ⟨before, c, after, rfl, hb, -⟩ := run_eq_error_iff.1 hr
      exact absurd (overclosed_of_balanced hb c) (h _ (by simp))
    · exact ⟨r, rfl⟩

end Reordering

theorem not_overclosed_of_balanced (h : Balanced ts) {first : List Token} (hf : first <+: ts) :
    ¬ Overclosed first := by
  obtain ⟨r, hr, -⟩ := Reordering.exists_run_of_balanced h .start
  exact Reordering.exists_run_iff.1 ⟨r, hr⟩ first hf

/-- Only balanced tokens become overclosed by one closing parenthesis more. -/
theorem balanced_iff_overclosed : Balanced before ↔
    Overclosed (before ++ [⟨.paren .closing, c⟩]) ∧
      ∀ shorter, shorter <+: before → ¬ Overclosed shorter := by
  constructor
  · exact fun h => ⟨overclosed_of_balanced h c, fun _ => not_overclosed_of_balanced h⟩
  · rintro ⟨hover, hfirst⟩
    obtain ⟨r, hr⟩ := Reordering.exists_run_iff.2 hfirst
    have hnested := Reordering.nested_of_run hr
    have hcount := countP_of_nested hnested
    simp only [Overclosed, List.countP_append, List.countP_singleton, Reordering.isOpening_closing,
      isClosing, paren?] at hover hcount
    refine (balanced_iff_of_nested hnested).2 (List.length_eq_zero_iff.1 ?_)
    simp at hover
    omega

theorem closed_iff : Closed ts ↔ ∃ f, ts.foldlM Reordering.step .start = .error f := by
  constructor
  · rintro ⟨inner, c, rest, h, hi⟩
    exact ⟨_, Reordering.run_eq_error_iff.2 ⟨inner, c, rest, h, hi, rfl⟩⟩
  · rintro ⟨f, hf⟩
    obtain ⟨inner, c, rest, h, hi, -⟩ := Reordering.run_eq_error_iff.1 hf
    exact ⟨inner, c, rest, h, hi⟩

theorem not_closed_of_balanced (h : Balanced ts) : ¬ Closed ts := by
  obtain ⟨r, hr, -⟩ := Reordering.exists_run_of_balanced h .start
  rw [closed_iff, hr]
  rintro ⟨f, hf⟩
  cases hf

theorem Nested.append {opens opens' : List Token} (h : Nested opens before)
    (h' : Nested opens' after) :
    Nested (opens' ++ ⟨.paren .opening, o⟩ :: opens) (before ++ ⟨.paren .opening, o⟩ :: after) := by
  induction h' with
  | outermost hb => exact h.opened hb
  | opened _ hi ih => simpa using ih.opened hi

/-- Among balanced tokens every opening parenthesis has its partner. -/
theorem closed_of_balanced (h : Balanced (before ++ ⟨.paren .opening, o⟩ :: after)) :
    Closed after := by
  rw [closed_iff]
  rcases hafter : after.foldlM Reordering.step .start with f | r'
  · exact ⟨f, rfl⟩
  · exfalso
    obtain ⟨r, hr⟩ := Reordering.exists_run_iff.2 fun first hf =>
      not_overclosed_of_balanced h (hf.trans (List.prefix_append before _))
    have hnested := (Reordering.nested_of_run hr).append (o := o) (Reordering.nested_of_run hafter)
    have hopens := (balanced_iff_of_nested hnested).1 h
    simp at hopens

end Prefixes

/-- Of two places in a list one stands behind the other, if they are not the same. -/
theorem place_cases {α : Type} {before after before' after' : List α} {a b : α}
    (h : before ++ a :: after = before' ++ b :: after') :
    a = b ∨ (∃ between, after = between ++ b :: after') ∨
      ∃ between, after' = between ++ a :: after := by
  rcases List.append_eq_append_iff.1 h with ⟨x, -, hx⟩ | ⟨x, -, hx⟩
  · rcases x with _ | ⟨_, x⟩
    · exact .inl (List.cons.inj hx).1
    · exact .inr (.inl ⟨x, (List.cons.inj hx).2⟩)
  · rcases x with _ | ⟨_, x⟩
    · exact .inl (List.cons.inj hx).1.symm
    · exact .inr (.inr ⟨x, (List.cons.inj hx).2⟩)

namespace Reordering

variable {ts : List Token} {f : Fault}

theorem unmatched_of_postfixOrder (h : postfixOrder ts = .error f) :
    ∃ s, Unmatched ts s ∧ f = .mismatchedParentheses s := by
  rcases bind_eq_error.1 h with hrun | ⟨r, hrun, hfinish⟩
  · obtain ⟨before, c, after, rfl, hb, rfl⟩ := run_eq_error_iff.1 hrun
    obtain ⟨hover, hfirst⟩ := balanced_iff_overclosed.1 hb
    exact ⟨c, .closing rfl hover hfirst, rfl⟩
  · obtain ⟨o, opens, hopens, rfl⟩ := (finish_eq_error_iff (tidy_of_run hrun).waiting).1 hfinish
    have hnested := nested_of_run hrun
    rw [hopens] at hnested
    cases hnested with
    | opened _ hi =>
      refine ⟨o, .opening (exists_run_iff.1 ⟨r, hrun⟩) rfl (not_closed_of_balanced hi) ?_, rfl⟩
      rintro between o' rest rfl
      exact closed_of_balanced hi

/-- The last opening parenthesis without a partner lies on top of those that are open at the end. -/
theorem openings_of_unclosed {before after : List Token} {o : Span} {r : Reordering}
    (hrun : (before ++ ⟨.paren .opening, o⟩ :: after).foldlM step .start = .ok r)
    (hopen : ¬ Closed after)
    (hlast : ∀ between o' rest, after = between ++ ⟨.paren .opening, o'⟩ :: rest → Closed rest) :
    ∃ opens, r.openings = ⟨.paren .opening, o⟩ :: opens := by
  have hnested := nested_of_run hrun
  generalize hts : before ++ ⟨.paren .opening, o⟩ :: after = ts at hnested
  rcases hopens : r.openings with _ | ⟨w, opens⟩
  · rw [hopens] at hnested
    exact absurd (closed_of_balanced (hts ▸ (balanced_iff_of_nested hnested).2 rfl)) hopen
  · rw [hopens] at hnested
    cases hnested with
    | opened _ hi =>
      rcases place_cases hts with hsame | ⟨between, rfl⟩ | ⟨between, rfl⟩
      · exact ⟨opens, by rw [hsame]⟩
      · exact absurd (hlast between _ _ rfl) (not_closed_of_balanced hi)
      · exact absurd (closed_of_balanced hi) hopen

theorem postfixOrder_of_unmatched {s : Span} (h : Unmatched ts s) :
    postfixOrder ts = .error (.mismatchedParentheses s) := by
  cases h with
  | closing h hover hfirst =>
    have hb := balanced_iff_overclosed.2 ⟨hover, hfirst⟩
    exact bind_eq_error.2 (.inl (run_eq_error_iff.2 ⟨_, s, _, h, hb, rfl⟩))
  | opening hnone h hopen hlast =>
    obtain ⟨r, hrun⟩ := exists_run_iff.2 hnone
    obtain ⟨opens, hopens⟩ := openings_of_unclosed (h ▸ hrun) hopen hlast
    refine bind_eq_error.2 (.inr ⟨r, hrun, ?_⟩)
    exact (finish_eq_error_iff (tidy_of_run hrun).waiting).2 ⟨s, opens, hopens, rfl⟩

end Reordering

/-- Whatever numbers and operators stand between them, the parentheses decide: balanced tokens are
put into postfix order, and of others the parenthesis to blame is told. -/
theorem postfixOrder_mismatch (ts : List Token) :
    ((∃ f, postfixOrder ts = .error f) ↔ ¬ Balanced ts) ∧
      ∀ f, postfixOrder ts = .error f ↔ ∃ s, Unmatched ts s ∧ f = .mismatchedParentheses s := by
  constructor
  · rw [← exists_postfixOrder_iff]
    rcases postfixOrder ts with f | out
    · simp
    · simp
  · intro f
    refine ⟨Reordering.unmatched_of_postfixOrder, ?_⟩
    rintro ⟨s, hs, rfl⟩
    exact Reordering.postfixOrder_of_unmatched hs

end Calculator

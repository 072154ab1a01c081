import Calculator.Proofs.Reordering

/-!
# Parentheses

The opening parentheses on the stack of waiting tokens are those of the tokens read that have no
partner yet, and between two of them the tokens are balanced (`nested_of_run`). So tokens that are
put into postfix order without a fault are balanced (`balanced_of_postfixOrder`).
-/

namespace Calculator

/-- Tokens in which every parenthesis has its partner. -/
inductive Balanced : List Token → Prop
  | nil : Balanced []
  | token {ts : List Token} {t : Token} (h : Balanced ts) (ht : t.paren? = none) :
    Balanced (ts ++ [t])
  | group {ts inner : List Token} {o c : Span} (h : Balanced ts) (hi : Balanced inner) :
    Balanced (ts ++ (⟨.paren .opening, o⟩ :: inner ++ [⟨.paren .closing, c⟩]))

/-- Tokens with opening parentheses that have no partner, the latest first. -/
inductive Nested : List Token → List Token → Prop
  | outermost {ts : List Token} (h : Balanced ts) : Nested [] ts
  | opened {opens ts inner : List Token} {o : Span} (h : Nested opens ts) (hi : Balanced inner) :
    Nested (⟨.paren .opening, o⟩ :: opens) (ts ++ ⟨.paren .opening, o⟩ :: inner)

namespace Nested

variable {opens ts : List Token}

theorem token {t : Token} (h : Nested opens ts) (ht : t.paren? = none) :
    Nested opens (ts ++ [t]) := by
  cases h with
  | outermost h => exact .outermost (h.token ht)
  | opened h hi => simpa using h.opened (hi.token ht)

theorem opening (h : Nested opens ts) (o : Span) :
    Nested (⟨.paren .opening, o⟩ :: opens) (ts ++ [⟨.paren .opening, o⟩]) :=
  h.opened .nil

theorem closing {o : Token} (h : Nested (o :: opens) ts) (c : Span) :
    Nested opens (ts ++ [⟨.paren .closing, c⟩]) := by
  rcases h with _ | ⟨h, hi⟩
  cases h with
  | outermost h => simpa using Nested.outermost (h.group hi)
  | opened h hj => simpa using h.opened (hj.group hi)

end Nested

def Token.isClosing (t : Token) : Bool :=
  t.paren? == some .closing

theorem countP_of_balanced {ts : List Token} (h : Balanced ts) :
    ts.countP Reordering.isOpening = ts.countP Token.isClosing := by
  induction h with
  | nil => rfl
  | token _ ht ih => simp [ih, Reordering.isOpening, Token.isClosing, ht]
  | group _ _ ih ihi =>
    simp [ih, ihi, Reordering.isOpening, Token.isClosing, Token.paren?]

theorem countP_of_nested {opens ts : List Token} (h : Nested opens ts) :
    ts.countP Reordering.isOpening = ts.countP Token.isClosing + opens.length := by
  induction h with
  | outermost h => exact countP_of_balanced h
  | opened _ hi ih =>
    simp [ih, countP_of_balanced hi, Reordering.isOpening, Token.isClosing, Token.paren?]
    omega

theorem balanced_iff_of_nested {opens ts : List Token} (h : Nested opens ts) :
    Balanced ts ↔ opens = [] := by
  constructor
  · intro hb
    have hn := countP_of_nested h
    rw [countP_of_balanced hb] at hn
    exact List.length_eq_zero_iff.1 (by omega)
  · rintro rfl
    cases h
    assumption

namespace Reordering

def openings (o : Reordering) : List Token :=
  o.waiting.filter isOpening

theorem filter_isOpening_eq_nil {pending : List Token} (h : ∀ w ∈ pending, isOpening w = false) :
    pending.filter isOpening = [] := by
  simpa using h

theorem nested_of_moves {o o' : Reordering} {t : Token} (h : Moves o t o') {ts : List Token}
    (ho : Nested o.openings ts) : Nested o'.openings (ts ++ [t]) := by
  cases h with
  | number => exact ho.token rfl
  | operator hp hw =>
    have hpending := filter_isOpening_eq_nil fun w hw => isOpening_of_yieldsTo (hp w hw)
    simp only [openings, List.filter_append, hpending, List.nil_append, List.filter_cons,
      isOpening_operator, Bool.false_eq_true, ↓reduceIte] at ho ⊢
    exact ho.token rfl
  | opening => exact ho.opening _
  | closing hp =>
    simp only [openings, List.filter_append, filter_isOpening_eq_nil hp, List.nil_append,
      List.filter_cons, isOpening_opening, ↓reduceIte] at ho ⊢
    exact ho.closing _

theorem nested_of_run {ts : List Token} {o : Reordering}
    (h : ts.foldlM step .start = .ok o) : Nested o.openings ts :=
  foldlM_induction (P := fun ts o => Nested o.openings ts) (.outermost .nil)
    (fun _ _ _ _ ih hs => nested_of_moves (step_eq_ok_iff.1 hs) ih) h

end Reordering

namespace Reordering

theorem openings_of_moves {o o' : Reordering} {t : Token} (h : Moves o t o') :
    o'.openings = match t.paren? with
      | some .opening => t :: o.openings
      | some .closing => o.openings.tail
      | none => o.openings := by
  cases h with
  | number => rfl
  | operator hp =>
    have hpending := filter_isOpening_eq_nil fun w hw => isOpening_of_yieldsTo (hp w hw)
    show List.filter isOpening _ = List.filter isOpening _
    rw [List.filter_append, hpending, List.nil_append, List.filter_cons_of_neg (by simp)]
  | opening => rfl
  | closing hp =>
    show List.filter isOpening _ = (List.filter isOpening _).tail
    rw [List.filter_append, filter_isOpening_eq_nil hp, List.nil_append,
      List.filter_cons_of_pos rfl, List.tail_cons]

theorem exists_step_of_paren? {t : Token} (ht : t.paren? ≠ some .closing) (o : Reordering) :
    ∃ o', o.step t = .ok o' := by
  obtain ⟨_ | _ | _ | _, s⟩ := t
  · exact ⟨_, rfl⟩
  · exact ⟨_, rfl⟩
  · exact ⟨_, rfl⟩
  · exact absurd rfl ht

end Reordering

namespace Reordering

/-- A step fails for a closing parenthesis that no opening one waits for, and for nothing else. -/
theorem step_eq_error_iff {o : Reordering} {t : Token} {f : Fault} :
    o.step t = .error f ↔
      ∃ c, t = ⟨.paren .closing, c⟩ ∧ o.openings = [] ∧ f = .mismatchedParentheses c := by
  obtain ⟨released, waiting⟩ := o
  obtain ⟨_ | _ | _ | _, s⟩ := t
  · simp [step]
  · simp [step]
  · simp [step]
  · obtain ⟨pending, rest, rfl, hp, hw⟩ := exists_run (fun w => !isOpening w) waiting
    have hpending : pending.filter isOpening = [] :=
      filter_isOpening_eq_nil fun w hw => by simpa using hp w hw
    simp only [step, release_append hp hw, openings, List.filter_append, hpending]
    rcases rest with _ | ⟨w, rest⟩
    · simp [eq_comm]
    · have hopen : isOpening w = true := by simpa using hw w rfl
      simp [hopen]

theorem finish_eq_error_iff {o : Reordering} {f : Fault}
    (hw : ∀ w ∈ o.waiting, w.operator?.isSome = true ∨ isOpening w = true) :
    o.finish = .error f ↔
      ∃ s opens, o.openings = ⟨.paren .opening, s⟩ :: opens ∧ f = .mismatchedParentheses s := by
  have hparen : ∀ w ∈ o.waiting, w.paren?.isSome = isOpening w := by
    intro w hmem
    rcases hw w hmem with h | h
    · simp [isOpening, paren?_of_operator? h]
    · obtain ⟨s, rfl⟩ := eq_opening_of_isOpening h
      rfl
  have hfind : o.waiting.find? (fun w => w.paren?.isSome) = o.openings.head? := by
    rw [openings, ← List.head?_filter, List.filter_congr hparen]
  rw [finish, hfind]
  rcases ho : o.openings with _ | ⟨w, opens⟩
  · simp
  · have hopen : isOpening w = true := (List.mem_filter.1 (ho ▸ List.mem_cons_self)).2
    obtain ⟨s, rfl⟩ := eq_opening_of_isOpening hopen
    simp [eq_comm]

/-- Balanced tokens are taken in any state, and leave its opening parentheses as they were. -/
theorem exists_run_of_balanced {ts : List Token} (h : Balanced ts) : ∀ o : Reordering,
    ∃ o', ts.foldlM step o = .ok o' ∧ o'.openings = o.openings := by
  induction h with
  | nil => exact fun o => ⟨o, rfl, rfl⟩
  | @token ts t _ ht ih =>
    intro o
    obtain ⟨m, hm, hopen⟩ := ih o
    obtain ⟨o', ho'⟩ := exists_step_of_paren? (t := t) (by simp [ht]) m
    have hmoves := openings_of_moves (step_eq_ok_iff.1 ho')
    refine ⟨o', foldlM_append_eq_ok.2 ⟨m, hm, by simp [ho']⟩, ?_⟩
    rw [hmoves, ht]
    exact hopen
  | @group ts inner p c _ _ ih ihi =>
    intro o
    obtain ⟨m, hm, hopen⟩ := ih o
    obtain ⟨n, hn, hinner⟩ := ihi (m.push ⟨.paren .opening, p⟩)
    have hpushed : n.openings = ⟨.paren .opening, p⟩ :: m.openings := hinner
    rcases hc : n.step ⟨.paren .closing, c⟩ with f | o'
    · obtain ⟨-, -, hnone, -⟩ := step_eq_error_iff.1 hc
      rw [hpushed] at hnone
      cases hnone
    · have hmoves : o'.openings = n.openings.tail := openings_of_moves (step_eq_ok_iff.1 hc)
      refine ⟨o', foldlM_append_eq_ok.2 ⟨m, hm, ?_⟩, ?_⟩
      · rw [List.cons_append, List.foldlM_cons, show m.step ⟨.paren .opening, p⟩ = .ok _ from rfl,
          ok_bind]
        exact foldlM_append_eq_ok.2 ⟨n, hn, by simp [hc]⟩
      · rw [hmoves, hpushed, List.tail_cons]
        exact hopen

/-- A run ends at the first closing parenthesis without a partner. -/
theorem run_eq_error_iff {ts : List Token} {f : Fault} :
    ts.foldlM step .start = .error f ↔ ∃ before c after,
      ts = before ++ ⟨.paren .closing, c⟩ :: after ∧ Balanced before ∧
        f = .mismatchedParentheses c := by
  rw [foldlM_eq_error_iff]
  constructor
  · rintro ⟨before, t, after, r, rfl, hr, ht⟩
    obtain ⟨c, rfl, hnone, rfl⟩ := step_eq_error_iff.1 ht
    exact ⟨before, c, after, rfl, (balanced_iff_of_nested (nested_of_run hr)).2 hnone, rfl⟩
  · rintro ⟨before, c, after, rfl, hb, rfl⟩
    obtain ⟨r, hr, hnone⟩ := exists_run_of_balanced hb .start
    exact ⟨before, _, after, r, rfl, hr, step_eq_error_iff.2 ⟨c, rfl, hnone, rfl⟩⟩

/-- The parenthesis to blame is a closing one behind balanced tokens, or an opening one before
balanced tokens. -/
theorem mismatch_of_postfixOrder {ts : List Token} {f : Fault}
    (h : Token.postfixOrder ts = .error f) :
    (∃ before c after, ts = before ++ ⟨.paren .closing, c⟩ :: after ∧ Balanced before ∧
        f = .mismatchedParentheses c) ∨
      ∃ before o after, ts = before ++ ⟨.paren .opening, o⟩ :: after ∧ Balanced after ∧
        f = .mismatchedParentheses o := by
  rcases bind_eq_error.1 h with hrun | ⟨r, hrun, hfinish⟩
  · exact .inl (run_eq_error_iff.1 hrun)
  · obtain ⟨s, opens, hopens, rfl⟩ := (finish_eq_error_iff (tidy_of_run hrun).waiting).1 hfinish
    have hnested := nested_of_run hrun
    rw [hopens] at hnested
    cases hnested with
    | opened _ hi => exact .inr ⟨_, s, _, rfl, hi, rfl⟩

end Reordering

theorem balanced_of_postfixOrder {ts out : List Token} (h : Token.postfixOrder ts = .ok out) :
    Balanced ts := by
  obtain ⟨o, hr, hf⟩ := bind_eq_ok.1 h
  have hnone := (Reordering.finish_eq_ok_iff.1 hf).1
  have hopens : o.openings = [] := by
    refine Reordering.filter_isOpening_eq_nil fun w hw => ?_
    simp [Reordering.isOpening, hnone w hw]
  exact (balanced_iff_of_nested (Reordering.nested_of_run hr)).2 hopens

theorem exists_postfixOrder_iff {ts : List Token} :
    (∃ out, Token.postfixOrder ts = .ok out) ↔ Balanced ts := by
  refine ⟨fun ⟨_, h⟩ => balanced_of_postfixOrder h, fun h => ?_⟩
  obtain ⟨o, hrun, hopen⟩ := Reordering.exists_run_of_balanced h .start
  rcases hf : o.finish with f | out
  · obtain ⟨s, opens, hopens, -⟩ :=
      (Reordering.finish_eq_error_iff (Reordering.tidy_of_run hrun).waiting).1 hf
    rw [hopen] at hopens
    cases hopens
  · exact ⟨out, bind_eq_ok.2 ⟨o, hrun, hf⟩⟩

end Calculator

import Calculator.Proofs.Runs

/-!
# Steps of the reordering

What one token does to the released and the waiting ones: an operator releases the run of operators
on top that it yields to, and a closing parenthesis the operators of its group. `Moves` says so for
each kind of token, and a step succeeds exactly as it says (`step_eq_ok_iff`).

Nothing is lost or made up on the way: the released tokens and the waiting ones are those read, the
parentheses apart (`filter_perm_of_run`).
-/

namespace Calculator

namespace Reordering

@[simp] theorem yieldsTo_operator (op top : Operator) (s : Span) :
    yieldsTo op ⟨.operator top, s⟩ = decide (op.precedence ≤ top.precedence) := rfl

@[simp] theorem yieldsTo_paren (op : Operator) (p : Paren) (s : Span) :
    yieldsTo op ⟨.paren p, s⟩ = false := rfl

@[simp] theorem isOpening_opening (s : Span) : isOpening ⟨.paren .opening, s⟩ = true := rfl
@[simp] theorem isOpening_closing (s : Span) : isOpening ⟨.paren .closing, s⟩ = false := rfl
@[simp] theorem isOpening_operator (op : Operator) (s : Span) :
    isOpening ⟨.operator op, s⟩ = false := rfl
@[simp] theorem isOpening_number (literal : String) (s : Span) :
    isOpening ⟨.number literal, s⟩ = false := rfl

theorem eq_opening_of_isOpening : ∀ {t : Token}, isOpening t = true →
    ∃ s, t = ⟨.paren .opening, s⟩
  | ⟨.number _, _⟩, h => by cases h
  | ⟨.operator _, _⟩, h => by cases h
  | ⟨.paren .opening, s⟩, _ => ⟨s, rfl⟩
  | ⟨.paren .closing, _⟩, h => by cases h

theorem isOpening_of_yieldsTo {op : Operator} : ∀ {w : Token}, yieldsTo op w = true →
    isOpening w = false
  | ⟨.number _, _⟩, _ => rfl
  | ⟨.operator _, _⟩, _ => rfl
  | ⟨.paren _, _⟩, h => by cases h

/-- What a token does to the released tokens and the waiting ones. -/
inductive Moves : Reordering → Token → Reordering → Prop
  | number {released waiting : List Token} {literal : String} {s : Span} :
    Moves ⟨released, waiting⟩ ⟨.number literal, s⟩ ⟨⟨.number literal, s⟩ :: released, waiting⟩
  | operator {released pending waiting : List Token} {op : Operator} {s : Span}
    (hp : ∀ w ∈ pending, yieldsTo op w = true) (hw : ∀ w ∈ waiting.head?, yieldsTo op w = false) :
    Moves ⟨released, pending ++ waiting⟩ ⟨.operator op, s⟩
      ⟨pending.reverse ++ released, ⟨.operator op, s⟩ :: waiting⟩
  | opening {released waiting : List Token} {s : Span} :
    Moves ⟨released, waiting⟩ ⟨.paren .opening, s⟩ ⟨released, ⟨.paren .opening, s⟩ :: waiting⟩
  | closing {released pending waiting : List Token} {o c : Span}
    (hp : ∀ w ∈ pending, isOpening w = false) :
    Moves ⟨released, pending ++ ⟨.paren .opening, o⟩ :: waiting⟩ ⟨.paren .closing, c⟩
      ⟨pending.reverse ++ released, waiting⟩

/-- Releasing takes a whole run of tokens off the stack, if the one below it stays. -/
theorem release_append {p : Token → Bool} {released pending waiting : List Token}
    (hp : ∀ w ∈ pending, p w = true) (hw : ∀ w ∈ waiting.head?, p w = false) :
    release p ⟨released, pending ++ waiting⟩ = ⟨pending.reverse ++ released, waiting⟩ := by
  have hrest : waiting.takeWhile p = [] ∧ waiting.dropWhile p = waiting := by
    rcases waiting with _ | ⟨w, waiting⟩
    · exact ⟨rfl, rfl⟩
    · simp [hw w rfl]
  simp only [release, List.takeWhile_append_of_pos hp, List.dropWhile_append_of_pos hp, hrest,
    List.append_nil]

/-- Any stack is a run of tokens with `p`, and one below that stays. -/
theorem exists_run (p : Token → Bool) : ∀ waiting : List Token, ∃ pending rest,
    waiting = pending ++ rest ∧ (∀ w ∈ pending, p w = true) ∧ ∀ w ∈ rest.head?, p w = false
  | [] => ⟨[], [], rfl, by simp, by simp⟩
  | w :: waiting => by
    rcases hw : p w with _ | _
    · exact ⟨[], w :: waiting, rfl, by simp, by simpa using hw⟩
    · obtain ⟨pending, rest, rfl, hp, hr⟩ := exists_run p waiting
      exact ⟨w :: pending, rest, rfl, by simpa using ⟨hw, hp⟩, hr⟩

theorem step_of_moves {o o' : Reordering} {t : Token} (h : Moves o t o') : o.step t = .ok o' := by
  cases h with
  | number => rfl
  | operator hp hw => simp only [step, release_append hp hw, push]
  | opening => rfl
  | @closing released pending waiting o c hp =>
    have hr : release (fun w => !isOpening w) ⟨released, pending ++ ⟨.paren .opening, o⟩ :: waiting⟩
        = ⟨pending.reverse ++ released, ⟨.paren .opening, o⟩ :: waiting⟩ :=
      release_append (fun w hw => by simp [hp w hw]) (by simp)
    simp only [step, hr]

theorem step_eq_ok_iff {o o' : Reordering} {t : Token} : o.step t = .ok o' ↔ Moves o t o' := by
  refine ⟨fun h => ?_, step_of_moves⟩
  obtain ⟨released, waiting⟩ := o
  obtain ⟨literal | op | _ | _, s⟩ := t
  · cases h
    exact .number
  · obtain ⟨pending, rest, rfl, hp, hw⟩ := exists_run (yieldsTo op) waiting
    have hm : Moves ⟨released, pending ++ rest⟩ ⟨.operator op, s⟩ _ := .operator hp hw
    rw [step_of_moves hm] at h
    cases h
    exact hm
  · cases h
    exact .opening
  · obtain ⟨pending, rest, rfl, hp, hw⟩ := exists_run (fun w => !isOpening w) waiting
    simp only [step, release_append hp hw] at h
    rcases rest with _ | ⟨w, rest⟩
    · cases h
    · cases h
      obtain ⟨o, rfl⟩ := eq_opening_of_isOpening (by simpa using hw w rfl)
      exact .closing fun w hw => by simpa using hp w hw

/-- At the end nothing but operators may wait, and they are released from the top on. -/
theorem finish_eq_ok_iff {o : Reordering} {out : List Token} : o.finish = .ok out ↔
    (∀ w ∈ o.waiting, w.paren? = none) ∧ out = o.released.reverse ++ o.waiting := by
  rcases hp : o.waiting.find? (fun w => w.paren?.isSome) with _ | w
  · have hnone : ∀ w ∈ o.waiting, w.paren? = none := by simpa using hp
    simp only [finish, hp, Except.ok.injEq]
    exact ⟨fun h => ⟨hnone, h.symm⟩, fun h => h.2.symm⟩
  · have hparen := List.find?_some hp
    have hwaits := List.mem_of_find?_eq_some hp
    simp only [finish, hp, reduceCtorEq, false_iff]
    rintro ⟨hnone, -⟩
    simp [hnone w hwaits] at hparen

section Perm

variable {p : Token → Bool} (hparen : ∀ q s, p ⟨.paren q, s⟩ = false)
include hparen

theorem filter_perm_of_moves {o o' : Reordering} {t : Token} (h : Moves o t o') :
    ((o'.released ++ o'.waiting).filter p).Perm ((o.released ++ o.waiting ++ [t]).filter p) := by
  rw [List.perm_iff_count]
  intro a
  cases h with
  | number =>
    simp only [List.filter_append, List.filter_cons, List.filter_nil, List.count_append]
    split_ifs <;> simp only [List.count_cons, List.count_nil] <;> omega
  | operator =>
    simp only [List.filter_append, List.filter_cons, List.filter_nil, List.filter_reverse,
      List.count_append, List.count_reverse]
    split_ifs <;> simp only [List.count_cons, List.count_nil] <;> omega
  | opening => simp [hparen]
  | closing =>
    simp only [List.filter_append, List.filter_cons, List.filter_nil, List.filter_reverse,
      List.count_append, List.count_reverse, hparen, Bool.false_eq_true, ↓reduceIte,
      List.count_nil]
    omega

/-- The numbers and operators read are those released and those that wait. -/
theorem filter_perm_of_run {tokens : List Token} {o : Reordering}
    (h : tokens.foldlM step .start = .ok o) :
    ((o.released ++ o.waiting).filter p).Perm (tokens.filter p) := by
  refine foldlM_induction
    (P := fun tokens o => ((o.released ++ o.waiting).filter p).Perm (tokens.filter p))
    (List.Perm.refl _) ?_ h
  intro tokens o t o' ih hs
  refine (filter_perm_of_moves hparen (step_eq_ok_iff.1 hs)).trans ?_
  simpa only [List.filter_append] using ih.append_right ([t].filter p)

theorem filter_perm_of_postfixOrder {tokens out : List Token}
    (h : Token.postfixOrder tokens = .ok out) : (out.filter p).Perm (tokens.filter p) := by
  obtain ⟨o, hr, hf⟩ := bind_eq_ok.1 h
  obtain ⟨-, rfl⟩ := finish_eq_ok_iff.1 hf
  refine List.Perm.trans ?_ (filter_perm_of_run hparen hr)
  exact ((List.reverse_perm _).append_right _).filter p

end Perm

/-- What the reordering keeps: operators and opening parentheses wait, numbers and operators are
released, and the numbers come out in the order in which they were read. -/
structure Tidy (tokens : List Token) (o : Reordering) : Prop where
  waiting : ∀ w ∈ o.waiting, w.operator?.isSome = true ∨ isOpening w = true
  released : ∀ t ∈ o.released, t.paren? = none
  numbers : o.released.reverse.filter (fun t => t.literal?.isSome)
    = tokens.filter fun t => t.literal?.isSome

theorem literal?_of_operator? : ∀ {t : Token}, t.operator?.isSome = true → t.literal? = none
  | ⟨.number _, _⟩, h => by cases h
  | ⟨.operator _, _⟩, _ => rfl
  | ⟨.paren _, _⟩, h => by cases h

theorem paren?_of_operator? : ∀ {t : Token}, t.operator?.isSome = true → t.paren? = none
  | ⟨.number _, _⟩, h => by cases h
  | ⟨.operator _, _⟩, _ => rfl
  | ⟨.paren _, _⟩, h => by cases h

theorem operator?_of_yieldsTo {op : Operator} : ∀ {w : Token}, yieldsTo op w = true →
    w.operator?.isSome = true
  | ⟨.number _, _⟩, h => by cases h
  | ⟨.operator _, _⟩, _ => rfl
  | ⟨.paren _, _⟩, h => by cases h

namespace Tidy

variable {tokens released pending waiting : List Token}

theorem start : Tidy [] .start where
  waiting := by simp [Reordering.start]
  released := by simp [Reordering.start]
  numbers := rfl

/-- Operators on top of the stack may be released. -/
theorem release (h : Tidy tokens ⟨released, pending ++ waiting⟩)
    (hp : ∀ w ∈ pending, w.operator?.isSome = true) :
    Tidy tokens ⟨pending.reverse ++ released, waiting⟩ where
  waiting w hw := h.waiting w (List.mem_append_right _ hw)
  released t ht := by
    rcases List.mem_append.1 ht with ht | ht
    · exact paren?_of_operator? (hp t (List.mem_reverse.1 ht))
    · exact h.released t ht
  numbers := by
    have hnone : pending.filter (fun t => t.literal?.isSome) = [] := by
      refine List.filter_eq_nil_iff.2 fun w hw => ?_
      simp [literal?_of_operator? (hp w hw)]
    rw [List.reverse_append, List.reverse_reverse, List.filter_append, hnone, List.append_nil]
    exact h.numbers

/-- A token that is no number may be read, and then wait. -/
theorem push (h : Tidy tokens ⟨released, waiting⟩) {t : Token}
    (ht : t.operator?.isSome = true ∨ isOpening t = true) (hn : t.literal? = none) :
    Tidy (tokens ++ [t]) ⟨released, t :: waiting⟩ where
  waiting w hw := by
    rcases List.mem_cons.1 hw with rfl | hw
    · exact ht
    · exact h.waiting w hw
  released := h.released
  numbers := by simp [h.numbers, hn]

end Tidy

theorem tidy_of_moves {tokens : List Token} {o o' : Reordering} {t : Token} (h : Moves o t o')
    (ho : Tidy tokens o) : Tidy (tokens ++ [t]) o' := by
  cases h with
  | number =>
    refine ⟨ho.waiting, ?_, by simp [ho.numbers]⟩
    rintro t (_ | ⟨_, ht⟩)
    · rfl
    · exact ho.released t ht
  | operator hp =>
    exact (ho.release fun w hw => operator?_of_yieldsTo (hp w hw)).push (.inl rfl) rfl
  | opening => exact ho.push (.inr rfl) rfl
  | @closing _ pending _ _ _ hp =>
    have hpending : ∀ w ∈ pending, w.operator?.isSome = true := by
      intro w hw
      refine (ho.waiting w (List.mem_append_left _ hw)).resolve_right ?_
      simp [hp w hw]
    have hr := ho.release hpending
    refine ⟨fun w hw => hr.waiting w (List.mem_cons_of_mem _ hw), hr.released, ?_⟩
    rw [List.filter_append, hr.numbers]
    exact (List.append_nil _).symm

theorem tidy_of_run {tokens : List Token} {o : Reordering}
    (h : tokens.foldlM step .start = .ok o) : Tidy tokens o :=
  foldlM_induction .start (fun _ _ _ _ ih hs => tidy_of_moves (step_eq_ok_iff.1 hs) ih) h

/-- Postfix order leaves the numbers in the order of the text, and drops the parentheses. -/
theorem numbers_of_postfixOrder {tokens out : List Token}
    (h : Token.postfixOrder tokens = .ok out) :
    (out.filter fun t => t.literal?.isSome) = (tokens.filter fun t => t.literal?.isSome) ∧
      ∀ t ∈ out, t.paren? = none := by
  obtain ⟨o, hr, hf⟩ := bind_eq_ok.1 h
  obtain ⟨hnone, rfl⟩ := finish_eq_ok_iff.1 hf
  have htidy := tidy_of_run hr
  have hwaiting : ∀ w ∈ o.waiting, w.operator?.isSome = true := by
    intro w hw
    refine (htidy.waiting w hw).resolve_right fun hopen => ?_
    obtain ⟨s, rfl⟩ := eq_opening_of_isOpening hopen
    cases hnone _ hw
  -- what still waits is released at the end, as by one more release
  obtain ⟨released, waiting⟩ := o
  have hall : Tidy tokens ⟨released, waiting ++ []⟩ := by simpa using htidy
  have hlast : Tidy tokens ⟨waiting.reverse ++ released, []⟩ := hall.release hwaiting
  constructor
  · simpa using hlast.numbers
  · intro t ht
    exact hlast.released t (by simpa [or_comm] using ht)

end Reordering

end Calculator

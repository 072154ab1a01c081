import Calculator.Proofs.Mismatch
import Mathlib.Data.List.Infix
import Mathlib.Data.List.TakeWhile

/-!
# The waiting tokens

The operators that wait in one group bind the tighter the higher they lie, because an operator joins
the stack only on top of one that it does not yield to (`Reordering.climbs_of_run`). There are but
two precedences, so at most two operators wait in a group, and the stack is at most three times as
high as parentheses are open, and two more.

All that is released or waits has been read, and of the parentheses read those wait that are never
closed. The states in the middle of a release are no different (`Reordering.orderly_of_reached`).
-/

namespace Calculator

open Token

instance (ts : List Token) : Decidable (Overclosed ts) :=
  inferInstanceAs (Decidable (_ < _))

/-- The opening parentheses without a partner, in order: nothing that follows such a one closes more
than it opens. -/
def Token.unclosed : List Token → List Token
  | [] => []
  | t :: after =>
    if Reordering.isOpening t = true ∧ ∀ first ∈ after.inits, ¬ Overclosed first then
      t :: unclosed after
    else unclosed after

section Unclosed

variable {ts after inner opens : List Token} {t : Token} {o : Span}

theorem not_closed_iff : ¬ Closed ts ↔ ∃ r, ts.foldlM Reordering.step .start = .ok r := by
  rw [closed_iff]
  rcases ts.foldlM Reordering.step .start with f | r <;> simp

theorem not_closed_iff_inits : ¬ Closed ts ↔ ∀ first ∈ ts.inits, ¬ Overclosed first := by
  simp only [not_closed_iff, Reordering.exists_run_iff, List.mem_inits]

theorem unclosed_cons_of_open (ht : Reordering.isOpening t = true) (h : ¬ Closed after) :
    unclosed (t :: after) = t :: unclosed after := by
  rw [unclosed, if_pos ⟨ht, not_closed_iff_inits.1 h⟩]

theorem unclosed_cons_of_closed (h : Reordering.isOpening t = true → Closed after) :
    unclosed (t :: after) = unclosed after := by
  rw [unclosed, if_neg]
  rintro ⟨ht, hafter⟩
  exact not_closed_iff_inits.2 hafter (h ht)

theorem unclosed_eq_nil : ∀ {ts : List Token},
    (∀ before o after, ts = before ++ ⟨.paren .opening, o⟩ :: after → Closed after) →
      unclosed ts = []
  | [], _ => rfl
  | t :: ts, h => by
    rw [unclosed_cons_of_closed fun ht => ?_]
    · exact unclosed_eq_nil fun before o after hts => h (t :: before) o after (by rw [hts]; rfl)
    · obtain ⟨s, rfl⟩ := Reordering.eq_opening_of_isOpening ht
      exact h [] s ts rfl

theorem unclosed_of_balanced (h : Balanced ts) : unclosed ts = [] :=
  unclosed_eq_nil fun _ _ _ hts => closed_of_balanced (hts ▸ h)

/-- A partner is not found behind a parenthesis that stays open itself. -/
theorem closed_append_iff (hi : Balanced inner) :
    Closed (ts ++ ⟨.paren .opening, o⟩ :: inner) ↔ Closed ts := by
  constructor
  · contrapose
    simp only [not_closed_iff]
    rintro ⟨r, hr⟩
    obtain ⟨r', hr', -⟩ := Reordering.exists_run_of_balanced hi (r.push ⟨.paren .opening, o⟩)
    exact ⟨r', foldlM_append_eq_ok.2 ⟨r, hr, hr'⟩⟩
  · rintro ⟨closed, c, rest, rfl, hb⟩
    exact ⟨closed, c, rest ++ ⟨.paren .opening, o⟩ :: inner, by simp, hb⟩

theorem unclosed_append (hi : Balanced inner) : ∀ ts : List Token,
    unclosed (ts ++ ⟨.paren .opening, o⟩ :: inner) = unclosed ts ++ [⟨.paren .opening, o⟩]
  | [] => by
    rw [List.nil_append, unclosed_cons_of_open rfl (not_closed_of_balanced hi),
      unclosed_of_balanced hi]
    rfl
  | t :: ts => by
    by_cases ht : Reordering.isOpening t = true ∧ ¬ Closed ts
    · rw [List.cons_append, unclosed_cons_of_open ht.1 (mt (closed_append_iff hi).1 ht.2),
        unclosed_cons_of_open ht.1 ht.2, unclosed_append hi ts, List.cons_append]
    · have hclosed : Reordering.isOpening t = true → Closed ts := by simpa using ht
      rw [List.cons_append,
        unclosed_cons_of_closed fun h => (closed_append_iff hi).2 (hclosed h),
        unclosed_cons_of_closed hclosed, unclosed_append hi ts]

theorem unclosed_of_nested (h : Nested opens ts) : unclosed ts = opens.reverse := by
  induction h with
  | outermost h => exact unclosed_of_balanced h
  | opened _ hi ih => rw [unclosed_append hi, ih, List.reverse_cons]

end Unclosed

namespace Reordering

/-- Of operators that wait one upon the other each binds tighter than those below it. -/
def Climbs (waiting : List Token) : Prop :=
  ∀ group, group <:+: waiting → (∀ w ∈ group, w.operator?.isSome = true) →
    (group.filterMap operator?).Pairwise fun upper lower => lower.precedence < upper.precedence

namespace Climbs

variable {pending waiting group : List Token} {op : Operator}

theorem nil : Climbs [] := by
  intro group hg _
  rw [List.infix_nil.1 hg]
  exact .nil

theorem of_append (h : Climbs (pending ++ waiting)) : Climbs waiting :=
  fun group hg => h group (hg.trans (List.suffix_append pending waiting).isInfix)

theorem of_cons {w : Token} (h : Climbs (w :: waiting)) : Climbs waiting :=
  fun group hg => h group (hg.trans (List.suffix_cons w waiting).isInfix)

/-- A group does not reach over a parenthesis. -/
theorem opening (h : Climbs waiting) (s : Span) : Climbs (⟨.paren .opening, s⟩ :: waiting) := by
  intro group hg hoperator
  rcases List.infix_cons_iff.1 hg with hg | hg
  · rcases group with _ | ⟨w, group⟩
    · exact .nil
    · obtain ⟨rfl, -⟩ := List.cons_prefix_cons.1 hg
      cases hoperator _ List.mem_cons_self
  · exact h group hg hoperator

/-- An operator binds tighter than the one that it does not release, and so than all below that one.
-/
theorem lt_of_prefix (h : Climbs waiting) (hw : ∀ w ∈ waiting.head?, yieldsTo op w = false)
    (hg : group <+: waiting) (hoperator : ∀ w ∈ group, w.operator?.isSome = true) :
    ∀ lower ∈ group.filterMap operator?, lower.precedence < op.precedence := by
  rcases group with _ | ⟨w, group⟩
  · simp
  · have hclimbs := h _ hg.isInfix hoperator
    obtain ⟨rest, rfl⟩ := hg
    obtain ⟨top, htop⟩ := Option.isSome_iff_exists.1 (hoperator w List.mem_cons_self)
    have hlt : top.precedence < op.precedence := by
      have hstays := hw w rfl
      simp only [yieldsTo, htop, decide_eq_false_iff_not] at hstays
      omega
    rw [List.filterMap_cons_some htop] at hclimbs ⊢
    rintro lower (_ | ⟨_, hlower⟩)
    · exact hlt
    · exact Nat.lt_trans (List.rel_of_pairwise_cons hclimbs hlower) hlt

theorem operator (h : Climbs waiting) (hw : ∀ w ∈ waiting.head?, yieldsTo op w = false)
    (s : Span) : Climbs (⟨.operator op, s⟩ :: waiting) := by
  intro group hg hoperator
  rcases List.infix_cons_iff.1 hg with hg | hg
  · rcases group with _ | ⟨w, group⟩
    · exact .nil
    · obtain ⟨rfl, hrest⟩ := List.cons_prefix_cons.1 hg
      obtain ⟨-, hgroup⟩ := List.forall_mem_cons.1 hoperator
      exact .cons (h.lt_of_prefix hw hrest hgroup) (h group hrest.isInfix hgroup)
  · exact h group hg hoperator

end Climbs

theorem climbs_of_moves {o o' : Reordering} {t : Token} (h : Moves o t o')
    (ho : Climbs o.waiting) : Climbs o'.waiting := by
  cases h with
  | number => exact ho
  | operator _ hw => exact ho.of_append.operator hw _
  | opening => exact ho.opening _
  | closing => exact ho.of_append.of_cons

theorem climbs_of_run {ts : List Token} {o : Reordering} (h : ts.foldlM step .start = .ok o) :
    Climbs o.waiting :=
  foldlM_induction (P := fun _ o => Climbs o.waiting) .nil
    (fun _ _ _ _ ih hs => climbs_of_moves (step_eq_ok_iff.1 hs) ih) h

section Height

variable {waiting : List Token}

/-- Between the two precedences there is room for two operators. -/
theorem length_le_two : ∀ {ops : List Operator},
    ops.Pairwise (fun upper lower => lower.precedence < upper.precedence) → ops.length ≤ 2
  | [], _ => by simp
  | [_], _ => by simp
  | [_, _], _ => by simp
  | first :: second :: third :: _, h => by
    have hsecond : second.precedence < first.precedence :=
      List.rel_of_pairwise_cons h List.mem_cons_self
    have hthird : third.precedence < second.precedence :=
      List.rel_of_pairwise_cons h.of_cons List.mem_cons_self
    have hlow : 1 ≤ third.precedence := by cases third <;> decide
    have hhigh : first.precedence ≤ 2 := by cases first <;> decide
    omega

theorem Climbs.length_le (h : Climbs waiting) {group : List Token} (hg : group <:+: waiting)
    (hoperator : ∀ w ∈ group, w.operator?.isSome = true) : group.length ≤ 2 := by
  rw [← List.filterMap_length_eq_length.2 hoperator]
  exact length_le_two (h group hg hoperator)

/-- The operators that wait above the topmost opening parenthesis. -/
def topGroup (waiting : List Token) : List Token :=
  waiting.takeWhile fun w => w.operator?.isSome

theorem Climbs.length_topGroup_le (h : Climbs waiting) : (topGroup waiting).length ≤ 2 := by
  refine h.length_le (List.takeWhile_prefix _).isInfix fun w hw => ?_
  exact List.mem_takeWhile_imp (p := fun w : Token => w.operator?.isSome) hw

/-- Below the topmost group there are, for each open parenthesis, the parenthesis and at most two
operators. -/
theorem Climbs.length_le_add : ∀ {waiting : List Token}, Climbs waiting →
    (∀ w ∈ waiting, w.operator?.isSome = true ∨ isOpening w = true) →
      waiting.length ≤ 3 * (waiting.filter isOpening).length + (topGroup waiting).length
  | [], _, _ => by simp
  | w :: waiting, h, hw => by
    obtain ⟨hw, hwaiting⟩ := List.forall_mem_cons.1 hw
    have ih := length_le_add h.of_cons hwaiting
    rcases hw with hw | hw
    · have hopening : isOpening w = false := by simp [isOpening, paren?_of_operator? hw]
      have htop : topGroup (w :: waiting) = w :: topGroup waiting := List.takeWhile_cons_of_pos hw
      rw [List.filter_cons_of_neg (by simp [hopening]), htop, List.length_cons, List.length_cons]
      omega
    · have htop := h.of_cons.length_topGroup_le
      rw [List.filter_cons_of_pos hw, List.length_cons, List.length_cons]
      omega

end Height

/-- The states of a pass that has taken `tokens`: between two tokens, and while the next token or
the end releases operators of the topmost group, one by one. -/
inductive Reached (tokens : List Token) : Reordering → Prop
  | taken {o : Reordering} (h : tokens.foldlM step .start = .ok o) : Reached tokens o
  | releasing {released waiting : List Token} {w : Token}
    (h : Reached tokens ⟨released, w :: waiting⟩) (hw : isOpening w = false) :
    Reached tokens ⟨w :: released, waiting⟩

/-- What a step releases, it releases through such states. -/
theorem Reached.release {tokens : List Token} {p : Token → Bool}
    (hp : ∀ w, p w = true → isOpening w = false) : ∀ {waiting released : List Token},
    Reached tokens ⟨released, waiting⟩ → Reached tokens (release p ⟨released, waiting⟩)
  | [], _, h => h
  | w :: waiting, released, h => by
    rcases hw : p w with _ | _
    · simpa [Reordering.release, hw] using h
    · simpa [Reordering.release, hw] using Reached.release hp (h.releasing (hp w hw))

/-- What holds in every state of a pass. -/
structure Orderly (tokens : List Token) (o : Reordering) : Prop where
  waiting : ∀ w ∈ o.waiting, w.operator?.isSome = true ∨ isOpening w = true
  climbs : Climbs o.waiting
  /-- At most two operators wait in one group. -/
  pair : ∀ group, group <:+: o.waiting → (∀ w ∈ group, w.operator?.isSome = true) →
    group.length ≤ 2
  height : o.waiting.length ≤ 3 * o.openings.length + 2
  /-- The numbers and operators taken are those released and the operators that wait. -/
  kept : (o.released ++ o.waiting.filter fun w => w.operator?.isSome).Perm
    (tokens.filter fun t => t.paren?.isNone)
  /-- The parentheses that wait are those without a partner, the latest on top. -/
  unclosed : o.openings.reverse = unclosed tokens

variable {tokens : List Token} {o : Reordering}

theorem perm_of_run (h : tokens.foldlM step .start = .ok o) :
    (o.released ++ o.waiting.filter fun w => w.operator?.isSome).Perm
      (tokens.filter fun t => t.paren?.isNone) := by
  have htidy := tidy_of_run h
  have hperm := filter_perm_of_run (p := fun t => t.paren?.isNone) (fun _ _ => rfl) h
  have hreleased : o.released.filter (fun t => t.paren?.isNone) = o.released :=
    List.filter_eq_self.2 fun t ht => by simp [htidy.released t ht]
  have hwaiting : o.waiting.filter (fun w => w.paren?.isNone)
      = o.waiting.filter fun w => w.operator?.isSome := by
    refine List.filter_congr fun w hw => ?_
    rcases htidy.waiting w hw with hw | hw
    · simp [paren?_of_operator? hw, hw]
    · obtain ⟨s, rfl⟩ := eq_opening_of_isOpening hw
      rfl
  rwa [List.filter_append, hreleased, hwaiting] at hperm

theorem orderly_of_run (h : tokens.foldlM step .start = .ok o) : Orderly tokens o where
  waiting := (tidy_of_run h).waiting
  climbs := climbs_of_run h
  pair _ := (climbs_of_run h).length_le
  height := by
    have hheight := (climbs_of_run h).length_le_add (tidy_of_run h).waiting
    have htop := (climbs_of_run h).length_topGroup_le
    rw [openings]
    omega
  kept := perm_of_run h
  unclosed := (unclosed_of_nested (nested_of_run h)).symm

theorem openings_of_releasing {released waiting : List Token} {w : Token}
    (hw : isOpening w = false) :
    openings ⟨w :: released, waiting⟩ = openings ⟨released, w :: waiting⟩ :=
  (List.filter_cons_of_neg (by simp [hw])).symm

/-- An operator on top may be released before the next token is taken. -/
theorem Orderly.releasing {released waiting : List Token} {w : Token}
    (h : Orderly tokens ⟨released, w :: waiting⟩) (hw : isOpening w = false) :
    Orderly tokens ⟨w :: released, waiting⟩ where
  waiting v hv := h.waiting v (List.mem_cons_of_mem w hv)
  climbs := h.climbs.of_cons
  pair group hg := h.pair group (hg.trans (List.suffix_cons w waiting).isInfix)
  height := by
    rw [openings_of_releasing hw]
    exact Nat.le_of_succ_le h.height
  kept := by
    have hoperator := (h.waiting w List.mem_cons_self).resolve_right (by simp [hw])
    have hfilter : (w :: waiting).filter (fun v => v.operator?.isSome)
        = w :: waiting.filter fun v => v.operator?.isSome :=
      List.filter_cons_of_pos (p := fun v : Token => v.operator?.isSome) hoperator
    refine List.Perm.trans ?_ h.kept
    rw [hfilter]
    exact List.perm_middle.symm
  unclosed := (congrArg List.reverse (openings_of_releasing hw)).trans h.unclosed

/-- In every state of a pass, whatever the tokens are, at most two operators wait in a group, the
upper one binding tighter; the stack has no more than three tokens for each open parenthesis, and
two more; all numbers and operators taken have been released or wait; and the parentheses that wait
are those without a partner. -/
theorem orderly_of_reached (h : Reached tokens o) : Orderly tokens o := by
  induction h with
  | taken h => exact orderly_of_run h
  | releasing _ hw ih => exact ih.releasing hw

/-- Two groups are open, and two operators wait in each, as they do outside. -/
theorem orderly_of_reached_full :
    let tokens : List Token := [⟨.operator .sub, ⟨0, 1⟩⟩, ⟨.paren .opening, ⟨1, 2⟩⟩,
      ⟨.number "2", ⟨2, 3⟩⟩, ⟨.paren .closing, ⟨3, 4⟩⟩, ⟨.operator .mul, ⟨4, 5⟩⟩,
      ⟨.paren .opening, ⟨5, 6⟩⟩, ⟨.operator .mul, ⟨6, 7⟩⟩, ⟨.operator .add, ⟨7, 8⟩⟩,
      ⟨.operator .div, ⟨8, 9⟩⟩, ⟨.paren .opening, ⟨9, 10⟩⟩, ⟨.operator .sub, ⟨10, 11⟩⟩,
      ⟨.operator .div, ⟨11, 12⟩⟩]
    let o : Reordering := ⟨[⟨.operator .mul, ⟨6, 7⟩⟩, ⟨.number "2", ⟨2, 3⟩⟩],
      [⟨.operator .div, ⟨11, 12⟩⟩, ⟨.operator .sub, ⟨10, 11⟩⟩, ⟨.paren .opening, ⟨9, 10⟩⟩,
        ⟨.operator .div, ⟨8, 9⟩⟩, ⟨.operator .add, ⟨7, 8⟩⟩, ⟨.paren .opening, ⟨5, 6⟩⟩,
        ⟨.operator .mul, ⟨4, 5⟩⟩, ⟨.operator .sub, ⟨0, 1⟩⟩]⟩
    Reached tokens o ∧ Orderly tokens o ∧ o.waiting.length = 3 * o.openings.length + 2 := by
  intro tokens o
  have h : Reached tokens o := .taken rfl
  exact ⟨h, orderly_of_reached h, rfl⟩

end Reordering

end Calculator

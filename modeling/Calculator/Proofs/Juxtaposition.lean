import Calculator.Proofs.Forest
import Calculator.Proofs.Grammar
import Calculator.Proofs.Parentheses
import Mathlib.Data.List.Chain

/-!
# What is calculated beyond the infix language

Neither the reordering nor the evaluation looks at the neighbours of a token, and some strings that
are no expressions have a value, such as `2 3 +`. All of them have two operands side by side. Where
no two operands stand so, each level of parentheses has at most one operand more than operators, and
as a value needs exactly one more in all, every level has, which makes it an expression
(`isExpression_of_separated`).
-/

namespace Calculator

open Token

namespace Token

/-- An operand may begin with this token. -/
def opensOperand (t : Token) : Bool :=
  match t.lexeme with
  | .number _ | .paren .opening => true
  | _ => false

/-- An operand may end with this token. -/
def closesOperand (t : Token) : Bool :=
  match t.lexeme with
  | .number _ | .paren .closing => true
  | _ => false

end Token

/-- No two operands stand side by side. -/
def Separated (ts : List Token) : Prop :=
  ts.IsChain fun a b => a.closesOperand = true → b.opensOperand = false

instance (ts : List Token) : Decidable (Separated ts) :=
  inferInstanceAs (Decidable (ts.IsChain _))

theorem separated_of_derives {level : Level} {ts : List Token} {t : Tree}
    (h : Derives level ts t) : Separated ts := by
  induction h with
  | number => exact List.isChain_singleton _
  | group _ ih =>
    refine List.isChain_cons.2 ⟨fun _ _ h => absurd h Bool.false_ne_true, ?_⟩
    refine List.isChain_append.2 ⟨ih, List.isChain_singleton _, ?_⟩
    rintro x - y hy -
    cases hy
    rfl
  | factor _ ih => exact ih
  | term _ ih => exact ih
  | multiply _ _ _ ihl ihr | add _ _ _ ihl ihr =>
    refine List.isChain_append.2
      ⟨ihl, List.isChain_cons.2 ⟨fun _ _ h => absurd h Bool.false_ne_true, ihr⟩, ?_⟩
    rintro x - y hy -
    cases hy
    rfl

/-- The tokens end where an operand may follow. -/
def Awaits (ts : List Token) : Prop :=
  ∀ t ∈ ts.getLast?, t.closesOperand = false

/-- The tokens are the beginning of an expression that lacks an operand next. -/
def Lacks (ts : List Token) : Prop :=
  ts = [] ∨ ∃ es op s, ts = es ++ [⟨.operator op, s⟩] ∧ IsExpression es

theorem isExpression_multiply {es rs : List Token} {op : Operator} {s : Span} {r : Tree}
    (he : IsExpression es) (hop : op = .mul ∨ op = .div) (hr : Derives .factor rs r) :
    IsExpression (es ++ ⟨.operator op, s⟩ :: rs) := by
  obtain ⟨t, ht⟩ := he
  cases ht with
  | term ht => exact ⟨_, .term (.multiply ht hop hr)⟩
  | add hl hop' hr' => exact ⟨_, by simpa using Derives.add hl hop' (.multiply hr' hop hr)⟩

theorem isExpression_of_lacks {ts rs : List Token} {r : Tree} (h : Lacks ts)
    (hr : Derives .factor rs r) : IsExpression (ts ++ rs) := by
  rcases h with rfl | ⟨es, op, s, rfl, he⟩
  · exact ⟨r, .term (.factor hr)⟩
  · rw [List.append_assoc, List.singleton_append]
    cases op with
    | add => exact he.elim fun t ht => ⟨_, .add ht (.inl rfl) (.factor hr)⟩
    | sub => exact he.elim fun t ht => ⟨_, .add ht (.inr rfl) (.factor hr)⟩
    | mul => exact isExpression_multiply he (.inl rfl) hr
    | div => exact isExpression_multiply he (.inr rfl) hr

/-- What the numbers of operands and of operators tell about tokens without juxtaposed operands. -/
structure Counted (ts : List Token) : Prop where
  le : (numbers ts).length ≤ (operators ts).length + 1
  expression : (numbers ts).length = (operators ts).length + 1 → IsExpression ts
  awaits_le : Awaits ts → (numbers ts).length ≤ (operators ts).length
  lacks : Awaits ts → (numbers ts).length = (operators ts).length → Lacks ts

namespace Counted

variable {ts : List Token}

theorem nil : Counted [] where
  le := by simp
  expression := by simp
  awaits_le := by simp
  lacks := fun _ _ => .inl rfl

theorem operand (h : Counted ts) (hts : Awaits ts) {us : List Token}
    (hle : (numbers us).length ≤ (operators us).length + 1)
    (hus : (numbers us).length = (operators us).length + 1 → ∃ t, Derives .factor us t)
    (hend : ¬ Awaits (ts ++ us)) : Counted (ts ++ us) where
  le := by
    have := h.awaits_le hts
    simp only [numbers_append, operators_append, List.length_append]
    omega
  expression := by
    have := h.awaits_le hts
    simp only [numbers_append, operators_append, List.length_append]
    intro heq
    obtain ⟨t, ht⟩ := hus (by omega)
    exact isExpression_of_lacks (h.lacks hts (by omega)) ht
  awaits_le := fun ha => absurd ha hend
  lacks := fun ha => absurd ha hend

theorem operator (h : Counted ts) (op : Operator) (s : Span) :
    Counted (ts ++ [⟨.operator op, s⟩]) := by
  have hle := h.le
  have hnumbers : (numbers (ts ++ [⟨.operator op, s⟩])).length = (numbers ts).length := by simp
  have hoperators : (operators (ts ++ [⟨.operator op, s⟩])).length = (operators ts).length + 1 := by
    simp
  constructor
  · omega
  · intro heq
    omega
  · intro _
    omega
  · intro _ heq
    exact .inr ⟨ts, op, s, rfl, h.expression (by omega)⟩

end Counted

theorem awaits_of_separated {ts us : List Token} {u : Token} (h : Separated (ts ++ u :: us))
    (hu : u.opensOperand = true) : Awaits ts := by
  intro t ht
  by_contra hc
  have := (List.isChain_append.1 h).2.2 t ht u rfl (by simpa using hc)
  rw [hu] at this
  cases this

theorem not_awaits_concat {ts : List Token} {t : Token} (h : t.closesOperand = true) :
    ¬ Awaits (ts ++ [t]) := by
  intro ha
  have := ha t (by simp)
  rw [h] at this
  cases this

theorem counted_of_balanced {ts : List Token} (h : Balanced ts) : Separated ts → Counted ts := by
  induction h with
  | nil => exact fun _ => .nil
  | @token ts t _ ht ih =>
    intro hs
    have hts : Separated ts := (List.isChain_append.1 hs).1
    obtain ⟨literal | op | p, s⟩ := t
    · exact (ih hts).operand (awaits_of_separated hs rfl) le_rfl (fun _ => ⟨_, .number⟩)
        (not_awaits_concat rfl)
    · exact (ih hts).operator op s
    · cases ht
  | @group ts inner o c _ _ ih ihi =>
    intro hs
    obtain ⟨hts, hgroup, -⟩ := List.isChain_append.1 hs
    have hinner : Counted inner :=
      ihi (List.isChain_append.1 (List.isChain_cons.1 hgroup).2).1
    refine (ih hts).operand (awaits_of_separated hs rfl) ?_ ?_ ?_
    · simpa using hinner.le
    · intro heq
      obtain ⟨t, ht⟩ := hinner.expression (by simpa using heq)
      exact ⟨t, .group ht⟩
    · rw [← List.append_assoc]
      exact not_awaits_concat rfl

theorem isExpression_of_separated {ts : List Token} (hb : Balanced ts) (hs : Separated ts)
    (hn : (numbers ts).length = (operators ts).length + 1) : IsExpression ts :=
  (counted_of_balanced hb hs).expression hn

theorem length_numbers_of_postorder {ts : List Token} {t : Tree}
    (ho : postfixOrder ts = .ok t.postorder) :
    (numbers ts).length = (operators ts).length + 1 := by
  have hnumbers : (numbers t.postorder).length = (numbers ts).length :=
    (Reordering.filter_perm_of_postfixOrder (fun _ _ => rfl) ho).length_eq
  have hoperators : (operators t.postorder).length = (operators ts).length :=
    (Reordering.filter_perm_of_postfixOrder (fun _ _ => rfl) ho).length_eq
  have := Tree.length_numbers_postorder t
  omega

/-- A string that has a value is an expression of the infix language exactly when no two of its
operands stand side by side; its parentheses are matched and it has one number more than operators
in any case. -/
theorem isExpression_iff_separated_of_calculate {s : String} {v : Float}
    (h : calculate s = .ok v) :
    ∃ ts, scan s = .ok ts ∧ Balanced ts ∧
      (numbers ts).length = (operators ts).length + 1 ∧ (IsExpression ts ↔ Separated ts) := by
  obtain ⟨out, hout, hv⟩ := bind_eq_ok.1 h
  obtain ⟨ts, hs, ho⟩ := bind_eq_ok.1 hout
  have hb := balanced_of_postfixOrder ho
  obtain ⟨t, rfl, -⟩ := evaluate_eq_ok_iff.1 hv
  have hn := length_numbers_of_postorder ho
  exact ⟨ts, hs, hb, hn, fun ⟨_, ht⟩ => separated_of_derives ht,
    fun hsep => isExpression_of_separated hb hsep hn⟩

theorem isExpression_iff_separated_of_calculate_group :
    calculate "2*(3-1)" = .ok 4 ∧ ∃ ts, scan "2*(3-1)" = .ok ts ∧ Balanced ts ∧
      (numbers ts).length = (operators ts).length + 1 ∧ (IsExpression ts ↔ Separated ts) :=
  have hv : calculate "2*(3-1)" = .ok 4 := by decide +kernel
  ⟨hv, isExpression_iff_separated_of_calculate hv⟩

/-- The sum of two numbers is calculated with its operator written last. -/
theorem calculate_postfix_notation :
    calculate "2 3 +" = .ok 5 ∧ ¬ ∃ ts, scan "2 3 +" = .ok ts ∧ IsExpression ts := by
  refine ⟨by decide +kernel, ?_⟩
  rintro ⟨ts, hs, t, ht⟩
  have hscan : scan "2 3 +" = .ok [⟨.number "2", ⟨0, 1⟩⟩, ⟨.number "3", ⟨2, 3⟩⟩,
    ⟨.operator .add, ⟨4, 5⟩⟩] := by decide
  rw [hscan, Except.ok.injEq] at hs
  subst hs
  exact absurd (separated_of_derives ht) (by decide)

end Calculator

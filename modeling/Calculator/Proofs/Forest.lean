import Calculator.Proofs.Tree
import Mathlib.Data.List.Forall2

/-!
# The operand stack is a forest

Whatever tokens are evaluated, the operand stack holds the values and extents of the trees read so
far (`forest_of_run`). So what makes a token fail can be said without a stack: it is one of four
offences against the tokens before it (`Offends`), and the first offence decides the fault
(`run_eq_error_iff`). Tokens without an offence are the postorders of a forest, and have a value
when the forest is a single tree.
-/

namespace Calculator

open Token

/-- What is wrong with a token that stands behind `before`, and the fault it leads to. -/
inductive Offends (before : List Token) : Token → Fault → Prop
  | number {literal : String} {s : Span} (h : literalValue? literal = none) :
    Offends before ⟨.number literal, s⟩ (.invalidNumber s)
  | paren {p : Paren} {s : Span} : Offends before ⟨.paren p, s⟩ (.malformedExpression s)
  /-- Fewer than two operands are left by the tokens before. -/
  | operands {op : Operator} {s : Span}
    (h : (numbers before).length < (operators before).length + 2) :
    Offends before ⟨.operator op, s⟩ (.insufficientOperands s)
  /-- The tree directly before a division, which has a left operand too, is zero. -/
  | divisor {s : Span} {rest : List Token} {l r : Tree} {b : Float}
    (h : before = rest ++ l.postorder ++ r.postorder) (hv : r.value = .ok b)
    (hb : (b == 0) = true) : Offends before ⟨.operator .div, s⟩ (.divisionByZero s r.extent)

/-- No token offends against those before it. -/
def Sound (tokens : List Token) : Prop :=
  ∀ before t after f, tokens = before ++ t :: after → ¬ Offends before t f

/-- What is wrong with tokens that do not leave exactly one operand. -/
inductive Leftover (tokens : List Token) : Fault → Prop
  | nothing (h : tokens = []) : Leftover tokens (.malformedExpression (.single 0))
  | several {first last : Token} (h : (operators tokens).length + 2 ≤ (numbers tokens).length)
    (hf : (numbers tokens).head? = some first) (hl : (numbers tokens).getLast? = some last) :
    Leftover tokens (.malformedExpression (.across first.span last.span))

/-- The operand that a tree leaves on the stack. -/
structure Yields (t : Tree) (o : Operand) : Prop where
  value : t.value = .ok o.value
  span : o.span = t.extent

section Step

variable {before : List Token} {forest : List Tree} {stack : List Operand}

theorem combine_eq_error_iff {op : Operator} {s : Span} {a b : Operand} {f : Fault} :
    Operand.combine op s a b = .error f
      ↔ op = .div ∧ (b.value == 0) = true ∧ f = .divisionByZero s b.span := by
  simp only [Operand.combine]
  split_ifs with h
  · simp [h, eq_comm]
  · simpa using fun hop hb _ => h ⟨hop, hb⟩

theorem yields_combine {op : Operator} {s : Span} {l r : Tree} {a b o : Operand}
    (hl : Yields l a) (hr : Yields r b) (h : Operand.combine op s a b = .ok o) :
    Yields (.node op s l r) o := by
  simp only [Operand.combine] at h
  split_ifs at h with hz
  cases h
  exact ⟨by simp [Tree.value, hl.value, hr.value, hz], by simp [hl.span, hr.span]⟩

theorem grow_of_step (hf : List.Forall₂ Yields forest stack) {t : Token} {stack' : List Operand}
    (h : Operand.step stack t = .ok stack') :
    ∃ forest', Tree.grow forest t = some forest' ∧ List.Forall₂ Yields forest' stack' := by
  obtain ⟨literal | op | p, s⟩ := t
  · simp only [Operand.step] at h
    split at h
    · rename_i v hv
      cases h
      exact ⟨_, rfl, .cons ⟨by simp [Tree.value, hv], rfl⟩ hf⟩
    · cases h
  · rcases hf with _ | ⟨hr, _ | ⟨hl, hf⟩⟩
    · cases h
    · cases h
    · simp only [Operand.step] at h
      rcases hc : Operand.combine op s _ _ with f | o <;> rw [hc] at h <;> cases h
      exact ⟨_, rfl, .cons (yields_combine hl hr hc) hf⟩
  · cases h

/-- Trees that end the tokens read are the latest of the forest. -/
theorem latest_of_postorders {rest : List Token} {l r : Tree}
    (h : Tree.postorders forest = rest ++ l.postorder ++ r.postorder) :
    ∃ forest', forest = r :: l :: forest' := by
  rw [← Tree.foldlM_grow_eq_some_iff, List.foldlM_append, List.foldlM_append,
    Option.bind_eq_bind, Option.bind_eq_some_iff] at h
  obtain ⟨forest₁, h₁, h₂⟩ := h
  rw [Option.bind_eq_some_iff] at h₁
  obtain ⟨forest₀, -, h₀⟩ := h₁
  rw [Tree.foldlM_grow_postorder] at h₀ h₂
  cases h₀
  cases h₂
  exact ⟨forest₀, rfl⟩

theorem offends_of_step_operator (hb : Tree.postorders forest = before)
    (hf : List.Forall₂ Yields forest stack) {op : Operator} {s : Span} {f : Fault}
    (h : Operand.step stack ⟨.operator op, s⟩ = .error f) : Offends before ⟨.operator op, s⟩ f := by
  have hn := Tree.length_numbers_postorders forest
  rw [hb] at hn
  rcases hf with _ | ⟨hr, _ | ⟨hl, hf⟩⟩
  · cases h
    refine .operands ?_
    rw [List.length_nil] at hn
    omega
  · cases h
    refine .operands ?_
    rw [List.length_singleton] at hn
    omega
  · rename_i r b l a forest stack
    simp only [Operand.step] at h
    rcases hc : Operand.combine op s a b with f' | o <;> rw [hc] at h <;> cases h
    obtain ⟨rfl, hz, rfl⟩ := combine_eq_error_iff.1 hc
    have hsplit : before = Tree.postorders forest ++ l.postorder ++ r.postorder := by
      rw [← hb, Tree.postorders_cons, Tree.postorders_cons]
    rw [hr.span]
    exact .divisor hsplit hr.value hz

theorem step_of_offends_operator (hb : Tree.postorders forest = before)
    (hf : List.Forall₂ Yields forest stack) {op : Operator} {s : Span} {f : Fault}
    (h : Offends before ⟨.operator op, s⟩ f) : Operand.step stack ⟨.operator op, s⟩ = .error f := by
  cases h with
  | operands h =>
    have hn := Tree.length_numbers_postorders forest
    rw [hb] at hn
    rcases hf with _ | ⟨hr, _ | ⟨hl, hf⟩⟩
    · rfl
    · rfl
    · simp only [List.length_cons] at hn
      omega
  | divisor h hv hz =>
    obtain ⟨forest, rfl⟩ := latest_of_postorders (hb.trans h)
    rcases hf with _ | ⟨hr, _ | ⟨hl, hf⟩⟩
    have hb' := hr.value
    rw [hv] at hb'
    cases hb'
    simp only [Operand.step, combine_eq_error_iff.2 ⟨rfl, hz, rfl⟩, map_error, hr.span]

/-- Behind the postorders of a forest, with its operands on the stack, a step fails exactly for an
offence. -/
theorem step_eq_error_iff (hb : Tree.postorders forest = before)
    (hf : List.Forall₂ Yields forest stack) {t : Token} {f : Fault} :
    Operand.step stack t = .error f ↔ Offends before t f := by
  obtain ⟨literal | op | p, s⟩ := t
  · simp only [Operand.step]
    constructor
    · intro h
      split at h <;> cases h
      exact .number (by assumption)
    · rintro ⟨h⟩
      simp [h]
  · exact ⟨offends_of_step_operator hb hf, step_of_offends_operator hb hf⟩
  · constructor
    · intro h
      cases h
      exact .paren
    · rintro ⟨⟩
      rfl

end Step

/-- After any run the stack holds the operands of the forest that the tokens are read as. -/
theorem forest_of_run {tokens : List Token} {stack : List Operand}
    (h : tokens.foldlM Operand.step [] = .ok stack) :
    ∃ forest, Tree.postorders forest = tokens ∧ List.Forall₂ Yields forest stack := by
  refine foldlM_induction
    (P := fun tokens stack => ∃ forest, Tree.postorders forest = tokens ∧
      List.Forall₂ Yields forest stack) ⟨[], rfl, .nil⟩ ?_ h
  rintro tokens stack t stack' ⟨forest, rfl, hf⟩ hs
  obtain ⟨forest', hg, hf'⟩ := grow_of_step hf hs
  exact ⟨forest', Tree.postorders_of_grow hg, hf'⟩

theorem run_of_sound {tokens : List Token} (h : Sound tokens) :
    ∃ stack, tokens.foldlM Operand.step [] = .ok stack := by
  rcases hr : tokens.foldlM Operand.step [] with f | stack
  · obtain ⟨before, t, after, m, rfl, hm, ht⟩ := foldlM_eq_error_iff.1 hr
    obtain ⟨forest, hb, hf⟩ := forest_of_run hm
    exact absurd ((step_eq_error_iff hb hf).1 ht) (h before t after f rfl)
  · exact ⟨stack, rfl⟩

theorem sound_of_run {tokens : List Token} {stack : List Operand}
    (h : tokens.foldlM Operand.step [] = .ok stack) : Sound tokens := by
  rintro before t after f rfl ht
  obtain ⟨m, hm, hrest⟩ := foldlM_append_eq_ok.1 h
  obtain ⟨forest, hb, hf⟩ := forest_of_run hm
  rw [List.foldlM_cons, (step_eq_error_iff hb hf).2 ht] at hrest
  cases hrest

/-- A run fails exactly at the first token that offends. -/
theorem run_eq_error_iff {tokens : List Token} {f : Fault} :
    tokens.foldlM Operand.step [] = .error f ↔
      ∃ before t after, tokens = before ++ t :: after ∧ Sound before ∧ Offends before t f := by
  rw [foldlM_eq_error_iff]
  constructor
  · rintro ⟨before, t, after, m, rfl, hm, ht⟩
    obtain ⟨forest, hb, hf⟩ := forest_of_run hm
    exact ⟨before, t, after, rfl, sound_of_run hm, (step_eq_error_iff hb hf).1 ht⟩
  · rintro ⟨before, t, after, rfl, hs, ht⟩
    obtain ⟨m, hm⟩ := run_of_sound hs
    obtain ⟨forest, hb, hf⟩ := forest_of_run hm
    exact ⟨before, t, after, m, rfl, hm, (step_eq_error_iff hb hf).2 ht⟩

theorem yields_getLastD {forest : List Tree} {stack : List Operand}
    (hf : List.Forall₂ Yields forest stack) {t : Tree} {o : Operand} (h : Yields t o) :
    Yields (forest.getLastD t) (stack.getLastD o) := by
  induction hf generalizing t o with
  | nil => exact h
  | cons hu _ ih =>
    rw [List.getLastD_cons, List.getLastD_cons]
    exact ih hu

/-- Several operands reach from the first number to the last. -/
theorem finish_of_several {last next : Tree} {forest : List Tree} {a b : Operand}
    {stack : List Operand} (hl : Yields last b) (hn : Yields next a)
    (hf : List.Forall₂ Yields forest stack) {m n : Token}
    (hm : (numbers (Tree.postorders (last :: next :: forest))).head? = some m)
    (hn' : (numbers (Tree.postorders (last :: next :: forest))).getLast? = some n) :
    Operand.finish (b :: a :: stack) = .error (.malformedExpression (.across m.span n.span)) := by
  have hspan := (yields_getLastD (.cons hn hf) hl).span
  have hfirst := Tree.head?_numbers_postorders last (next :: forest)
  rw [hm, Option.map_some, Option.some.injEq] at hfirst
  have hlast := Tree.getLast?_numbers_postorders last (next :: forest)
  rw [hn', Option.map_some, Option.some.injEq] at hlast
  simp only [Operand.finish, hspan, hl.span, Span.across, Tree.extent, hfirst, hlast]

theorem finish_eq_error_iff {tokens : List Token} {stack : List Operand} {f : Fault}
    (h : tokens.foldlM Operand.step [] = .ok stack) :
    Operand.finish stack = .error f ↔ Leftover tokens f := by
  obtain ⟨forest, rfl, hf⟩ := forest_of_run h
  have hn := Tree.length_numbers_postorders forest
  rcases hf with _ | ⟨hb, _ | ⟨ha, hf⟩⟩
  · constructor
    · intro h
      cases h
      exact .nothing rfl
    · rintro (_ | ⟨h, -, -⟩)
      · rfl
      · simp at h
  · constructor
    · intro h
      cases h
    · simp only [List.length_cons, List.length_nil] at hn
      rintro (h | ⟨h, -, -⟩)
      · simp [h] at hn
      · omega
  · rename_i last b next a forest stack
    simp only [List.length_cons] at hn
    constructor
    · intro h
      obtain ⟨m, hm, -⟩ := Option.map_eq_some_iff.1
        (Tree.head?_numbers_postorders last (next :: forest))
      obtain ⟨n, hn', -⟩ := Option.map_eq_some_iff.1
        (Tree.getLast?_numbers_postorders last (next :: forest))
      rw [finish_of_several hb ha hf hm hn'] at h
      cases h
      exact .several (by omega) hm hn'
    · rintro (h | ⟨-, hm, hn'⟩)
      · simp [h] at hn
      · exact finish_of_several hb ha hf hm hn'

theorem evaluate_eq_ok_iff {tokens : List Token} {v : Float} :
    evaluate tokens = .ok v ↔ ∃ t : Tree, t.postorder = tokens ∧ t.value = .ok v := by
  constructor
  · intro h
    obtain ⟨stack, hr, hv⟩ := bind_eq_ok.1 h
    obtain ⟨forest, rfl, hf⟩ := forest_of_run hr
    rcases hf with _ | ⟨hb, _ | ⟨ha, hf⟩⟩
    · cases hv
    · cases hv
      exact ⟨_, by simp, hb.value⟩
    · cases hv
  · rintro ⟨t, rfl, h⟩
    rw [Tree.evaluate_postorder, h]

theorem evaluate_eq_error_iff {tokens : List Token} {f : Fault} :
    evaluate tokens = .error f ↔
      (∃ before t after, tokens = before ++ t :: after ∧ Sound before ∧ Offends before t f) ∨
        Sound tokens ∧ Leftover tokens f := by
  rw [evaluate, bind_eq_error, run_eq_error_iff]
  refine or_congr_right ⟨?_, ?_⟩
  · rintro ⟨stack, hr, h⟩
    exact ⟨sound_of_run hr, (finish_eq_error_iff hr).1 h⟩
  · rintro ⟨hs, h⟩
    obtain ⟨stack, hr⟩ := run_of_sound hs
    exact ⟨stack, hr, (finish_eq_error_iff hr).2 h⟩

/-- The evaluation of any token list: it has a value exactly when it is the postorder of a tree
that has this value, and the tree is the only one; otherwise the first token that offends tells the
fault, and if none does, what is left over. -/
theorem evaluate_outcome (tokens : List Token) :
    (∀ v, evaluate tokens = .ok v ↔
      ∃ t : Tree, (t.postorder = tokens ∧ ∀ t' : Tree, t'.postorder = tokens → t' = t) ∧
        t.value = .ok v) ∧
    ∀ f, evaluate tokens = .error f ↔
      (∃ before t after, tokens = before ++ t :: after ∧ Sound before ∧ Offends before t f) ∨
        Sound tokens ∧ Leftover tokens f := by
  refine ⟨fun v => ?_, fun f => evaluate_eq_error_iff⟩
  rw [evaluate_eq_ok_iff]
  constructor
  · rintro ⟨t, rfl, hv⟩
    exact ⟨t, ⟨rfl, fun t' ht' => Tree.postorder_injective ht'⟩, hv⟩
  · rintro ⟨t, ⟨ht, -⟩, hv⟩
    exact ⟨t, ht, hv⟩

end Calculator

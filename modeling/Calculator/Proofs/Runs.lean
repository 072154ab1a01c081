import Calculator.Evaluation
import Mathlib.Data.List.Induction

/-!
# Runs that a fault can end

Ordering and evaluation fold a step over their tokens, and the first fault ends the fold. So a fold
fails exactly where a step fails behind a prefix that was taken whole (`foldlM_eq_error_iff`), and
what a step keeps, a fold keeps (`foldlM_induction`).
-/

namespace Calculator

variable {ε α β σ : Type}

@[simp] theorem ok_bind (a : α) (g : α → Except ε β) : ((Except.ok a : Except ε α) >>= g) = g a :=
  rfl

@[simp] theorem error_bind (e : ε) (g : α → Except ε β) :
    ((Except.error e : Except ε α) >>= g) = .error e :=
  rfl

@[simp] theorem pure_eq_ok (a : α) : (pure a : Except ε α) = .ok a :=
  rfl

@[simp] theorem map_ok (g : α → β) (a : α) : (Except.ok a : Except ε α).map g = .ok (g a) :=
  rfl

@[simp] theorem map_error (g : α → β) (e : ε) : (Except.error e : Except ε α).map g = .error e :=
  rfl

@[simp] theorem mapError_ok {ε' : Type} (g : ε → ε') (a : α) :
    (Except.ok a : Except ε α).mapError g = .ok a :=
  rfl

@[simp] theorem mapError_error {ε' : Type} (g : ε → ε') (e : ε) :
    (Except.error e : Except ε α).mapError g = .error (g e) :=
  rfl

theorem bind_eq_ok {x : Except ε α} {g : α → Except ε β} {b : β} :
    (x >>= g) = .ok b ↔ ∃ a, x = .ok a ∧ g a = .ok b := by
  cases x <;> simp

theorem bind_eq_error {x : Except ε α} {g : α → Except ε β} {e : ε} :
    (x >>= g) = .error e ↔ x = .error e ∨ ∃ a, x = .ok a ∧ g a = .error e := by
  cases x <;> simp

theorem map_eq_error {x : Except ε α} {g : α → β} {e : ε} :
    x.map g = .error e ↔ x = .error e := by
  cases x <;> simp

section Fold

variable {f : σ → α → Except ε σ}

theorem foldlM_append_eq_ok {l l' : List α} {s s' : σ} :
    (l ++ l').foldlM f s = .ok s' ↔ ∃ m, l.foldlM f s = .ok m ∧ l'.foldlM f m = .ok s' := by
  rw [List.foldlM_append, bind_eq_ok]

theorem foldlM_eq_error_iff {e : ε} :
    ∀ {l : List α} {s : σ}, l.foldlM f s = .error e ↔
      ∃ before a after m, l = before ++ a :: after ∧ before.foldlM f s = .ok m ∧ f m a = .error e
  | [], s => by simp
  | b :: l, s => by
    rw [List.foldlM_cons, bind_eq_error]
    constructor
    · rintro (h | ⟨m, hm, h⟩)
      · exact ⟨[], b, l, s, rfl, rfl, h⟩
      · obtain ⟨before, a, after, n, rfl, hn, ha⟩ := foldlM_eq_error_iff.1 h
        exact ⟨b :: before, a, after, n, rfl, by simp [hm, hn], ha⟩
    · rintro ⟨_ | ⟨c, before⟩, a, after, n, hl, hn, ha⟩
      · simp only [List.nil_append, List.cons.injEq] at hl
        obtain ⟨rfl, rfl⟩ := hl
        simp only [List.foldlM_nil, pure_eq_ok, Except.ok.injEq] at hn
        subst hn
        exact .inl ha
      · simp only [List.cons_append, List.cons.injEq] at hl
        obtain ⟨rfl, rfl⟩ := hl
        rw [List.foldlM_cons, bind_eq_ok] at hn
        obtain ⟨m, hm, hn⟩ := hn
        exact .inr ⟨m, hm, foldlM_eq_error_iff.2 ⟨before, a, after, n, rfl, hn, ha⟩⟩

/-- A relation between what was read and the state reached, which each step keeps. -/
theorem foldlM_induction {P : List α → σ → Prop} {s : σ} (hs : P [] s)
    (hstep : ∀ l m a m', P l m → f m a = .ok m' → P (l ++ [a]) m') {l : List α} {s' : σ}
    (h : l.foldlM f s = .ok s') : P l s' := by
  induction l using List.reverseRecOn generalizing s' with
  | nil =>
    simp only [List.foldlM_nil, pure_eq_ok, Except.ok.injEq] at h
    exact h ▸ hs
  | append_singleton l a ih =>
    obtain ⟨m, hm, ha⟩ := foldlM_append_eq_ok.1 h
    simp only [List.foldlM_cons, List.foldlM_nil, bind_pure] at ha
    exact hstep l m a s' (ih hm) ha

/-- A fold commutes with maps of its states, its elements and its faults, if its steps do. -/
theorem foldlM_hom {ε' α' σ' : Type} {f' : σ' → α' → Except ε' σ'} (g : σ → σ') (k : α → α')
    (e : ε → ε') (hstep : ∀ s a, f' (g s) (k a) = ((f s a).map g).mapError e) (l : List α) (s : σ) :
    (l.map k).foldlM f' (g s) = ((l.foldlM f s).map g).mapError e := by
  induction l generalizing s with
  | nil => rfl
  | cons a l ih =>
    rw [List.map_cons, List.foldlM_cons, List.foldlM_cons, hstep]
    rcases f s a with x | s'
    · rfl
    · exact ih s'

end Fold

end Calculator

import Calculator.Proofs.Reordering
import Calculator.Proofs.Tree

/-!
# The grammar of expressions

An expression is a row of terms joined by `+` and `-`, a term a row of factors joined by `*` and
`/`, and a factor a number or an expression in parentheses; each row groups to the left. The tokens
of an expression are put into the postorder of its tree (`postfixOrder_of_derives`), so the grammar
is unambiguous (`derives_unique`) and calculating an expression evaluates its tree.

The invariant is about an operand that is read while a stack of looser operators waits: reading it
leaves behind its postorder, but for the operators that are still to be released (`Ordered`).
-/

namespace Calculator

inductive Level where
  | expr
  | term
  | factor
deriving DecidableEq, Repr

/-- The tokens of a level of the grammar, with the tree that they stand for. -/
inductive Derives : Level → List Token → Tree → Prop
  | number {literal : String} {s : Span} :
    Derives .factor [⟨.number literal, s⟩] (.leaf literal s)
  | group {ts : List Token} {t : Tree} {o c : Span} (h : Derives .expr ts t) :
    Derives .factor (⟨.paren .opening, o⟩ :: ts ++ [⟨.paren .closing, c⟩]) t
  | factor {ts : List Token} {t : Tree} (h : Derives .factor ts t) : Derives .term ts t
  | multiply {ls rs : List Token} {l r : Tree} {op : Operator} {s : Span}
    (hl : Derives .term ls l) (hop : op = .mul ∨ op = .div) (hr : Derives .factor rs r) :
    Derives .term (ls ++ ⟨.operator op, s⟩ :: rs) (.node op s l r)
  | term {ts : List Token} {t : Tree} (h : Derives .term ts t) : Derives .expr ts t
  | add {ls rs : List Token} {l r : Tree} {op : Operator} {s : Span}
    (hl : Derives .expr ls l) (hop : op = .add ∨ op = .sub) (hr : Derives .term rs r) :
    Derives .expr (ls ++ ⟨.operator op, s⟩ :: rs) (.node op s l r)

/-- The token sequences of the infix language. -/
def IsExpression (tokens : List Token) : Prop :=
  ∃ t, Derives .expr tokens t

/-- No operator that binds at least as tightly as `k` releases anything from this stack. -/
def Barrier (k : Nat) (waiting : List Token) : Prop :=
  ∀ op : Operator, k ≤ op.precedence → ∀ w ∈ waiting.head?, Reordering.yieldsTo op w = false

/-- Operators that bind at least as tightly as `k`. -/
def Tight (k : Nat) (pending : List Token) : Prop :=
  ∀ w ∈ pending, ∃ op s, w = ⟨.operator op, s⟩ ∧ k ≤ op.precedence

/-- Read behind a barrier, the tokens release the postorder of the tree, but for operators on top
of the stack that are released as soon as anything yields to `k`. -/
def Ordered (k : Nat) (ts : List Token) (t : Tree) : Prop :=
  ∀ o : Reordering, Barrier k o.waiting → ∃ pending released,
    ts.foldlM Reordering.step o = .ok ⟨released, pending ++ o.waiting⟩ ∧
      pending.reverse ++ released = t.postorder.reverse ++ o.released ∧ Tight k pending

theorem barrier_nil (k : Nat) : Barrier k [] := by
  simp [Barrier]

theorem barrier_opening (k : Nat) (s : Span) (waiting : List Token) :
    Barrier k (⟨.paren .opening, s⟩ :: waiting) := by
  simp [Barrier]

theorem barrier_operator {k : Nat} {op : Operator} (h : op.precedence < k) (s : Span)
    (waiting : List Token) : Barrier k (⟨.operator op, s⟩ :: waiting) := by
  simp only [Barrier, List.head?_cons, Option.mem_some_iff]
  rintro op' h' _ rfl
  simp only [Reordering.yieldsTo_operator, decide_eq_false_iff_not]
  omega

theorem Barrier.mono {k k' : Nat} {waiting : List Token} (h : Barrier k waiting) (hk : k ≤ k') :
    Barrier k' waiting :=
  fun op hop => h op (Nat.le_trans hk hop)

namespace Ordered

variable {k : Nat}

theorem mono {k' : Nat} {ts : List Token} {t : Tree} (h : Ordered k' ts t) (hk : k ≤ k') :
    Ordered k ts t := by
  intro o ho
  obtain ⟨pending, released, hrun, hout, htight⟩ := h o (ho.mono hk)
  refine ⟨pending, released, hrun, hout, fun w hw => ?_⟩
  obtain ⟨op, s, rfl, hop⟩ := htight w hw
  exact ⟨op, s, rfl, Nat.le_trans hk hop⟩

theorem number (literal : String) (s : Span) :
    Ordered k [⟨.number literal, s⟩] (.leaf literal s) :=
  fun o _ => ⟨[], _, rfl, rfl, by simp [Tight]⟩

/-- Within parentheses everything is released, so a group waits for nothing. -/
theorem group {ts : List Token} {t : Tree} (h : Ordered 1 ts t) (o c : Span) :
    Ordered k (⟨.paren .opening, o⟩ :: ts ++ [⟨.paren .closing, c⟩]) t := by
  intro r _
  obtain ⟨pending, released, hrun, hout, htight⟩ :=
    h ⟨r.released, ⟨.paren .opening, o⟩ :: r.waiting⟩ (barrier_opening 1 o r.waiting)
  refine ⟨[], t.postorder.reverse ++ r.released, ?_, rfl, by simp [Tight]⟩
  have hpending : ∀ w ∈ pending, Reordering.isOpening w = false := by
    intro w hw
    obtain ⟨op, s, rfl, -⟩ := htight w hw
    rfl
  have hopen := Reordering.step_of_moves
    (.opening : Reordering.Moves ⟨r.released, r.waiting⟩ ⟨.paren .opening, o⟩ _)
  rw [List.cons_append, List.foldlM_cons, hopen, ok_bind, List.foldlM_append, hrun, ok_bind,
    List.foldlM_cons, Reordering.step_of_moves (.closing hpending), ← hout]
  rfl

/-- An operator releases what its left operand left waiting, and then stands as a barrier before
its right operand, which binds more tightly. -/
theorem node {ls rs : List Token} {l r : Tree} {op : Operator} (hop : op.precedence = k)
    (s : Span) (hl : Ordered k ls l) (hr : Ordered (k + 1) rs r) :
    Ordered k (ls ++ ⟨.operator op, s⟩ :: rs) (.node op s l r) := by
  intro o ho
  obtain ⟨pending, released, hrun, hout, htight⟩ := hl o ho
  have hyield : ∀ w ∈ pending, Reordering.yieldsTo op w = true := by
    intro w hw
    obtain ⟨top, s', rfl, htop⟩ := htight w hw
    simpa [hop] using htop
  obtain ⟨pending', released', hrun', hout', htight'⟩ :=
    hr ⟨pending.reverse ++ released, ⟨.operator op, s⟩ :: o.waiting⟩
      (barrier_operator (by omega) s o.waiting)
  refine ⟨pending' ++ [⟨.operator op, s⟩], released', ?_, ?_, ?_⟩
  · have hmove := Reordering.step_of_moves
      (.operator hyield (ho op (Nat.le_of_eq hop.symm)) :
        Reordering.Moves ⟨released, pending ++ o.waiting⟩ ⟨.operator op, s⟩ _)
    rw [List.foldlM_append, hrun, ok_bind, List.foldlM_cons, hmove, ok_bind]
    simpa using hrun'
  · simp [hout', hout, Tree.postorder]
  · intro w hw
    rcases List.mem_append.1 hw with hw | hw
    · obtain ⟨top, s', rfl, htop⟩ := htight' w hw
      exact ⟨top, s', rfl, by omega⟩
    · exact ⟨op, s, List.mem_singleton.1 hw, Nat.le_of_eq hop.symm⟩

end Ordered

def Level.floor : Level → Nat
  | expr => 1
  | term => 2
  | factor => 3

theorem ordered_of_derives {level : Level} {ts : List Token} {t : Tree}
    (h : Derives level ts t) : Ordered level.floor ts t := by
  induction h with
  | number => exact .number _ _
  | group _ ih => exact ih.group _ _
  | factor _ ih => exact ih.mono (by decide)
  | multiply _ hop _ ihl ihr => exact ihl.node (by rcases hop with rfl | rfl <;> rfl) _ ihr
  | term _ ih => exact ih.mono (by decide)
  | add _ hop _ ihl ihr => exact ihl.node (by rcases hop with rfl | rfl <;> rfl) _ ihr

theorem finish_of_tight {k : Nat} {pending : List Token} (h : Tight k pending)
    (released : List Token) :
    Reordering.finish ⟨released, pending⟩ = .ok (released.reverse ++ pending) := by
  have hnone : pending.find? (fun w => w.paren?.isSome) = none := by
    rw [List.find?_eq_none]
    intro w hw
    obtain ⟨op, s, rfl, -⟩ := h w hw
    simp [Token.paren?]
  simp only [Reordering.finish, hnone]

theorem postfixOrder_of_derives {ts : List Token} {t : Tree} (h : Derives .expr ts t) :
    Token.postfixOrder ts = .ok t.postorder := by
  obtain ⟨pending, released, hrun, hout, htight⟩ :=
    ordered_of_derives h .start (barrier_nil _)
  have hrun' : ts.foldlM Reordering.step .start = .ok ⟨released, pending⟩ := by
    simpa [Reordering.start] using hrun
  have hpost : released.reverse ++ pending = t.postorder := by
    simpa [Reordering.start] using congrArg List.reverse hout
  rw [Token.postfixOrder, hrun', ok_bind, finish_of_tight htight, hpost]

theorem derives_unique {ts : List Token} {t t' : Tree} (h : Derives .expr ts t)
    (h' : Derives .expr ts t') : t = t' := by
  have hpost := postfixOrder_of_derives h
  rw [postfixOrder_of_derives h', Except.ok.injEq] at hpost
  exact (Tree.postorder_injective hpost).symm

theorem calculate_of_derives {s : String} {ts : List Token} {t : Tree}
    (hs : Token.scan s = .ok ts) (h : Derives .expr ts t) : calculate s = t.value := by
  rw [calculate, postfixTokens, hs, ok_bind, postfixOrder_of_derives h, ok_bind,
    Tree.evaluate_postorder]

/-- A string whose tokens form an expression is calculated as the value of its tree, the only one
that it has, and no fault but a bad literal or a zero divisor is ever told of it. -/
theorem calculate_expression {s : String} {ts : List Token} {t : Tree}
    (hs : Token.scan s = .ok ts) (h : Derives .expr ts t) :
    calculate s = t.value ∧ (∀ t', Derives .expr ts t' → t' = t) ∧
      ∀ f, calculate s = .error f →
        (∃ p, f = .invalidNumber p) ∨ ∃ p d, f = .divisionByZero p d := by
  have hv := calculate_of_derives hs h
  refine ⟨hv, fun t' h' => derives_unique h' h, fun f hf => ?_⟩
  rw [hv] at hf
  exact Tree.value_eq_error hf

/-- The fault of a subtraction that groups to the left, with the literals of the group it divides
by. -/
theorem calculate_expression_divisor :
    ∃ ts t, Token.scan "8-3-1/(2-2)" = .ok ts ∧ Derives .expr ts t ∧
      t.value = .error (.divisionByZero ⟨5, 6⟩ ⟨7, 10⟩) ∧
        calculate "8-3-1/(2-2)" = .error (.divisionByZero ⟨5, 6⟩ ⟨7, 10⟩) := by
  have hscan : Token.scan "8-3-1/(2-2)" = .ok [⟨.number "8", ⟨0, 1⟩⟩, ⟨.operator .sub, ⟨1, 2⟩⟩,
      ⟨.number "3", ⟨2, 3⟩⟩, ⟨.operator .sub, ⟨3, 4⟩⟩, ⟨.number "1", ⟨4, 5⟩⟩,
      ⟨.operator .div, ⟨5, 6⟩⟩, ⟨.paren .opening, ⟨6, 7⟩⟩, ⟨.number "2", ⟨7, 8⟩⟩,
      ⟨.operator .sub, ⟨8, 9⟩⟩, ⟨.number "2", ⟨9, 10⟩⟩, ⟨.paren .closing, ⟨10, 11⟩⟩] := by
    decide
  have hleft : Derives .expr _ (.node .sub ⟨1, 2⟩ (.leaf "8" ⟨0, 1⟩) (.leaf "3" ⟨2, 3⟩)) :=
    .add (.term (.factor .number)) (.inr rfl) (.factor .number)
  have hgroup : Derives .factor _ (.node .sub ⟨8, 9⟩ (.leaf "2" ⟨7, 8⟩) (.leaf "2" ⟨9, 10⟩)) :=
    .group (o := ⟨6, 7⟩) (c := ⟨10, 11⟩)
      (.add (.term (.factor .number)) (.inr rfl) (.factor .number))
  have hright : Derives .term _ (.node .div ⟨5, 6⟩ (.leaf "1" ⟨4, 5⟩)
      (.node .sub ⟨8, 9⟩ (.leaf "2" ⟨7, 8⟩) (.leaf "2" ⟨9, 10⟩))) :=
    .multiply (.factor .number) (.inr rfl) hgroup
  have hexpr := Derives.add (s := ⟨3, 4⟩) hleft (.inr rfl) hright
  have hvalue : Tree.value (.node .sub ⟨3, 4⟩
      (.node .sub ⟨1, 2⟩ (.leaf "8" ⟨0, 1⟩) (.leaf "3" ⟨2, 3⟩))
      (.node .div ⟨5, 6⟩ (.leaf "1" ⟨4, 5⟩)
        (.node .sub ⟨8, 9⟩ (.leaf "2" ⟨7, 8⟩) (.leaf "2" ⟨9, 10⟩)))) =
      .error (.divisionByZero ⟨5, 6⟩ ⟨7, 10⟩) := by
    decide +kernel
  exact ⟨_, _, hscan, hexpr, hvalue, (calculate_expression hscan hexpr).1.trans hvalue⟩

end Calculator

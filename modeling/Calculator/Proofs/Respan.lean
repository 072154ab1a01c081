import Calculator.Proofs.Forest

/-!
# Other positions

Ordering and evaluation look at the lexemes of their tokens only, and carry the spans along. So
when every span is replaced, the outcome is the same but for the spans of the fault
(`postfixOrder_respan`, `evaluate_respan`). Evaluation joins the spans of two operands, and the
replacement has to keep that. It cannot reach the fault of an empty list, which has no span of a
token.
-/

namespace Calculator

def Token.respan (h : Span → Span) (t : Token) : Token :=
  ⟨t.lexeme, h t.span⟩

def Operand.respan (h : Span → Span) (o : Operand) : Operand :=
  ⟨o.value, h o.span⟩

def Fault.respan (h : Span → Span) : Fault → Fault
  | .invalidCharacter c s => .invalidCharacter c (h s)
  | .mismatchedParentheses s => .mismatchedParentheses (h s)
  | .invalidNumber s => .invalidNumber (h s)
  | .insufficientOperands s => .insufficientOperands (h s)
  | .divisionByZero operator divisor => .divisionByZero (h operator) (h divisor)
  | .malformedExpression s => .malformedExpression (h s)

variable (h : Span → Span)

@[simp] theorem respan_lexeme (t : Token) : (t.respan h).lexeme = t.lexeme := rfl
@[simp] theorem respan_span (t : Token) : (t.respan h).span = h t.span := rfl
@[simp] theorem respan_operator? (t : Token) : (t.respan h).operator? = t.operator? := rfl
@[simp] theorem respan_paren? (t : Token) : (t.respan h).paren? = t.paren? := rfl

namespace Reordering

def respan (o : Reordering) : Reordering :=
  ⟨o.released.map (·.respan h), o.waiting.map (·.respan h)⟩

theorem release_respan (p : Token → Bool) (hp : ∀ t, p (t.respan h) = p t) (o : Reordering) :
    (o.respan h).release p = (o.release p).respan h := by
  have hcomp : p ∘ (fun t : Token => t.respan h) = p := funext hp
  simp only [release, respan, List.takeWhile_map, List.dropWhile_map, hcomp, List.map_append,
    List.map_reverse]

theorem step_respan (o : Reordering) (t : Token) :
    (o.respan h).step (t.respan h)
      = ((o.step t).map (·.respan h)).mapError (·.respan h) := by
  obtain ⟨_ | op | _ | _, s⟩ := t
  · rfl
  · simp only [step, Token.respan, release_respan h (yieldsTo op) fun _ => rfl]
    rfl
  · rfl
  · simp only [step, Token.respan, release_respan h (fun w => !isOpening w) fun _ => rfl]
    rcases o.release fun w => !isOpening w with ⟨released, _ | ⟨w, waiting⟩⟩ <;> rfl

theorem finish_respan (o : Reordering) :
    (o.respan h).finish
      = (o.finish.map (List.map (·.respan h))).mapError (·.respan h) := by
  have hcomp : (fun w : Token => w.paren?.isSome) ∘ (fun t : Token => t.respan h)
      = fun w => w.paren?.isSome := rfl
  simp only [finish, respan, List.find?_map, hcomp]
  rcases hp : o.waiting.find? (fun w => w.paren?.isSome) with _ | w
  · simp only [hp, Option.map_none, map_ok, mapError_ok, List.map_append, List.map_reverse]
  · simp only [hp, Option.map_some, map_error, mapError_error, respan_span, Fault.respan]

end Reordering

theorem postfixOrder_respan (ts : List Token) :
    Token.postfixOrder (ts.map (·.respan h))
      = ((Token.postfixOrder ts).map (List.map (·.respan h))).mapError (·.respan h) := by
  have hrun := foldlM_hom (Reordering.respan h) (Token.respan h) (Fault.respan h)
    (Reordering.step_respan h) ts .start
  rw [Token.postfixOrder, Token.postfixOrder]
  refine (congrArg (· >>= Reordering.finish) hrun).trans ?_
  rcases ts.foldlM Reordering.step .start with f | o
  · rfl
  · exact Reordering.finish_respan h o

variable {h} (hacross : ∀ a b, h (.across a b) = .across (h a) (h b))
include hacross

namespace Operand

theorem combine_respan (op : Operator) (s : Span) (a b : Operand) :
    combine op (h s) (a.respan h) (b.respan h)
      = ((combine op s a b).map (·.respan h)).mapError (·.respan h) := by
  have hmoved : combine op (h s) (a.respan h) (b.respan h)
      = if op = .div ∧ b.value == 0 then .error (.divisionByZero (h s) (h b.span))
        else .ok ⟨op.apply a.value b.value, .across (h a.span) (h b.span)⟩ := rfl
  rw [hmoved, combine]
  by_cases hz : op = .div ∧ (b.value == 0) = true
  · simp only [if_pos hz, map_error, mapError_error, Fault.respan]
  · simp only [if_neg hz, map_ok, mapError_ok, respan, hacross]

theorem step_respan (stack : List Operand) (t : Token) :
    step (stack.map (·.respan h)) (t.respan h)
      = ((step stack t).map (List.map (·.respan h))).mapError (·.respan h) := by
  obtain ⟨literal | op | p, s⟩ := t
  · simp only [step, Token.respan]
    rcases literalValue? literal with _ | v <;> rfl
  · rcases stack with _ | ⟨b, _ | ⟨a, rest⟩⟩
    · rfl
    · rfl
    · simp only [step, Token.respan, List.map_cons, combine_respan hacross]
      rcases combine op s a b with f | o <;> rfl
  · rfl

theorem finish_respan {stack : List Operand} (hne : stack ≠ []) :
    finish (stack.map (·.respan h)) = (finish stack).mapError (·.respan h) := by
  rcases stack with _ | ⟨b, _ | ⟨a, rest⟩⟩
  · exact absurd rfl hne
  · rfl
  · have hfirst : ((a :: rest).map (·.respan h)).getLastD (b.respan h)
        = ((a :: rest).getLastD b).respan h := by
      rw [List.getLastD_eq_getLast?, List.getLastD_eq_getLast?, List.getLast?_map,
        Option.getD_map]
    simp only [List.map_cons] at hfirst
    simp only [List.map_cons, finish, hfirst]
    simp [Except.mapError, Fault.respan, respan, hacross]

end Operand

theorem evaluate_respan {ts : List Token} (hne : ts ≠ []) :
    Token.evaluate (ts.map (·.respan h)) = (Token.evaluate ts).mapError (·.respan h) := by
  have hrun := foldlM_hom (List.map (Operand.respan h)) (Token.respan h) (Fault.respan h)
    (Operand.step_respan hacross) ts []
  rw [Token.evaluate, Token.evaluate]
  refine (congrArg (· >>= Operand.finish) hrun).trans ?_
  rcases hr : ts.foldlM Operand.step [] with f | stack
  · rfl
  · refine Operand.finish_respan hacross ?_
    rintro rfl
    -- an empty stack is left by no token
    obtain ⟨forest, rfl, hf⟩ := forest_of_run hr
    cases hf
    exact hne rfl

end Calculator

import Calculator.Proofs.Parentheses
import Calculator.Proofs.Tree

/-!
# Groups act as operands

Whatever stands around it, a group in parentheses is put into postfix order as a number is: it
releases what its tokens release by themselves, and leaves the waiting tokens as they were
(`acts_group`). So a number and a group may stand for one another in any tokens, expressions or not
(`postfixOrder_group`).

The steps of a run never look below an opening parenthesis, nor at the tokens released before, so
both may be put under a run (`Reordering.run_above`).
-/

namespace Calculator

open Token

namespace Reordering

/-- The state with more tokens released before and more of them waiting below. -/
def above (o below : Reordering) : Reordering :=
  ⟨o.released ++ below.released, o.waiting ++ below.waiting⟩

variable {o o' below : Reordering} {t : Token} {ts : List Token}

theorem moves_above (hb : ∀ w ∈ below.waiting.head?, isOpening w = true) (h : Moves o t o') :
    Moves (o.above below) t (o'.above below) := by
  obtain ⟨before, waits⟩ := below
  cases h with
  | number => exact .number
  | @operator _ _ waiting op s hp hw =>
    have hstays : ∀ w ∈ (waiting ++ waits).head?, yieldsTo op w = false := by
      rcases waiting with _ | ⟨v, waiting⟩
      · intro w hmem
        obtain ⟨s, rfl⟩ := eq_opening_of_isOpening (hb w hmem)
        rfl
      · exact hw
    simpa [above] using Moves.operator (s := s) hp hstays
  | opening => exact .opening
  | closing hp => simpa [above] using Moves.closing hp

theorem run_above (below : Reordering) (hb : ∀ w ∈ below.waiting.head?, isOpening w = true) :
    ∀ {ts : List Token} {o : Reordering}, ts.foldlM step o = .ok o' →
      ts.foldlM step (o.above below) = .ok (o'.above below)
  | [], o, h => by
    cases h
    rfl
  | t :: ts, o, h => by
    obtain ⟨m, hm, h⟩ := bind_eq_ok.1 h
    have hmoves := moves_above hb (step_eq_ok_iff.1 hm)
    rw [List.foldlM_cons, step_of_moves hmoves, ok_bind]
    exact run_above below hb h

/-- Tokens released before take no part in a run, whether it succeeds or not. -/
theorem step_above_released (released : List Token) (o : Reordering) (t : Token) :
    (o.above ⟨released, []⟩).step t = (o.step t).map (·.above ⟨released, []⟩) := by
  rcases h : o.step t with f | m
  · obtain ⟨c, rfl, hnone, rfl⟩ := step_eq_error_iff.1 h
    exact step_eq_error_iff.2 ⟨c, rfl, by simpa [above, openings] using hnone, rfl⟩
  · exact step_of_moves (moves_above (by simp) (step_eq_ok_iff.1 h))

theorem run_above_released (released : List Token) : ∀ (ts : List Token) (o : Reordering),
    ts.foldlM step (o.above ⟨released, []⟩)
      = (ts.foldlM step o).map (·.above ⟨released, []⟩)
  | [], _ => rfl
  | t :: ts, o => by
    rw [List.foldlM_cons, List.foldlM_cons, step_above_released]
    rcases o.step t with f | m
    · rfl
    · exact run_above_released released ts m

theorem finish_above_released (released : List Token) (o : Reordering) :
    (o.above ⟨released, []⟩).finish = o.finish.map (released.reverse ++ ·) := by
  simp only [finish, above, List.append_nil, List.reverse_append, List.append_assoc]
  split <;> rfl

end Reordering

/-- In any state the tokens release `out` and leave the waiting ones as they were. -/
def Acts (ts out : List Token) : Prop :=
  ∀ o : Reordering, ts.foldlM Reordering.step o = .ok ⟨out.reverse ++ o.released, o.waiting⟩

theorem acts_number (literal : String) (s : Span) :
    Acts [⟨.number literal, s⟩] [⟨.number literal, s⟩] :=
  fun _ => rfl

/-- The closing parenthesis releases what the end of the group's own run would. -/
theorem acts_group {ts out : List Token} (h : postfixOrder ts = .ok out) (p c : Span) :
    Acts (⟨.paren .opening, p⟩ :: ts ++ [⟨.paren .closing, c⟩]) out := by
  intro o
  obtain ⟨m, hrun, hfinish⟩ := bind_eq_ok.1 h
  obtain ⟨hnone, rfl⟩ := Reordering.finish_eq_ok_iff.1 hfinish
  have hinner := Reordering.run_above ⟨o.released, ⟨.paren .opening, p⟩ :: o.waiting⟩ (by simp) hrun
  have hpending : ∀ w ∈ m.waiting, Reordering.isOpening w = false := by
    intro w hw
    simp [Reordering.isOpening, hnone w hw]
  have hopen := Reordering.step_of_moves
    (.opening : Reordering.Moves ⟨o.released, o.waiting⟩ ⟨.paren .opening, p⟩ _)
  rw [List.cons_append, List.foldlM_cons, hopen, ok_bind]
  refine foldlM_append_eq_ok.2 ⟨_, hinner, ?_⟩
  rw [List.foldlM_cons, Reordering.above, Reordering.step_of_moves (.closing hpending), ok_bind]
  simp

/-- What is released before an operand that stands between `pre` and `post`, and what behind it. -/
def around (pre post : List Token) : Except Fault (List Token × List Token) := do
  let o ← pre.foldlM Reordering.step .start
  let after ← post.foldlM Reordering.step ⟨[], o.waiting⟩ >>= Reordering.finish
  pure (o.released.reverse, after)

theorem postfixOrder_of_acts {ts out : List Token} (h : Acts ts out) (pre post : List Token) :
    postfixOrder (pre ++ ts ++ post)
      = (around pre post).map fun (before, after) => before ++ out ++ after := by
  rw [postfixOrder, around, List.append_assoc, List.foldlM_append]
  rcases pre.foldlM Reordering.step .start with f | o
  · rfl
  · have habove : (⟨out.reverse ++ o.released, o.waiting⟩ : Reordering)
        = Reordering.above ⟨[], o.waiting⟩ ⟨out.reverse ++ o.released, []⟩ := by
      simp [Reordering.above]
    rw [ok_bind, List.foldlM_append, h o, ok_bind, ok_bind, habove, Reordering.run_above_released]
    rcases post.foldlM Reordering.step ⟨[], o.waiting⟩ with f | m
    · rfl
    · rw [map_ok, ok_bind, ok_bind, Reordering.finish_above_released]
      rcases m.finish with f | after <;> simp

theorem numbers_of_around {pre post before after : List Token}
    (h : around pre post = .ok (before, after)) : numbers before = numbers pre := by
  obtain ⟨o, hrun, h⟩ := bind_eq_ok.1 h
  obtain ⟨_, -, h⟩ := bind_eq_ok.1 h
  cases h
  exact (Reordering.tidy_of_run hrun).numbers

/-- A group whose tokens have a postfix order stands for a number anywhere. Either both fail, with
the same fault, or the postfix order with the number becomes that with the group when the number,
which comes out behind those of `pre`, is replaced by what the group releases. -/
theorem postfixOrder_group {ts out : List Token} (h : postfixOrder ts = .ok out)
    (pre post : List Token) (o c : Span) :
    (∃ f, (∀ literal s, postfixOrder (pre ++ [⟨.number literal, s⟩] ++ post) = .error f) ∧
        postfixOrder (pre ++ (⟨.paren .opening, o⟩ :: ts ++ [⟨.paren .closing, c⟩]) ++ post)
          = .error f) ∨
      ∃ before after, numbers before = numbers pre ∧
        (∀ literal s, postfixOrder (pre ++ [⟨.number literal, s⟩] ++ post)
          = .ok (before ++ [⟨.number literal, s⟩] ++ after)) ∧
        postfixOrder (pre ++ (⟨.paren .opening, o⟩ :: ts ++ [⟨.paren .closing, c⟩]) ++ post)
          = .ok (before ++ out ++ after) := by
  have hnumber (literal s) := postfixOrder_of_acts (acts_number literal s) pre post
  have hgroup := postfixOrder_of_acts (acts_group h o c) pre post
  rcases hs : around pre post with f | ⟨before, after⟩
  · rw [hs] at hgroup
    refine .inl ⟨f, fun literal s => ?_, hgroup⟩
    rw [hnumber, hs, map_error]
  · rw [hs] at hgroup
    refine .inr ⟨before, after, numbers_of_around hs, fun literal s => ?_, hgroup⟩
    rw [hnumber, hs, map_ok]

/-- A group without a left operand, in tokens that lack a right one. -/
theorem postfixOrder_group_operators :
    let ts : List Token := [⟨.operator .sub, ⟨3, 4⟩⟩, ⟨.number "3", ⟨4, 5⟩⟩]
    let out : List Token := [⟨.number "3", ⟨4, 5⟩⟩, ⟨.operator .sub, ⟨3, 4⟩⟩]
    let pre : List Token := [⟨.number "8", ⟨0, 1⟩⟩, ⟨.operator .add, ⟨1, 2⟩⟩]
    let post : List Token := [⟨.operator .mul, ⟨6, 7⟩⟩]
    postfixOrder ts = .ok out ∧ ∃ before after, numbers before = numbers pre ∧
      (∀ literal s, postfixOrder (pre ++ [⟨.number literal, s⟩] ++ post)
        = .ok (before ++ [⟨.number literal, s⟩] ++ after)) ∧
      postfixOrder (pre ++ (⟨.paren .opening, ⟨2, 3⟩⟩ :: ts ++ [⟨.paren .closing, ⟨5, 6⟩⟩]) ++ post)
        = .ok (before ++ out ++ after) := by
  intro ts out pre post
  have hout : postfixOrder ts = .ok out := rfl
  refine ⟨hout, (postfixOrder_group hout pre post ⟨2, 3⟩ ⟨5, 6⟩).resolve_left ?_⟩
  rintro ⟨f, hnumber, -⟩
  cases hnumber "1" ⟨2, 3⟩

end Calculator

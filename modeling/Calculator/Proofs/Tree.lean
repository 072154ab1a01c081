import Calculator.Proofs.Runs

/-!
# Expression trees

What an expression denotes is defined on its tree, without a stack: the left operand comes first,
then the right one, then the operator. Written in postorder a tree is a token list that can be read
back (`foldlM_grow_eq_some_iff`), so no two trees share one (`postorder_injective`), and running the
operand stack over it yields the tree's value (`evaluate_postorder`).
-/

namespace Calculator

namespace Token

def numbers (tokens : List Token) : List Token :=
  tokens.filter fun t => t.literal?.isSome

def operators (tokens : List Token) : List Token :=
  tokens.filter fun t => t.operator?.isSome

@[simp] theorem numbers_nil : numbers [] = [] := rfl
@[simp] theorem operators_nil : operators [] = [] := rfl

@[simp] theorem numbers_append (l l' : List Token) :
    numbers (l ++ l') = numbers l ++ numbers l' := by
  simp [numbers]

@[simp] theorem operators_append (l l' : List Token) :
    operators (l ++ l') = operators l ++ operators l' := by
  simp [operators]

@[simp] theorem numbers_cons_number (literal : String) (s : Span) (l : List Token) :
    numbers (⟨.number literal, s⟩ :: l) = ⟨.number literal, s⟩ :: numbers l := rfl
@[simp] theorem numbers_cons_operator (op : Operator) (s : Span) (l : List Token) :
    numbers (⟨.operator op, s⟩ :: l) = numbers l := rfl
@[simp] theorem numbers_cons_paren (p : Paren) (s : Span) (l : List Token) :
    numbers (⟨.paren p, s⟩ :: l) = numbers l := rfl
@[simp] theorem operators_cons_number (literal : String) (s : Span) (l : List Token) :
    operators (⟨.number literal, s⟩ :: l) = operators l := rfl
@[simp] theorem operators_cons_operator (op : Operator) (s : Span) (l : List Token) :
    operators (⟨.operator op, s⟩ :: l) = ⟨.operator op, s⟩ :: operators l := rfl
@[simp] theorem operators_cons_paren (p : Paren) (s : Span) (l : List Token) :
    operators (⟨.paren p, s⟩ :: l) = operators l := rfl

end Token

/-- A number literal, or an operator with its operands; each with the span it was read from. -/
inductive Tree where
  | leaf (literal : String) (span : Span)
  | node (op : Operator) (span : Span) (left right : Tree)
deriving DecidableEq, Repr

namespace Tree

def postorder : Tree → List Token
  | leaf literal s => [⟨.number literal, s⟩]
  | node op s l r => l.postorder ++ r.postorder ++ [⟨.operator op, s⟩]

def leftmost : Tree → Span
  | leaf _ s => s
  | node _ _ l _ => l.leftmost

def rightmost : Tree → Span
  | leaf _ s => s
  | node _ _ _ r => r.rightmost

/-- From the start of the first literal to the end of the last one. -/
def extent (t : Tree) : Span :=
  ⟨t.leftmost.start, t.rightmost.stop⟩

/-- The value of a tree, or the first fault met when the left operand is evaluated before the right
one and both before their operator. -/
def value : Tree → Except Fault Float
  | leaf literal s =>
    match literalValue? literal with
    | some v => .ok v
    | none => .error (.invalidNumber s)
  | node op s l r => do
    let a ← l.value
    let b ← r.value
    if op = .div ∧ b == 0 then .error (.divisionByZero s r.extent)
    else .ok (op.apply a b)

/-- Each operator is its operation on floats, and a quotient needs a divisor that is not zero. -/
theorem value_node (op : Operator) (s : Span) (l r : Tree) :
    (node op s l r).value = l.value >>= fun a => r.value >>= fun b =>
      match op with
      | .add => .ok (a + b)
      | .sub => .ok (a - b)
      | .mul => .ok (a * b)
      | .div => if b == 0 then .error (.divisionByZero s r.extent) else .ok (a / b) := by
  cases op <;> simp [value, Operator.apply]

@[simp] theorem extent_leaf (literal : String) (s : Span) : (leaf literal s).extent = s := rfl

@[simp] theorem extent_node (op : Operator) (s : Span) (l r : Tree) :
    (node op s l r).extent = .across l.extent r.extent := rfl

/-- A tree fails only for a literal or a divisor. -/
theorem value_eq_error : ∀ {t : Tree} {f : Fault}, t.value = .error f →
    (∃ s, f = .invalidNumber s) ∨ ∃ s d, f = .divisionByZero s d
  | leaf literal s, f, h => by
    simp only [value] at h
    split at h
    · cases h
    · cases h
      exact .inl ⟨s, rfl⟩
  | node op s l r, f, h => by
    simp only [value, bind_eq_error] at h
    rcases h with h | ⟨a, -, h | ⟨b, -, h⟩⟩
    · exact value_eq_error h
    · exact value_eq_error h
    · split_ifs at h
      cases h
      exact .inr ⟨s, r.extent, rfl⟩

/-- Takes one token of a postorder: a number is a tree by itself, and an operator joins the two
latest trees. The latest tree comes first. -/
def grow (forest : List Tree) (t : Token) : Option (List Tree) :=
  match t.lexeme, forest with
  | .number literal, forest => some (leaf literal t.span :: forest)
  | .operator op, r :: l :: rest => some (node op t.span l r :: rest)
  | _, _ => none

/-- The postorders of a forest, the earliest tree's first. -/
def postorders (forest : List Tree) : List Token :=
  forest.reverse.flatMap postorder

@[simp] theorem postorders_nil : postorders [] = [] := rfl

@[simp] theorem postorders_cons (t : Tree) (forest : List Tree) :
    postorders (t :: forest) = postorders forest ++ t.postorder := by
  simp [postorders]

theorem foldlM_grow_postorder :
    ∀ (t : Tree) (forest : List Tree), t.postorder.foldlM grow forest = some (t :: forest)
  | leaf _ _, _ => rfl
  | node op s l r, forest => by
    rw [postorder, List.foldlM_append, List.foldlM_append, foldlM_grow_postorder l]
    simp only [Option.bind_eq_bind, Option.bind_some]
    rw [foldlM_grow_postorder r]
    rfl

theorem foldlM_grow_postorders (forest : List Tree) :
    (postorders forest).foldlM grow [] = some forest := by
  induction forest with
  | nil => rfl
  | cons t forest ih =>
    rw [postorders_cons, List.foldlM_append, ih]
    exact foldlM_grow_postorder t forest

theorem postorders_of_grow {forest forest' : List Tree} {t : Token}
    (h : grow forest t = some forest') : postorders forest' = postorders forest ++ [t] := by
  obtain ⟨_ | op | _, s⟩ := t
  · cases h
    simp [postorder]
  · rcases forest with _ | ⟨r, _ | ⟨l, rest⟩⟩
    · cases h
    · cases h
    · cases h
      simp [postorder]
  · cases h

theorem foldlM_grow_eq_some_iff {tokens : List Token} {forest : List Tree} :
    tokens.foldlM grow [] = some forest ↔ postorders forest = tokens := by
  constructor
  · intro h
    induction tokens using List.reverseRecOn generalizing forest with
    | nil =>
      cases h
      rfl
    | append_singleton tokens t ih =>
      rw [List.foldlM_append, Option.bind_eq_bind, Option.bind_eq_some_iff] at h
      obtain ⟨before, hb, h⟩ := h
      simp only [List.foldlM_cons, List.foldlM_nil, bind_pure] at h
      rw [postorders_of_grow h, ih hb]
  · rintro rfl
    exact foldlM_grow_postorders forest

theorem postorders_injective {forest forest' : List Tree}
    (h : postorders forest = postorders forest') : forest = forest' := by
  have h' := foldlM_grow_postorders forest
  rw [h, foldlM_grow_postorders] at h'
  exact (Option.some.inj h').symm

theorem postorder_injective {t t' : Tree} (h : t.postorder = t'.postorder) : t = t' := by
  have : postorders [t] = postorders [t'] := by simpa using h
  exact (List.cons.inj (postorders_injective this)).1

theorem length_numbers_postorder : ∀ t : Tree,
    (Token.numbers t.postorder).length = (Token.operators t.postorder).length + 1
  | leaf _ _ => rfl
  | node op s l r => by
    have hl := length_numbers_postorder l
    have hr := length_numbers_postorder r
    simp only [postorder, Token.numbers_append, Token.operators_append,
      Token.numbers_cons_operator, Token.operators_cons_operator, Token.numbers_nil,
      Token.operators_nil, List.length_append, List.length_cons, List.length_nil]
    omega

theorem length_numbers_postorders (forest : List Tree) :
    (Token.numbers (postorders forest)).length
      = (Token.operators (postorders forest)).length + forest.length := by
  induction forest with
  | nil => rfl
  | cons t forest ih =>
    have ht := length_numbers_postorder t
    simp only [postorders_cons, Token.numbers_append, Token.operators_append, List.length_append,
      List.length_cons]
    omega

theorem head?_numbers_postorder : ∀ t : Tree,
    (Token.numbers t.postorder).head?.map (·.span) = some t.leftmost
  | leaf _ _ => rfl
  | node op s l r => by
    obtain ⟨n, hn, hs⟩ := Option.map_eq_some_iff.1 (head?_numbers_postorder l)
    simp [postorder, leftmost, hn, hs]

theorem getLast?_numbers_postorder : ∀ t : Tree,
    (Token.numbers t.postorder).getLast?.map (·.span) = some t.rightmost
  | leaf _ _ => rfl
  | node op s l r => by
    obtain ⟨n, hn, hs⟩ := Option.map_eq_some_iff.1 (getLast?_numbers_postorder r)
    simp [postorder, rightmost, List.getLast?_append, hn, hs]

theorem head?_numbers_postorders (t : Tree) (forest : List Tree) :
    (Token.numbers (postorders (t :: forest))).head?.map (·.span)
      = some (forest.getLastD t).leftmost := by
  induction forest generalizing t with
  | nil => simpa using head?_numbers_postorder t
  | cons u forest ih =>
    obtain ⟨n, hn, hs⟩ := Option.map_eq_some_iff.1 (ih u)
    rw [postorders_cons, Token.numbers_append, List.head?_append, hn, List.getLastD_cons, ← hs]
    rfl

theorem getLast?_numbers_postorders (t : Tree) (forest : List Tree) :
    (Token.numbers (postorders (t :: forest))).getLast?.map (·.span) = some t.rightmost := by
  obtain ⟨n, hn, hs⟩ := Option.map_eq_some_iff.1 (getLast?_numbers_postorder t)
  rw [postorders_cons, Token.numbers_append, List.getLast?_append, hn, ← hs]
  rfl

theorem foldlM_step_postorder : ∀ (t : Tree) (stack : List Operand),
    t.postorder.foldlM Operand.step stack = t.value.map fun v => ⟨v, t.extent⟩ :: stack
  | leaf literal s, stack => by
    simp only [postorder, List.foldlM_cons, List.foldlM_nil, bind_pure, Operand.step, value]
    rcases literalValue? literal with _ | v <;> rfl
  | node op s l r, stack => by
    rw [postorder, List.foldlM_append, List.foldlM_append, foldlM_step_postorder l, value]
    rcases l.value with f | a
    · rfl
    simp only [map_ok, ok_bind]
    rw [foldlM_step_postorder r]
    rcases r.value with f | b
    · rfl
    simp only [map_ok, ok_bind, List.foldlM_cons, List.foldlM_nil, bind_pure, Operand.step,
      Operand.combine]
    split_ifs <;> rfl

theorem evaluate_postorder (t : Tree) : Token.evaluate t.postorder = t.value := by
  rw [Token.evaluate, foldlM_step_postorder]
  rcases t.value with f | v <;> rfl

end Tree

end Calculator

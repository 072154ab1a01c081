import Calculator.Proofs.Parentheses

/-!
# When a token is released

A number is released where it stands. An operator is released by the first token behind it that
stands in the same group and binds no tighter, or by the parenthesis that closes the group, or at
the end (`ReleasedAt`). Balanced tokens come out in the order of these positions, and of several
operators released at once the latest comes first (`postfixOrder_of_balanced`).

The proof follows the positions of the waiting tokens (`Reordering.Waits`) and a log of what was
released where (`Reordering.Follows`) through the steps.
-/

namespace Calculator

/-- A token that releases an operator of its group: one that binds no tighter, or the parenthesis
that closes the group. -/
def Dismisses (t : Token) (op : Operator) : Prop :=
  t.paren? = some .closing ∨ ∃ op', t.operator? = some op' ∧ op'.precedence ≤ op.precedence

/-- Position `j` lies behind the operator at `i`, in the same group, and releases it. -/
def Frees (tokens : List Token) (i j : ℕ) : Prop :=
  i < j ∧ Balanced ((tokens.take j).drop (i + 1)) ∧
    ∃ op s t, tokens[i]? = some ⟨.operator op, s⟩ ∧ tokens[j]? = some t ∧ Dismisses t op

/-- The position at which the token at a position is released. -/
inductive ReleasedAt (tokens : List Token) : ℕ → ℕ → Prop
  | number {i : ℕ} {literal : String} {s : Span} (h : tokens[i]? = some ⟨.number literal, s⟩) :
    ReleasedAt tokens i i
  | freed {i r : ℕ} (h : Frees tokens i r) (hfirst : ∀ j < r, ¬ Frees tokens i j) :
    ReleasedAt tokens i r
  | kept {i : ℕ} {op : Operator} {s : Span} (h : tokens[i]? = some ⟨.operator op, s⟩)
    (hnever : ∀ j, ¬ Frees tokens i j) : ReleasedAt tokens i tokens.length

section Positions

variable {tokens : List Token} {i j r : ℕ} {t : Token}

theorem Frees.lt_length (h : Frees tokens i j) : j < tokens.length := by
  obtain ⟨-, -, _, _, t, -, ht, -⟩ := h
  exact (List.getElem?_eq_some_iff.1 ht).1

theorem not_frees_of_number {literal : String} {s : Span}
    (h : tokens[i]? = some ⟨.number literal, s⟩) : ¬ Frees tokens i j := by
  rintro ⟨-, -, _, _, _, hop, -⟩
  rw [h] at hop
  cases hop

/-- A token is released once. -/
theorem ReleasedAt.unique {r' : ℕ} (h : ReleasedAt tokens i r) (h' : ReleasedAt tokens i r') :
    r = r' := by
  cases h with
  | number h =>
    cases h' with
    | number => rfl
    | freed hf => exact absurd hf (not_frees_of_number h)
    | kept h' =>
      rw [h] at h'
      cases h'
  | freed hf hfirst =>
    cases h' with
    | number h' => exact absurd hf (not_frees_of_number h')
    | freed hf' hfirst' =>
      rcases Nat.lt_trichotomy r r' with hlt | heq | hgt
      · exact absurd hf (hfirst' r hlt)
      · exact heq
      · exact absurd hf' (hfirst r' hgt)
    | kept _ hnever => exact absurd hf (hnever r)
  | kept h hnever =>
    cases h' with
    | number h' =>
      rw [h] at h'
      cases h'
    | freed hf' => exact absurd hf' (hnever r')
    | kept => rfl

theorem frees_concat_of_lt (hj : j < tokens.length) :
    Frees (tokens ++ [t]) i j ↔ Frees tokens i j := by
  unfold Frees
  refine and_congr_right fun hij => ?_
  rw [List.take_append_of_le_length (Nat.le_of_lt hj), List.getElem?_append_left hj,
    List.getElem?_append_left (Nat.lt_trans hij hj)]

theorem frees_concat_length {op : Operator} {s : Span}
    (h : tokens[i]? = some ⟨.operator op, s⟩) : Frees (tokens ++ [t]) i tokens.length ↔
      Balanced (tokens.drop (i + 1)) ∧ Dismisses t op := by
  have hi : i < tokens.length := (List.getElem?_eq_some_iff.1 h).1
  unfold Frees
  rw [List.take_left, List.getElem?_append_left hi, List.getElem?_concat_length, h]
  constructor
  · rintro ⟨-, hb, _, _, _, hop, ht, hd⟩
    cases hop
    cases ht
    exact ⟨hb, hd⟩
  · rintro ⟨hb, hd⟩
    exact ⟨hi, hb, op, s, t, rfl, rfl, hd⟩

theorem ReleasedAt.concat (h : ReleasedAt tokens i r) (hr : r < tokens.length) (t : Token) :
    ReleasedAt (tokens ++ [t]) i r := by
  cases h with
  | number h => exact .number ((List.getElem?_append_left hr).trans h)
  | freed hf hfirst =>
    refine .freed ((frees_concat_of_lt hr).2 hf) fun j hj hf' => ?_
    exact hfirst j hj ((frees_concat_of_lt (Nat.lt_trans hj hr)).1 hf')
  | kept => exact absurd hr (Nat.lt_irrefl _)

/-- What the tokens read so far do not release can only be released by the next one. -/
theorem not_frees_concat (h : ∀ j, ¬ Frees tokens i j)
    (ht : ¬ Frees (tokens ++ [t]) i tokens.length) : ∀ j, ¬ Frees (tokens ++ [t]) i j := by
  intro j hf
  have hj := hf.lt_length
  rw [List.length_append, List.length_singleton] at hj
  rcases Nat.lt_succ_iff_lt_or_eq.1 hj with hlt | rfl
  · exact h j ((frees_concat_of_lt hlt).1 hf)
  · exact ht hf

theorem releasedAt_concat_length (h : ∀ j, ¬ Frees tokens i j)
    (ht : Frees (tokens ++ [t]) i tokens.length) :
    ReleasedAt (tokens ++ [t]) i tokens.length :=
  .freed ht fun j hj hf => h j ((frees_concat_of_lt hj).1 hf)

/-- Nothing stands behind the last token. -/
theorem not_frees_length (j : ℕ) : ¬ Frees (tokens ++ [t]) tokens.length j := by
  intro hf
  have hj := hf.lt_length
  rw [List.length_append, List.length_singleton] at hj
  have hij := hf.1
  omega

end Positions

namespace Reordering

/-! ## Waiting tokens -/

/-- A token was read at a position and waits since then, and of the parentheses opened behind it
those in `opens` are still open. -/
structure Pending (tokens opens : List Token) (i : ℕ) (w : Token) : Prop where
  read : tokens[i]? = some w
  waits : w.operator?.isSome = true ∨ isOpening w = true
  nested : Nested opens (tokens.drop (i + 1))
  unfreed : ∀ j, ¬ Frees tokens i j

/-- A token does not release a waiting one, as far as their kinds go. -/
def Spares (t w : Token) : Prop :=
  ∀ op, w.operator? = some op → ¬ Dismisses t op

/-- The waiting tokens with their positions, below the open parentheses `opens`: each was read
before those above it, and binds less tightly than an operator right above it. -/
inductive Waits (tokens : List Token) : List Token → List (ℕ × Token) → Prop
  | nil {opens : List Token} : Waits tokens opens []
  | cons {opens : List Token} {i : ℕ} {w : Token} {rest : List (ℕ × Token)}
    (h : Pending tokens opens i w) (hlt : ∀ v ∈ rest, v.1 < i)
    (hbelow : ∀ v ∈ rest.head?, w.operator?.isSome = true → Spares w v.2)
    (hrest : Waits tokens (opens ++ [w].filter isOpening) rest) :
    Waits tokens opens ((i, w) :: rest)

variable {tokens opens : List Token} {i : ℕ} {t w : Token} {rest : List (ℕ × Token)}

theorem eq_operator_of_operator? {op : Operator} : ∀ {t : Token}, t.operator? = some op →
    t = ⟨.operator op, t.span⟩
  | ⟨.number _, _⟩, h => by cases h
  | ⟨.operator _, _⟩, h => by
    cases h
    rfl
  | ⟨.paren _, _⟩, h => by cases h

theorem not_dismisses_of_number {literal : String} {s : Span} {op : Operator} :
    ¬ Dismisses ⟨.number literal, s⟩ op := by
  rintro (h | ⟨_, h, -⟩) <;> cases h

theorem not_dismisses_of_opening {s : Span} {op : Operator} :
    ¬ Dismisses ⟨.paren .opening, s⟩ op := by
  rintro (h | ⟨_, h, -⟩) <;> cases h

theorem dismisses_operator_iff {op op' : Operator} {s : Span} :
    Dismisses ⟨.operator op', s⟩ op ↔ op'.precedence ≤ op.precedence := by
  constructor
  · rintro (h | ⟨_, h, hle⟩)
    · cases h
    · cases h
      exact hle
  · exact fun h => .inr ⟨op', rfl, h⟩

theorem Pending.read_operator (h : Pending tokens opens i w) {op : Operator}
    (hop : w.operator? = some op) : tokens[i]? = some ⟨.operator op, w.span⟩ :=
  h.read.trans (congrArg some (eq_operator_of_operator? hop))

theorem Pending.frees_iff (h : Pending tokens opens i w) {op : Operator}
    (hop : w.operator? = some op) :
    Frees (tokens ++ [t]) i tokens.length ↔ opens = [] ∧ Dismisses t op := by
  rw [frees_concat_length (h.read_operator hop), balanced_iff_of_nested h.nested]

theorem Pending.concat {opens' : List Token} (h : Pending tokens opens i w)
    (hnested : ∀ ts, Nested opens ts → Nested opens' (ts ++ [t]))
    (hfree : opens = [] → Spares t w) : Pending (tokens ++ [t]) opens' i w := by
  have hi : i < tokens.length := (List.getElem?_eq_some_iff.1 h.read).1
  refine ⟨(List.getElem?_append_left hi).trans h.read, h.waits, ?_, ?_⟩
  · rw [List.drop_append_of_le_length hi]
    exact hnested _ h.nested
  · refine not_frees_concat h.unfreed fun hf => ?_
    obtain ⟨-, -, op, s, -, hop, -⟩ := id hf
    rw [List.getElem?_append_left hi, h.read] at hop
    cases hop
    obtain ⟨hopens, hd⟩ := (h.frees_iff rfl).1 hf
    exact hfree hopens op rfl hd

/-- A token just read waits behind all others. -/
theorem pending_concat (ht : t.operator?.isSome = true ∨ isOpening t = true) :
    Pending (tokens ++ [t]) [] tokens.length t where
  read := List.getElem?_concat_length
  waits := ht
  nested := by
    rw [List.drop_of_length_le (by simp)]
    exact .outermost .nil
  unfreed := not_frees_length

/-- What one operator does not release, it does not release from below an operator that binds
tighter either. -/
theorem Spares.below {v : Token} (h : Spares t w) (hw : w.operator?.isSome = true)
    (hbelow : Spares w v) : Spares t v := by
  obtain ⟨op, hop⟩ := Option.isSome_iff_exists.1 hw
  intro op' hop' hd
  rcases hd with hclosing | ⟨op₀, hop₀, hle⟩
  · exact h op hop (.inl hclosing)
  · rw [eq_operator_of_operator? hop] at hbelow
    have hlt : op'.precedence < op.precedence := by
      have hspared := hbelow op' hop'
      rw [dismisses_operator_iff] at hspared
      omega
    exact h op hop (.inr ⟨op₀, hop₀, by omega⟩)

namespace Waits

theorem lt_length (h : Waits tokens opens rest) : ∀ v ∈ rest, v.1 < tokens.length := by
  induction h with
  | nil => simp
  | cons h _ _ _ ih =>
    rintro v (_ | ⟨_, hv⟩)
    · exact (List.getElem?_eq_some_iff.1 h.read).1
    · exact ih v hv

/-- A token that releases nothing of the topmost group is read, and may open or close a group. -/
theorem concat (h : Waits tokens opens rest) : ∀ {opens' : List Token},
    (∀ below ts, Nested (opens ++ below) ts → Nested (opens' ++ below) (ts ++ [t])) →
    (opens = [] → ∀ v ∈ rest.head?, Spares t v.2) → Waits (tokens ++ [t]) opens' rest := by
  induction h with
  | nil => exact fun _ _ => .nil
  | @cons opens i w rest h hlt hbelow _ ih =>
    intro opens' hnested hfree
    have hw : opens = [] → Spares t w := fun hopens => hfree hopens (i, w) rfl
    refine .cons (h.concat (fun ts hts => ?_) hw) hlt hbelow (ih (fun below ts hts => ?_) ?_)
    · simpa using hnested [] ts (by simpa using hts)
    · rw [List.append_assoc] at hts ⊢
      exact hnested _ ts hts
    · intro hopens v hv
      obtain ⟨rfl, hopening⟩ := List.append_eq_nil_iff.1 hopens
      have hoperator := h.waits.resolve_right fun hw => by simp [hw] at hopening
      exact (hw rfl).below hoperator (hbelow v hv hoperator)

/-- What waits above the topmost opening parenthesis, and what waits below. -/
theorem split {batch : List (ℕ × Token)} (h : Waits tokens opens (batch ++ rest))
    (hb : ∀ v ∈ batch, isOpening v.2 = false) :
    (∀ v ∈ batch, Pending tokens opens v.1 v.2) ∧ batch.Pairwise (fun v w => w.1 < v.1) ∧
      Waits tokens opens rest := by
  induction batch with
  | nil => exact ⟨by simp, .nil, h⟩
  | cons v batch ih =>
    cases h with
    | @cons _ i w _ h hlt _ hrest =>
      have hopening : [w].filter isOpening = [] := by simp [hb (i, w) List.mem_cons_self]
      rw [hopening, List.append_nil] at hrest
      obtain ⟨hpending, hpairwise, hrest⟩ :=
        ih hrest fun v hv => hb v (List.mem_cons_of_mem _ hv)
      refine ⟨?_, .cons (fun v hv => hlt v (List.mem_append_left _ hv)) hpairwise, hrest⟩
      rintro v (_ | ⟨_, hv⟩)
      · exact h
      · exact hpending v hv

end Waits

end Reordering

/-! ## The log of releases -/

/-- A token, the position at which it stands and the one at which it is released. -/
structure Release where
  position : ℕ
  token : Token
  moment : ℕ
deriving DecidableEq, Repr

namespace Release

def Before (a b : Release) : Prop :=
  a.moment < b.moment ∨ a.moment = b.moment ∧ b.position < a.position

/-- What is released in one go, the uppermost of the waiting tokens first. -/
def batch (moment : ℕ) (group : List (ℕ × Token)) : List Release :=
  group.map fun v => ⟨v.1, v.2, moment⟩

theorem pairwise_batch {moment : ℕ} {group : List (ℕ × Token)} {earlier : List Release}
    (hgroup : group.Pairwise fun v w => w.1 < v.1) (hearlier : earlier.Pairwise Before)
    (hlt : ∀ e ∈ earlier, e.moment < moment) :
    (earlier ++ batch moment group).Pairwise Before := by
  refine List.pairwise_append.2 ⟨hearlier, ?_, fun a ha b hb => ?_⟩
  · exact List.pairwise_map.2 (hgroup.imp fun h => .inr ⟨rfl, h⟩)
  · obtain ⟨v, -, rfl⟩ := List.mem_map.1 hb
    exact .inl (hlt a ha)

end Release

/-- What a log says of one token. -/
structure Release.Of (tokens : List Token) (e : Release) : Prop where
  read : tokens[e.position]? = some e.token
  paren? : e.token.paren? = none
  releasedAt : ReleasedAt tokens e.position e.moment

namespace Reordering

/-- A log of the tokens released so far, earliest first, and the waiting ones with their positions.
-/
structure Follows (tokens : List Token) (o : Reordering) (log : List Release)
    (wait : List (ℕ × Token)) : Prop where
  released : log.map (·.token) = o.released.reverse
  waiting : wait.map Prod.snd = o.waiting
  logged : ∀ e ∈ log, e.Of tokens ∧ e.moment < tokens.length
  ordered : log.Pairwise Release.Before
  waits : Waits tokens [] wait
  covers : ∀ i t, tokens[i]? = some t → t.paren? = none →
    i ∈ log.map (·.position) ∨ (i, t) ∈ wait

variable {tokens : List Token} {o : Reordering} {t : Token} {log : List Release}
  {wait : List (ℕ × Token)}

theorem Follows.start : Follows [] .start [] [] :=
  ⟨rfl, rfl, by simp, .nil, .nil, by simp⟩

/-- One token more, with which a group is released. -/
theorem Follows.concat (h : Follows tokens o log wait) {group rest : List (ℕ × Token)}
    (hgroup : ∀ v ∈ group, Release.Of (tokens ++ [t]) ⟨v.1, v.2, tokens.length⟩)
    (hpairwise : group.Pairwise fun v w => w.1 < v.1) (hrest : Waits (tokens ++ [t]) [] rest)
    (hall : ∀ v, v ∈ wait ∨ v = (tokens.length, t) → v.2.paren? = none → v ∈ group ∨ v ∈ rest) :
    Follows (tokens ++ [t]) ⟨(group.map Prod.snd).reverse ++ o.released, rest.map Prod.snd⟩
      (log ++ Release.batch tokens.length group) rest where
  released := by simp [h.released, Release.batch]
  waiting := rfl
  logged e he := by
    rw [List.length_append, List.length_singleton]
    rcases List.mem_append.1 he with he | he
    · obtain ⟨⟨hread, hparen, hat⟩, hlt⟩ := h.logged e he
      refine ⟨⟨?_, hparen, hat.concat hlt t⟩, Nat.lt_succ_of_lt hlt⟩
      rw [List.getElem?_append_left (List.getElem?_eq_some_iff.1 hread).1]
      exact hread
    · obtain ⟨v, hv, rfl⟩ := List.mem_map.1 he
      exact ⟨hgroup v hv, Nat.lt_succ_self _⟩
  ordered := Release.pairwise_batch hpairwise h.ordered fun e he => (h.logged e he).2
  waits := hrest
  covers i u hu hparen := by
    rw [List.map_append, List.mem_append]
    have hfound : i ∈ log.map (·.position) ∨ (i, u) ∈ wait ∨ (i, u) = (tokens.length, t) := by
      rcases Nat.lt_or_ge i tokens.length with hlt | hge
      · rw [List.getElem?_append_left hlt] at hu
        exact (h.covers i u hu hparen).imp_right .inl
      · have hlast := (List.getElem?_eq_some_iff.1 hu).1
        rw [List.length_append, List.length_singleton] at hlast
        obtain rfl : i = tokens.length := by omega
        rw [List.getElem?_concat_length] at hu
        cases hu
        exact .inr (.inr rfl)
    rcases hfound with hlog | hwait
    · exact .inl (.inl hlog)
    · rcases hall (i, u) hwait hparen with hmem | hmem
      · exact .inl (.inr (List.mem_map.2 ⟨_, List.mem_map.2 ⟨_, hmem, rfl⟩, rfl⟩))
      · exact .inr hmem

/-- Operators of the topmost group that the token read releases. -/
theorem releaseOf_concat {group : List (ℕ × Token)}
    (hpending : ∀ v ∈ group, Pending tokens [] v.1 v.2)
    (hopening : ∀ v ∈ group, isOpening v.2 = false)
    (hfree : ∀ v ∈ group, ∀ op, v.2.operator? = some op → Dismisses t op) :
    ∀ v ∈ group, Release.Of (tokens ++ [t]) ⟨v.1, v.2, tokens.length⟩ := by
  intro v hv
  obtain ⟨hread, hwaits, -, hunfreed⟩ := hpending v hv
  obtain ⟨op, hop⟩ := Option.isSome_iff_exists.1
    (hwaits.resolve_right (by simp [hopening v hv]))
  have hfrees := ((hpending v hv).frees_iff hop).2 ⟨rfl, hfree v hv op hop⟩
  refine ⟨?_, paren?_of_operator? (by simp [hop]), releasedAt_concat_length hunfreed hfrees⟩
  rw [List.getElem?_append_left (List.getElem?_eq_some_iff.1 hread).1]
  exact hread

theorem Follows.number {released waiting : List Token} {literal : String} {s : Span}
    (h : Follows tokens ⟨released, waiting⟩ log wait) : ∃ log' wait',
      Follows (tokens ++ [⟨.number literal, s⟩]) ⟨⟨.number literal, s⟩ :: released, waiting⟩
        log' wait' := by
  obtain rfl : wait.map Prod.snd = waiting := h.waiting
  have hrest : Waits (tokens ++ [⟨.number literal, s⟩]) [] wait :=
    h.waits.concat (fun _ _ hts => hts.token rfl) fun _ _ _ _ _ => not_dismisses_of_number
  have hgroup : ∀ v ∈ [(tokens.length, (⟨.number literal, s⟩ : Token))],
      Release.Of (tokens ++ [⟨.number literal, s⟩]) ⟨v.1, v.2, tokens.length⟩ := by
    rintro v (_ | ⟨_, ⟨⟩⟩)
    exact ⟨List.getElem?_concat_length, rfl, .number List.getElem?_concat_length⟩
  have hf := h.concat hgroup (List.pairwise_singleton _ _) hrest fun v hv _ => ?_
  · exact ⟨_, _, hf⟩
  · rcases hv with hv | rfl
    · exact .inr hv
    · exact .inl List.mem_cons_self

theorem Follows.operator {released pending waiting : List Token} {op : Operator} {s : Span}
    (h : Follows tokens ⟨released, pending ++ waiting⟩ log wait)
    (hp : ∀ w ∈ pending, yieldsTo op w = true) (hw : ∀ w ∈ waiting.head?, yieldsTo op w = false) :
    ∃ log' wait', Follows (tokens ++ [⟨.operator op, s⟩])
      ⟨pending.reverse ++ released, ⟨.operator op, s⟩ :: waiting⟩ log' wait' := by
  obtain ⟨group, rest, rfl, rfl, rfl⟩ := List.map_eq_append_iff.1 h.waiting
  have hyields (v) (hv : v ∈ group) : yieldsTo op v.2 = true := hp _ (List.mem_map_of_mem hv)
  have hopening (v) (hv : v ∈ group) : isOpening v.2 = false := isOpening_of_yieldsTo (hyields v hv)
  obtain ⟨hpending, hpairwise, hrest⟩ := h.waits.split hopening
  have hspares (v) (hv : v ∈ rest.head?) : Spares ⟨.operator op, s⟩ v.2 := by
    intro op' hop' hd
    have hstays := hw v.2 (by simp [Option.mem_def.1 hv])
    simp only [yieldsTo, hop', decide_eq_false_iff_not] at hstays
    exact hstays (dismisses_operator_iff.1 hd)
  have hwait : Waits (tokens ++ [⟨.operator op, s⟩]) []
      ((tokens.length, ⟨.operator op, s⟩) :: rest) :=
    .cons (pending_concat (.inl rfl)) hrest.lt_length (fun v hv _ => hspares v hv)
      (hrest.concat (fun _ _ hts => hts.token rfl) fun _ => hspares)
  have hf := h.concat (releaseOf_concat hpending hopening fun v hv op' hop' => ?_) hpairwise hwait
    fun v hv _ => ?_
  · exact ⟨_, _, hf⟩
  · have hfree := hyields v hv
    simp only [yieldsTo, hop', decide_eq_true_eq] at hfree
    exact dismisses_operator_iff.2 hfree
  · rcases hv with hv | rfl
    · exact (List.mem_append.1 hv).imp_right (List.mem_cons_of_mem _)
    · exact .inr List.mem_cons_self

theorem Follows.opening {released waiting : List Token} {s : Span}
    (h : Follows tokens ⟨released, waiting⟩ log wait) : ∃ log' wait',
      Follows (tokens ++ [⟨.paren .opening, s⟩]) ⟨released, ⟨.paren .opening, s⟩ :: waiting⟩
        log' wait' := by
  obtain rfl : wait.map Prod.snd = waiting := h.waiting
  have hrest : Waits (tokens ++ [⟨.paren .opening, s⟩]) [⟨.paren .opening, s⟩] wait :=
    h.waits.concat (fun _ _ hts => hts.opening s) fun _ _ _ _ _ => not_dismisses_of_opening
  have hwait : Waits (tokens ++ [⟨.paren .opening, s⟩]) []
      ((tokens.length, ⟨.paren .opening, s⟩) :: wait) :=
    .cons (pending_concat (.inr rfl)) h.waits.lt_length (fun _ _ hop => by cases hop) hrest
  have hnone : ∀ v ∈ ([] : List (ℕ × Token)),
      Release.Of (tokens ++ [⟨.paren .opening, s⟩]) ⟨v.1, v.2, tokens.length⟩ := by
    simp
  have hf := h.concat hnone .nil hwait fun v hv _ => .inr ?_
  · exact ⟨_, _, hf⟩
  · rcases hv with hv | rfl
    · exact List.mem_cons_of_mem _ hv
    · exact List.mem_cons_self

theorem Follows.closing {released pending waiting : List Token} {p c : Span}
    (h : Follows tokens ⟨released, pending ++ ⟨.paren .opening, p⟩ :: waiting⟩ log wait)
    (hp : ∀ w ∈ pending, isOpening w = false) : ∃ log' wait',
      Follows (tokens ++ [⟨.paren .closing, c⟩]) ⟨pending.reverse ++ released, waiting⟩
        log' wait' := by
  obtain ⟨group, below, rfl, rfl, hbelow⟩ := List.map_eq_append_iff.1 h.waiting
  obtain ⟨⟨i, w⟩, rest, rfl, rfl, rfl⟩ := List.map_eq_cons_iff.1 hbelow
  have hopening (v) (hv : v ∈ group) : isOpening v.2 = false := hp _ (List.mem_map_of_mem hv)
  obtain ⟨hpending, hpairwise, hbelow⟩ := h.waits.split hopening
  rcases hbelow with _ | ⟨-, -, -, hrest⟩
  refine ⟨_, rest, h.concat (releaseOf_concat hpending hopening fun _ _ _ _ => .inl rfl) hpairwise
    (hrest.concat (fun _ _ hts => hts.closing c) fun hopens => ?_) fun v hv hparen => ?_⟩
  · cases hopens
  · rcases hv with hv | rfl
    · rcases List.mem_append.1 hv with hv | _ | ⟨_, hv⟩
      · exact .inl hv
      · cases hparen
      · exact .inr hv
    · cases hparen

theorem exists_follows_of_moves {o' : Reordering} (h : Moves o t o')
    (hf : Follows tokens o log wait) : ∃ log' wait', Follows (tokens ++ [t]) o' log' wait' := by
  cases h with
  | number => exact hf.number
  | operator hp hw => exact hf.operator hp hw
  | opening => exact hf.opening
  | closing hp => exact hf.closing hp

theorem exists_follows_of_run (h : tokens.foldlM step .start = .ok o) :
    ∃ log wait, Follows tokens o log wait := by
  refine foldlM_induction (P := fun tokens o => ∃ log wait, Follows tokens o log wait)
    ⟨_, _, .start⟩ ?_ h
  rintro tokens o t o' ⟨log, wait, hf⟩ hs
  exact exists_follows_of_moves (step_eq_ok_iff.1 hs) hf

/-- What still waits at the end are operators that nothing released. -/
theorem Follows.finish (h : Follows tokens o log wait) (hopen : o.openings = []) :
    (∀ e ∈ log ++ Release.batch tokens.length wait, e.Of tokens) ∧
      (log ++ Release.batch tokens.length wait).Pairwise Release.Before ∧
      o.finish = .ok ((log ++ Release.batch tokens.length wait).map (·.token)) := by
  have hopening (v) (hv : v ∈ wait) : isOpening v.2 = false := by
    have hmem : v.2 ∈ o.waiting := h.waiting ▸ List.mem_map_of_mem hv
    simpa using List.filter_eq_nil_iff.1 hopen v.2 hmem
  obtain ⟨hpending, hpairwise, -⟩ := (wait.append_nil ▸ h.waits).split hopening
  have hoperator (v) (hv : v ∈ wait) : v.2.operator?.isSome = true :=
    (hpending v hv).waits.resolve_right (by simp [hopening v hv])
  refine ⟨fun e he => ?_, ?_, ?_⟩
  · rcases List.mem_append.1 he with he | he
    · exact (h.logged e he).1
    · obtain ⟨v, hv, rfl⟩ := List.mem_map.1 he
      obtain ⟨op, hop⟩ := Option.isSome_iff_exists.1 (hoperator v hv)
      have hv := hpending v hv
      exact ⟨hv.read, paren?_of_operator? (by simp [hop]),
        .kept (hv.read_operator hop) hv.unfreed⟩
  · exact Release.pairwise_batch hpairwise h.ordered fun e he => (h.logged e he).2
  · have hnone : o.waiting.find? (fun w => w.paren?.isSome) = none := by
      rw [← h.waiting]
      refine List.find?_eq_none.2 fun w hw => ?_
      obtain ⟨v, hv, rfl⟩ := List.mem_map.1 hw
      simp [paren?_of_operator? (hoperator v hv)]
    rw [Reordering.finish, hnone, ← h.waiting, ← h.released]
    simp [Release.batch]

end Reordering

/-- A log that lists every number and every operator once, each with the position at which it is
released, in the order of these positions. Of those released at once the latest comes first. -/
structure Schedule (tokens : List Token) (log : List Release) : Prop where
  nodup : (log.map (·.position)).Nodup
  mem_iff : ∀ i t, (∃ r, ⟨i, t, r⟩ ∈ log) ↔ tokens[i]? = some t ∧ t.paren? = none
  releasedAt : ∀ e ∈ log, ∀ r, ReleasedAt tokens e.position r ↔ r = e.moment
  ordered : log.Pairwise Release.Before

theorem schedule_of_ordered {tokens : List Token} {log : List Release}
    (hof : ∀ e ∈ log, e.Of tokens) (hordered : log.Pairwise Release.Before)
    (hcovers : ∀ i t, tokens[i]? = some t → t.paren? = none → ∃ r, ⟨i, t, r⟩ ∈ log) :
    Schedule tokens log where
  nodup := by
    refine List.pairwise_map.2 (hordered.imp_of_mem fun {a b} ha hb hbefore hsame => ?_)
    have hmoment := (hsame ▸ (hof a ha).releasedAt).unique (hof b hb).releasedAt
    unfold Release.Before at hbefore
    omega
  mem_iff i t := by
    constructor
    · rintro ⟨r, hr⟩
      exact ⟨(hof _ hr).read, (hof _ hr).paren?⟩
    · rintro ⟨ht, hparen⟩
      exact hcovers i t ht hparen
  releasedAt e he r := by
    constructor
    · exact fun hr => hr.unique (hof e he).releasedAt
    · rintro rfl
      exact (hof e he).releasedAt
  ordered := hordered

/-- Only the parentheses are left out. -/
theorem length_of_postfixOrder {tokens out : List Token}
    (h : Token.postfixOrder tokens = .ok out) :
    out.length + tokens.countP (fun t => t.paren?.isSome) = tokens.length := by
  have hkept (t) (ht : t ∈ out) : t.paren? = none := (Reordering.numbers_of_postfixOrder h).2 t ht
  have hperm := Reordering.filter_perm_of_postfixOrder (p := fun t => decide (t.paren? = none))
    (fun _ _ => rfl) h
  rw [List.filter_eq_self.2 fun t ht => by simp [hkept t ht]] at hperm
  rw [hperm.length_eq, Nat.add_comm]
  simpa [List.countP_eq_length_filter] using
    (List.length_eq_countP_add_countP (fun t : Token => t.paren?.isSome) (l := tokens)).symm

/-- Balanced tokens, an expression or not, come out as their schedule says. -/
theorem postfixOrder_of_balanced {tokens : List Token} (h : Balanced tokens) :
    ∃ log, Schedule tokens log ∧ Token.postfixOrder tokens = .ok (log.map (·.token)) ∧
      ((log.map (·.token)).filter fun t => t.literal?.isSome)
        = (tokens.filter fun t => t.literal?.isSome) ∧
      log.length + tokens.countP (fun t => t.paren?.isSome) = tokens.length := by
  obtain ⟨o, hrun, hopen⟩ := Reordering.exists_run_of_balanced h .start
  obtain ⟨log, wait, hf⟩ := Reordering.exists_follows_of_run hrun
  obtain ⟨hof, hordered, hfinish⟩ := hf.finish hopen
  have hout := bind_eq_ok.2 ⟨o, hrun, hfinish⟩
  refine ⟨_, schedule_of_ordered hof hordered fun i t ht hparen => ?_, hout,
    (Reordering.numbers_of_postfixOrder hout).1,
    by simpa using length_of_postfixOrder hout⟩
  rcases hf.covers i t ht hparen with hlog | hwait
  · obtain ⟨e, he, rfl⟩ := List.mem_map.1 hlog
    obtain ⟨hread, -, -⟩ := (hf.logged e he).1
    obtain rfl : e.token = t := Option.some.inj (hread.symm.trans ht)
    exact ⟨e.moment, List.mem_append_left _ he⟩
  · exact ⟨tokens.length, List.mem_append_right _ (List.mem_map.2 ⟨_, hwait, rfl⟩)⟩

/-- Two operators side by side, and a group that has no operand before it. -/
theorem postfixOrder_of_balanced_operators :
    let tokens : List Token := [⟨.operator .add, ⟨0, 1⟩⟩, ⟨.operator .mul, ⟨1, 2⟩⟩,
      ⟨.paren .opening, ⟨2, 3⟩⟩, ⟨.operator .sub, ⟨3, 4⟩⟩, ⟨.number "7", ⟨4, 5⟩⟩,
      ⟨.paren .closing, ⟨5, 6⟩⟩, ⟨.operator .div, ⟨6, 7⟩⟩]
    Balanced tokens ∧ ∃ log, Schedule tokens log ∧ log.map (·.token) = [⟨.number "7", ⟨4, 5⟩⟩,
      ⟨.operator .sub, ⟨3, 4⟩⟩, ⟨.operator .mul, ⟨1, 2⟩⟩, ⟨.operator .div, ⟨6, 7⟩⟩,
      ⟨.operator .add, ⟨0, 1⟩⟩] := by
  intro tokens
  have hout : Token.postfixOrder tokens = .ok _ := rfl
  have hbalanced := balanced_of_postfixOrder hout
  obtain ⟨log, hschedule, hlog, -, -⟩ := postfixOrder_of_balanced hbalanced
  exact ⟨hbalanced, log, hschedule, (Except.ok.inj (hout.symm.trans hlog)).symm⟩

end Calculator

import Calculator.Proofs.BlankInsertion
import Calculator.Proofs.Juxtaposition

/-!
# The divisor that is blamed

A division by zero in an expression blames the operand behind the division sign, which is a number
or a group with its parentheses, and whose text has the value zero by itself. Postfix order drops
the parentheses, so what is told of the operand begins with its first number and ends with its last
one. Of `(2 - 2)` that is the expression `2 - 2`, but of `(0 * (0 - 1))` it is `0 * (0 - 1`. What is
told is an expression of the same value exactly when its parentheses are balanced
(`calculate_divisor`).

A part of a text between two tokens is cut into the tokens between them (`cuts_across`). Where the
parentheses left out on both sides belong together, the tree of the operand is the tree of what is
left of it (`derives_core`).
-/

namespace Calculator

open Token

section Part

variable {cs : List Char} {before us after : List Token}

theorem append_unique {α : Type} {p : α → Bool} {as bs as' bs' : List α}
    (h : as ++ bs = as' ++ bs') (ha : ∀ x ∈ as, p x = true) (hb : ∀ x ∈ bs, p x = false)
    (ha' : ∀ x ∈ as', p x = true) (hb' : ∀ x ∈ bs', p x = false) : as = as' ∧ bs = bs' := by
  have hfilter := congrArg (List.filter p) h
  rw [List.filter_append, List.filter_append, List.filter_eq_self.2 ha, List.filter_eq_self.2 ha',
    List.filter_eq_nil_iff.2 (by simpa using hb), List.filter_eq_nil_iff.2 (by simpa using hb'),
    List.append_nil, List.append_nil] at hfilter
  subst hfilter
  exact ⟨rfl, List.append_cancel_left h⟩

/-- A text is cut in two at a position that all tokens lie before or behind. -/
theorem cuts_at {i : Nat} (h : Cuts cs (before ++ after)) (hi : i ≤ cs.length)
    (hbefore : ∀ t ∈ before, t.span.stop ≤ i) (hafter : ∀ t ∈ after, i ≤ t.span.start) :
    Cuts (cs.take i) before ∧ ∃ vs, Cuts (cs.drop i) vs ∧ after = vs.map (·.shift i) := by
  have hlength : (cs.take i).length = i := List.length_take_of_le hi
  have hparts : Cuts (cs.take i ++ cs.drop i) (before ++ after) := by
    rwa [List.take_append_drop]
  have hin : ∀ t ∈ numbers (before ++ after),
      ¬ (t.span.start < (cs.take i).length ∧ (cs.take i).length < t.span.stop) := by
    intro t ht
    rw [hlength]
    rcases List.mem_append.1 (mem_of_mem_numbers ht) with hmem | hmem
    · have := hbefore t hmem
      omega
    · have := hafter t hmem
      omega
  obtain ⟨-, ts₁, ts₂, h₁, h₂, hsplit⟩ := cuts_split hparts hin
  rw [hlength] at hsplit
  -- the tokens on either side are told apart by where they begin
  obtain ⟨rfl, rfl⟩ := append_unique (p := fun t => t.span.start < i) hsplit
    (fun t ht => by
      have := h.nonempty t (List.mem_append_left _ ht)
      have := hbefore t ht
      simp only [decide_eq_true_eq]
      omega)
    (fun t ht => by simpa using hafter t ht)
    (fun t ht => by
      have := h₁.nonempty t ht
      have := h₁.inside t ht
      simp only [decide_eq_true_eq]
      omega)
    (fun t ht => by
      obtain ⟨v, -, rfl⟩ := List.mem_map.1 ht
      exact decide_eq_false (Nat.not_lt.2 (Nat.le_add_left _ _)))
  exact ⟨h₁, ts₂, h₂, rfl⟩

theorem start_le_of_head? {a : Token} (hord : us.Pairwise fun t u => t.span.stop ≤ u.span.start)
    (hne : ∀ t ∈ us, t.span.start < t.span.stop) (ha : us.head? = some a) :
    ∀ t ∈ us, a.span.start ≤ t.span.start := by
  intro t ht
  obtain ⟨vs, rfl⟩ := List.head?_eq_some_iff.1 ha
  rcases List.mem_cons.1 ht with rfl | ht
  · exact Nat.le_refl _
  · have hbehind := (List.pairwise_cons.1 hord).1 t ht
    have hfirst := hne a List.mem_cons_self
    omega

theorem stop_le_of_getLast? {b : Token} (hord : us.Pairwise fun t u => t.span.stop ≤ u.span.start)
    (hne : ∀ t ∈ us, t.span.start < t.span.stop) (hb : us.getLast? = some b) :
    ∀ t ∈ us, t.span.stop ≤ b.span.stop := by
  intro t ht
  rcases eq_or_rel_of_getLast? hord hb t ht with rfl | hahead
  · exact Nat.le_refl _
  · have hlast := hne b (List.mem_of_getLast? hb)
    omega

/-- The part of a text from the start of a token to the end of the same one or a later one. -/
theorem cuts_across (h : Cuts cs (before ++ us ++ after)) {a b : Token}
    (ha : us.head? = some a) (hb : us.getLast? = some b) :
    ∃ vs, Cuts ((Span.across a.span b.span).slice cs) vs ∧
      us = vs.map (·.shift a.span.start) := by
  have hamem : a ∈ us := List.mem_of_head? ha
  have hbmem : b ∈ us := List.mem_of_getLast? hb
  obtain ⟨hleft, -, hbehind⟩ := List.pairwise_append.1 h.ordered
  obtain ⟨-, hus, hahead⟩ := List.pairwise_append.1 hleft
  have hne : ∀ t ∈ us, t.span.start < t.span.stop := fun t ht => h.nonempty t (by simp [ht])
  have hstop := stop_le_of_getLast? hus hne hb
  have hinside : b.span.stop ≤ cs.length := h.inside b (by simp [hbmem])
  -- what lies behind is cut off first, so that the positions before it stay as they are
  have hbefore : ∀ t ∈ before ++ us, t.span.stop ≤ b.span.stop := by
    intro t ht
    rcases List.mem_append.1 ht with ht | ht
    · have hlast := hahead t ht b hbmem
      have hpositive := hne b hbmem
      omega
    · exact hstop t ht
  obtain ⟨htake, -⟩ := cuts_at h hinside hbefore fun t ht =>
    hbehind b (List.mem_append_right _ hbmem) t ht
  have hstart : a.span.start ≤ (cs.take b.span.stop).length := by
    have hpositive := hne a hamem
    have hlast := hstop a hamem
    rw [List.length_take_of_le hinside]
    omega
  exact (cuts_at htake hstart (fun t ht => hahead t ht a hamem)
    (start_le_of_head? hus hne ha)).2

end Part

theorem exists_derives_respan (h : Span → Span) {level : Level} {ts : List Token} {t : Tree}
    (ht : Derives level ts t) : ∃ t', Derives level (ts.map (·.respan h)) t' := by
  induction ht with
  | number => exact ⟨_, .number⟩
  | group _ ih =>
    obtain ⟨t', ht'⟩ := ih
    exact ⟨t', by simpa [Token.respan] using ht'.group⟩
  | factor _ ih => exact ih.imp fun _ => .factor
  | term _ ih => exact ih.imp fun _ => .term
  | multiply _ hop _ ihl ihr =>
    obtain ⟨l', hl'⟩ := ihl
    obtain ⟨r', hr'⟩ := ihr
    exact ⟨_, by simpa [Token.respan] using hl'.multiply hop hr'⟩
  | add _ hop _ ihl ihr =>
    obtain ⟨l', hl'⟩ := ihl
    obtain ⟨r', hr'⟩ := ihr
    exact ⟨_, by simpa [Token.respan] using hl'.add hop hr'⟩

theorem balanced_respan_iff {h : Span → Span} {ts : List Token} :
    Balanced (ts.map (·.respan h)) ↔ Balanced ts := by
  rw [← exists_postfixOrder_iff, ← exists_postfixOrder_iff, postfixOrder_respan]
  rcases postfixOrder ts with f | out
  · simp
  · simp

def Span.unshift (k : Nat) (s : Span) : Span :=
  ⟨s.start - k, s.stop - k⟩

theorem respan_unshift (k : Nat) (ts : List Token) :
    (ts.map (·.shift k)).map (·.respan (Span.unshift k)) = ts := by
  rw [List.map_map]
  refine (List.map_congr_left fun t _ => ?_).trans (List.map_id ts)
  simp [Token.respan, shift, Span.shift, Span.unshift]

/-- A part of a text has the value of the tokens that it is cut from. -/
theorem calculate_of_shift {s : String} {vs : List Token} {k : Nat} {r : Tree} {z : Float}
    (hs : scan s = .ok vs) (h : Derives .expr (vs.map (·.shift k)) r) (hz : r.value = .ok z) :
    calculate s = .ok z := by
  have hne : r.postorder ≠ [] := by
    intro hnil
    have := Tree.length_numbers_postorder r
    simp [hnil] at this
  have hord := postfixOrder_respan (Span.unshift k) (vs.map (·.shift k))
  rw [respan_unshift, postfixOrder_of_derives h] at hord
  have heval := evaluate_respan (h := Span.unshift k) (fun _ _ => rfl) hne
  rw [Tree.evaluate_postorder, hz] at heval
  rw [calculate, postfixTokens, hs, ok_bind, hord]
  exact heval

/-! ## Parentheses left out at both ends -/

/-- `core` is what is left of the tokens `us` from their first number `a` to their last one `b`;
what is left out are parentheses only. -/
structure Trims (us opens core closes : List Token) (a b : Token) : Prop where
  split : us = opens ++ core ++ closes
  opens : ∀ t ∈ opens, Reordering.isOpening t = true
  closes : ∀ t ∈ closes, t.isClosing = true
  first : core.head? = some a
  last : core.getLast? = some b
  numbers : a.literal?.isSome = true ∧ b.literal?.isSome = true

theorem eq_closing_of_isClosing {t : Token} (h : t.isClosing = true) :
    ∃ s, t = ⟨.paren .closing, s⟩ := by
  obtain ⟨_ | _ | _ | _, s⟩ := t
  · cases h
  · cases h
  · cases h
  · exact ⟨s, rfl⟩

namespace Trims

variable {us opens core closes : List Token} {a b : Token}

theorem group (h : Trims us opens core closes a b) (o c : Span) :
    Trims (⟨.paren .opening, o⟩ :: us ++ [⟨.paren .closing, c⟩]) (⟨.paren .opening, o⟩ :: opens)
      core (closes ++ [⟨.paren .closing, c⟩]) a b where
  split := by simp [h.split]
  opens := by simpa using h.opens
  closes t ht := by
    rcases List.mem_append.1 ht with ht | ht
    · exact h.closes t ht
    · rw [List.mem_singleton.1 ht]
      rfl
  first := h.first
  last := h.last
  numbers := h.numbers

/-- Between two operands everything is kept. -/
theorem join {us' opens' core' closes' : List Token} {a' b' : Token}
    (h : Trims us opens core closes a b) (h' : Trims us' opens' core' closes' a' b') (t : Token) :
    Trims (us ++ t :: us') opens (core ++ closes ++ t :: opens' ++ core') closes' a b' where
  split := by simp [h.split, h'.split]
  opens := h.opens
  closes := h'.closes
  first := by simp [List.head?_append, h.first]
  last := by rw [List.getLast?_append, h'.last, Option.some_or]
  numbers := ⟨h.numbers.1, h'.numbers.2⟩

theorem operand_left_out (h : Trims us opens core closes a b) :
    ∀ t, t ∈ opens ∨ t ∈ closes → t.literal? = none ∧ t.operator? = none := by
  rintro t (ht | ht)
  · obtain ⟨o, rfl⟩ := Reordering.eq_opening_of_isOpening (h.opens t ht)
    exact ⟨rfl, rfl⟩
  · obtain ⟨c, rfl⟩ := eq_closing_of_isClosing (h.closes t ht)
    exact ⟨rfl, rfl⟩

theorem numbers_core (h : Trims us opens core closes a b) :
    Token.numbers core = Token.numbers us := by
  have hopens : Token.numbers opens = [] := List.filter_eq_nil_iff.2 fun t ht => by
    simp [(h.operand_left_out t (.inl ht)).1]
  have hcloses : Token.numbers closes = [] := List.filter_eq_nil_iff.2 fun t ht => by
    simp [(h.operand_left_out t (.inr ht)).1]
  simp [h.split, hopens, hcloses]

theorem operators_core (h : Trims us opens core closes a b) : operators core = operators us := by
  have hopens : operators opens = [] := List.filter_eq_nil_iff.2 fun t ht => by
    simp [(h.operand_left_out t (.inl ht)).2]
  have hcloses : operators closes = [] := List.filter_eq_nil_iff.2 fun t ht => by
    simp [(h.operand_left_out t (.inr ht)).2]
  simp [h.split, hopens, hcloses]

/-- As many parentheses are left out on either side if those that are left have their partners. -/
theorem length_opens (h : Trims us opens core closes a b) (hus : Balanced us)
    (hcore : Balanced core) : opens.length = closes.length := by
  have hopens : opens.countP isClosing = 0 := List.countP_eq_zero.2 fun t ht => by
    obtain ⟨o, rfl⟩ := Reordering.eq_opening_of_isOpening (h.opens t ht)
    exact Bool.false_ne_true
  have hcloses : closes.countP Reordering.isOpening = 0 := List.countP_eq_zero.2 fun t ht => by
    obtain ⟨c, rfl⟩ := eq_closing_of_isClosing (h.closes t ht)
    exact Bool.false_ne_true
  have hpairs := countP_of_balanced hus
  rw [h.split, List.countP_append, List.countP_append, List.countP_append, List.countP_append,
    hopens, hcloses, List.countP_eq_length.2 h.opens, List.countP_eq_length.2 h.closes,
    countP_of_balanced hcore] at hpairs
  omega

end Trims

theorem exists_trims {level : Level} {ts : List Token} {t : Tree} (h : Derives level ts t) :
    ∃ opens core closes a b, Trims ts opens core closes a b ∧
      t.extent = .across a.span b.span := by
  induction h with
  | @number literal s =>
    let n : Token := ⟨.number literal, s⟩
    exact ⟨[], [n], [], n, n, ⟨rfl, by simp, by simp, rfl, rfl, rfl, rfl⟩, rfl⟩
  | group _ ih =>
    obtain ⟨opens, core, closes, a, b, ht, hx⟩ := ih
    exact ⟨_, core, _, a, b, ht.group _ _, hx⟩
  | factor _ ih => exact ih
  | term _ ih => exact ih
  | multiply _ _ _ ihl ihr | add _ _ _ ihl ihr =>
    obtain ⟨_, _, _, a, _, hl, hxl⟩ := ihl
    obtain ⟨_, _, _, _, b, hr, hxr⟩ := ihr
    refine ⟨_, _, _, a, b, hl.join hr _, ?_⟩
    rw [Tree.extent_node, hxl, hxr]
    rfl

theorem derives_wrapped {core : List Token} {t : Tree} (h : Derives .expr core t)
    {opens closes : List Token} (ho : ∀ w ∈ opens, Reordering.isOpening w = true)
    (hc : ∀ w ∈ closes, w.isClosing = true) (hlen : opens.length = closes.length) :
    Derives .expr (opens ++ core ++ closes) t := by
  induction opens generalizing closes with
  | nil =>
    cases List.length_eq_zero_iff.1 hlen.symm
    simpa using h
  | cons o opens ih =>
    rcases List.eq_nil_or_concat closes with rfl | ⟨closes, c, rfl⟩
    · cases hlen
    · obtain ⟨o, rfl⟩ := Reordering.eq_opening_of_isOpening (ho o List.mem_cons_self)
      obtain ⟨c, rfl⟩ := eq_closing_of_isClosing (hc c (by simp))
      have hinner := @ih closes (fun w hw => ho w (List.mem_cons_of_mem _ hw))
        (fun w hw => hc w (by simp [hw])) (by simpa using hlen)
      simpa using Derives.term (.factor (hinner.group (o := o) (c := c)))

/-- What is left of an expression without its outermost parentheses is an expression with the same
tree, if the parentheses that are left have their partners. -/
theorem derives_core {us opens core closes : List Token} {a b : Token} {r : Tree}
    (h : Derives .expr us r) (ht : Trims us opens core closes a b) (hcore : Balanced core) :
    Derives .expr core r := by
  have hord := postfixOrder_of_derives h
  have hlen := ht.length_opens (balanced_of_postfixOrder hord) hcore
  have hnumbers : (numbers core).length = (operators core).length + 1 := by
    rw [ht.numbers_core, ht.operators_core]
    exact length_numbers_of_postorder hord
  have hseparated : Separated core := by
    have hus := separated_of_derives h
    rw [ht.split] at hus
    exact (List.isChain_append.1 (List.isChain_append.1 hus).1).2.1
  obtain ⟨t, hderives⟩ := isExpression_of_separated hcore hseparated hnumbers
  -- back in its parentheses it is the whole again, which has one tree only
  have hwrapped := derives_wrapped hderives ht.opens ht.closes hlen
  rw [← ht.split] at hwrapped
  rwa [derives_unique h hwrapped]

/-! ## The divisor -/

theorem value_node_eq_divisionByZero {o : Operator} {s op x : Span} {l r : Tree}
    (h : (Tree.node o s l r).value = .error (.divisionByZero op x)) :
    l.value = .error (.divisionByZero op x) ∨ r.value = .error (.divisionByZero op x) ∨
      o = .div ∧ s = op ∧ r.extent = x ∧ ∃ z, r.value = .ok z ∧ (z == 0) = true := by
  simp only [Tree.value, bind_eq_error] at h
  rcases h with h | ⟨v, -, h | ⟨z, hz, h⟩⟩
  · exact .inl h
  · exact .inr (.inl h)
  · split_ifs at h with hzero
    cases h
    exact .inr (.inr ⟨hzero.1, rfl, rfl, z, hz, hzero.2⟩)

/-- A division by zero blames an operand that is zero. -/
theorem exists_divisor {level : Level} {ts : List Token} {t : Tree} {op x : Span}
    (h : Derives level ts t) (hv : t.value = .error (.divisionByZero op x)) :
    ∃ us r z, ⟨.operator .div, op⟩ :: us <:+: ts ∧ Derives .factor us r ∧ r.extent = x ∧
      r.value = .ok z ∧ (z == 0) = true := by
  induction h with
  | number =>
    rw [Tree.value] at hv
    split at hv <;> cases hv
  | @group ts _ o c _ ih =>
    obtain ⟨us, r, z, hin, hr⟩ := ih hv
    exact ⟨us, r, z, hin.trans (List.infix_append [_] ts [_]), hr⟩
  | factor _ ih => exact ih hv
  | term _ ih => exact ih hv
  | @multiply ls rs l r o s _ _ hfactor ihl ihr =>
    rcases value_node_eq_divisionByZero hv with hl | hr | ⟨rfl, rfl, hx, z, hz, hzero⟩
    · obtain ⟨us, r, z, hin, hr⟩ := ihl hl
      exact ⟨us, r, z, hin.trans (List.prefix_append ls _).isInfix, hr⟩
    · obtain ⟨us, r, z, hin, hr⟩ := ihr hr
      exact ⟨us, r, z, hin.trans (List.suffix_append_of_suffix (List.suffix_cons _ rs)).isInfix, hr⟩
    · exact ⟨rs, r, z, (List.suffix_append ls _).isInfix, hfactor, hx, hz, hzero⟩
  | @add ls rs l r o s _ hop _ ihl ihr =>
    rcases value_node_eq_divisionByZero hv with hl | hr | ⟨rfl, -⟩
    · obtain ⟨us, r, z, hin, hr⟩ := ihl hl
      exact ⟨us, r, z, hin.trans (List.prefix_append ls _).isInfix, hr⟩
    · obtain ⟨us, r, z, hin, hr⟩ := ihr hr
      exact ⟨us, r, z, hin.trans (List.suffix_append_of_suffix (List.suffix_cons _ rs)).isInfix, hr⟩
    · rcases hop with hop | hop <;> cases hop

/-- The characters of a text at the positions of a span. -/
def Span.excerpt (x : Span) (s : String) : String :=
  String.ofList (x.slice s.toList)

theorem scan_excerpt {s : String} {ts us : List Token} {a b : Token} (hs : scan s = .ok ts)
    (hus : us <:+: ts) (ha : us.head? = some a) (hb : us.getLast? = some b) :
    ∃ vs, scan ((Span.across a.span b.span).excerpt s) = .ok vs ∧
      us = vs.map (·.shift a.span.start) := by
  obtain ⟨before, after, rfl⟩ := hus
  obtain ⟨vs, hcuts, hvs⟩ := cuts_across (cuts_of_scan hs) ha hb
  exact ⟨vs, scan_of_cuts (by simpa [Span.excerpt] using hcuts), hvs⟩

theorem mismatch_of_not_balanced {s : String} {ts : List Token} (hs : scan s = .ok ts)
    (h : ¬ Balanced ts) : ∃ p, calculate s = .error (.mismatchedParentheses p) := by
  rw [calculate, postfixTokens, hs, ok_bind]
  rcases ho : postfixOrder ts with f | out
  · rcases Reordering.mismatch_of_postfixOrder ho with ⟨-, p, -, -, -, rfl⟩ | ⟨-, p, -, -, -, rfl⟩
    · exact ⟨p, rfl⟩
    · exact ⟨p, rfl⟩
  · exact absurd (balanced_of_postfixOrder ho) h

/-- The text of an operand has the operand's value. -/
theorem calculate_operand {s : String} {ts us : List Token} {r : Tree} {z : Float}
    (hs : scan s = .ok ts) (hus : us <:+: ts) (h : Derives .expr us r) (hz : r.value = .ok z) :
    ∃ a b, us.head? = some a ∧ us.getLast? = some b ∧
      calculate ((Span.across a.span b.span).excerpt s) = .ok z := by
  have hne : us ≠ [] := by
    rintro rfl
    simpa using length_numbers_of_postorder (postfixOrder_of_derives h)
  obtain ⟨vs, hvs, hshift⟩ :=
    scan_excerpt hs hus (List.head?_eq_some_head hne) (List.getLast?_eq_some_getLast hne)
  exact ⟨_, _, List.head?_eq_some_head hne, List.getLast?_eq_some_getLast hne,
    calculate_of_shift hvs (hshift ▸ h) hz⟩

/-- The text from the first number of an operand to its last one has the operand's value if its
parentheses are balanced, and otherwise they are its fault. -/
theorem calculate_trimmed {s : String} {ts us opens core closes : List Token} {a b : Token}
    {r : Tree} {z : Float} (hs : scan s = .ok ts) (hus : us <:+: ts) (h : Derives .expr us r)
    (hz : r.value = .ok z) (ht : Trims us opens core closes a b) :
    ∃ vs, core = vs.map (·.shift a.span.start) ∧
      scan ((Span.across a.span b.span).excerpt s) = .ok vs ∧ (IsExpression vs ↔ Balanced vs) ∧
      (Balanced vs → calculate ((Span.across a.span b.span).excerpt s) = .ok z) ∧
      (¬ Balanced vs → ∃ p,
        calculate ((Span.across a.span b.span).excerpt s) = .error (.mismatchedParentheses p)) := by
  have hcore : core <:+: us := ht.split ▸ List.infix_append opens core closes
  obtain ⟨vs, hvs, rfl⟩ := scan_excerpt hs (hcore.trans hus) ht.first ht.last
  have hbalanced : Balanced (vs.map (·.shift a.span.start)) ↔ Balanced vs :=
    balanced_respan_iff (h := (·.shift a.span.start))
  have hderives (hb : Balanced vs) : Derives .expr (vs.map (·.shift a.span.start)) r :=
    derives_core h ht (hbalanced.2 hb)
  refine ⟨vs, rfl, hvs, ⟨?_, fun hb => ?_⟩, fun hb => calculate_of_shift hvs (hderives hb) hz,
    mismatch_of_not_balanced hvs⟩
  · rintro ⟨_, hexpr⟩
    exact balanced_of_postfixOrder (postfixOrder_of_derives hexpr)
  · obtain ⟨t, ht⟩ := exists_derives_respan (Span.unshift a.span.start) (hderives hb)
    rw [respan_unshift] at ht
    exact ⟨t, ht⟩

/-- A division by zero in an expression blames the operand `us` behind the division sign, and the
operand's text has the value zero. The divisor is told from the first number of the operand to its
last one; its text is an expression, of the same value, exactly when its parentheses are balanced,
and otherwise they are its fault. -/
theorem calculate_divisor {s : String} {ts : List Token} {op x : Span} (hs : scan s = .ok ts)
    (he : IsExpression ts) (h : calculate s = .error (.divisionByZero op x)) :
    ∃ us z, ⟨.operator .div, op⟩ :: us <:+: ts ∧ (∃ r, Derives .factor us r) ∧
      (z == 0) = true ∧
      (∃ a b, us.head? = some a ∧ us.getLast? = some b ∧
        calculate ((Span.across a.span b.span).excerpt s) = .ok z) ∧
      ∃ opens core closes a b vs, Trims us opens core closes a b ∧ x = .across a.span b.span ∧
        core = vs.map (·.shift x.start) ∧ scan (x.excerpt s) = .ok vs ∧
        (IsExpression vs ↔ Balanced vs) ∧ (Balanced vs → calculate (x.excerpt s) = .ok z) ∧
        (¬ Balanced vs → ∃ p, calculate (x.excerpt s) = .error (.mismatchedParentheses p)) := by
  obtain ⟨t, ht⟩ := he
  rw [calculate_of_derives hs ht] at h
  obtain ⟨us, r, z, hin, hfactor, rfl, hz, hzero⟩ := exists_divisor ht h
  have hexpr : Derives .expr us r := .term (.factor hfactor)
  have hus : us <:+: ts := (List.suffix_cons _ us).isInfix.trans hin
  obtain ⟨opens, core, closes, a, b, htrims, hextent⟩ := exists_trims hfactor
  obtain ⟨vs, hvs⟩ := calculate_trimmed hs hus hexpr hz htrims
  rw [hextent]
  exact ⟨us, z, hin, ⟨r, hfactor⟩, hzero, calculate_operand hs hus hexpr hz, opens, core, closes, a,
    b, vs, htrims, rfl, hvs⟩

/-- A difference that is zero is told without the parentheses around it. -/
theorem calculate_divisor_difference :
    ∃ ts, scan "1/(2-2)" = .ok ts ∧ IsExpression ts ∧
      calculate "1/(2-2)" = .error (.divisionByZero ⟨1, 2⟩ ⟨3, 6⟩) ∧
      ∃ z, (z == 0) = true ∧ calculate ((⟨3, 6⟩ : Span).excerpt "1/(2-2)") = .ok z := by
  have hs : scan "1/(2-2)" = .ok [⟨.number "1", ⟨0, 1⟩⟩, ⟨.operator .div, ⟨1, 2⟩⟩,
      ⟨.paren .opening, ⟨2, 3⟩⟩, ⟨.number "2", ⟨3, 4⟩⟩, ⟨.operator .sub, ⟨4, 5⟩⟩,
      ⟨.number "2", ⟨5, 6⟩⟩, ⟨.paren .closing, ⟨6, 7⟩⟩] := by decide
  have hgroup : Derives .factor _ (.node .sub ⟨4, 5⟩ (.leaf "2" ⟨3, 4⟩) (.leaf "2" ⟨5, 6⟩)) :=
    .group (o := ⟨2, 3⟩) (c := ⟨6, 7⟩)
      (.add (.term (.factor .number)) (.inr rfl) (.factor .number))
  have he : Derives .expr _ (.node .div ⟨1, 2⟩ (.leaf "1" ⟨0, 1⟩) _) :=
    .term (.multiply (.factor .number) (.inr rfl) hgroup)
  have hv : calculate "1/(2-2)" = .error (.divisionByZero ⟨1, 2⟩ ⟨3, 6⟩) := by decide +kernel
  obtain ⟨_, z, -, -, hzero, -, -, -, -, -, -, vs, -, -, -, hvs, -, hcalculate, -⟩ :=
    calculate_divisor hs ⟨_, he⟩ hv
  have hscan : scan ((⟨3, 6⟩ : Span).excerpt "1/(2-2)") = .ok [⟨.number "2", ⟨0, 1⟩⟩,
      ⟨.operator .sub, ⟨1, 2⟩⟩, ⟨.number "2", ⟨2, 3⟩⟩] := by decide
  rw [hscan, Except.ok.injEq] at hvs
  subst hvs
  exact ⟨_, hs, ⟨_, he⟩, hv, z, hzero,
    hcalculate (((Balanced.nil.token rfl).token rfl).token rfl)⟩

/-- A product that is zero is told without the parenthesis that its last factor ends with. -/
theorem calculate_divisor_product :
    ∃ ts, scan "1 / (0 * (0 - 1))" = .ok ts ∧ IsExpression ts ∧
      calculate "1 / (0 * (0 - 1))" = .error (.divisionByZero ⟨2, 3⟩ ⟨5, 15⟩) ∧
      (⟨5, 15⟩ : Span).excerpt "1 / (0 * (0 - 1))" = "0 * (0 - 1" ∧
      (¬ ∃ vs, scan "0 * (0 - 1" = .ok vs ∧ IsExpression vs) ∧
      calculate "0 * (0 - 1" = .error (.mismatchedParentheses ⟨4, 5⟩) := by
  have hs : scan "1 / (0 * (0 - 1))" = .ok [⟨.number "1", ⟨0, 1⟩⟩, ⟨.operator .div, ⟨2, 3⟩⟩,
      ⟨.paren .opening, ⟨4, 5⟩⟩, ⟨.number "0", ⟨5, 6⟩⟩, ⟨.operator .mul, ⟨7, 8⟩⟩,
      ⟨.paren .opening, ⟨9, 10⟩⟩, ⟨.number "0", ⟨10, 11⟩⟩, ⟨.operator .sub, ⟨12, 13⟩⟩,
      ⟨.number "1", ⟨14, 15⟩⟩, ⟨.paren .closing, ⟨15, 16⟩⟩, ⟨.paren .closing, ⟨16, 17⟩⟩] := by
    decide
  have hinner : Derives .factor _ (.node .sub ⟨12, 13⟩ (.leaf "0" ⟨10, 11⟩) (.leaf "1" ⟨14, 15⟩)) :=
    .group (o := ⟨9, 10⟩) (c := ⟨15, 16⟩)
      (.add (.term (.factor .number)) (.inr rfl) (.factor .number))
  have hproduct : Derives .expr _ (.node .mul ⟨7, 8⟩ (.leaf "0" ⟨5, 6⟩)
      (.node .sub ⟨12, 13⟩ (.leaf "0" ⟨10, 11⟩) (.leaf "1" ⟨14, 15⟩))) :=
    .term (.multiply (.factor .number) (.inl rfl) hinner)
  have he : Derives .expr _ (.node .div ⟨2, 3⟩ (.leaf "1" ⟨0, 1⟩) _) :=
    .term (.multiply (.factor .number) (.inr rfl) (hproduct.group (o := ⟨4, 5⟩) (c := ⟨16, 17⟩)))
  have hfault : calculate "0 * (0 - 1" = .error (.mismatchedParentheses ⟨4, 5⟩) := by
    decide +kernel
  refine ⟨_, hs, ⟨_, he⟩, by decide +kernel, by decide, ?_, hfault⟩
  rintro ⟨vs, hvs, t, ht⟩
  rw [calculate_of_derives hvs ht] at hfault
  rcases Tree.value_eq_error hfault with ⟨_, h⟩ | ⟨_, _, h⟩ <;> cases h

end Calculator

import Calculator.Proofs.Pages

/-!
# Every fault is shown at its place

Some positions are in no source line: a line feed behind a carriage return, and the end of a text
behind one. A source line covers every other character that is no line feed, and the start of the
text (`SourceLine.covered_of_listFrom`). What an expression is blamed for begins at a character of a
token or at an illegal one, which is no line feed, or at the start of the text
(`start_of_calculate`). So a line is shown with marks for each part that is blamed
(`Diagnostic.render_shows_places`).
-/

namespace Calculator

namespace SourceLine

/-- A part of a text from its start or from behind a line feed up to a line feed, to a carriage
return or to its end. -/
structure IsLineOf (cs : List Char) (l : SourceLine) : Prop where
  split : ∃ before after, cs = before ++ l.text ++ after ∧
    l.span = ⟨before.length, before.length + l.text.length + 1⟩ ∧
    (∀ c ∈ before.getLast?, c = '\n') ∧ (∀ c ∈ after.head?, c = '\r' ∨ c = '\n')
  text : '\n' ∉ l.text

/-- Where the lister stands in a text: the current line has begun behind `before`. -/
structure Stands (cs rest : List Char) (start position : Nat) (text : List Char) : Prop where
  split : ∃ before, cs = before ++ text.reverse ++ rest ∧ start = before.length ∧
    position = start + text.length ∧ ∀ c ∈ before.getLast?, c = '\n'
  text : '\n' ∉ text

theorem stands_start (cs : List Char) : Stands cs cs 0 0 [] :=
  ⟨⟨[], rfl, rfl, rfl, by simp⟩, List.not_mem_nil⟩

namespace Stands

variable {cs rest text : List Char} {start position : Nat} {c : Char}

theorem push (h : Stands cs (c :: rest) start position text) (hc : c ≠ '\n') :
    Stands cs rest start (position + 1) (c :: text) := by
  obtain ⟨before, hcs, hstart, hposition, hbefore⟩ := h.split
  refine ⟨⟨before, by simpa using hcs, hstart, ?_, hbefore⟩, ?_⟩
  · rw [hposition, List.length_cons, Nat.add_assoc]
  · rw [List.mem_cons, not_or]
    exact ⟨hc.symm, h.text⟩

theorem feed (h : Stands cs ('\n' :: rest) start position text) :
    Stands cs rest (position + 1) (position + 1) [] := by
  obtain ⟨before, hcs, hstart, hposition, -⟩ := h.split
  refine ⟨⟨before ++ text.reverse ++ ['\n'], by simpa using hcs, ?_, rfl, by simp⟩,
    List.not_mem_nil⟩
  simp [hposition, hstart, Nat.add_assoc]

theorem isLineOf (h : Stands cs rest start position text)
    (hrest : ∀ c ∈ rest.head?, c = '\r' ∨ c = '\n') :
    IsLineOf cs (ending start position text) := by
  obtain ⟨before, hcs, hstart, hposition, hbefore⟩ := h.split
  refine ⟨⟨before, rest, hcs, ?_, hbefore, hrest⟩, by simpa [ending] using h.text⟩
  simp [ending, hposition, hstart]

end Stands

theorem isLineOf_of_mem_listFrom {cs : List Char} : ∀ {rest : List Char} {start position : Nat}
    {text : List Char} {listed : Bool} {found : List SourceLine},
    Stands cs rest start position text → (∀ l ∈ found, IsLineOf cs l) →
      ∀ l ∈ listFrom rest start position text listed found, IsLineOf cs l
  | [], start, position, text, listed, found, h, hfound => by
    have hending : ∀ l ∈ ending start position text :: found, IsLineOf cs l :=
      List.forall_mem_cons.2 ⟨h.isLineOf (by simp), hfound⟩
    intro l hl
    rw [listFrom, List.mem_reverse] at hl
    split_ifs at hl
    · exact hfound l hl
    · exact hending l hl
  | c :: rest, start, position, text, listed, found, h, hfound => by
    have hending (hc : c = '\r' ∨ c = '\n') :
        ∀ l ∈ ending start position text :: found, IsLineOf cs l :=
      List.forall_mem_cons.2 ⟨h.isLineOf (by simpa using hc), hfound⟩
    unfold listFrom
    split_ifs with hreturn hfeed
    · have hne : c ≠ '\n' := by
        rw [hreturn]
        decide
      exact isLineOf_of_mem_listFrom (h.push hne) (hending (.inl hreturn))
    · subst hfeed
      exact isLineOf_of_mem_listFrom h.feed hfound
    · subst hfeed
      exact isLineOf_of_mem_listFrom h.feed (hending (.inr rfl))
    · exact isLineOf_of_mem_listFrom (h.push hfeed) hfound

def Covers (ls : List SourceLine) (p : Nat) : Prop :=
  ∃ l ∈ ls, l.span.contains p = true

theorem mem_listFrom_of_found : ∀ {rest : List Char} {start position : Nat} {text : List Char}
    {listed : Bool} {found : List SourceLine} {l : SourceLine}, l ∈ found →
      l ∈ listFrom rest start position text listed found
  | [], start, position, text, listed, found, l, h => by
    rw [listFrom, List.mem_reverse]
    split
    · exact h
    · exact List.mem_cons_of_mem _ h
  | c :: rest, start, position, text, listed, found, l, h => by
    unfold listFrom
    split_ifs
    · exact mem_listFrom_of_found (List.mem_cons_of_mem _ h)
    · exact mem_listFrom_of_found h
    · exact mem_listFrom_of_found (List.mem_cons_of_mem _ h)
    · exact mem_listFrom_of_found h

theorem contains_ending {start position p : Nat} {text : List Char} (h : start ≤ p)
    (h' : p ≤ position) : (ending start position text).span.contains p = true :=
  Span.contains_iff.2 ⟨h, Nat.lt_succ_of_le h'⟩

/-- A line that has not been listed yet is listed in the end. -/
theorem covers_pending : ∀ {rest : List Char} {start position p : Nat} {text : List Char}
    {found : List SourceLine}, start ≤ p → p ≤ position →
      Covers (listFrom rest start position text false found) p
  | [], start, position, p, text, found, h, h' =>
    ⟨_, List.mem_reverse.2 List.mem_cons_self, contains_ending h h'⟩
  | c :: rest, start, position, p, text, found, h, h' => by
    have hlisted {rest : List Char} {start' position' : Nat} {text' : List Char} {listed : Bool} :
        Covers (listFrom rest start' position' text' listed
          (ending start position text :: found)) p :=
      ⟨_, mem_listFrom_of_found List.mem_cons_self, contains_ending h h'⟩
    simp only [listFrom, Bool.false_eq_true, ↓reduceIte]
    split_ifs
    · exact hlisted
    · exact hlisted
    · exact covers_pending h (Nat.le_succ_of_le h')

theorem covers_char : ∀ {rest : List Char} {start position j : Nat} {text : List Char}
    {listed : Bool} {found : List SourceLine} {c : Char}, start ≤ position →
    rest[j]? = some c → c ≠ '\n' →
      Covers (listFrom rest start position text listed found) (position + j)
  | [], start, position, j, text, listed, found, c, _, hc, _ => by simp at hc
  | d :: rest, start, position, 0, text, listed, found, c, h, hc, hne => by
    cases hc
    unfold listFrom
    split_ifs with hreturn
    · exact ⟨_, mem_listFrom_of_found List.mem_cons_self, contains_ending h (Nat.le_refl _)⟩
    · exact covers_pending h (Nat.le_succ position)
  | d :: rest, start, position, j + 1, text, listed, found, c, h, hc, hne => by
    rw [List.getElem?_cons_succ] at hc
    have hnext : position + (j + 1) = position + 1 + j := by omega
    rw [hnext]
    unfold listFrom
    split_ifs
    · exact covers_char (Nat.le_succ_of_le h) hc hne
    · exact covers_char (Nat.le_refl _) hc hne
    · exact covers_char (Nat.le_refl _) hc hne
    · exact covers_char (Nat.le_succ_of_le h) hc hne

/-- The start of a text is covered, and every character that is no line feed. -/
theorem covers_list {cs : List Char} {p : Nat} (h : p = 0 ∨ ∃ c, cs[p]? = some c ∧ c ≠ '\n') :
    Covers (list cs) p := by
  rcases h with rfl | ⟨c, hc, hne⟩
  · exact covers_pending (Nat.le_refl 0) (Nat.le_refl 0)
  · have hcovers : Covers (list cs) (0 + p) := covers_char (Nat.le_refl 0) hc hne
    rwa [Nat.zero_add] at hcovers

end SourceLine

theorem ne_feed_of_isLegal {c : Char} (h : isLegal c = false) : c ≠ '\n' := by
  rintro rfl
  exact absurd h (by decide)

theorem Cuts.start_ne_feed {cs : List Char} {ts : List Token} (h : Cuts cs ts) {t : Token}
    (ht : t ∈ ts) : ∃ c, cs[t.span.start]? = some c ∧ c ≠ '\n' := by
  have hnonempty := h.nonempty t ht
  have hc := List.getElem?_eq_getElem (Nat.lt_of_lt_of_le hnonempty (h.inside t ht))
  refine ⟨_, hc, fun hfeed => ?_⟩
  rw [hfeed] at hc
  rcases h.token_at ht ⟨Nat.le_refl _, hnonempty⟩ hc with ⟨_, -, hliteral, -⟩ | ⟨hsymbol, -, -⟩
  · exact absurd hliteral (by decide)
  · exact absurd hsymbol (by decide)

/-- What is blamed begins with a token, unless there is none. -/
theorem start_of_blames {ts : List Token} {f : Fault} (h : Blames ts f) :
    ∀ x ∈ f.spans, x.start = 0 ∨ ∃ t ∈ ts, t.span.start = x.start := by
  cases h with
  | @closing _ _ p h =>
    rw [Fault.spans, List.forall_mem_singleton]
    exact .inr ⟨⟨.paren .closing, .single p⟩, by simp [h], rfl⟩
  | @opening _ _ p h =>
    rw [Fault.spans, List.forall_mem_singleton]
    exact .inr ⟨⟨.paren .opening, .single p⟩, by simp [h], rfl⟩
  | number h =>
    rw [Fault.spans, List.forall_mem_singleton]
    exact .inr ⟨_, h, rfl⟩
  | operator h =>
    rw [Fault.spans, List.forall_mem_singleton]
    exact .inr ⟨_, h, rfl⟩
  | division h ha =>
    rw [Fault.spans, List.forall_mem_cons, List.forall_mem_singleton]
    exact ⟨.inr ⟨_, h, rfl⟩, .inr ⟨_, mem_of_mem_numbers ha, rfl⟩⟩
  | surplus ha =>
    rw [Fault.spans, List.forall_mem_singleton]
    exact .inr ⟨_, mem_of_mem_numbers (List.mem_of_head? ha), rfl⟩
  | nothing =>
    rw [Fault.spans, List.forall_mem_singleton]
    exact .inl rfl

theorem start_of_calculate {s : String} {f : Fault} (h : calculate s = .error f) :
    ∀ x ∈ f.spans, x.start = 0 ∨ ∃ c, s.toList[x.start]? = some c ∧ c ≠ '\n' := by
  rcases scan_or_blames h with ⟨before, c, after, hs, hc, rfl⟩ | ⟨ts, hs, hb⟩
  · rw [Fault.spans, List.forall_mem_singleton]
    exact .inr ⟨c, by simp [hs, Span.single], ne_feed_of_isLegal hc⟩
  · intro x hx
    rcases start_of_blames hb x hx with hzero | ⟨t, ht, hstart⟩
    · exact .inl hzero
    · rw [← hstart]
      exact .inr ((Token.cuts_of_scan hs).start_ne_feed ht)

namespace Diagnostic

/-- A page of a fault that is found in an expression shows lines of the expression with marks, and
for each span that is blamed a line that it begins in or right behind. -/
theorem render_shows_places (colour : Bool) (k : Nat) {s : String} {f : Fault}
    (h : calculate s = .error f) :
    ∃ rows, render colour k s f = page colour rows f.description ∧ rows ≠ [] ∧
      (∀ r ∈ rows, r.OneLine ∧ ∃ l, SourceLine.IsLineOf s.toList l ∧
        r.text = String.ofList l.text) ∧
      ∀ x ∈ f.spans, ∃ r ∈ rows, ∃ l, SourceLine.IsLineOf s.toList l ∧
        r.text = String.ofList l.text ∧ l.span.contains x.start = true := by
  have hline : ∀ l ∈ SourceLine.list s.toList, SourceLine.IsLineOf s.toList l :=
    SourceLine.isLineOf_of_mem_listFrom (SourceLine.stands_start s.toList) (List.forall_mem_nil _)
  have hshown : ∀ x ∈ f.spans, ∃ r ∈ (excerpts k s.toList f.spans).map (numberedRow colour),
      ∃ l, SourceLine.IsLineOf s.toList l ∧ r.text = String.ofList l.text ∧
        l.span.contains x.start = true := by
    intro x hx
    obtain ⟨l, hl, hcontains⟩ := SourceLine.covers_list (start_of_calculate h x hx)
    obtain ⟨i, hi⟩ := List.mem_iff_getElem?.1 hl
    have hmeets : x.meets l.span = true := by rw [Span.meets, hcontains, Bool.or_true]
    exact ⟨_, List.mem_map_of_mem (mem_excerpts_iff.2 ⟨i, l, hi, ⟨x, hx, hmeets⟩, rfl⟩), l,
      hline l hl, rfl, hcontains⟩
  refine ⟨_, render_eq_page k s f, ?_, fun r hr => ?_, hshown⟩
  · obtain ⟨x, hx⟩ := List.exists_mem_of_ne_nil _ (spans_ne_nil f)
    obtain ⟨r, hr, -⟩ := hshown x hx
    exact List.ne_nil_of_mem hr
  · obtain ⟨e, he, rfl⟩ := List.mem_map.1 hr
    obtain ⟨i, l, hi, hx, rfl⟩ := mem_excerpts_iff.1 he
    have hl := hline l (List.mem_of_getElem? hi)
    exact ⟨oneLine_numberedRow hl.text (spans_ne_nil_of_mem_excerpts he), l, hl, rfl⟩

/-- An expression of a carriage return and a line feed has nothing to point at but its start. -/
theorem render_shows_places_blank :
    calculate "\r\n" = .error (.malformedExpression ⟨0, 1⟩) ∧
      ∃ rows, render false 1 "\r\n" (.malformedExpression ⟨0, 1⟩)
        = page false rows "Malformed expression" ∧ rows ≠ [] ∧ ∀ r ∈ rows, r.OneLine := by
  have h : calculate "\r\n" = .error (.malformedExpression ⟨0, 1⟩) := by decide +kernel
  obtain ⟨rows, hpage, hne, hrows, -⟩ := render_shows_places false 1 h
  exact ⟨h, rows, hpage, hne, fun r hr => (hrows r hr).1⟩

end Diagnostic

end Calculator

import Calculator.Token.Scan
import Mathlib.Data.List.Basic
import Mathlib.Tactic.SplitIfs

/-!
# Cutting a text into tokens

What the tokens of a text have to be is said by `Cuts`, about positions and characters only: the
tokens lie side by side in increasing order, cover all that is not blank, and a number takes in all
digits and points on either side of it. Cuttings of two texts join to one of the two in a row,
unless a number reaches from one into the other (`Cuts.append`), so scanning cuts a text
(`cuts_of_scan`); and a text has one cutting only (`Cuts.unique`).
-/

namespace Calculator

def isLiteralChar (c : Char) : Bool :=
  c.isDigit || c == '.'

def isSymbolChar (c : Char) : Bool :=
  ['+', '-', '*', '/', '(', ')'].contains c

/-- The characters that an expression may contain. -/
def isLegal (c : Char) : Bool :=
  isLiteralChar c || isSymbolChar c || isBlank c

theorem isLiteralChar_eq_false_of_isBlank {c : Char} (h : isBlank c = true) :
    isLiteralChar c = false := by
  by_contra hc
  simp only [isLiteralChar, Bool.not_eq_false, Bool.or_eq_true, beq_iff_eq] at hc
  rcases hc with hc | rfl
  · have hdigit : 48 ≤ c.toNat ∧ c.toNat ≤ 57 := by
      simpa [Char.isDigit, UInt32.le_iff_toNat_le] using hc
    simp only [isBlank, inRanges, blankRanges, List.any_cons, List.any_nil, Bool.or_false,
      Bool.or_eq_true, Bool.and_eq_true, decide_eq_true_eq] at h
    omega
  · exact absurd h (by decide)

namespace CharClass

theorem of_eq_literal_iff {c : Char} : of c = .literal ↔ isLiteralChar c = true := by
  simp only [of, isLiteralChar]
  split_ifs <;> simp_all

theorem of_eq_blank {c : Char} (h : of c = .blank) : isBlank c = true := by
  simp only [of] at h
  split_ifs at h
  assumption

theorem of_eq_foreign_iff {c : Char} : of c = .foreign ↔ isLegal c = false := by
  simp only [of, isLegal, isLiteralChar, isSymbolChar]
  split_ifs with h
  · simp [h]
  all_goals simp_all

/-- A symbol is a token by itself, with the character as its text. -/
theorem of_eq_symbol {c : Char} {l : Lexeme} (h : of c = .symbol l) :
    l.text.toList = [c] ∧ (∀ literal, l ≠ .number literal) ∧ isLiteralChar c = false ∧
      isBlank c = false := by
  simp only [of] at h
  split_ifs at h <;> cases h
  all_goals
    simp only [beq_iff_eq] at *
    subst c
    exact ⟨by decide, by simp, by decide, by decide⟩

end CharClass

/-- The characters of a text inside a span. -/
def Span.slice (s : Span) (cs : List Char) : List Char :=
  (cs.take s.stop).drop s.start

def Span.shift (s : Span) (k : Nat) : Span :=
  ⟨s.start + k, s.stop + k⟩

def Token.shift (t : Token) (k : Nat) : Token :=
  ⟨t.lexeme, t.span.shift k⟩

/-- A span of digits and points that cannot be made longer on either side. -/
structure IsRun (cs : List Char) (s : Span) : Prop where
  inner : ∀ p c, s.start ≤ p → p < s.stop → cs[p]? = some c → isLiteralChar c = true
  before : ∀ p c, p + 1 = s.start → cs[p]? = some c → isLiteralChar c = false
  behind : ∀ c, cs[s.stop]? = some c → isLiteralChar c = false

/-- What makes a list of tokens the tokens of a text. -/
structure Cuts (cs : List Char) (ts : List Token) : Prop where
  text : ∀ t ∈ ts, t.text.toList = t.span.slice cs
  nonempty : ∀ t ∈ ts, t.span.start < t.span.stop
  inside : ∀ t ∈ ts, t.span.stop ≤ cs.length
  ordered : ts.Pairwise fun a b => a.span.stop ≤ b.span.start
  /-- The characters in no token are the blanks. -/
  covers : ∀ p c, cs[p]? = some c →
    ((∃ t ∈ ts, t.span.start ≤ p ∧ p < t.span.stop) ↔ isBlank c = false)
  symbol : ∀ t ∈ ts, t.literal? = none → t.span.stop = t.span.start + 1
  number : ∀ t ∈ ts, t.literal?.isSome = true → IsRun cs t.span

theorem slice_single {cs : List Char} {p : Nat} {c : Char} (hc : cs[p]? = some c) :
    (Span.single p).slice cs = [c] := by
  have hlt : p < cs.length := (List.getElem?_eq_some_iff.1 hc).1
  rw [Span.slice, Span.single, List.take_add_one, hc]
  exact List.drop_left' (List.length_take_of_le (Nat.le_of_lt hlt))

section Append

variable {cs us : List Char} {s : Span}

theorem slice_append_left (h : s.stop ≤ cs.length) : s.slice (cs ++ us) = s.slice cs := by
  rw [Span.slice, Span.slice, List.take_append_of_le_length h]

theorem slice_append_right : (s.shift cs.length).slice (cs ++ us) = s.slice us := by
  rw [Span.slice, Span.slice, Span.shift, Nat.add_comm s.stop, Nat.add_comm s.start,
    List.take_length_add_append, List.drop_length_add_append]

/-- No number reaches from one text into the other. -/
def Apart (cs us : List Char) : Prop :=
  ∀ c d, cs.getLast? = some c → us.head? = some d → isLiteralChar c = true →
    isLiteralChar d = false

theorem isRun_append_left (h : IsRun cs s) (hs : s.start < s.stop) (hi : s.stop ≤ cs.length)
    (ha : Apart cs us) : IsRun (cs ++ us) s where
  inner p c hp hq hc := h.inner p c hp hq (by rwa [List.getElem?_append_left (by omega)] at hc)
  before p c hp hc := h.before p c hp (by rwa [List.getElem?_append_left (by omega)] at hc)
  behind c hc := by
    rcases Nat.lt_or_ge s.stop cs.length with hlt | hge
    · exact h.behind c (by rwa [List.getElem?_append_left hlt] at hc)
    · -- the run ends the first text, so its last character is a digit or point
      rw [List.getElem?_append_right hge] at hc
      have hlen : 0 < cs.length := by omega
      have hlast : cs[cs.length - 1]? = some cs[cs.length - 1] := by simp
      refine ha _ c (by rw [List.getLast?_eq_getElem?, hlast]) ?_
        (h.inner _ _ (by omega) (by omega) hlast)
      rw [List.head?_eq_getElem?, ← hc]
      congr 1
      omega

theorem isRun_append_right (h : IsRun us s) (hs : s.start < s.stop) (hi : s.stop ≤ us.length)
    (ha : Apart cs us) : IsRun (cs ++ us) (s.shift cs.length) where
  inner p c hp hq hc := by
    simp only [Span.shift] at hp hq
    rw [List.getElem?_append_right (by omega)] at hc
    exact h.inner _ c (by omega) (by omega) hc
  before p c hp hc := by
    simp only [Span.shift] at hp
    rcases Nat.lt_or_ge p cs.length with hlt | hge
    · -- the run begins the second text, so its first character is a digit or point
      rw [List.getElem?_append_left hlt] at hc
      have hlen : 0 < us.length := by omega
      have hfirst : us[0]? = some us[0] := by simp
      by_contra hlit
      have := ha c us[0] (by rw [List.getLast?_eq_getElem?, ← hc]; congr 1; omega)
        (by rw [List.head?_eq_getElem?, hfirst]) (by simpa using hlit)
      rw [h.inner 0 us[0] (by omega) (by omega) hfirst] at this
      cases this
    · rw [List.getElem?_append_right hge] at hc
      exact h.before _ c (by omega) hc
  behind c hc := by
    simp only [Span.shift] at hc
    rw [List.getElem?_append_right (by omega), Nat.add_sub_cancel] at hc
    exact h.behind c hc

end Append

theorem cuts_nil : Cuts [] [] where
  text := by simp
  nonempty := by simp
  inside := by simp
  ordered := .nil
  covers := by simp
  symbol := by simp
  number := by simp

theorem Cuts.append {cs us : List Char} {ts vs : List Token} (h : Cuts cs ts) (g : Cuts us vs)
    (ha : Apart cs us) : Cuts (cs ++ us) (ts ++ vs.map (·.shift cs.length)) where
  text t ht := by
    rcases List.mem_append.1 ht with ht | ht
    · rw [slice_append_left (h.inside t ht), h.text t ht]
    · obtain ⟨v, hv, rfl⟩ := List.mem_map.1 ht
      exact (g.text v hv).trans slice_append_right.symm
  nonempty t ht := by
    rcases List.mem_append.1 ht with ht | ht
    · exact h.nonempty t ht
    · obtain ⟨v, hv, rfl⟩ := List.mem_map.1 ht
      exact Nat.add_lt_add_right (g.nonempty v hv) _
  inside t ht := by
    rw [List.length_append]
    rcases List.mem_append.1 ht with ht | ht
    · exact Nat.le_add_right_of_le (h.inside t ht)
    · obtain ⟨v, hv, rfl⟩ := List.mem_map.1 ht
      have := g.inside v hv
      simp only [Token.shift, Span.shift]
      omega
  ordered := by
    refine List.pairwise_append.2 ⟨h.ordered, List.pairwise_map.2 ?_, ?_⟩
    · exact g.ordered.imp fun hab => Nat.add_le_add_right hab _
    · intro t ht v hv
      obtain ⟨v, -, rfl⟩ := List.mem_map.1 hv
      exact Nat.le_trans (h.inside t ht) (Nat.le_add_left _ _)
  covers p c hc := by
    rcases Nat.lt_or_ge p cs.length with hlt | hge
    · rw [List.getElem?_append_left hlt] at hc
      rw [← h.covers p c hc]
      constructor
      · rintro ⟨t, ht, hp⟩
        rcases List.mem_append.1 ht with ht | ht
        · exact ⟨t, ht, hp⟩
        · obtain ⟨v, -, rfl⟩ := List.mem_map.1 ht
          simp only [Token.shift, Span.shift] at hp
          omega
      · rintro ⟨t, ht, hp⟩
        exact ⟨t, List.mem_append_left _ ht, hp⟩
    · rw [List.getElem?_append_right hge] at hc
      rw [← g.covers _ c hc]
      constructor
      · rintro ⟨t, ht, hp⟩
        rcases List.mem_append.1 ht with ht | ht
        · have := h.inside t ht
          omega
        · obtain ⟨v, hv, rfl⟩ := List.mem_map.1 ht
          simp only [Token.shift, Span.shift] at hp
          exact ⟨v, hv, by omega⟩
      · rintro ⟨v, hv, hp⟩
        refine ⟨v.shift cs.length, List.mem_append_right _ (List.mem_map_of_mem hv), ?_⟩
        simp only [Token.shift, Span.shift]
        omega
  symbol t ht hl := by
    rcases List.mem_append.1 ht with ht | ht
    · exact h.symbol t ht hl
    · obtain ⟨v, hv, rfl⟩ := List.mem_map.1 ht
      have := g.symbol v hv hl
      simp only [Token.shift, Span.shift]
      omega
  number t ht hl := by
    rcases List.mem_append.1 ht with ht | ht
    · exact isRun_append_left (h.number t ht hl) (h.nonempty t ht) (h.inside t ht) ha
    · obtain ⟨v, hv, rfl⟩ := List.mem_map.1 ht
      exact isRun_append_right (g.number v hv hl) (g.nonempty v hv) (g.inside v hv) ha

theorem cuts_blank {c : Char} (h : isBlank c = true) : Cuts [c] [] where
  text := by simp
  nonempty := by simp
  inside := by simp
  ordered := .nil
  covers p d hd := by
    rcases p with _ | p
    · cases hd
      simp [h]
    · simp at hd
  symbol := by simp
  number := by simp

theorem cuts_symbol {c : Char} {l : Lexeme} (h : CharClass.of c = .symbol l) :
    Cuts [c] [⟨l, .single 0⟩] := by
  obtain ⟨htext, hnumber, -, hblank⟩ := CharClass.of_eq_symbol h
  exact {
    text := by simpa [Token.text, Span.slice, Span.single] using htext
    nonempty := by simp [Span.single]
    inside := by simp [Span.single]
    ordered := List.pairwise_singleton _ _
    covers := by
      rintro (_ | p) d hd
      · cases hd
        simp [Span.single, hblank]
      · simp at hd
    symbol := by simp [Span.single]
    number := by
      simp only [List.mem_singleton, forall_eq]
      intro hl
      cases l with
      | number literal => exact absurd rfl (hnumber literal)
      | operator op => cases hl
      | paren p => cases hl }

theorem cuts_literal {cs : List Char} (hne : cs ≠ []) (h : ∀ c ∈ cs, isLiteralChar c = true) :
    Cuts cs [⟨.number (String.ofList cs), ⟨0, cs.length⟩⟩] where
  text := by simp [Token.text, Lexeme.text, Span.slice]
  nonempty := by simpa using List.length_pos_iff.2 hne
  inside := by simp
  ordered := List.pairwise_singleton _ _
  covers p c hc := by
    have hlit := h c (List.mem_of_getElem? hc)
    have hlt : p < cs.length := (List.getElem?_eq_some_iff.1 hc).1
    have hblank : isBlank c = false := by
      by_contra hb
      rw [isLiteralChar_eq_false_of_isBlank (by simpa using hb)] at hlit
      cases hlit
    simp [hlt, hblank]
  symbol := by simp [Token.literal?]
  number := by
    simp only [List.mem_singleton, forall_eq]
    intro _
    exact ⟨fun p c _ _ hc => h c (List.mem_of_getElem? hc), by simp, by simp⟩

theorem isLiteralChar_eq_false_of_isSymbolChar {c : Char} (h : isSymbolChar c = true) :
    isLiteralChar c = false := by
  simp only [isSymbolChar, List.contains_iff_mem, List.mem_cons, List.not_mem_nil, or_false] at h
  rcases h with rfl | rfl | rfl | rfl | rfl | rfl <;> decide

/-- A lexeme that is no number is a single symbol, and no other lexeme has its text. -/
theorem Lexeme.symbol_of_text {l : Lexeme} {c : Char} (hl : ∀ literal, l ≠ .number literal)
    (h : l.text.toList = [c]) : isSymbolChar c = true ∧ CharClass.of c = .symbol l := by
  cases l with
  | number literal => exact absurd rfl (hl literal)
  | operator op => cases op <;> cases h <;> decide
  | paren p => cases p <;> cases h <;> decide

section Unique

variable {cs : List Char} {ts ts' : List Token}

/-- A run lies within any other run that it has a position in common with. -/
theorem IsRun.within {s s' : Span} (h : IsRun cs s) (h' : IsRun cs s') (hi : s.stop ≤ cs.length)
    (hi' : s'.stop ≤ cs.length) {p : Nat} (hp : s.start ≤ p ∧ p < s.stop)
    (hp' : s'.start ≤ p ∧ p < s'.stop) : s'.start ≤ s.start ∧ s.stop ≤ s'.stop := by
  constructor
  · by_contra hlt
    -- the character before the second run lies in the first
    have hc : cs[s'.start - 1]? = some cs[s'.start - 1] := by simp
    have hlit := h.inner _ _ (by omega) (by omega) hc
    rw [h'.before _ _ (by omega) hc] at hlit
    cases hlit
  · by_contra hlt
    have hc : cs[s'.stop]? = some cs[s'.stop] := by simp
    have hlit := h.inner _ _ (by omega) (by omega) hc
    rw [h'.behind _ hc] at hlit
    cases hlit

theorem IsRun.unique {s s' : Span} (h : IsRun cs s) (h' : IsRun cs s') (hi : s.stop ≤ cs.length)
    (hi' : s'.stop ≤ cs.length) {p : Nat} (hp : s.start ≤ p ∧ p < s.stop)
    (hp' : s'.start ≤ p ∧ p < s'.stop) : s = s' := by
  have hwithin := h.within h' hi hi' hp hp'
  have hwithin' := h'.within h hi' hi hp' hp
  obtain ⟨a, b⟩ := s
  obtain ⟨a', b'⟩ := s'
  simp only at hwithin hwithin'
  rw [Span.mk.injEq]
  omega

/-- The token at a position is told by the character there: a number around a digit or point, and
otherwise the symbol that the character is. -/
theorem Cuts.token_at (h : Cuts cs ts) {t : Token} (ht : t ∈ ts) {p : Nat} {c : Char}
    (hp : t.span.start ≤ p ∧ p < t.span.stop) (hc : cs[p]? = some c) :
    (∃ literal, t.lexeme = .number literal ∧ isLiteralChar c = true ∧ IsRun cs t.span) ∨
      isSymbolChar c = true ∧ t.span = .single p ∧ CharClass.of c = .symbol t.lexeme := by
  have hnumber := h.number t ht
  have hsymbol := h.symbol t ht
  have htext := h.text t ht
  obtain ⟨l, s⟩ := t
  simp only [Token.text] at htext
  rcases hl : Token.literal? ⟨l, s⟩ with _ | literal
  · right
    have hstop := hsymbol hl
    have hs : s = .single p := by
      obtain ⟨a, b⟩ := s
      simp only [Span.single, Span.mk.injEq] at hstop hp ⊢
      omega
    subst hs
    rw [slice_single hc] at htext
    have := Lexeme.symbol_of_text (fun literal hn => by subst hn; cases hl) htext
    exact ⟨this.1, rfl, this.2⟩
  · left
    have hrun := hnumber (by rw [hl]; rfl)
    cases l with
    | number literal => exact ⟨literal, rfl, hrun.inner p c hp.1 hp.2 hc, hrun⟩
    | operator op => cases hl
    | paren p => cases hl

theorem Cuts.isLegal (h : Cuts cs ts) {c : Char} (hc : c ∈ cs) : isLegal c = true := by
  obtain ⟨p, hp⟩ := List.mem_iff_getElem?.1 hc
  rcases hb : isBlank c with _ | _
  · obtain ⟨t, ht, hin⟩ := (h.covers p c hp).2 hb
    rcases h.token_at ht hin hp with ⟨_, -, hlit, -⟩ | ⟨hsym, -, -⟩
    · simp [Calculator.isLegal, hlit]
    · simp [Calculator.isLegal, hsym]
  · simp [Calculator.isLegal, hb]

theorem Cuts.token_eq (h : Cuts cs ts) (h' : Cuts cs ts') {t t' : Token} (ht : t ∈ ts)
    (ht' : t' ∈ ts') {p : Nat} (hp : t.span.start ≤ p ∧ p < t.span.stop)
    (hp' : t'.span.start ≤ p ∧ p < t'.span.stop) : t = t' := by
  have hlt : p < cs.length := Nat.lt_of_lt_of_le hp.2 (h.inside t ht)
  have hc : cs[p]? = some cs[p] := by simp
  have htext := h.text t ht
  have htext' := h'.text t' ht'
  have hinside := h.inside t ht
  have hinside' := h'.inside t' ht'
  rcases h.token_at ht hp hc with ⟨literal, hl, hlit, hrun⟩ | ⟨hsym, hs, hl⟩
  · rcases h'.token_at ht' hp' hc with ⟨literal', hl', -, hrun'⟩ | ⟨hsym', -, -⟩
    · have hspan := hrun.unique hrun' hinside hinside' hp hp'
      obtain ⟨l, s⟩ := t
      obtain ⟨l', s'⟩ := t'
      simp only at hl hl' hspan
      subst hl hl' hspan
      simp only [Token.text, Lexeme.text] at htext htext'
      rw [String.toList_injective (htext.trans htext'.symm)]
    · rw [isLiteralChar_eq_false_of_isSymbolChar hsym'] at hlit
      cases hlit
  · rcases h'.token_at ht' hp' hc with ⟨_, -, hlit', -⟩ | ⟨-, hs', hl'⟩
    · rw [isLiteralChar_eq_false_of_isSymbolChar hsym] at hlit'
      cases hlit'
    · obtain ⟨l, s⟩ := t
      obtain ⟨l', s'⟩ := t'
      simp only at hs hs' hl hl'
      rw [hl, CharClass.symbol.injEq] at hl'
      rw [hs, hs', hl']

theorem Cuts.mem_of_mem (h : Cuts cs ts) (h' : Cuts cs ts') {t : Token} (ht : t ∈ ts) :
    t ∈ ts' := by
  have hp : t.span.start ≤ t.span.start ∧ t.span.start < t.span.stop :=
    ⟨Nat.le_refl _, h.nonempty t ht⟩
  have hlt : t.span.start < cs.length := Nat.lt_of_lt_of_le hp.2 (h.inside t ht)
  have hc : cs[t.span.start]? = some cs[t.span.start] := by simp
  obtain ⟨t', ht', hp'⟩ := (h'.covers _ _ hc).2 ((h.covers _ _ hc).1 ⟨t, ht, hp⟩)
  rw [h.token_eq h' ht ht' hp hp']
  exact ht'

theorem Cuts.nodup (h : Cuts cs ts) : ts.Nodup := by
  refine h.ordered.imp_of_mem fun {a b} ha _ hab heq => ?_
  subst heq
  have := h.nonempty a ha
  omega

theorem Cuts.unique (h : Cuts cs ts) (h' : Cuts cs ts') : ts = ts' := by
  refine List.Perm.eq_of_pairwise ?_ h.ordered h'.ordered
    ((List.perm_ext_iff_of_nodup h.nodup h'.nodup).2 fun t =>
      ⟨fun ht => h.mem_of_mem h' ht, fun ht => h'.mem_of_mem h ht⟩)
  intro a b ha hb hab hba
  have := h.nonempty a ha
  have := h'.nonempty b hb
  omega

end Unique

end Calculator

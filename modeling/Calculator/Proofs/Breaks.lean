import Calculator.Proofs.Pages

/-!
# Pages of a text in pieces

A text is broken into pieces at its line feeds, each with a carriage return before it or without
one (`BreaksInto`). If no carriage return stands anywhere else, the source lines are these pieces
(`SourceLine.listFrom_of_breaksInto`), and the page of a fault shows the pieces that its spans lie
in, by their numbers (`Diagnostic.render_pieces`).
-/

namespace Calculator

structure Piece where
  start : Nat
  text : List Char
deriving DecidableEq, Repr

namespace Piece

/-- A piece owns the positions of its characters and the one behind them. -/
def Owns (piece : Piece) (p : Nat) : Prop :=
  piece.start ≤ p ∧ p ≤ piece.start + piece.text.length

def sourceLine (piece : Piece) : SourceLine :=
  ⟨⟨piece.start, piece.start + piece.text.length + 1⟩, piece.text⟩

theorem sourceLine_injective : Function.Injective sourceLine := by
  rintro ⟨a, s⟩ ⟨b, t⟩ h
  simp only [sourceLine, SourceLine.mk.injEq, Span.mk.injEq] at h
  rw [h.1.1, h.2]

/-- Spans that are not empty meet where they have a position in common. -/
theorem meets_sourceLine_iff {piece : Piece} {x : Span} (hx : x.start < x.stop) :
    x.meets piece.sourceLine.span = true ↔ ∃ p, x.contains p = true ∧ piece.Owns p := by
  simp only [Span.meets, sourceLine, Bool.or_eq_true, Span.contains_iff, Owns]
  constructor
  · rintro (h | h)
    · exact ⟨piece.start, by omega⟩
    · exact ⟨x.start, by omega⟩
  · rintro ⟨p, h⟩
    omega

end Piece

/-- The pieces of a text that begins at position `n`. -/
inductive BreaksInto : (n : Nat) → List Char → List Piece → Prop
  | last {n : Nat} {text : List Char} (h : Unbroken text) : BreaksInto n text [⟨n, text⟩]
  | more {n : Nat} {text lineBreak rest : List Char} {pieces : List Piece} (h : Unbroken text)
    (hbreak : lineBreak = ['\n'] ∨ lineBreak = ['\r', '\n'])
    (hrest : BreaksInto (n + text.length + lineBreak.length) rest pieces) :
    BreaksInto n (text ++ lineBreak ++ rest) (⟨n, text⟩ :: pieces)

/-- Carriage returns stand before line feeds only. -/
def ReturnsFed (cs : List Char) : Prop :=
  ∀ p, cs[p]? = some '\r' → cs[p + 1]? = some '\n'

instance (cs : List Char) : Decidable (ReturnsFed cs) :=
  decidable_of_iff (∀ p < cs.length, cs[p]? = some '\r' → cs[p + 1]? = some '\n')
    ⟨fun h p hp => h p (List.getElem?_eq_some_iff.1 hp).1 hp, fun h p _ => h p⟩

theorem ReturnsFed.tail {c : Char} {cs : List Char} (h : ReturnsFed (c :: cs)) : ReturnsFed cs :=
  fun p => h (p + 1)

theorem BreaksInto.cons {n : Nat} {c : Char} {cs : List Char} {pieces : List Piece}
    (hc : c ≠ '\r' ∧ c ≠ '\n') (h : BreaksInto (n + 1) cs pieces) :
    ∃ pieces', BreaksInto n (c :: cs) pieces' := by
  have hunbroken {text : List Char} (ht : Unbroken text) : Unbroken (c :: text) :=
    List.forall_mem_cons.2 ⟨hc, ht⟩
  cases h with
  | last ht => exact ⟨_, .last (hunbroken ht)⟩
  | @more _ text lineBreak rest pieces ht hbreak hrest =>
    have hstart : n + 1 + text.length = n + (c :: text).length := by
      rw [List.length_cons]
      omega
    rw [hstart] at hrest
    exact ⟨_, .more (hunbroken ht) hbreak hrest⟩

theorem exists_breaksInto : ∀ {cs : List Char}, ReturnsFed cs → ∀ n,
    ∃ pieces, BreaksInto n cs pieces
  | [], _, n => ⟨_, .last (List.forall_mem_nil _)⟩
  | c :: cs, h, n => by
    have hempty : Unbroken [] := List.forall_mem_nil _
    by_cases hreturn : c = '\r'
    · subst hreturn
      obtain ⟨rest, rfl⟩ : ∃ rest, cs = '\n' :: rest := by
        rw [← List.head?_eq_some_iff, List.head?_eq_getElem?]
        exact h 0 rfl
      obtain ⟨pieces, hrest⟩ := exists_breaksInto h.tail.tail (n + 2)
      exact ⟨_, .more hempty (.inr rfl) hrest⟩
    · by_cases hfeed : c = '\n'
      · subst hfeed
        obtain ⟨pieces, hrest⟩ := exists_breaksInto h.tail (n + 1)
        exact ⟨_, .more hempty (.inl rfl) hrest⟩
      · obtain ⟨pieces, hrest⟩ := exists_breaksInto h.tail (n + 1)
        exact hrest.cons ⟨hreturn, hfeed⟩

namespace SourceLine

/-- The pieces are listed one after another. -/
theorem listFrom_of_breaksInto {n : Nat} {cs : List Char} {pieces : List Piece}
    (h : BreaksInto n cs pieces) : ∀ found,
    listFrom cs n n [] false found = found.reverse ++ pieces.map Piece.sourceLine := by
  have hending (n : Nat) (text : List Char) :
      ending n (n + text.length) (text.reverse ++ []) = Piece.sourceLine ⟨n, text⟩ := by
    simp [ending, Piece.sourceLine]
  induction h with
  | @last n text ht =>
    intro found
    have hlist := listFrom_append_unbroken [] n n [] found ht
    rw [List.append_nil] at hlist
    rw [hlist, listFrom, hending]
    simp
  | @more n text lineBreak rest pieces ht hbreak hrest ih =>
    intro found
    rw [List.append_assoc, listFrom_append_unbroken _ n n [] found ht]
    have hnext := ih (Piece.sourceLine ⟨n, text⟩ :: found)
    rw [List.reverse_cons, List.append_assoc] at hnext
    rcases hbreak with rfl | rfl
    · rw [List.singleton_append, listFrom, if_neg (by decide), if_pos rfl,
        if_neg Bool.false_ne_true, hending]
      exact hnext
    · rw [List.cons_append, listFrom, if_pos rfl, List.singleton_append, listFrom,
        if_neg (by decide), if_pos rfl, if_pos rfl, hending]
      exact hnext

theorem list_of_breaksInto {cs : List Char} {pieces : List Piece} (h : BreaksInto 0 cs pieces) :
    list cs = pieces.map Piece.sourceLine :=
  listFrom_of_breaksInto h []

end SourceLine

theorem BreaksInto.unique {cs : List Char} {pieces pieces' : List Piece}
    (h : BreaksInto 0 cs pieces) (h' : BreaksInto 0 cs pieces') : pieces = pieces' := by
  rw [← List.map_inj_right fun _ _ hab => Piece.sourceLine_injective hab,
    ← SourceLine.list_of_breaksInto h, SourceLine.list_of_breaksInto h']

theorem BreaksInto.unbroken {n : Nat} {cs : List Char} {pieces : List Piece}
    (h : BreaksInto n cs pieces) : ∀ piece ∈ pieces, Unbroken piece.text := by
  induction h with
  | last ht => exact List.forall_mem_singleton.2 ht
  | more ht _ _ ih => exact List.forall_mem_cons.2 ⟨ht, ih⟩

namespace Diagnostic

/-- A text with carriage returns before line feeds only is shown in pieces: those that own a
position of a span, each in a row with its own number. -/
theorem render_pieces (k : Nat) {s : String} {f : Fault} (hreturns : ReturnsFed s.toList)
    (hspans : ∀ x ∈ f.spans, x.start < x.stop) :
    ∃ pieces, (∀ pieces', BreaksInto 0 s.toList pieces' ↔ pieces' = pieces) ∧
      ∃ rows, render false k s f = page false rows f.description ∧
        rows.Pairwise (fun r r' => r.number < r'.number) ∧
        (∀ number text, (∃ r ∈ rows, r.number = number ∧ r.text = text) ↔
          ∃ i piece, pieces[i]? = some piece ∧
            (∃ x ∈ f.spans, ∃ p, x.contains p = true ∧ piece.Owns p) ∧
            number = k + i ∧ text = String.ofList piece.text) ∧
        ∀ r ∈ rows, '\n' ∉ r.text.toList ∧ (∀ c ∈ r.marks.toList, c = '^' ∨ c = ' ') ∧
          r.marks.toList.getLast? = some '^' := by
  obtain ⟨pieces, hpieces⟩ := exists_breaksInto hreturns 0
  have hlist := SourceLine.list_of_breaksInto hpieces
  have hmeets (piece : Piece) : (∃ x ∈ f.spans, x.meets piece.sourceLine.span = true) ↔
      ∃ x ∈ f.spans, ∃ p, x.contains p = true ∧ piece.Owns p :=
    exists_congr fun x => and_congr_right fun hx => Piece.meets_sourceLine_iff (hspans x hx)
  have hmem {e : Excerpt} : e ∈ excerpts k s.toList f.spans ↔
      ∃ i piece, pieces[i]? = some piece ∧
        (∃ x ∈ f.spans, ∃ p, x.contains p = true ∧ piece.Owns p) ∧
        e = ⟨k + i, piece.text, piece.sourceLine.clipAll f.spans⟩ := by
    simp only [mem_excerpts_iff, hlist, List.getElem?_map, Option.map_eq_some_iff]
    constructor
    · rintro ⟨i, _, ⟨piece, hp, rfl⟩, hx, rfl⟩
      exact ⟨i, piece, hp, (hmeets piece).1 hx, rfl⟩
    · rintro ⟨i, piece, hp, hx, rfl⟩
      exact ⟨i, _, ⟨piece, hp, rfl⟩, (hmeets piece).2 hx, rfl⟩
  refine ⟨pieces, fun pieces' => ⟨fun h => h.unique hpieces, fun h => h ▸ hpieces⟩, _,
    render_eq_page k s f, numberedRows_increasing k s.toList f.spans, fun number text => ?_,
    fun r hr => ?_⟩
  · constructor
    · rintro ⟨r, hr, rfl, rfl⟩
      obtain ⟨e, he, rfl⟩ := List.mem_map.1 hr
      obtain ⟨i, piece, hp, hx, rfl⟩ := hmem.1 he
      exact ⟨i, piece, hp, hx, rfl, rfl⟩
    · rintro ⟨i, piece, hp, hx, rfl, rfl⟩
      exact ⟨_, List.mem_map_of_mem (hmem.2 ⟨i, piece, hp, hx, rfl⟩), rfl, rfl⟩
  · obtain ⟨e, he, rfl⟩ := List.mem_map.1 hr
    refine ⟨?_, marks_numberedRow (spans_ne_nil_of_mem_excerpts he)⟩
    obtain ⟨i, piece, hp, -, rfl⟩ := hmem.1 he
    have hunbroken := hpieces.unbroken piece (List.mem_of_getElem? hp)
    rw [numberedRow, String.toList_ofList]
    exact fun hfeed => (hunbroken _ hfeed).2 rfl

/-- The line between the divisor and its operator is left out. -/
theorem render_pieces_gap :
    let s := "1 0\r\n\n/"
    let f := Fault.divisionByZero ⟨6, 7⟩ ⟨2, 3⟩
    ReturnsFed s.toList ∧ (∀ x ∈ f.spans, x.start < x.stop) ∧
      BreaksInto 0 s.toList [⟨0, "1 0".toList⟩, ⟨5, []⟩, ⟨6, ['/']⟩] ∧
      render false 9 s f
        = " 9 │ 1 0\n   │   ^\n...\n11 │ /\n   │ ^\n   │ Attempted to divide by 0" ∧
      ∃ rows, render false 9 s f = page false rows f.description ∧
        ∃ r ∈ rows, r.number = 11 ∧ r.text = "/" := by
  intro s f
  have hreturns : ReturnsFed s.toList := by decide
  have hspans : ∀ x ∈ f.spans, x.start < x.stop := by decide
  have hbreaks : BreaksInto 0 s.toList [⟨0, "1 0".toList⟩, ⟨5, []⟩, ⟨6, ['/']⟩] := by
    have hfirst : Unbroken "1 0".toList := by decide
    have hsecond : Unbroken [] := by decide
    have hthird : Unbroken ['/'] := by decide
    have htext : s.toList = "1 0".toList ++ ['\r', '\n'] ++ ([] ++ ['\n'] ++ ['/']) := by decide
    rw [htext]
    exact .more hfirst (.inr rfl) (.more hsecond (.inl rfl) (.last hthird))
  obtain ⟨pieces, hpieces, rows, hpage, -, hshown, -⟩ := render_pieces 9 hreturns hspans
  obtain rfl := (hpieces _).1 hbreaks
  refine ⟨hreturns, hspans, hbreaks, by decide +kernel, rows, hpage, (hshown 11 "/").2 ?_⟩
  exact ⟨2, _, rfl, ⟨⟨6, 7⟩, by decide, 6, by decide, by decide, by decide⟩, rfl, rfl⟩

end Diagnostic

end Calculator

import Calculator.Proofs.Tokenization

/-!
# Scanning cuts a text into its tokens

Behind every prefix the scanner has cut what stands before the pending literal, and that part does
not end in a digit or point. So the literal that is ended by whatever comes next is a whole number,
and scanning a text gives its cutting (`cuts_of_scan`). It fails for the first character that no
expression may contain, and for nothing else (`scanFrom_eq_error_iff`).
-/

namespace Calculator

/-- The first illegal character of a text that begins at `position` is the fault. -/
def FirstIllegal (cs : List Char) (position : Nat) (f : Fault) : Prop :=
  ∃ before c after, cs = before ++ c :: after ∧ (∀ d ∈ before, isLegal d = true) ∧
    isLegal c = false ∧ f = .invalidCharacter c (.single (position + before.length))

theorem not_firstIllegal_nil (position : Nat) (f : Fault) : ¬ FirstIllegal [] position f := by
  rintro ⟨before, c, after, h, -⟩
  simp at h

theorem firstIllegal_cons_of_isLegal {c : Char} (hc : isLegal c = true) {cs : List Char}
    {position : Nat} {f : Fault} :
    FirstIllegal (c :: cs) position f ↔ FirstIllegal cs (position + 1) f := by
  constructor
  · rintro ⟨_ | ⟨b, before⟩, d, after, h, hbefore, hd, rfl⟩
    · simp only [List.nil_append, List.cons.injEq] at h
      rw [← h.1, hc] at hd
      cases hd
    · simp only [List.cons_append, List.cons.injEq] at h
      refine ⟨before, d, after, h.2, fun e he => hbefore e (List.mem_cons_of_mem _ he), hd, ?_⟩
      rw [List.length_cons, Nat.add_right_comm, Nat.add_assoc]
  · rintro ⟨before, d, after, rfl, hbefore, hd, rfl⟩
    refine ⟨c :: before, d, after, rfl, by simpa using ⟨hc, hbefore⟩, hd, ?_⟩
    rw [List.length_cons, Nat.add_right_comm, Nat.add_assoc]

theorem firstIllegal_cons_of_not_isLegal {c : Char} (hc : isLegal c = false) {cs : List Char}
    {position : Nat} {f : Fault} :
    FirstIllegal (c :: cs) position f ↔ f = .invalidCharacter c (.single position) := by
  constructor
  · rintro ⟨_ | ⟨b, before⟩, d, after, h, hbefore, hd, rfl⟩
    · simp only [List.nil_append, List.cons.injEq] at h
      rw [h.1]
      rfl
    · simp only [List.cons_append, List.cons.injEq] at h
      have := hbefore b (by simp)
      rw [← h.1, hc] at this
      cases this
  · rintro rfl
    exact ⟨[], c, cs, rfl, by simp, hc, rfl⟩

theorem apart_singleton {cs : List Char} {c : Char} (h : isLiteralChar c = false) :
    Apart cs [c] := by
  rintro d e - he -
  cases he
  exact h

theorem apart_concat {cs us : List Char} {c : Char} (h : isLiteralChar c = false) :
    Apart (cs ++ [c]) us := by
  intro d _ hd _ hlit
  rw [List.getLast?_concat, Option.some.injEq] at hd
  rw [← hd, h] at hlit
  cases hlit

namespace Token

/-- The position where a literal is ended is the end of what was read. -/
theorem cuts_endLiteral {cs literal : List Char} {found : List Token}
    (h : Cuts cs found.reverse) (hlit : ∀ c ∈ literal, isLiteralChar c = true)
    (hlast : ∀ c, cs.getLast? = some c → isLiteralChar c = false) :
    Cuts (cs ++ literal.reverse)
      (endLiteral (cs.length + literal.length) literal found).reverse := by
  rcases literal with _ | ⟨c, literal⟩
  · simpa [endLiteral] using h
  · have hnumber : Cuts (c :: literal).reverse _ :=
      cuts_literal (by simp) fun d hd => hlit d (List.mem_reverse.1 hd)
    have hapart : Apart cs (c :: literal).reverse := by
      intro d e hd _ hd'
      rw [hlast d hd] at hd'
      cases hd'
    have hspan : Span.shift ⟨0, (c :: literal).length⟩ cs.length
        = ⟨cs.length + (c :: literal).length - (c :: literal).length,
            cs.length + (c :: literal).length⟩ := by
      rw [Span.shift, Nat.add_sub_cancel, Nat.zero_add, Nat.add_comm]
    have hjoin := h.append hnumber hapart
    rw [List.length_reverse, List.map_singleton, Token.shift, hspan] at hjoin
    simpa [endLiteral] using hjoin

theorem cuts_concat {cs literal : List Char} {found new : List Token} {c : Char}
    (h : Cuts cs found.reverse) (hlit : ∀ c ∈ literal, isLiteralChar c = true)
    (hlast : ∀ c, cs.getLast? = some c → isLiteralChar c = false) (hnew : Cuts [c] new)
    (hc : isLiteralChar c = false) :
    Cuts (cs ++ literal.reverse ++ [c])
      ((endLiteral (cs.length + literal.length) literal found).reverse
        ++ new.map (·.shift (cs.length + literal.length))) := by
  have hjoin := (cuts_endLiteral h hlit hlast).append hnew (apart_singleton hc)
  rwa [List.length_append, List.length_reverse] at hjoin

theorem cuts_of_scanFrom : ∀ (rest cs literal : List Char) (found : List Token)
    {tokens : List Token}, Cuts cs found.reverse → (∀ c ∈ literal, isLiteralChar c = true) →
    (∀ c, cs.getLast? = some c → isLiteralChar c = false) →
    scanFrom rest (cs.length + literal.length) literal found = .ok tokens →
    Cuts (cs ++ literal.reverse ++ rest) tokens
  | [], cs, literal, found, tokens, hcuts, hlit, hlast, h => by
    cases h
    simpa using cuts_endLiteral hcuts hlit hlast
  | c :: rest, cs, literal, found, tokens, hcuts, hlit, hlast, h => by
    have hlen : cs.length + literal.length + 1
        = (cs ++ literal.reverse ++ [c]).length + ([] : List Char).length := by
      simp [Nat.add_assoc]
    simp only [scanFrom] at h
    split at h
    · rename_i hc
      have := cuts_of_scanFrom rest cs (c :: literal) found hcuts
        (by simpa using ⟨CharClass.of_eq_literal_iff.1 hc, hlit⟩) hlast h
      simpa using this
    · rename_i lexeme hc
      have hliteral : isLiteralChar c = false := (CharClass.of_eq_symbol hc).2.2.1
      have hcut := cuts_concat hcuts hlit hlast (cuts_symbol hc) hliteral
      rw [hlen] at h
      have := cuts_of_scanFrom rest (cs ++ literal.reverse ++ [c]) [] _
        (by simpa [shift, Span.shift, Span.single, Nat.add_comm] using hcut) (by simp)
        (by simpa using hliteral) h
      simpa using this
    · rename_i hc
      have hblank := CharClass.of_eq_blank hc
      have hliteral := isLiteralChar_eq_false_of_isBlank hblank
      have hcut := cuts_concat hcuts hlit hlast (cuts_blank hblank) hliteral
      rw [hlen] at h
      have := cuts_of_scanFrom rest (cs ++ literal.reverse ++ [c]) [] _
        (by simpa using hcut) (by simp) (by simpa using hliteral) h
      simpa using this
    · cases h

theorem cuts_of_scan {s : String} {tokens : List Token} (h : scan s = .ok tokens) :
    Cuts s.toList tokens := by
  simpa using cuts_of_scanFrom s.toList [] [] [] cuts_nil (by simp) (by simp) h

theorem scanFrom_eq_error_iff {f : Fault} :
    ∀ (rest : List Char) (position : Nat) (literal : List Char) (found : List Token),
      scanFrom rest position literal found = .error f ↔ FirstIllegal rest position f
  | [], position, literal, found => by
    simpa [scanFrom] using not_firstIllegal_nil position f
  | c :: rest, position, literal, found => by
    simp only [scanFrom]
    rcases hc : isLegal c with _ | _
    · rw [firstIllegal_cons_of_not_isLegal hc, CharClass.of_eq_foreign_iff.2 hc]
      simp [eq_comm]
    · have hforeign : CharClass.of c ≠ .foreign := by
        rw [Ne, CharClass.of_eq_foreign_iff, hc]
        exact Bool.noConfusion
      rw [firstIllegal_cons_of_isLegal hc]
      split
      · exact scanFrom_eq_error_iff rest _ _ _
      · exact scanFrom_eq_error_iff rest _ _ _
      · exact scanFrom_eq_error_iff rest _ _ _
      · contradiction

theorem exists_scan_iff {s : String} :
    (∃ tokens, scan s = .ok tokens) ↔ ∀ c ∈ s.toList, isLegal c = true := by
  constructor
  · rintro ⟨tokens, h⟩ c hc
    exact (cuts_of_scan h).isLegal hc
  · intro hlegal
    rcases h : scan s with f | tokens
    · obtain ⟨before, c, after, hs, -, hc, -⟩ := (scanFrom_eq_error_iff _ _ _ _).1 h
      rw [hlegal c (by simp [hs])] at hc
      cases hc
    · exact ⟨tokens, rfl⟩

theorem scan_of_cuts {s : String} {tokens : List Token} (h : Cuts s.toList tokens) :
    scan s = .ok tokens := by
  obtain ⟨tokens', hs⟩ := exists_scan_iff.2 fun c hc => h.isLegal hc
  rw [hs, (cuts_of_scan hs).unique h]

/-- Scanning succeeds exactly on the texts of legal characters, fails for the first illegal one
otherwise, and its tokens are the only ones that cut the text. -/
theorem scan_outcome (s : String) :
    ((∃ tokens, scan s = .ok tokens) ↔ ∀ c ∈ s.toList, isLegal c = true) ∧
      (∀ f, scan s = .error f ↔ ∃ before c after, s.toList = before ++ c :: after ∧
        (∀ d ∈ before, isLegal d = true) ∧ isLegal c = false ∧
          f = .invalidCharacter c (.single before.length)) ∧
      ∀ tokens, scan s = .ok tokens ↔ Cuts s.toList tokens := by
  refine ⟨exists_scan_iff, fun f => ?_, fun tokens => ⟨cuts_of_scan, scan_of_cuts⟩⟩
  rw [scan, scanFrom_eq_error_iff]
  simp [FirstIllegal]

end Token

end Calculator

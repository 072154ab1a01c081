import Calculator.Proofs.BlankInsertion
import Calculator.Proofs.JsonReading
import Calculator.Proofs.Reports

/-!
# Tokens written on one line

Tokens that are written with single spaces between them are scanned as the same lexemes, each right
behind the space that ends the one before (`scan_placed`), and have the same outcome, but for the
spans of a fault. The line is split at its spaces into the texts that a report lists, if there is
any token: no tokens make an empty line, and that is one empty segment (`segments_line`).

The cutting of the line is put together token by token. No number reaches across a space, so the
tokens never run into each other, in whatever order they stand.
-/

namespace Calculator

open Token

/-- A token that can be scanned: a number consists of digits and points, of one at least. -/
def Token.Writable (t : Token) : Prop :=
  ∀ literal, t.lexeme = .number literal →
    literal ≠ "" ∧ ∀ c ∈ literal.toList, isLiteralChar c = true

/-- The tokens side by side from a position on, with room for one character between neighbours. -/
def Token.placed : Nat → List Token → List Token
  | _, [] => []
  | p, t :: ts => ⟨t.lexeme, ⟨p, p + t.text.length⟩⟩ :: placed (p + t.text.length + 1) ts

theorem map_shift_placed (k : Nat) : ∀ (p : Nat) (ts : List Token),
    (placed p ts).map (·.shift k) = placed (p + k) ts
  | _, [] => rfl
  | p, t :: ts => by
    rw [placed, List.map_cons, map_shift_placed k _ ts, placed, shift, Span.shift]
    simp only [Nat.add_right_comm]

theorem lexeme_placed : ∀ (p : Nat) (ts : List Token),
    (placed p ts).map (·.lexeme) = ts.map (·.lexeme)
  | _, [] => rfl
  | p, t :: ts => congrArg (t.lexeme :: ·) (lexeme_placed (p + t.text.length + 1) ts)

/-- A token stands behind the earlier ones and a space for each of them. -/
theorem start_placed : ∀ (p : Nat) (ts : List Token) {k : Nat} {t : Token},
    (placed p ts)[k]? = some t →
      t.span.start = p + (k + ((ts.take k).map (·.text.length)).sum)
  | _, [], _, _, h => by cases h
  | p, u :: ts, 0, t, h => by
    cases h
    rfl
  | p, u :: ts, k + 1, t, h => by
    rw [start_placed _ ts h, List.take_succ_cons, List.map_cons, List.sum_cons]
    omega

theorem exists_symbol {l : Lexeme} (h : ∀ literal, l ≠ .number literal) :
    ∃ c, CharClass.of c = .symbol l := by
  cases l with
  | number literal => exact absurd rfl (h literal)
  | operator op => exact ⟨op.symbol, by cases op <;> rfl⟩
  | paren p => exact ⟨p.symbol, by cases p <;> rfl⟩

/-- A token that can be scanned is one character, or a number. -/
theorem Token.Writable.cases {t : Token} (h : t.Writable) :
    (∃ literal, t.lexeme = .number literal ∧ literal ≠ "" ∧
        ∀ c ∈ literal.toList, isLiteralChar c = true) ∨
      ∃ c, CharClass.of c = .symbol t.lexeme := by
  by_cases hnumber : ∃ literal, t.lexeme = .number literal
  · obtain ⟨literal, hl⟩ := hnumber
    exact .inl ⟨literal, hl, h literal hl⟩
  · exact .inr (exists_symbol fun literal hl => hnumber ⟨literal, hl⟩)

theorem cuts_text {t : Token} (h : t.Writable) :
    Cuts t.text.toList [⟨t.lexeme, ⟨0, t.text.length⟩⟩] := by
  rcases h.cases with ⟨literal, hl, hne, hlit⟩ | ⟨c, hc⟩
  · have hcuts := cuts_literal (by simpa using hne) hlit
    rwa [String.ofList_toList, String.length_toList, ← hl,
      show literal = t.text by rw [text, hl]; rfl] at hcuts
  · have htext : t.text.toList = [c] := (CharClass.of_eq_symbol hc).1
    rw [← String.length_toList, htext]
    exact cuts_symbol hc

theorem line_cons_cons (t u : Token) (ts : List Token) :
    (line (t :: u :: ts)).toList = t.text.toList ++ [' '] ++ (line (u :: ts)).toList := by
  simp [line, String.toList_intercalate]

theorem cuts_line : ∀ {ts : List Token}, (∀ t ∈ ts, t.Writable) →
    Cuts (line ts).toList (placed 0 ts)
  | [], _ => cuts_nil
  | [t], h => by
    have hline : (line [t]).toList = t.text.toList := by simp [line]
    rw [hline, placed, Nat.zero_add]
    exact cuts_text (h t List.mem_cons_self)
  | t :: u :: ts, h => by
    have hspace : isBlank ' ' = true := by decide
    have hfirst : Cuts (t.text.toList ++ [' ']) [⟨t.lexeme, ⟨0, t.text.length⟩⟩] := by
      simpa using (cuts_text (h t List.mem_cons_self)).append (cuts_blank hspace)
        (apart_singleton (isLiteralChar_eq_false_of_isBlank hspace))
    have hrest := cuts_line fun v hv => h v (List.mem_cons_of_mem t hv)
    rw [line_cons_cons, placed, Nat.zero_add]
    simpa [map_shift_placed, String.length_toList, Nat.add_comm] using
      hfirst.append hrest (apart_concat (isLiteralChar_eq_false_of_isBlank hspace))

theorem scan_placed {ts : List Token} (h : ∀ t ∈ ts, t.Writable) :
    scan (line ts) = .ok (placed 0 ts) :=
  scan_of_cuts (cuts_line h)

/-- The segments of a text between its spaces. -/
def segments (s : String) : List String :=
  (s.split ' ').toList.map String.Slice.copy

theorem space_not_mem_text {t : Token} (h : t.Writable) : ' ' ∉ t.text.toList := by
  have hspace : isBlank ' ' = true := by decide
  intro hmem
  rcases h.cases with ⟨literal, hl, -, hlit⟩ | ⟨c, hc⟩
  · rw [text, hl] at hmem
    have hspaceLit := hlit ' ' hmem
    rw [isLiteralChar_eq_false_of_isBlank hspace] at hspaceLit
    cases hspaceLit
  · obtain ⟨htext, -, -, hblank⟩ := CharClass.of_eq_symbol hc
    rw [text, htext, List.mem_singleton] at hmem
    rw [← hmem, hspace] at hblank
    cases hblank

theorem segments_line {ts : List Token} (h : ∀ t ∈ ts, t.Writable) :
    segments (line ts) = if ts = [] then [""] else ts.map text := by
  have hspace : ∀ x ∈ ts.map text, ' ' ∉ x.toList := by
    intro x hx
    obtain ⟨t, ht, rfl⟩ := List.mem_map.1 hx
    exact space_not_mem_text (h t ht)
  have hsegments := String.toList_split_intercalate hspace
  simp only [List.map_eq_nil_iff] at hsegments
  exact hsegments

/-- What was scanned can be written and scanned again. -/
theorem writable_of_cuts {cs : List Char} {ts : List Token} (h : Cuts cs ts) {t : Token}
    (ht : t ∈ ts) : t.Writable := by
  intro literal hl
  have htext : literal.toList = t.span.slice cs := by
    rw [← h.text t ht, Token.text, hl]
    rfl
  have hrun := h.number t ht (by simp [literal?, hl])
  have hne := h.nonempty t ht
  have hin := h.inside t ht
  constructor
  · rintro rfl
    have hlength := congrArg List.length htext
    simp only [Span.slice, List.length_drop, List.length_take, String.toList_empty,
      List.length_nil] at hlength
    omega
  · intro c hc
    rw [htext, Span.slice, List.drop_take] at hc
    obtain ⟨k, hk, hget⟩ := List.getElem_of_mem hc
    rw [List.length_take] at hk
    refine hrun.inner (t.span.start + k) c (Nat.le_add_right _ _) (by omega) ?_
    rw [← hget, List.getElem_take, List.getElem_drop]
    exact List.getElem?_eq_getElem _

/-- Ordered tokens are told apart by where they begin, and by where they end, so moving them is a
function of these positions. -/
theorem exists_respan_placed : ∀ (p : Nat) (ts : List Token),
    ts.Pairwise (fun a b => a.span.stop ≤ b.span.start) → (∀ t ∈ ts, t.span.start < t.span.stop) →
      ∃ f g : Nat → Nat, placed p ts = ts.map (·.respan fun x => ⟨f x.start, g x.stop⟩)
  | _, [], _, _ => ⟨id, id, rfl⟩
  | p, t :: ts, hord, hne => by
    obtain ⟨hbehind, hord⟩ := List.pairwise_cons.1 hord
    obtain ⟨f, g, hfg⟩ := exists_respan_placed (p + t.text.length + 1) ts hord fun u hu =>
      hne u (List.mem_cons_of_mem t hu)
    refine ⟨fun a => if a = t.span.start then p else f a,
      fun b => if b = t.span.stop then p + t.text.length else g b, ?_⟩
    rw [placed, List.map_cons, hfg, List.cons.injEq]
    refine ⟨by simp [respan], List.map_congr_left fun u hu => ?_⟩
    have hfirst := hne t List.mem_cons_self
    have hbehind := hbehind u hu
    have hlater := hne u (List.mem_cons_of_mem t hu)
    have hstart : u.span.start ≠ t.span.start := by omega
    have hstop : u.span.stop ≠ t.span.stop := by omega
    simp only [respan, if_neg hstart, if_neg hstop]

theorem calculate_line {s : String} {ts : List Token} (hs : scan s = .ok ts) :
    ∃ h : Span → Span, scan (line ts) = .ok (ts.map (·.respan h)) ∧
      calculate (line ts) = (calculate s).mapError (Fault.moved h) := by
  have hcuts := cuts_of_scan hs
  obtain ⟨f, g, hfg⟩ := exists_respan_placed 0 ts hcuts.ordered hcuts.nonempty
  have hline := scan_placed fun t ht => writable_of_cuts hcuts ht
  rw [hfg] at hline
  exact ⟨_, hline, calculate_respan (fun _ _ => rfl) hs hline⟩

/-- Tokens whose numbers are written with digits and points are scanned back from their line, each
behind the earlier ones and their spaces. The line splits at its spaces into the texts that a report
lists, but for the line of no tokens, which is one empty segment. The line of the tokens of a string
has the same value as the string, or the same fault at other positions. -/
theorem scan_line (ts : List Token) :
    ((∀ t ∈ ts, t.Writable) →
      (∃ us, scan (line ts) = .ok us ∧ us.map (·.lexeme) = ts.map (·.lexeme) ∧
        ∀ k u, us[k]? = some u → u.span.start = k + ((ts.take k).map (·.text.length)).sum) ∧
      Json.Reads (Report.ofTokens ts).write (.array ((ts.map text).map .text)) ∧
      segments (line ts) = if ts = [] then [""] else ts.map text) ∧
    ∀ s, scan s = .ok ts → ∃ h : Span → Span, scan (line ts) = .ok (ts.map (·.respan h)) ∧
      calculate (line ts) = (calculate s).mapError (Fault.moved h) := by
  refine ⟨fun h => ⟨⟨_, scan_placed h, lexeme_placed 0 ts, fun k u hu => ?_⟩, ?_, segments_line h⟩,
    fun s hs => calculate_line hs⟩
  · rw [start_placed 0 ts hu, Nat.zero_add]
  · have htexts : Report.ofTokens ts = .array ((ts.map text).map .text) := by
      rw [List.map_map]
      rfl
    rw [← htexts]
    exact Json.Written.reads (Report.written_ofTokens ts)

/-- A division by a difference of zero, written without spaces but one. -/
theorem scan_line_division :
    let ts : List Token := [⟨.number "7", ⟨0, 1⟩⟩, ⟨.operator .div, ⟨1, 2⟩⟩,
      ⟨.paren .opening, ⟨3, 4⟩⟩, ⟨.number "2.5", ⟨4, 7⟩⟩, ⟨.operator .sub, ⟨7, 8⟩⟩,
      ⟨.number "2.5", ⟨8, 11⟩⟩, ⟨.paren .closing, ⟨11, 12⟩⟩]
    scan "7/ (2.5-2.5)" = .ok ts ∧ (∀ t ∈ ts, t.Writable) ∧
      segments (line ts) = ["7", "/", "(", "2.5", "-", "2.5", ")"] ∧
      ∃ h : Span → Span, scan (line ts) = .ok (ts.map (·.respan h)) ∧
        calculate (line ts) = .error (.divisionByZero (h ⟨1, 2⟩) (h ⟨4, 11⟩)) := by
  intro ts
  have hs : scan "7/ (2.5-2.5)" = .ok ts := by decide
  have hc : calculate "7/ (2.5-2.5)" = .error (.divisionByZero ⟨1, 2⟩ ⟨4, 11⟩) := by
    decide +kernel
  have hts : ∀ t ∈ ts, t.Writable := fun t ht => writable_of_cuts (cuts_of_scan hs) ht
  obtain ⟨hline, hvalue⟩ := scan_line ts
  obtain ⟨h, hscan, hfault⟩ := hvalue _ hs
  rw [hc] at hfault
  exact ⟨hs, hts, (hline hts).2.2, h, hscan, hfault⟩

/-- No tokens make an empty line, which is one segment, and a report lists none. -/
theorem segments_line_nil :
    line [] = "" ∧ segments (line []) = [""] ∧ (∀ t ∈ ([] : List Token), t.Writable) ∧
      Json.Reads (Report.ofTokens []).write (.array []) ∧
      ¬ Json.Reads (Report.ofTokens []).write (.array ((segments (line [])).map .text)) := by
  have hwritable : ∀ t ∈ ([] : List Token), t.Writable := by simp
  have hsegments : segments (line []) = [""] := segments_line hwritable
  have hwritten := Report.written_ofTokens []
  refine ⟨rfl, hsegments, hwritable, Json.Written.reads hwritten, ?_⟩
  rw [hsegments]
  intro hreads
  have hsame := (hreads _).1 hwritten
  simp [Report.ofTokens] at hsame

end Calculator

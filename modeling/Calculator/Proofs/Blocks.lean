import Calculator.Proofs.Checks
import Calculator.Proofs.Listing
import Calculator.Proofs.Pages

/-!
# The block of a line

A script shows a faulty line as a block of numbered rows, each with a row of marks under it, and the
description (`Diagnostic.block`). The line is shown in one row with its own number exactly if no
carriage return stands before its last character (`Script.run_shows_lines`): each of those returns
adds a row, and moves the numbers on.
-/

namespace Calculator

namespace Diagnostic

/-- Numbered rows without a gap, the description of a fault, and an empty row. -/
def block (colour : Bool) (rows : List NumberedRow) (description : String) : String :=
  String.join (rows.map (·.write colour (rowsWidth rows))) ++
    (blanks (rowsWidth rows) ++ bar colour ++ paint colour .red description ++ "\n\n")

variable {colour : Bool}

/-- Rows that are numbered one after another have no gaps. -/
theorem rowsText_of_isChain (width : Nat) : ∀ {rows : List NumberedRow},
    rows.IsChain (fun r r' => r'.number = r.number + 1) →
      rowsText colour width rows = String.join (rows.map (·.write colour width))
  | [], _ => rfl
  | [r], _ => by simp [rowsText]
  | r :: next :: rows, h => by
    obtain ⟨hnext, hrows⟩ := List.isChain_cons_cons.1 h
    have hgap : ¬ r.number + 1 < next.number := by omega
    rw [rowsText, if_neg hgap, rowsText_of_isChain width hrows, String.append_empty,
      List.map_cons (l := next :: rows), String.join_cons]

theorem feed_not_mem_numberText (width n : Nat) : '\n' ∉ (numberText width n).toList := by
  have hdigits : '\n' ∉ Nat.toDigits 10 n := fun h =>
    absurd (Nat.isDigit_of_mem_toDigits (by decide) (by decide) h) (by decide)
  rw [numberText, String.toList_append, List.mem_append, not_or, Nat.repr_eq_ofList_toDigits]
  exact ⟨feed_not_mem_blanks _, by simpa using hdigits⟩

theorem feed_not_mem_bar : '\n' ∉ (bar colour).toList := by
  cases colour <;> decide

theorem count_feed_write {r : NumberedRow} (h : r.OneLine) (width : Nat) :
    (r.write colour width).toList.count '\n' = 2 := by
  have hnumber := List.count_eq_zero.2
    (@feed_not_mem_paint colour _ (feed_not_mem_numberText width r.number) .blue)
  have hbar := List.count_eq_zero.2 (@feed_not_mem_bar colour)
  have hblanks := List.count_eq_zero.2 (feed_not_mem_blanks width)
  simp [NumberedRow.write, List.count_append, hnumber, hbar, hblanks, List.count_eq_zero.2 h.text,
    List.count_eq_zero.2 h.marks]

theorem count_feed_rows (width : Nat) : ∀ {rows : List NumberedRow}, (∀ r ∈ rows, r.OneLine) →
    (String.join (rows.map (·.write colour width))).toList.count '\n' = 2 * rows.length
  | [], _ => rfl
  | r :: rows, h => by
    obtain ⟨hr, hrows⟩ := List.forall_mem_cons.1 h
    rw [List.map_cons, String.join_cons, String.toList_append, List.count_append,
      count_feed_write hr, count_feed_rows width hrows, List.length_cons]
    omega

/-- Each row takes two line feeds, so blocks with the same text have equally many of them. -/
theorem length_eq_of_block_eq {rows rows' : List NumberedRow} {description : String}
    (hrows : ∀ r ∈ rows, r.OneLine) (hrows' : ∀ r ∈ rows', r.OneLine)
    (h : block colour rows description = block colour rows' description) :
    rows.length = rows'.length := by
  have hcount := congrArg (fun s => s.toList.count '\n') h
  have hblanks (width : Nat) := List.count_eq_zero.2 (feed_not_mem_blanks width)
  simp only [block, String.toList_append, List.count_append, count_feed_rows _ hrows,
    count_feed_rows _ hrows', hblanks] at hcount
  omega

/-- A block of one row begins with the number of the row, which is not padded. -/
theorem block_singleton (r : NumberedRow) (description : String) :
    ∃ rest, block colour [r] description
      = paint colour .blue r.number.repr ++ (bar colour ++ rest) := by
  have hnumber : numberText (rowsWidth [r]) r.number = r.number.repr := by
    simp [numberText, rowsWidth, blanks]
  refine ⟨r.text ++ "\n" ++ (blanks (rowsWidth [r]) ++ bar colour ++ r.marks ++ "\n") ++
    (blanks (rowsWidth [r]) ++ bar colour ++ paint colour .red description ++ "\n\n"), ?_⟩
  simp [block, NumberedRow.write, hnumber, String.append_assoc]

theorem eq_of_repr_append {m n : Nat} {s t : String} (hs : Json.Stops s.toList)
    (ht : Json.Stops t.toList) (h : m.repr ++ s = n.repr ++ t) : m = n := by
  have hlist := congrArg String.toList h
  simp only [String.toList_append, Nat.repr_eq_ofList_toDigits, String.toList_ofList] at hlist
  have hdigits := (Json.whole_toDigits m).1.numeric.eq_of_append
    (Json.whole_toDigits n).1.numeric hlist hs ht
  rw [← Nat.ofDigitChars_ten_toDigits (n := m), hdigits, Nat.ofDigitChars_ten_toDigits]

theorem number_eq_of_block_eq {r r' : NumberedRow} {description : String}
    (h : block colour [r] description = block colour [r'] description) :
    r.number = r'.number := by
  obtain ⟨rest, hr⟩ := @block_singleton colour r description
  obtain ⟨rest', hr'⟩ := @block_singleton colour r' description
  rw [hr, hr'] at h
  -- the digits end at the bar, or where their colour ends
  rcases colour with _ | _
  · have hbar (u : String) : Json.Stops (bar false ++ u).toList := by
      rw [String.toList_append]
      exact Json.stops_cons.2 (by decide)
    exact eq_of_repr_append (hbar rest) (hbar rest') h
  · have hclosing (u : String) : Json.Stops (Tint.closing ++ u).toList := by
      rw [String.toList_append]
      exact Json.stops_cons.2 (by decide)
    simp only [paint, ↓reduceIte, String.append_assoc, String.append_right_inj] at h
    exact eq_of_repr_append (hclosing _) (hclosing _) h

section Fault

variable {s : String} {f : Fault}

theorem render_eq_block (h : '\n' ∉ s.toList) (k : Nat) :
    render colour k s f ++ "\n\n"
      = block colour ((excerpts k s.toList f.spans).map (numberedRow colour)) f.description := by
  have hchain : ((excerpts k s.toList f.spans).map (numberedRow colour)).IsChain
      fun r r' => r'.number = r.number + 1 := by
    rw [excerpts_eq h, List.isChain_map, List.isChain_map]
    exact (shownEnds_consecutive _ _).imp fun _ _ hab => by simp [numberedRow, hab, Nat.add_assoc]
  have hwidth := margin_eq_rowsWidth (@numberedRows_increasing colour k s.toList f.spans)
  simp only [render_eq_page, page, rowsText_of_isChain _ hchain, block, hwidth, String.append_assoc]

theorem oneLine_of_mem_excerpts (h : '\n' ∉ s.toList) (k : Nat) :
    ∀ r ∈ (excerpts k s.toList f.spans).map (numberedRow colour), r.OneLine := by
  intro r hr
  obtain ⟨e, he, rfl⟩ := List.mem_map.1 hr
  refine oneLine_numberedRow (fun hmem => ?_) (spans_ne_nil_of_mem_excerpts he)
  rw [excerpts_eq h] at he
  obtain ⟨q, -, rfl⟩ := List.mem_map.1 he
  exact h (List.mem_of_mem_take hmem)

theorem mem_shownEnds (hx : ∀ x ∈ f.spans, x.start < s.toList.length) :
    (SourceLine.contentEnd s.toList, (SourceLine.returns s.toList).length)
      ∈ shownEnds s.toList f.spans := by
  obtain ⟨x, hmem⟩ := List.exists_mem_of_ne_nil _ (spans_ne_nil f)
  refine List.mem_filter.2 ⟨?_, List.any_eq_true.2 ⟨x, hmem, ?_⟩⟩
  · rw [SourceLine.ends, List.zipIdx_append, List.mem_append]
    exact .inr (by simp)
  · simpa using SourceLine.le_contentEnd (hx x hmem)

/-- A line is shown in one row with its own number exactly if it is listed only once. -/
theorem block_singleton_iff (h : '\n' ∉ s.toList)
    (hx : ∀ x ∈ f.spans, x.start < s.toList.length) (k : Nat) :
    (∃ r : NumberedRow, r.OneLine ∧ r.number = k ∧
        render colour k s f ++ "\n\n" = block colour [r] f.description) ↔
      '\r' ∉ s.toList.dropLast := by
  have hlast := mem_shownEnds hx
  have hone := @oneLine_of_mem_excerpts colour s f h k
  rw [render_eq_block h, ← SourceLine.returns_eq_nil_iff]
  rw [excerpts_eq h] at hone ⊢
  constructor
  · rintro ⟨r, hr, hnumber, hblock⟩
    obtain ⟨r', hrows⟩ := List.length_eq_one_iff.1
      (length_eq_of_block_eq hone (by simpa using hr) hblock)
    rw [hrows] at hblock
    obtain ⟨last, hmem, hlisted⟩ :
        ∃ last ∈ [r'], last.number = k + (SourceLine.returns s.toList).length := by
      rw [← hrows]
      exact ⟨_, List.mem_map_of_mem (List.mem_map_of_mem hlast), rfl⟩
    rw [List.mem_singleton.1 hmem, number_eq_of_block_eq hblock, hnumber] at hlisted
    exact List.length_eq_zero_iff.1 (Nat.left_eq_add.1 hlisted)
  · intro hreturns
    have hshown : shownEnds s.toList f.spans = [(SourceLine.contentEnd s.toList, 0)] := by
      rw [hreturns] at hlast
      have hends : (SourceLine.ends s.toList).zipIdx = [(SourceLine.contentEnd s.toList, 0)] := by
        rw [SourceLine.ends, hreturns]
        rfl
      rw [shownEnds, hends] at hlast ⊢
      rw [List.filter_eq_self]
      simpa using (List.mem_filter.1 hlast).2
    rw [hshown] at hone ⊢
    exact ⟨_, hone _ (List.mem_singleton_self _), rfl, rfl⟩

end Fault

end Diagnostic

namespace Script

open Diagnostic

variable {p : Presentation} {mode : Mode}

theorem feed_not_mem_filled {text : String} {e : Nat × String}
    (he : e ∈ filled (lines text.toList)) : '\n' ∉ e.2.toList := by
  obtain ⟨l, hl, rfl⟩ := List.mem_map.1 he
  rw [String.toList_ofList]
  exact (linesOf_lines _).feed_not_mem l.1 (List.fst_mem_of_mem_zipIdx (List.mem_filter.1 hl).1)

theorem ne_empty_of_mem_filled {ls : List (List Char)} {e : Nat × String} (he : e ∈ filled ls) :
    e.2 ≠ "" := by
  obtain ⟨l, hl, rfl⟩ := List.mem_map.1 he
  obtain ⟨c, hc, -⟩ := List.any_eq_true.1 (List.mem_filter.1 hl).2
  rw [Ne, String.ofList_eq_empty_iff]
  exact List.ne_nil_of_mem hc

theorem output_give_of_error (hp : p.format = .pretty) {s : String} {f : Fault}
    (h : outcome p.emission mode s = .error f) (k : Nat) :
    (Answer.give p mode (some k) s).output = render p.coloured k s f ++ "\n\n" := by
  simp only [Answer.give, Answer.text, hp, h, Answer.pretty, Option.getD_some]

/-- A faulty line of a script is shown in a block, whose rows are numbered from the line on: one for
each carriage return in the line behind the first position blamed, and one for the whole line. So it
is shown in one row with its own number exactly if no carriage return stands before its last
character. -/
theorem run_shows_lines (s : Surroundings) (hp : p.format = .pretty) (mode : Mode)
    {path text : String} (hfile : s.file path = some text.toUTF8) :
    ∃ ls, (∀ ls', LinesOf text.toList ls' ↔ ls' = ls) ∧
      (Program.perform s p (.script mode path)).output
        = String.join ((filled ls).map fun e => (Answer.give p mode (some e.1) e.2).output) ∧
      ∀ e ∈ filled ls, ∀ f, outcome p.emission mode e.2 = .error f →
        (∃ rows, (Answer.give p mode (some e.1) e.2).output = block p.coloured rows f.description ∧
          (∀ r ∈ rows, r.OneLine) ∧
          rows.map (fun r => (r.number, r.text))
            = (shownEnds e.2.toList f.spans).map
                fun q => (e.1 + q.2, String.ofList (e.2.toList.take q.1))) ∧
        ((∃ r : NumberedRow, r.OneLine ∧ r.number = e.1 ∧
            (Answer.give p mode (some e.1) e.2).output = block p.coloured [r] f.description) ↔
          '\r' ∉ e.2.toList.dropLast) := by
  refine ⟨lines text.toList, fun _ => linesOf_iff, ?_, fun e he f hf => ?_⟩
  · rw [perform_script hfile]
    exact output_run text
  · have hfeed := feed_not_mem_filled he
    have hstart := start_lt_of_calculate (ne_empty_of_mem_filled he) (calculate_of_outcome hf)
    rw [output_give_of_error hp hf]
    refine ⟨⟨_, render_eq_block hfeed e.1, oneLine_of_mem_excerpts hfeed e.1, ?_⟩,
      block_singleton_iff hfeed hstart e.1⟩
    rw [excerpts_eq hfeed, List.map_map, List.map_map]
    rfl

theorem run_shows_lines_second :
    let p : Presentation := ⟨.pretty, .value, false, none⟩
    let s : Surroundings := ⟨fun _ => some "1\n+".toUTF8, .empty, none, false⟩
    p.format = .pretty ∧ s.file "script" = some "1\n+".toUTF8 ∧
      LinesOf "1\n+".toList [['1'], ['+']] ∧ (2, "+") ∈ filled [['1'], ['+']] ∧
      outcome .value .evaluate "+" = .error (.insufficientOperands ⟨0, 1⟩) ∧
      ∃ r : NumberedRow, r.OneLine ∧ r.number = 2 ∧
        (Answer.give p .evaluate (some 2) "+").output = block false [r] "Missing an operand" := by
  intro p s
  have hp : p.format = .pretty := rfl
  have hfile : s.file "script" = some "1\n+".toUTF8 := rfl
  have hlines : LinesOf "1\n+".toList [['1'], ['+']] := linesOf_iff.2 (by decide)
  have hfilled : (2, "+") ∈ filled [['1'], ['+']] := by decide
  have hcalculate : calculate "+" = .error (.insufficientOperands ⟨0, 1⟩) := by decide +kernel
  have hfault : outcome .value .evaluate "+" = .error (.insufficientOperands ⟨0, 1⟩) := by
    rw [outcome, hcalculate, map_error]
  obtain ⟨ls, hls, -, hshown⟩ := run_shows_lines s hp .evaluate hfile
  obtain rfl := (hls _).1 hlines
  exact ⟨hp, hfile, hlines, hfilled, hfault, (hshown _ hfilled _ hfault).2.2 (by decide)⟩

/-- The line is shown with the number after its own, because a carriage return stands in it. -/
theorem run_shows_return :
    let p : Presentation := ⟨.pretty, .value, false, none⟩
    let s : Surroundings := ⟨fun _ => some "1\r+".toUTF8, .empty, none, false⟩
    p.format = .pretty ∧ s.file "script" = some "1\r+".toUTF8 ∧
      LinesOf "1\r+".toList ["1\r+".toList] ∧
      outcome .value .evaluate "1\r+" = .error (.insufficientOperands ⟨2, 3⟩) ∧
      (Program.perform s p (.script .evaluate "script")).output
        = "2 │ 1\r+\n  │  ^\n  │ Missing an operand\n\n" ∧
      ¬ ∃ r : NumberedRow, r.OneLine ∧ r.number = 1 ∧
        (Program.perform s p (.script .evaluate "script")).output
          = block false [r] "Missing an operand" := by
  intro p s
  have hcalculate : calculate "1\r+" = .error (.insufficientOperands ⟨2, 3⟩) := by decide +kernel
  have hfault : outcome .value .evaluate "1\r+" = .error (.insufficientOperands ⟨2, 3⟩) := by
    rw [outcome, hcalculate, map_error]
  have hp : p.format = .pretty := rfl
  have hfile : s.file "script" = some "1\r+".toUTF8 := rfl
  have hfilled : filled (lines "1\r+".toList) = [(1, "1\r+")] := by decide
  have hgive : (Answer.give p .evaluate (some 1) "1\r+").output
      = render false 1 "1\r+" (.insufficientOperands ⟨2, 3⟩) ++ "\n\n" :=
    output_give_of_error hp hfault 1
  have houtput : (Program.perform s p (.script .evaluate "script")).output
      = render false 1 "1\r+" (.insufficientOperands ⟨2, 3⟩) ++ "\n\n" := by
    rw [perform_script hfile, Ending.ofAnswer, output_run, hfilled, List.map_singleton, hgive,
      String.join_cons, String.join_nil, String.append_empty]
  rw [houtput]
  refine ⟨hp, hfile, linesOf_iff.2 (by decide), hfault, by decide +kernel, ?_⟩
  exact mt (block_singleton_iff (by decide) (by decide) 1).1 (by decide)

end Script

end Calculator

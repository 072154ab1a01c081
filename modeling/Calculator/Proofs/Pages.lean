import Calculator.Proofs.Underlining

/-!
# Diagnostics as pages

Whatever the lines of an expression, a diagnostic is a page of numbered rows, each with its row of
marks, with the description under them (`Diagnostic.render_eq_page`). The margin fits the largest
number of the page, although it is measured by the last one, because the numbers increase
(`margin_eq_rowsWidth`).
-/

namespace Calculator

namespace Diagnostic

/-- A line as it is shown: its number, its text, and the marks under it. -/
structure NumberedRow where
  number : Nat
  text : String
  marks : String
deriving DecidableEq, Repr

namespace NumberedRow

/-- The row of the line and the row of its marks, behind a margin. -/
def write (colour : Bool) (width : Nat) (r : NumberedRow) : String :=
  paint colour .blue (numberText width r.number) ++ bar colour ++ r.text ++ "\n" ++
    (blanks width ++ bar colour ++ r.marks ++ "\n")

/-- Neither the line nor its marks take more than a row, and something is marked. -/
structure OneLine (r : NumberedRow) : Prop where
  text : '\n' ∉ r.text.toList
  marks : '\n' ∉ r.marks.toList
  marked : '^' ∈ r.marks.toList

end NumberedRow

def rowsWidth (rows : List NumberedRow) : Nat :=
  match rows.getLast? with
  | some r => r.number.repr.length
  | none => 1

variable {colour : Bool}

def numberedRow (colour : Bool) (e : Excerpt) : NumberedRow where
  number := e.number
  text := String.ofList e.text
  marks := String.join ((marks e.text e.spans).map (markText colour))

theorem rowsWidth_map_numberedRow (shown : List Excerpt) :
    rowsWidth (shown.map (numberedRow colour)) = marginWidth shown := by
  rw [rowsWidth, marginWidth, List.getLast?_map]
  rcases shown.getLast? with _ | e
  · rfl
  · simp [numberedRow, Nat.repr_eq_ofList_toDigits]

theorem write_numberedRow (width : Nat) (e : Excerpt) :
    (numberedRow colour e).write colour width = excerptText colour width e :=
  rfl

theorem feed_not_mem_paint {text : String} (h : '\n' ∉ text.toList) (tint : Tint) :
    '\n' ∉ (paint colour tint text).toList := by
  rcases colour with _ | _
  · exact h
  · cases tint <;> simpa [paint, Tint.opening, Tint.closing] using h

theorem feed_not_mem_blanks (n : Nat) : '\n' ∉ (blanks n).toList := by
  simp [blanks]

theorem feed_not_mem_markText (m : Mark) : '\n' ∉ (markText colour m).toList := by
  rw [markText, String.toList_append, List.mem_append, not_or]
  exact ⟨feed_not_mem_blanks _, feed_not_mem_paint (by simp) _⟩

theorem caret_mem_markText {m : Mark} (h : 1 ≤ m.width) : '^' ∈ (markText colour m).toList := by
  have hne : m.width ≠ 0 := Nat.one_le_iff_ne_zero.1 h
  rw [markText, String.toList_append, List.mem_append]
  rcases colour with _ | _
  · exact .inr (by simpa [paint] using hne)
  · exact .inr (by simpa [paint, Tint.opening, Tint.closing] using hne)

theorem oneLine_numberedRow {e : Excerpt} (ht : '\n' ∉ e.text) (hs : e.spans ≠ []) :
    (numberedRow colour e).OneLine := by
  refine ⟨by simpa [numberedRow] using ht, ?_, ?_⟩
  · rw [numberedRow, String.toList_join, List.flatMap_map, List.mem_flatMap]
    rintro ⟨m, -, hm⟩
    exact feed_not_mem_markText m hm
  · obtain ⟨x, spans, hx⟩ := List.exists_cons_of_ne_nil hs
    have hm : ∃ m, m ∈ marks e.text e.spans := by
      rw [hx]
      exact ⟨_, List.mem_cons_self⟩
    obtain ⟨m, hm⟩ := hm
    rw [numberedRow, String.toList_join, List.flatMap_map, List.mem_flatMap]
    exact ⟨m, hm, caret_mem_markText (one_le_width_of_mem_marksFrom _ _ _ m hm)⟩

def margin (rows : List NumberedRow) : Nat :=
  (rows.map fun r => r.number.repr.length).foldr max 1

/-- Rows one after another, with an ellipsis between two if their numbers do not follow upon each
other. -/
def rowsText (colour : Bool) (width : Nat) : List NumberedRow → String
  | [] => ""
  | [r] => r.write colour width
  | r :: next :: rows =>
    r.write colour width ++
      (if r.number + 1 < next.number then paint colour .blue "..." ++ "\n" else "") ++
      rowsText colour width (next :: rows)

def page (colour : Bool) (rows : List NumberedRow) (description : String) : String :=
  rowsText colour (margin rows) rows ++
    (blanks (margin rows) ++ bar colour ++ paint colour .red description)

theorem rowsText_eq (width : Nat) : ∀ (shown : List Excerpt) (e : Excerpt),
    rowsText colour width ((e :: shown).map (numberedRow colour)) =
      excerptText colour width e ++ String.join
        (((some e.number :: shown.map (some ·.number)).zip shown).map fun (p, e) =>
          gapText colour p e.number ++ excerptText colour width e)
  | [], e => by simp [rowsText, write_numberedRow]
  | next :: shown, e => by
    rw [List.map_cons, List.map_cons, rowsText, ← List.map_cons, rowsText_eq width shown next,
      List.map_cons, List.zip_cons_cons, List.map_cons, String.join_cons, write_numberedRow,
      String.append_assoc, String.append_assoc]
    rfl

theorem excerptsText_eq (width : Nat) (shown : List Excerpt) :
    excerptsText colour width shown
      = rowsText colour width (shown.map (numberedRow colour)) := by
  rcases shown with _ | ⟨e, shown⟩
  · rfl
  · rw [rowsText_eq, excerptsText, List.map_cons, List.zip_cons_cons, List.map_cons,
      String.join_cons]
    simp [gapText]

theorem length_repr_mono {m n : Nat} (h : m ≤ n) : m.repr.length ≤ n.repr.length := by
  have hlt := (Nat.length_repr_le_iff Nat.length_repr_pos).1 (Nat.le_refl n.repr.length)
  exact (Nat.length_repr_le_iff Nat.length_repr_pos).2 (Nat.lt_of_le_of_lt h hlt)

/-- Numbers that increase need the width of the last one. -/
theorem margin_eq_rowsWidth : ∀ {rows : List NumberedRow},
    rows.Pairwise (fun r r' => r.number < r'.number) → margin rows = rowsWidth rows
  | [], _ => rfl
  | [r], _ => by
    have hpos : 0 < r.number.repr.length := Nat.length_repr_pos
    simp only [margin, rowsWidth, List.map_cons, List.map_nil, List.foldr_cons, List.foldr_nil,
      List.getLast?_singleton]
    omega
  | r :: next :: rows, h => by
    obtain ⟨hr, hrows⟩ := List.pairwise_cons.1 h
    have ih := margin_eq_rowsWidth hrows
    have hle : r.number.repr.length ≤ rowsWidth (next :: rows) := by
      rw [← ih]
      have := length_repr_mono (Nat.le_of_lt (hr next List.mem_cons_self))
      exact Nat.le_trans this (Nat.le_max_left _ _)
    rw [margin, List.map_cons, List.foldr_cons, ← margin, ih, Nat.max_eq_right hle, rowsWidth,
      rowsWidth, List.getLast?_cons_cons]

theorem excerpts_increasing (k : Nat) (cs : List Char) (spans : List Span) :
    (excerpts k cs spans).Pairwise fun e e' => e.number < e'.number := by
  have hindex : (SourceLine.list cs).zipIdx.Pairwise fun a b => a.2 < b.2 := by
    rw [← List.pairwise_map (f := Prod.snd) (R := (· < ·)), List.zipIdx_map_snd]
    exact List.pairwise_lt_range'
  refine List.Pairwise.filterMap _ (fun a b hab e he e' he' => ?_) hindex
  simp only [Option.ite_none_left_eq_some, Option.some.injEq] at he he'
  rw [← he.2, ← he'.2]
  exact Nat.add_lt_add_left hab k

theorem numberedRows_increasing (k : Nat) (cs : List Char) (spans : List Span) :
    ((excerpts k cs spans).map (numberedRow colour)).Pairwise
      fun r r' => r.number < r'.number :=
  List.pairwise_map.2 (excerpts_increasing k cs spans)

/-- Every diagnostic is a page. -/
theorem render_eq_page (k : Nat) (s : String) (f : Fault) :
    render colour k s f
      = page colour ((excerpts k s.toList f.spans).map (numberedRow colour)) f.description := by
  rw [page, margin_eq_rowsWidth (numberedRows_increasing k s.toList f.spans),
    rowsWidth_map_numberedRow, render, excerptsText_eq]

theorem clipAll_isEmpty_iff {l : SourceLine} {spans : List Span} :
    (l.clipAll spans).isEmpty = true ↔ ¬ ∃ x ∈ spans, x.meets l.span = true := by
  simp [SourceLine.clipAll, List.filter_eq_nil_iff]

/-- The lines that meet a span are shown, with their numbers. -/
theorem mem_excerpts_iff {k : Nat} {cs : List Char} {spans : List Span} {e : Excerpt} :
    e ∈ excerpts k cs spans ↔ ∃ i l, (SourceLine.list cs)[i]? = some l ∧
      (∃ x ∈ spans, x.meets l.span = true) ∧ e = ⟨k + i, l.text, l.clipAll spans⟩ := by
  simp only [excerpts, List.mem_filterMap, Prod.exists, List.mem_zipIdx_iff_getElem?,
    Option.ite_none_left_eq_some, Option.some.injEq, clipAll_isEmpty_iff, not_not]
  constructor
  · rintro ⟨l, i, hl, hx, rfl⟩
    exact ⟨i, l, hl, hx, rfl⟩
  · rintro ⟨i, l, hl, hx, rfl⟩
    exact ⟨l, i, hl, hx, rfl⟩

theorem spans_ne_nil_of_mem_excerpts {k : Nat} {cs : List Char} {spans : List Span} {e : Excerpt}
    (h : e ∈ excerpts k cs spans) : e.spans ≠ [] := by
  obtain ⟨i, l, -, hx, rfl⟩ := mem_excerpts_iff.1 h
  have hempty := mt clipAll_isEmpty_iff.1 (not_not.2 hx)
  rwa [List.isEmpty_iff] at hempty

/-- The row of marks holds blanks and carets, and ends with a caret. -/
theorem marks_numberedRow {e : Excerpt} (h : e.spans ≠ []) :
    (∀ c ∈ (numberedRow false e).marks.toList, c = '^' ∨ c = ' ') ∧
      (numberedRow false e).marks.toList.getLast? = some '^' := by
  have hmarks : (numberedRow false e).marks.toList = markRow (Calculator.marks e.text e.spans) := by
    rw [numberedRow, join_markText, String.toList_ofList]
  obtain ⟨x, spans, hx⟩ := List.exists_cons_of_ne_nil h
  rw [hmarks]
  refine ⟨fun c => mem_markRow, getLast?_markRow ?_ (one_le_width_of_mem_marksFrom _ _ _)⟩
  rw [hx]
  exact List.cons_ne_nil _ _

end Diagnostic

end Calculator

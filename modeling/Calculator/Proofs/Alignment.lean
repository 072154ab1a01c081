import Calculator.Proofs.Colour
import Calculator.Proofs.Pages

/-!
# Alignment

Marks that are only under their spans are one row and no other: the one that is as wide as the line
up to the end of the last span, with carets in the columns of the spans (`MarksOnly.eq_underline`).
So spans that come in order and take columns are underlined, also where they run past the end of the
line. The number before a line is as wide as the blanks before its marks if the margin has room for
it, so the columns of the row are those of the line (`Diagnostic.excerptText_aligned`), and a
diagnostic always leaves the room (`Diagnostic.aligned_of_mem_excerpts`).

Columns are those on the screen, where colour takes none.
-/

namespace Calculator

/-- The column in which the last span ends. -/
def endColumn (line : List Char) (spans : List Span) : Nat :=
  match spans.getLast? with
  | some x => column line x.stop
  | none => 0

theorem endColumn_of_getLast? {line : List Char} {spans : List Span} {x : Span}
    (h : spans.getLast? = some x) : endColumn line spans = column line x.stop := by
  rw [endColumn, h]

/-- Carets in the columns of the spans and blanks in the others, up to the end of the last span. -/
def underline (line : List Char) (spans : List Span) : List Char :=
  (List.range (endColumn line spans)).map fun c =>
    if ∃ x ∈ spans, column line x.start ≤ c ∧ c < column line x.stop then '^' else ' '

section Underline

variable {line row : List Char} {spans : List Span}

@[simp] theorem length_underline : (underline line spans).length = endColumn line spans := by
  simp [underline]

theorem column_stop_le_endColumn (hvisible : ∀ x ∈ spans, x.Visible line)
    (hspans : spans.Pairwise fun a b => a.stop ≤ b.start) :
    ∀ x ∈ spans, column line x.stop ≤ endColumn line spans := by
  intro x hx
  rcases hlast : spans.getLast? with _ | last
  · rw [List.getLast?_eq_none_iff.1 hlast] at hx
    cases hx
  · rw [endColumn_of_getLast? hlast]
    rcases eq_or_rel_of_getLast? hspans hlast x hx with rfl | hle
    · exact Nat.le_refl _
    · have hlt := (hvisible last (List.mem_of_getLast? hlast)).start_lt_stop
      exact column_mono line (by omega)

/-- The row ends with the last span. -/
theorem MarksOnly.length_eq (h : MarksOnly line spans row) (hvisible : ∀ x ∈ spans, x.Visible line)
    (hspans : spans.Pairwise fun a b => a.stop ≤ b.start) :
    row.length = endColumn line spans := by
  refine Nat.le_antisymm ?_ ?_
  · have hcaret : row[row.length - 1]? = some '^' := by
      rw [← List.getLast?_eq_getElem?]
      exact h.last
    obtain ⟨x, hx, -, hlt⟩ := (h.mark _).1 hcaret
    have hle := column_stop_le_endColumn hvisible hspans x hx
    omega
  · rcases hlast : spans.getLast? with _ | last
    · simp [endColumn, hlast]
    · have hmem := List.mem_of_getLast? hlast
      have hlt := hvisible last hmem
      rw [Span.Visible] at hlt
      rw [endColumn_of_getLast? hlast]
      have hcaret := (h.mark (column line last.stop - 1)).2 ⟨last, hmem, by omega, by omega⟩
      have hinside := (List.getElem?_eq_some_iff.1 hcaret).1
      omega

theorem MarksOnly.eq_underline (h : MarksOnly line spans row)
    (hvisible : ∀ x ∈ spans, x.Visible line)
    (hspans : spans.Pairwise fun a b => a.stop ≤ b.start) : row = underline line spans := by
  refine List.ext_getElem (by rw [length_underline, h.length_eq hvisible hspans]) fun c hc _ => ?_
  have hcell : row[c]? = some row[c] := List.getElem?_eq_getElem hc
  simp only [underline, List.getElem_map, List.getElem_range]
  split_ifs with hmark
  · exact Option.some.inj (hcell.symm.trans ((h.mark c).2 hmark))
  · refine (h.blank _ (List.getElem_mem hc)).resolve_left fun hcaret => hmark ?_
    exact (h.mark c).1 (hcell.trans (congrArg some hcaret))

theorem markRow_marks (hvisible : ∀ x ∈ spans, x.Visible line)
    (hspans : spans.Pairwise fun a b => a.stop ≤ b.start) :
    markRow (marks line spans) = underline line spans := by
  rcases spans with _ | ⟨x, spans⟩
  · rfl
  · exact (marksOnly_of_increasing (List.cons_ne_nil x spans) hvisible hspans).eq_underline
      hvisible hspans

end Underline

theorem textWidth_eq_length {cs : List Char} (h : ∀ c ∈ cs, charWidth c = 1) :
    textWidth cs = cs.length := by
  induction cs with
  | nil => rfl
  | cons c cs ih =>
    obtain ⟨hc, hcs⟩ := List.forall_mem_cons.1 h
    rw [textWidth_cons, hc, ih hcs, List.length_cons, Nat.add_comm]

namespace Diagnostic

/-- What stands before a line: its number and the bar. -/
def numberMargin (colour : Bool) (width n : Nat) : String :=
  paint colour .blue (numberText width n) ++ bar colour

/-- What stands before the marks of a line. -/
def markMargin (colour : Bool) (width : Nat) : String :=
  blanks width ++ bar colour

/-- The text on the screen, which does not show the escape sequences of colour. -/
def onScreen (colour : Bool) (text : String) : List Char :=
  if colour then unpainted text.toList else text.toList

theorem onScreen_of_paints (text : Bool → String) (h : Paints (text true) (text false)) :
    ∀ colour, onScreen colour (text colour) = (text false).toList
  | false => rfl
  | true => h.eq

theorem textWidth_blanks (n : Nat) : textWidth (blanks n).toList = n := by
  have hblank : ∀ c ∈ (blanks n).toList, charWidth c = 1 := by
    intro c hc
    rw [blanks, String.toList_ofList] at hc
    rw [List.eq_of_mem_replicate hc]
    decide
  rw [textWidth_eq_length hblank, blanks, String.toList_ofList, List.length_replicate]

theorem textWidth_repr (n : Nat) : textWidth n.repr.toList = n.repr.length := by
  refine textWidth_eq_length fun c hc => charWidth_of_isLiteralChar ?_
  rw [Nat.toList_repr] at hc
  have hdigit := Nat.isDigit_of_mem_toDigits (by decide) (by decide) hc
  simp [isLiteralChar, hdigit]

theorem textWidth_numberText {width n : Nat} (h : n.repr.length ≤ width) :
    textWidth (numberText width n).toList = width := by
  rw [numberText, String.toList_append, textWidth_append, textWidth_blanks, textWidth_repr]
  omega

variable (colour : Bool)

theorem textWidth_numberMargin {width n : Nat} (h : n.repr.length ≤ width) :
    textWidth (onScreen colour (numberMargin colour width n))
      = width + textWidth (bar false).toList := by
  have hpaints : Paints (numberMargin true width n) (numberMargin false width n) :=
    (Paints.paint (plain_numberText width n) .blue).append paints_bar
  have hplain : numberMargin false width n = numberText width n ++ bar false := rfl
  rw [onScreen_of_paints (fun colour => numberMargin colour width n) hpaints, hplain,
    String.toList_append, textWidth_append, textWidth_numberText h]

theorem textWidth_markMargin (width : Nat) :
    textWidth (onScreen colour (markMargin colour width))
      = width + textWidth (bar false).toList := by
  have hpaints : Paints (markMargin true width) (markMargin false width) :=
    (Paints.of_plain (plain_blanks width)).append paints_bar
  rw [onScreen_of_paints (fun colour => markMargin colour width) hpaints, markMargin,
    String.toList_append, textWidth_append, textWidth_blanks]

/-- A number that fits takes the columns of the blanks under it. -/
theorem textWidth_margins {width n : Nat} (h : n.repr.length ≤ width) :
    textWidth (onScreen colour (numberMargin colour width n))
      = textWidth (onScreen colour (markMargin colour width)) := by
  rw [textWidth_numberMargin colour h, textWidth_markMargin]

/-- Under a line whose spans come in order, do not overlap, and take a column at least, the row of
marks is their underline, and if the margin has room for the number of the line, its columns are
those of the line. -/
theorem excerptText_aligned (width : Nat) {e : Excerpt}
    (hseen : ∀ x ∈ e.spans, 1 ≤ textWidth (x.slice e.text))
    (hspans : e.spans.Pairwise fun a b => a.stop ≤ b.start) :
    ∃ row, excerptText colour width e
        = numberMargin colour width e.number ++ String.ofList e.text ++ "\n"
          ++ (markMargin colour width ++ row ++ "\n") ∧
      onScreen colour row = underline e.text e.spans ∧
      (e.number.repr.length ≤ width →
        textWidth (onScreen colour (numberMargin colour width e.number))
          = textWidth (onScreen colour (markMargin colour width))) := by
  refine ⟨String.join ((marks e.text e.spans).map (markText colour)), rfl, ?_,
    textWidth_margins colour⟩
  have hpaints := Paints.join fun m (_ : m ∈ marks e.text e.spans) => paints_markText m
  rw [onScreen_of_paints (fun colour =>
      String.join ((marks e.text e.spans).map (markText colour))) hpaints, join_markText,
    String.toList_ofList]
  exact markRow_marks (fun x hx => visible_of_textWidth_slice (hseen x hx)) hspans

/-- The line begins with a character of two columns, one without width belongs to the first span,
and the second span runs past the end of the line. -/
theorem excerptText_aligned_wide :
    let e : Excerpt := ⟨7, "\u3000a\u0301bc".toList, [⟨1, 3⟩, ⟨4, 9⟩]⟩
    (∀ x ∈ e.spans, 1 ≤ textWidth (x.slice e.text)) ∧
      e.spans.Pairwise (fun a b => a.stop ≤ b.start) ∧ e.number.repr.length ≤ 2 ∧
      ∃ row, excerptText true 2 e
          = numberMargin true 2 7 ++ "\u3000a\u0301bc" ++ "\n"
            ++ (markMargin true 2 ++ row ++ "\n") ∧
        onScreen true row = "  ^ ^".toList ∧
        textWidth (onScreen true (numberMargin true 2 7))
          = textWidth (onScreen true (markMargin true 2)) := by
  intro e
  have hseen : ∀ x ∈ e.spans, 1 ≤ textWidth (x.slice e.text) := by decide
  have hspans : e.spans.Pairwise fun a b => a.stop ≤ b.start := by decide
  have hfits : e.number.repr.length ≤ 2 := by decide
  obtain ⟨row, hrow, hmarks, hmargins⟩ := excerptText_aligned true 2 hseen hspans
  exact ⟨hseen, hspans, hfits, row, hrow, hmarks.trans (by decide +kernel), hmargins hfits⟩

/-- The margin of a diagnostic has room for the numbers of all lines that it shows. -/
theorem aligned_of_mem_excerpts {firstLine : Nat} {cs : List Char} {spans : List Span} {e : Excerpt}
    (he : e ∈ excerpts firstLine cs spans) :
    let width := marginWidth (excerpts firstLine cs spans)
    textWidth (onScreen colour (numberMargin colour width e.number))
      = textWidth (onScreen colour (markMargin colour width)) := by
  intro width
  refine textWidth_margins colour ?_
  obtain ⟨last, hlast⟩ := Option.ne_none_iff_exists'.1
    (mt List.getLast?_eq_none_iff.1 (List.ne_nil_of_mem he))
  have hwidth : width = last.number.repr.length := by
    rw [Nat.repr_eq_ofList_toDigits, String.length_ofList]
    simp only [width, marginWidth, hlast]
  rw [hwidth]
  refine length_repr_mono ?_
  rcases eq_or_rel_of_getLast? (excerpts_increasing firstLine cs spans) hlast e he with rfl | hlt
  · exact Nat.le_refl _
  · exact Nat.le_of_lt hlt

end Diagnostic

end Calculator

import Calculator.Diagnostic
import Mathlib.Data.List.Basic

/-!
# The row of marks

The columns of a line are the display widths of its characters, summed up. A mark is measured from
where the last one ended, so marks stand under their spans as long as the spans come in order
(`marksOnly_of_increasing`): then the row has a caret in the columns of the spans, blanks between
them, and ends with the last mark.
-/

namespace Calculator

@[simp] theorem textWidth_nil : textWidth [] = 0 := rfl

theorem foldl_charWidth (cs : List Char) (n : Nat) :
    cs.foldl (fun columns c => columns + charWidth c) n = n + textWidth cs := by
  induction cs generalizing n with
  | nil => rfl
  | cons c cs ih =>
    rw [textWidth, List.foldl_cons, List.foldl_cons, ih, ih]
    omega

@[simp] theorem textWidth_cons (c : Char) (cs : List Char) :
    textWidth (c :: cs) = charWidth c + textWidth cs := by
  rw [textWidth, List.foldl_cons, foldl_charWidth, Nat.zero_add]

@[simp] theorem textWidth_append (cs us : List Char) :
    textWidth (cs ++ us) = textWidth cs + textWidth us := by
  rw [textWidth, List.foldl_append, foldl_charWidth]
  rfl

/-- The column in which the character at a position begins. -/
def column (line : List Char) (p : Nat) : Nat :=
  textWidth (line.take p)

variable {line : List Char}

@[simp] theorem column_zero : column line 0 = 0 := rfl

theorem column_add (p k : Nat) :
    column line (p + k) = column line p + textWidth ((line.drop p).take k) := by
  rw [column, column, List.take_add, textWidth_append]

theorem column_mono (line : List Char) {p q : Nat} (h : p ≤ q) :
    column line p ≤ column line q := by
  obtain ⟨k, rfl⟩ := Nat.exists_eq_add_of_le h
  rw [column_add]
  exact Nat.le_add_right _ _

theorem textWidth_between {p q : Nat} (h : p ≤ q) :
    textWidth ((line.drop p).take (q - p)) = column line q - column line p := by
  obtain ⟨k, rfl⟩ := Nat.exists_eq_add_of_le h
  rw [column_add, Nat.add_sub_cancel_left, Nat.add_sub_cancel_left]

theorem column_succ {cs : List Char} {p : Nat} {c : Char} (h : cs[p]? = some c) :
    column cs (p + 1) = column cs p + charWidth c := by
  rw [column, column, List.take_add_one, h, textWidth_append]
  simp

def Mark.cells (m : Mark) : List Char :=
  List.replicate m.offset ' ' ++ List.replicate m.width '^'

/-- The row that the marks are written as. -/
def markRow (ms : List Mark) : List Char :=
  ms.flatMap Mark.cells

/-- The carets of the row stand in the columns of the spans, all before the last is blank
otherwise, and nothing follows it. -/
structure MarksOnly (line : List Char) (spans : List Span) (row : List Char) : Prop where
  mark : ∀ c, row[c]? = some '^' ↔
    ∃ x ∈ spans, column line x.start ≤ c ∧ c < column line x.stop
  blank : ∀ c ∈ row, c = '^' ∨ c = ' '
  last : row.getLast? = some '^'

/-- The columns of a character are marked if it lies in a span, and none of them otherwise. -/
theorem MarksOnly.mark_iff_contains {spans : List Span} {row : List Char}
    (h : MarksOnly line spans row) {p c : Nat} (hc : column line p ≤ c)
    (hc' : c < column line (p + 1)) :
    row[c]? = some '^' ↔ ∃ x ∈ spans, x.contains p = true := by
  rw [h.mark]
  refine exists_congr fun x => and_congr_right fun _ => ?_
  rw [Span.contains_iff]
  constructor
  · rintro ⟨hle, hlt⟩
    constructor
    · by_contra hp
      have : column line (p + 1) ≤ column line x.start := column_mono line (by omega)
      omega
    · by_contra hp
      have : column line x.stop ≤ column line p := column_mono line (by omega)
      omega
  · rintro ⟨hle, hlt⟩
    have : column line x.start ≤ column line p := column_mono line hle
    have : column line (p + 1) ≤ column line x.stop := column_mono line hlt
    omega

/-- A span that takes a column at least. -/
def Span.Visible (line : List Char) (x : Span) : Prop :=
  column line x.start < column line x.stop

theorem Span.Visible.start_lt_stop {x : Span} (h : x.Visible line) : x.start < x.stop := by
  by_contra hle
  have := column_mono line (Nat.le_of_not_lt hle)
  rw [Span.Visible] at h
  omega

/-- The first of several marks is blank up to its span and then a caret up to the span's end. -/
theorem markRow_cons {x : Span} (spans : List Span) {position : Nat} (hp : position ≤ x.start)
    (hx : x.Visible line) :
    markRow (marksFrom (x :: spans) position (line.drop position))
      = List.replicate (column line x.start - column line position) ' '
        ++ List.replicate (column line x.stop - column line x.start) '^'
        ++ markRow (marksFrom spans x.stop (line.drop x.stop)) := by
  have hlt := hx.start_lt_stop
  have hhere : (line.drop position).drop (x.start - position) = line.drop x.start := by
    rw [List.drop_drop, Nat.add_sub_cancel' hp]
  have hnext : (line.drop x.start).drop (x.stop - x.start) = line.drop x.stop := by
    rw [List.drop_drop, Nat.add_sub_cancel' (Nat.le_of_lt hlt)]
  have hwidth : max 1 (column line x.stop - column line x.start)
      = column line x.stop - column line x.start := by
    rw [Span.Visible] at hx
    omega
  simp only [marksFrom, hhere, Nat.max_eq_right hp, Nat.max_eq_right (Nat.le_of_lt hlt), hnext,
    textWidth_between hp, textWidth_between (Nat.le_of_lt hlt), hwidth]
  rfl

theorem getElem?_replicate_append {α : Type} (a : α) (n : Nat) (l : List α) (c : Nat) :
    (List.replicate n a ++ l)[c]? = if c < n then some a else l[c - n]? := by
  by_cases h : c < n
  · rw [List.getElem?_append_left (by simpa using h), if_pos h]
    simp [h]
  · rw [List.getElem?_append_right (by simpa using h), if_neg h, List.length_replicate]

/-- The row is blank before the first span. -/
theorem getElem?_marks_of_lt {x : Span} {spans : List Span} (hx : x.Visible line) {c : Nat}
    (hc : c < column line x.start) : (markRow (marks line (x :: spans)))[c]? = some ' ' := by
  have hrow := markRow_cons spans (Nat.zero_le x.start) hx
  rw [List.drop_zero, column_zero, Nat.sub_zero] at hrow
  rw [marks, hrow, List.append_assoc, getElem?_replicate_append, if_pos hc]

/-- Behind `position` the carets stand in the columns of the spans. -/
theorem getElem?_markRow : ∀ (spans : List Span) (position : Nat),
    (∀ x ∈ spans, position ≤ x.start ∧ x.Visible line) →
    spans.Pairwise (fun a b => a.stop ≤ b.start) → ∀ c,
      ((markRow (marksFrom spans position (line.drop position)))[c]? = some '^' ↔
        ∃ x ∈ spans, column line x.start ≤ column line position + c ∧
          column line position + c < column line x.stop)
  | [], _, _, _, c => by simp [marksFrom, markRow]
  | x :: spans, position, hx, hspans, c => by
    obtain ⟨hp, hvisible⟩ := hx x List.mem_cons_self
    obtain ⟨hbehind, hspans⟩ := List.pairwise_cons.1 hspans
    have hrest : ∀ y ∈ spans, x.stop ≤ y.start ∧ y.Visible line := fun y hy =>
      ⟨hbehind y hy, (hx y (List.mem_cons_of_mem _ hy)).2⟩
    have hcol := column_mono line hp
    rw [Span.Visible] at hvisible
    have hafter : ∀ y ∈ spans, column line x.stop ≤ column line y.start := fun y hy =>
      column_mono line (hrest y hy).1
    rw [markRow_cons spans hp hvisible, List.append_assoc, getElem?_replicate_append,
      getElem?_replicate_append]
    have ih := getElem?_markRow spans x.stop hrest hspans
      (c - (column line x.start - column line position)
        - (column line x.stop - column line x.start))
    by_cases hblank : c < column line x.start - column line position
    · rw [if_pos hblank]
      refine ⟨fun h => absurd h (by decide), ?_⟩
      rintro ⟨y, hy, hle, hlt⟩
      rcases List.mem_cons.1 hy with rfl | hy
      · omega
      · have := hafter y hy
        omega
    rw [if_neg hblank]
    by_cases hmark : c - (column line x.start - column line position)
        < column line x.stop - column line x.start
    · rw [if_pos hmark]
      exact ⟨fun _ => ⟨x, List.mem_cons_self, by omega, by omega⟩, fun _ => rfl⟩
    · rw [if_neg hmark, ih]
      have hc : column line x.stop + (c - (column line x.start - column line position)
          - (column line x.stop - column line x.start)) = column line position + c := by
        omega
      rw [hc]
      constructor
      · rintro ⟨y, hy, h⟩
        exact ⟨y, List.mem_cons_of_mem _ hy, h⟩
      · rintro ⟨y, hy, hle, hlt⟩
        rcases List.mem_cons.1 hy with rfl | hy
        · omega
        · exact ⟨y, hy, hle, hlt⟩

theorem mem_markRow {ms : List Mark} {c : Char} (h : c ∈ markRow ms) : c = '^' ∨ c = ' ' := by
  obtain ⟨m, -, hc⟩ := List.mem_flatMap.1 h
  rcases List.mem_append.1 hc with hc | hc
  · exact .inr (List.eq_of_mem_replicate hc)
  · exact .inl (List.eq_of_mem_replicate hc)

theorem one_le_width_of_mem_marksFrom : ∀ (spans : List Span) (position : Nat) (rest : List Char),
    ∀ m ∈ marksFrom spans position rest, 1 ≤ m.width
  | [], _, _, m, h => by cases h
  | x :: spans, position, rest, m, h => by
    rcases List.mem_cons.1 h with rfl | h
    · exact Nat.le_max_left _ _
    · exact one_le_width_of_mem_marksFrom spans _ _ m h

theorem getLast?_markRow : ∀ {ms : List Mark}, ms ≠ [] → (∀ m ∈ ms, 1 ≤ m.width) →
    (markRow ms).getLast? = some '^'
  | [], hne, _ => absurd rfl hne
  | [m], _, h => by
    have hm : m.width ≠ 0 := Nat.one_le_iff_ne_zero.1 (h m List.mem_cons_self)
    simp [markRow, Mark.cells, List.getLast?_append, List.getLast?_replicate, hm]
  | m :: n :: ms, _, h => by
    have ih := getLast?_markRow (List.cons_ne_nil n ms) fun k hk => h k (List.mem_cons_of_mem m hk)
    rw [markRow, List.flatMap_cons, List.getLast?_append]
    exact congrArg (Option.or · _) ih

theorem marksOnly_of_increasing {spans : List Span} (hne : spans ≠ [])
    (hx : ∀ x ∈ spans, x.Visible line) (hspans : spans.Pairwise fun a b => a.stop ≤ b.start) :
    MarksOnly line spans (markRow (marks line spans)) where
  mark c := by
    simpa [marks] using getElem?_markRow spans 0 (fun x h => ⟨Nat.zero_le _, hx x h⟩) hspans c
  blank _ := mem_markRow
  last := by
    refine getLast?_markRow ?_ (one_le_width_of_mem_marksFrom spans 0 line)
    rcases spans with _ | ⟨x, spans⟩
    · exact absurd rfl hne
    · exact List.cons_ne_nil _ _

end Calculator

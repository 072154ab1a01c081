import Calculator.Text.Lines

/-!
# The lines of a text

Splitting carries the current line and the lines found along. What it returns is described without
either by `LinesOf`: a text is its first line, the end of that line, and the rest of the text.
Each text has its lines (`linesOf_lines`) and no others (`LinesOf.eq_lines`), and it keeps them when
its line feeds get carriage returns (`LinesOf.withReturns`).
-/

namespace Calculator

inductive LinesOf : List Char → List (List Char) → Prop
  | nil : LinesOf [] []
  | last {l : List Char} (hl : l ≠ []) (hn : '\n' ∉ l) : LinesOf l [l]
  | feed {l rest : List Char} {ls : List (List Char)} (hn : '\n' ∉ l)
    (hr : l.getLast? ≠ some '\r') (h : LinesOf rest ls) : LinesOf (l ++ '\n' :: rest) (l :: ls)
  | returnFeed {l rest : List Char} {ls : List (List Char)} (hn : '\n' ∉ l)
    (h : LinesOf rest ls) : LinesOf (l ++ '\r' :: '\n' :: rest) (l :: ls)

theorem LinesOf.feed_not_mem {cs : List Char} {ls : List (List Char)} (h : LinesOf cs ls) :
    ∀ l ∈ ls, '\n' ∉ l := by
  induction h with
  | nil => simp
  | last _ hn => simpa using hn
  | feed hn _ _ ih => simpa using ⟨hn, ih⟩
  | returnFeed hn _ ih => simpa using ⟨hn, ih⟩

theorem linesFrom_found (rest line : List Char) (found : List (List Char)) :
    linesFrom rest line found = found.reverse ++ linesFrom rest line [] := by
  induction rest generalizing line found with
  | nil => by_cases h : line.isEmpty <;> simp [linesFrom, h]
  | cons c rest ih =>
    simp only [linesFrom]
    split
    · rw [ih [] (_ :: found), ih [] [_]]
      simp
    · exact ih _ _

theorem linesFrom_feed (rest line : List Char) :
    linesFrom ('\n' :: rest) line [] = (withoutReturn line).reverse :: lines rest := by
  rw [linesFrom, if_pos rfl, linesFrom_found]
  rfl

theorem linesFrom_append : ∀ {l : List Char} (_ : '\n' ∉ l) (rest line : List Char)
    (found : List (List Char)),
    linesFrom (l ++ rest) line found = linesFrom rest (l.reverse ++ line) found
  | [], _, rest, line, found => rfl
  | c :: l, h, rest, line, found => by
    rw [List.mem_cons, not_or] at h
    rw [List.cons_append, linesFrom, if_neg (Ne.symm h.1), linesFrom_append h.2]
    simp

theorem withoutReturn_of_head? {line : List Char} (h : line.head? ≠ some '\r') :
    withoutReturn line = line := by
  unfold withoutReturn
  split
  · simp at h
  · rfl

theorem LinesOf.eq_lines {cs : List Char} {ls : List (List Char)} (h : LinesOf cs ls) :
    ls = lines cs := by
  induction h with
  | nil => rfl
  | @last l hl hn =>
    have := linesFrom_append hn [] [] []
    rw [List.append_nil, List.append_nil] at this
    simp [lines, this, linesFrom, hl]
  | feed hn hr _ ih =>
    rw [lines, linesFrom_append hn, linesFrom_feed, List.append_nil,
      withoutReturn_of_head? (by rwa [List.head?_reverse]), List.reverse_reverse, ih]
  | @returnFeed l rest ls hn _ ih =>
    have hr : '\n' ∉ l ++ ['\r'] := by simpa using hn
    have hsplit : l ++ '\r' :: '\n' :: rest = l ++ ['\r'] ++ '\n' :: rest := by simp
    rw [lines, hsplit, linesFrom_append hr, linesFrom_feed, ← ih]
    simp [withoutReturn]

theorem linesOf_linesFrom : ∀ (rest : List Char) {line : List Char} (_ : '\n' ∉ line),
    LinesOf (line.reverse ++ rest) (linesFrom rest line [])
  | [], line, h => by
    rcases line with _ | ⟨c, line⟩
    · exact .nil
    · have hline : '\n' ∉ (c :: line).reverse := by rwa [List.mem_reverse]
      simpa [linesFrom] using LinesOf.last (by simp) hline
  | c :: rest, line, h => by
    by_cases hc : c = '\n'
    · subst hc
      rw [linesFrom_feed]
      have hrest : LinesOf rest (lines rest) := linesOf_linesFrom rest List.not_mem_nil
      by_cases hr : line.head? = some '\r'
      · obtain ⟨line, rfl⟩ := List.head?_eq_some_iff.1 hr
        have hline : '\n' ∉ line.reverse := by simpa using h
        simpa [withoutReturn] using LinesOf.returnFeed hline hrest
      · rw [withoutReturn_of_head? hr]
        exact .feed (by simpa using h) (by rwa [List.getLast?_reverse]) hrest
    · have hline : '\n' ∉ c :: line := by simp [Ne.symm hc, h]
      rw [linesFrom, if_neg hc]
      simpa using linesOf_linesFrom rest hline

theorem linesOf_lines (cs : List Char) : LinesOf cs (lines cs) :=
  linesOf_linesFrom cs List.not_mem_nil

theorem linesOf_iff {cs : List Char} {ls : List (List Char)} : LinesOf cs ls ↔ ls = lines cs :=
  ⟨LinesOf.eq_lines, fun h => h ▸ linesOf_lines cs⟩

/-- A text with a carriage return put before each line feed. -/
def withReturns (cs : List Char) : List Char :=
  cs.flatMap fun c => if c = '\n' then ['\r', '\n'] else [c]

theorem withReturns_append (cs us : List Char) :
    withReturns (cs ++ us) = withReturns cs ++ withReturns us :=
  List.flatMap_append

theorem withReturns_of_not_mem {l : List Char} (h : '\n' ∉ l) : withReturns l = l := by
  induction l with
  | nil => rfl
  | cons c l ih =>
    rw [List.mem_cons, not_or] at h
    rw [withReturns, List.flatMap_cons, if_neg (Ne.symm h.1), List.singleton_append]
    exact congrArg _ (ih h.2)

theorem withReturns_feed {l : List Char} (h : '\n' ∉ l) (rest : List Char) :
    withReturns (l ++ '\n' :: rest) = l ++ '\r' :: '\n' :: withReturns rest := by
  rw [withReturns_append, withReturns_of_not_mem h]
  rfl

theorem LinesOf.withReturns {cs : List Char} {ls : List (List Char)} (h : LinesOf cs ls)
    (hr : '\r' ∉ cs) : LinesOf (withReturns cs) ls := by
  induction h with
  | nil => exact .nil
  | last hl hn =>
    rw [withReturns_of_not_mem hn]
    exact .last hl hn
  | feed hn _ _ ih =>
    rw [withReturns_feed hn]
    exact .returnFeed hn (ih fun hmem => hr (by simp [hmem]))
  | returnFeed => simp at hr

theorem lines_withReturns {cs : List Char} (h : '\r' ∉ cs) : lines (withReturns cs) = lines cs :=
  ((linesOf_lines cs).withReturns h).eq_lines.symm

end Calculator

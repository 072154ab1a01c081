import Calculator.Diagnostic
import Mathlib.Data.List.Infix
import Mathlib.Data.List.Range

/-!
# How a line without line feeds is listed

A carriage return ends a source line without moving its start, so a text without line feeds is
listed from its beginning up to each of its carriage returns, and once to its end
(`SourceLine.list_eq`). Of these the ones that end behind the first position blamed are shown
(`Diagnostic.excerpts_eq`), so their numbers follow upon each other
(`Diagnostic.shownEnds_consecutive`).
-/

namespace Calculator

namespace SourceLine

variable {cs : List Char}

/-- The part of a text up to a position, as it is listed. -/
def upTo (cs : List Char) (p : Nat) : SourceLine :=
  ⟨⟨0, p + 1⟩, cs.take p⟩

/-- The positions of the carriage returns before the last character. -/
def returns (cs : List Char) : List Nat :=
  (List.range (cs.length - 1)).filter fun p => cs[p]? = some '\r'

/-- Where the text ends, a carriage return at its end left out. -/
def contentEnd (cs : List Char) : Nat :=
  if cs.getLast? = some '\r' then cs.length - 1 else cs.length

/-- The positions up to which a text without line feeds is listed. -/
def ends (cs : List Char) : List Nat :=
  returns cs ++ [contentEnd cs]

theorem listFrom_append : ∀ (front before : List Char) (listed : Bool) (found : List SourceLine),
    '\n' ∉ front → ∃ listed', ∀ rest,
      listFrom (front ++ rest) 0 before.length before.reverse listed found
        = listFrom rest 0 (before ++ front).length (before ++ front).reverse listed'
            ((((List.range' before.length front.length).filter
              fun p => (before ++ front)[p]? = some '\r').map (upTo (before ++ front))).reverse
              ++ found)
  | [], before, listed, found, _ => ⟨listed, fun rest => by simp⟩
  | c :: front, before, listed, found, h => by
    rw [List.mem_cons, not_or] at h
    have hlen : before.length + 1 = (before ++ [c]).length := by simp
    have hrev : c :: before.reverse = (before ++ [c]).reverse := by simp
    have hget : (before ++ c :: front)[before.length]? = some c := by simp
    have hsplit : before ++ c :: front = before ++ [c] ++ front := by simp
    by_cases hc : c = '\r'
    · obtain ⟨listed', ih⟩ :=
        listFrom_append front (before ++ [c]) true (ending 0 before.length before.reverse :: found)
          h.2
      refine ⟨listed', fun rest => ?_⟩
      have hend : ending 0 before.length before.reverse
          = upTo (before ++ [c] ++ front) before.length := by
        simp [ending, upTo]
      rw [List.cons_append, listFrom, if_pos hc, hlen, hrev, ih, List.length_cons,
        List.range'_succ, List.filter_cons_of_pos (by simpa using hc), List.map_cons,
        List.reverse_cons, hsplit, ← hlen, hend]
      simp
    · obtain ⟨listed', ih⟩ := listFrom_append front (before ++ [c]) false found h.2
      refine ⟨listed', fun rest => ?_⟩
      rw [List.cons_append, listFrom, if_neg hc, if_neg (Ne.symm h.1), hlen, hrev, ih,
        List.length_cons, List.range'_succ, List.filter_cons_of_neg (by simpa using hc), hsplit,
        ← hlen]

theorem returns_concat (front : List Char) (c : Char) :
    (returns (front ++ [c])).map (upTo (front ++ [c]))
      = ((List.range front.length).filter fun p => front[p]? = some '\r').map (upTo front) := by
  have hlen : (front ++ [c]).length - 1 = front.length := by simp
  have hfilter : returns (front ++ [c])
      = (List.range front.length).filter fun p => front[p]? = some '\r' := by
    rw [returns, hlen]
    refine List.filter_congr fun p hp => ?_
    rw [List.getElem?_append_left (List.mem_range.1 hp)]
  rw [hfilter]
  refine List.map_congr_left fun p hp => ?_
  have hlt := List.mem_range.1 (List.mem_filter.1 hp).1
  rw [upTo, upTo, List.take_append_of_le_length (Nat.le_of_lt hlt)]

theorem list_eq (h : '\n' ∉ cs) : list cs = (ends cs).map (upTo cs) := by
  rcases List.eq_nil_or_concat cs with rfl | ⟨front, c, rfl⟩
  · rfl
  · rw [List.concat_eq_append] at h ⊢
    obtain ⟨hfront, hc⟩ : '\n' ∉ front ∧ c ≠ '\n' := by simpa [eq_comm] using h
    obtain ⟨listed, hlist⟩ := listFrom_append front [] false [] hfront
    have hlast : list (front ++ [c]) = listFrom [c] 0 front.length front.reverse listed _ :=
      hlist [c]
    rw [hlast, ends, List.map_append, returns_concat]
    by_cases hr : c = '\r'
    · subst hr
      simp [listFrom, contentEnd, ending, upTo, List.range_eq_range']
    · simp [listFrom, hr, hc, contentEnd, ending, upTo, List.range_eq_range']

theorem lt_of_mem_returns {p : Nat} (h : p ∈ returns cs) : p < cs.length - 1 :=
  List.mem_range.1 (List.mem_filter.1 h).1

theorem le_contentEnd {p : Nat} (h : p < cs.length) : p ≤ contentEnd cs := by
  rw [contentEnd]
  split <;> omega

theorem ends_increasing (cs : List Char) : (ends cs).Pairwise (· < ·) := by
  refine List.pairwise_append.2 ⟨List.pairwise_lt_range.filter _, List.pairwise_singleton _ _, ?_⟩
  intro p hp q hq
  rw [List.mem_singleton.1 hq, contentEnd]
  have := lt_of_mem_returns hp
  split <;> omega

theorem returns_eq_nil_iff : returns cs = [] ↔ '\r' ∉ cs.dropLast := by
  rw [returns, List.filter_eq_nil_iff, List.mem_iff_getElem?]
  simp only [List.mem_range, decide_eq_true_eq, List.getElem?_dropLast, not_exists]
  refine forall_congr' fun p => ?_
  split
  · simp [*]
  · simp [*]

theorem meets_upTo_iff (x : Span) (p : Nat) :
    x.meets (upTo cs p).span = true ↔ x.start ≤ p := by
  simp only [upTo, Span.meets, Bool.or_eq_true, Span.contains_iff]
  omega

end SourceLine

theorem filter_eq_dropWhile_not {α : Type} {P : α → Bool} : ∀ {l : List α},
    l.Pairwise (fun a b => P a = true → P b = true) → l.filter P = l.dropWhile fun a => !P a
  | [], _ => rfl
  | a :: l, h => by
    obtain ⟨ha, hl⟩ := List.pairwise_cons.1 h
    by_cases hP : P a = true
    · have hall : ∀ b ∈ a :: l, P b = true := by simpa [hP] using fun b hb => ha b hb hP
      rw [List.filter_eq_self.2 hall, List.dropWhile_cons_of_neg (by simp [hP])]
    · rw [List.filter_cons_of_neg hP, List.dropWhile_cons_of_pos (by simpa using hP),
        filter_eq_dropWhile_not hl]

namespace Diagnostic

open SourceLine

variable {cs : List Char}

/-- The positions up to which a text is shown, with the number of those before it. -/
def shownEnds (cs : List Char) (spans : List Span) : List (Nat × Nat) :=
  (ends cs).zipIdx.filter fun e => spans.any fun x => x.start ≤ e.1

theorem excerpts_eq (h : '\n' ∉ cs) (spans : List Span) (k : Nat) :
    excerpts k cs spans = (shownEnds cs spans).map fun e =>
      ⟨k + e.2, cs.take e.1, (upTo cs e.1).clipAll spans⟩ := by
  rw [excerpts, list_eq h, List.zipIdx_map, List.filterMap_map, shownEnds,
    ← List.filterMap_eq_map, List.filterMap_filter]
  refine List.filterMap_congr fun e _ => ?_
  have hany : ((upTo cs e.1).clipAll spans).isEmpty = !spans.any fun x => x.start ≤ e.1 := by
    rw [clipAll, Bool.eq_iff_iff, List.isEmpty_iff, List.map_eq_nil_iff, List.filter_eq_nil_iff]
    simp only [Bool.not_eq_true', List.any_eq_false, decide_eq_true_eq]
    exact forall₂_congr fun x _ => by rw [meets_upTo_iff]
  simp only [Function.comp_apply, Prod.map_fst, Prod.map_snd, id_eq, hany]
  rcases spans.any fun x => x.start ≤ e.1 with _ | _
  · rfl
  · rfl

theorem shownEnds_consecutive (cs : List Char) (spans : List Span) :
    (shownEnds cs spans).IsChain fun a b => b.2 = a.2 + 1 := by
  have hall : (ends cs).zipIdx.IsChain fun a b => b.2 = a.2 + 1 := by
    rw [← List.isChain_map (R := fun a b => b = a + 1) Prod.snd, List.zipIdx_map_snd]
    exact List.isChain_range' _ _ _
  have hmono : (ends cs).zipIdx.Pairwise fun a b =>
      (spans.any fun x => x.start ≤ a.1) = true → (spans.any fun x => x.start ≤ b.1) = true := by
    have hlt : ((ends cs).zipIdx.map Prod.fst).Pairwise (· < ·) := by
      rw [List.zipIdx_map_fst]
      exact ends_increasing cs
    refine (List.pairwise_map.1 hlt).imp fun hab ha => ?_
    simp only [List.any_eq_true, decide_eq_true_eq] at ha ⊢
    obtain ⟨x, hx, hle⟩ := ha
    exact ⟨x, hx, Nat.le_trans hle (Nat.le_of_lt hab)⟩
  rw [shownEnds, filter_eq_dropWhile_not hmono]
  exact hall.suffix (List.dropWhile_suffix _)

end Diagnostic

end Calculator

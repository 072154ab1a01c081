import Calculator.Proofs.FaultSpans
import Calculator.Proofs.Grammar
import Calculator.Proofs.Marks
import Mathlib.Data.List.Pairwise

/-!
# Diagnostics of one line

A fault in a text of one line is shown as the line, a row of marks and the description
(`render_unbroken`). The marks are drawn from left to right, the operator of a division before its
divisor. So they stand under what the fault blames exactly when the divisor comes behind the
operator (`render_marks`). In an expression of the infix language it does, but strings beyond it are
calculated as well, and `1 0 /` is marked under its blank and its operator.
-/

namespace Calculator

open Token

def Unbroken (cs : List Char) : Prop :=
  ∀ c ∈ cs, c ≠ '\r' ∧ c ≠ '\n'

instance (cs : List Char) : Decidable (Unbroken cs) :=
  List.decidableBAll _ _

namespace SourceLine

theorem listFrom_append_unbroken : ∀ {text : List Char} (rest : List Char)
    (start position : Nat) (before : List Char) (found : List SourceLine), Unbroken text →
    listFrom (text ++ rest) start position before false found
      = listFrom rest start (position + text.length) (text.reverse ++ before) false found
  | [], rest, start, position, before, found, _ => rfl
  | c :: text, rest, start, position, before, found, h => by
    obtain ⟨⟨hreturn, hfeed⟩, htext⟩ := List.forall_mem_cons.1 h
    rw [List.cons_append, listFrom, if_neg hreturn, if_neg hfeed,
      listFrom_append_unbroken rest start (position + 1) (c :: before) found htext,
      List.length_cons, List.reverse_cons, List.append_assoc, List.singleton_append,
      Nat.add_assoc, Nat.add_comm 1]

theorem list_unbroken {cs : List Char} (h : Unbroken cs) :
    list cs = [⟨⟨0, cs.length + 1⟩, cs⟩] := by
  have hlist := listFrom_append_unbroken [] 0 0 [] [] h
  rw [List.append_nil] at hlist
  rw [list, hlist]
  simp [listFrom, ending]

theorem clipAll_within {cs : List Char} {spans : List Span} (h : ∀ x ∈ spans, x.Within cs) :
    (SourceLine.mk ⟨0, cs.length + 1⟩ cs).clipAll spans = spans := by
  have hmeets : ∀ x ∈ spans, x.meets ⟨0, cs.length + 1⟩ = true := by
    intro x hx
    obtain ⟨hlt, hle⟩ := h x hx
    simp only [Span.meets, Bool.or_eq_true, Span.contains_iff]
    omega
  rw [clipAll, List.filter_eq_self.2 hmeets]
  refine (List.map_congr_left fun x hx => ?_).trans (List.map_id spans)
  have hle := (h x hx).2
  simp only [clip, Span.length, Nat.sub_zero, Nat.min_eq_left (Nat.le_succ_of_le hle)]
  rfl

end SourceLine

namespace Diagnostic

/-- A line with a row of marks under it and a description. -/
def oneLine (text : String) (row : List Char) (description : String) : String :=
  "1 │ " ++ text ++ "\n" ++ ("  │ " ++ String.ofList row ++ "\n") ++ ("  │ " ++ description)

theorem oneLine_injective {text description : String} {row row' : List Char}
    (h : oneLine text row description = oneLine text row' description) : row = row' := by
  have hlist := congrArg String.toList h
  simp only [oneLine, String.toList_append, String.toList_ofList] at hlist
  simpa using hlist

theorem markText_toList (m : Mark) : (markText false m).toList = m.cells := by
  simp [markText, blanks, paint, Mark.cells]

theorem join_markText (ms : List Mark) :
    String.join (ms.map (markText false)) = String.ofList (markRow ms) := by
  refine String.toList_injective ?_
  rw [String.toList_join, List.flatMap_map, String.toList_ofList, markRow]
  exact List.flatMap_congr fun m _ => markText_toList m

theorem spans_ne_nil (f : Fault) : f.spans ≠ [] := by
  cases f <;> exact List.cons_ne_nil _ _

theorem render_unbroken {s : String} {f : Fault} (h : Unbroken s.toList)
    (hf : ∀ x ∈ f.spans, x.Within s.toList) :
    render false 1 s f = oneLine s (markRow (marks s.toList f.spans)) f.description := by
  have hshown : excerpts 1 s.toList f.spans = [⟨1, s.toList, f.spans⟩] := by
    have hne : f.spans.isEmpty = false := by simpa using spans_ne_nil f
    have hclip := SourceLine.clipAll_within hf
    rw [excerpts, SourceLine.list_unbroken h, List.zipIdx_singleton, List.filterMap_cons_some]
    · rfl
    · simp only [hclip, hne, Bool.false_eq_true, ↓reduceIte]
  have hnumber : numberText 1 1 = "1" := by decide
  have hblanks : blanks 1 = " " := by decide
  have hwidth : marginWidth [⟨1, s.toList, f.spans⟩] = 1 :=
    (by decide : (Nat.toDigits 10 1).length = 1)
  have hbar : bar false = " │ " := by decide
  have hfirst : "1" ++ " │ " = "1 │ " := by decide
  have hmargin : " " ++ " │ " = "  │ " := by decide
  simp only [render, hshown, hwidth, excerptsText, List.map_cons, List.map_nil, List.zip_cons_cons,
    List.zip_nil_right, gapText, excerptText, hnumber, hblanks, hbar, join_markText, paint,
    String.ofList_toList, hmargin, Bool.false_eq_true, ↓reduceIte, hfirst]
  refine String.toList_injective ?_
  simp only [oneLine, String.toList_append, String.toList_join, List.flatMap_cons,
    List.flatMap_nil, List.append_nil]
  rfl

end Diagnostic

section Order

variable {cs : List Char} {ts : List Token}

theorem textWidth_pos {us : List Char} {c : Char} (hc : c ∈ us) (h : 0 < charWidth c) :
    0 < textWidth us := by
  obtain ⟨as, bs, rfl⟩ := List.append_of_mem hc
  rw [textWidth_append, textWidth_cons]
  omega

theorem visible_of_textWidth_slice {x : Span} (h : 1 ≤ textWidth (x.slice cs)) :
    x.Visible cs := by
  have hle : x.start ≤ x.stop := by
    by_contra hlt
    have hnil : x.slice cs = [] :=
      List.drop_eq_nil_of_le (by rw [List.length_take]; omega)
    rw [hnil, textWidth_nil] at h
    omega
  rw [Span.slice, List.drop_take, textWidth_between hle] at h
  exact Nat.lt_of_sub_pos h

theorem visible_of_slice {x : Span} (h : ∃ c ∈ x.slice cs, 0 < charWidth c) : x.Visible cs := by
  obtain ⟨c, hc, hw⟩ := h
  exact visible_of_textWidth_slice (textWidth_pos hc hw)

theorem exists_of_any {spans : List Span}
    (h : (spans.all fun x => (x.slice cs).any fun c => 0 < charWidth c) = true) :
    ∀ x ∈ spans, ∃ c ∈ x.slice cs, 0 < charWidth c := by
  simpa using h

theorem charWidth_of_isLiteralChar {c : Char} (h : isLiteralChar c = true) : charWidth c = 1 := by
  have hcode : 46 ≤ c.toNat ∧ c.toNat ≤ 57 := by
    simp only [isLiteralChar, Bool.or_eq_true, beq_iff_eq] at h
    rcases h with h | rfl
    · have : 48 ≤ c.toNat ∧ c.toNat ≤ 57 := by
        simpa [Char.isDigit, UInt32.le_iff_toNat_le] using h
      omega
    · decide
  have hlow : ¬ c.toNat < 0x20 := by omega
  have hascii : c.toNat < 0x7F := by omega
  simp only [charWidth, if_neg hlow, if_pos hascii]

/-- One of the tokens lies behind the other. -/
def Token.Beside (t u : Token) : Prop :=
  t.span.stop ≤ u.span.start ∨ u.span.stop ≤ t.span.start

instance : Std.Symm Token.Beside :=
  ⟨fun _ _ => Or.symm⟩

theorem Cuts.beside (h : Cuts cs ts) {t u : Token} (ht : t ∈ ts) (hu : u ∈ ts) (hne : t ≠ u) :
    t.Beside u := by
  have hbeside : ts.Pairwise Beside := h.ordered.imp Or.inl
  exact hbeside.forall ht hu hne

theorem Cuts.column_number (h : Cuts cs ts) {t : Token} (ht : t ∈ numbers ts) :
    column cs (t.span.start + 1) = column cs t.span.start + 1 := by
  have hmem := mem_of_mem_numbers ht
  have hlt := h.nonempty t hmem
  have hinside := h.inside t hmem
  have hc : cs[t.span.start]? = some cs[t.span.start] := by simp
  have hlit := (h.number t hmem (List.mem_filter.1 ht).2).inner _ _ (Nat.le_refl _) hlt hc
  rw [column_succ hc, charWidth_of_isLiteralChar hlit]

/-- A divisor that begins before its operator is not marked at its first digit, above which the
row is still blank up to the operator. -/
theorem increasing_of_marksOnly (hcuts : Cuts cs ts) {f : Fault} (hb : Blames ts f)
    (hx : ∀ x ∈ f.spans, x.Visible cs)
    (hm : MarksOnly cs f.spans (markRow (marks cs f.spans))) :
    f.spans.Pairwise fun a b => a.stop ≤ b.start := by
  cases hb with
  | @division p a b hop ha hb hab =>
    have hamem := mem_of_mem_numbers ha
    have hne : (⟨.operator .div, .single p⟩ : Token) ≠ a := by
      rintro rfl
      cases (List.mem_filter.1 ha).2
    rcases hcuts.beside hop hamem hne with hle | hle
    · simpa [Fault.spans, Span.across] using hle
    · exfalso
      have hstart := hcuts.nonempty a hamem
      have hbstop := hcuts.nonempty b (mem_of_mem_numbers hb)
      have hstop : a.span.start + 1 ≤ b.span.stop := by
        rcases hab with rfl | hab
        · exact hstart
        · omega
      have hdigit := hcuts.column_number ha
      have hend : column cs (a.span.start + 1) ≤ column cs b.span.stop := column_mono cs hstop
      have hbefore : column cs (a.span.start + 1) ≤ column cs p :=
        column_mono cs (Nat.le_trans hstart hle)
      have hcaret := (hm.mark (column cs a.span.start)).2
        ⟨.across a.span b.span, by simp [Fault.spans], Nat.le_refl _, by
          simp only [Span.across]
          omega⟩
      have hblank : (markRow (marks cs [.single p, .across a.span b.span]))[column cs a.span.start]?
          = some ' ' :=
        getElem?_marks_of_lt (hx _ (by simp [Fault.spans])) (by simp only [Span.single]; omega)
      rw [Fault.spans, hblank] at hcaret
      exact absurd hcaret (by decide)
  | _ => simp [Fault.spans]

theorem leftmost_of_derives {level : Level} {t : Tree} (h : Derives level ts t) :
    ∃ n ∈ ts, n.span = t.leftmost := by
  induction h with
  | number => exact ⟨_, List.mem_singleton_self _, rfl⟩
  | group _ ih =>
    obtain ⟨n, hn, hs⟩ := ih
    exact ⟨n, by simp [hn], hs⟩
  | factor _ ih => exact ih
  | term _ ih => exact ih
  | multiply _ _ _ ihl _ | add _ _ _ ihl _ =>
    obtain ⟨n, hn, hs⟩ := ihl
    exact ⟨n, List.mem_append_left _ hn, hs⟩

/-- In an expression the divisor stands behind its operator. -/
theorem increasing_of_derives {level : Level} {t : Tree} (h : Derives level ts t) :
    ts.Pairwise (fun a b => a.span.stop ≤ b.span.start) → ∀ f, t.value = .error f →
      f.spans.Pairwise fun a b => a.stop ≤ b.start := by
  induction h with
  | number =>
    intro _ f hv
    simp only [Tree.value] at hv
    split at hv <;> cases hv
    exact List.pairwise_singleton _ _
  | group _ ih =>
    intro hord
    exact ih (List.pairwise_append.1 (List.pairwise_cons.1 hord).2).1
  | factor _ ih => exact ih
  | term _ ih => exact ih
  | multiply _ _ hr ihl ihr | add _ _ hr ihl ihr =>
    intro hord f hv
    obtain ⟨hl, hop, -⟩ := List.pairwise_append.1 hord
    obtain ⟨hbehind, hrs⟩ := List.pairwise_cons.1 hop
    simp only [Tree.value, bind_eq_error] at hv
    rcases hv with hv | ⟨a, -, hv | ⟨b, -, hv⟩⟩
    · exact ihl hl f hv
    · exact ihr hrs f hv
    · split_ifs at hv
      cases hv
      obtain ⟨n, hn, hs⟩ := leftmost_of_derives hr
      have hle := hbehind n hn
      rw [hs] at hle
      simpa [Fault.spans, Tree.extent] using hle

end Order

/-- A fault in a text of one line is shown as the line, once, with a row of marks under it. If each
span that is blamed takes a column, the marks stand under them, character for character and nowhere
else, exactly when a divisor that is blamed begins behind its operator; so they do in every
expression of the infix language. -/
theorem render_marks {s : String} {f : Fault} (hs : Unbroken s.toList)
    (h : calculate s = .error f) (hseen : ∀ x ∈ f.spans, ∃ c ∈ x.slice s.toList, 0 < charWidth c) :
    ∃ row, Diagnostic.render false 1 s f = Diagnostic.oneLine s row f.description ∧
      (MarksOnly s.toList f.spans row ↔ f.spans.Pairwise fun a b => a.stop ≤ b.start) ∧
      (MarksOnly s.toList f.spans row → ∀ p c, column s.toList p ≤ c → c < column s.toList (p + 1) →
        (row[c]? = some '^' ↔ ∃ x ∈ f.spans, x.contains p = true)) ∧
      ∀ ts, scan s = .ok ts → IsExpression ts → MarksOnly s.toList f.spans row := by
  have hvisible : ∀ x ∈ f.spans, x.Visible s.toList := fun x hx => visible_of_slice (hseen x hx)
  have hwithin : ∀ x ∈ f.spans, x.Within s.toList := by
    rcases within_of_calculate h with hin | ⟨rfl, rfl⟩
    · exact hin
    · obtain ⟨c, hc, -⟩ := hseen (.single 0) (by simp [Fault.spans])
      cases hc
  have hmarks := marksOnly_of_increasing (Diagnostic.spans_ne_nil f) hvisible
  refine ⟨_, Diagnostic.render_unbroken hs hwithin, ⟨fun hm => ?_, hmarks⟩,
    fun hm p c hc hc' => hm.mark_iff_contains hc hc', fun ts hts hexpr => hmarks ?_⟩
  · rcases scan_or_blames h with ⟨before, c, after, -, -, rfl⟩ | ⟨ts, hts, hb⟩
    · exact List.pairwise_singleton _ _
    · exact increasing_of_marksOnly (cuts_of_scan hts) hb hvisible hm
  · obtain ⟨t, ht⟩ := hexpr
    refine increasing_of_derives ht (cuts_of_scan hts).ordered f ?_
    rw [← calculate_of_derives hts ht, h]

/-- Behind a blank of two columns the marks begin in the third one. -/
theorem render_marks_wide :
    calculate "\u30005/0" = .error (.divisionByZero ⟨2, 3⟩ ⟨3, 4⟩) ∧
      ∃ row, Diagnostic.render false 1 "\u30005/0" (.divisionByZero ⟨2, 3⟩ ⟨3, 4⟩)
          = Diagnostic.oneLine "\u30005/0" row "Attempted to divide by 0" ∧
        MarksOnly "\u30005/0".toList [⟨2, 3⟩, ⟨3, 4⟩] row := by
  have h : calculate "\u30005/0" = .error (.divisionByZero ⟨2, 3⟩ ⟨3, 4⟩) := by decide +kernel
  obtain ⟨row, hrow, hmarks, -, -⟩ := render_marks (by decide) h (exists_of_any (by decide))
  exact ⟨h, row, hrow, hmarks.2 (by decide)⟩

/-- The divisor is written before the operator, and its mark comes out behind the operator's. -/
theorem render_postfix_notation :
    Unbroken "1 0 /".toList ∧ calculate "1 0 /" = .error (.divisionByZero ⟨4, 5⟩ ⟨2, 3⟩) ∧
      (∀ x ∈ (Fault.divisionByZero ⟨4, 5⟩ ⟨2, 3⟩).spans,
        ∃ c ∈ x.slice "1 0 /".toList, 0 < charWidth c) ∧
      Diagnostic.render false 1 "1 0 /" (.divisionByZero ⟨4, 5⟩ ⟨2, 3⟩)
        = Diagnostic.oneLine "1 0 /" "    ^^".toList "Attempted to divide by 0" ∧
      ¬ ∃ row, Diagnostic.render false 1 "1 0 /" (.divisionByZero ⟨4, 5⟩ ⟨2, 3⟩)
          = Diagnostic.oneLine "1 0 /" row "Attempted to divide by 0" ∧
        MarksOnly "1 0 /".toList [⟨4, 5⟩, ⟨2, 3⟩] row := by
  have hrender : Diagnostic.render false 1 "1 0 /" (.divisionByZero ⟨4, 5⟩ ⟨2, 3⟩)
      = Diagnostic.oneLine "1 0 /" "    ^^".toList "Attempted to divide by 0" := by
    decide +kernel
  refine ⟨by decide, by decide +kernel, exists_of_any (by decide), hrender, ?_⟩
  rintro ⟨row, hrow, hmarks⟩
  rw [hrender] at hrow
  have hcaret := (hmarks.mark 2).2 ⟨⟨2, 3⟩, by decide, by decide, by decide⟩
  rw [← Diagnostic.oneLine_injective hrow] at hcaret
  exact absurd hcaret (by decide)

end Calculator

import Calculator.Program
import Calculator.Proofs.Bytes
import Calculator.Proofs.JsonReading
import Calculator.Proofs.Lines
import Calculator.Proofs.Reports
import Calculator.Proofs.Scan
import Mathlib.Data.List.TakeWhile

/-!
# A script is answered line by line

The lines with something on them are answered each by itself, with their numbers, and what is
written for the script is what is written for them, joined. A line is skipped exactly if it has no
token (`scan_eq_nil_iff`). A report takes one row, since its text holds no line break, and the row
is read as one object only (`Script.textOf_row_iff`).
-/

namespace Calculator

theorem cuts_nil_iff {cs : List Char} : Cuts cs [] ↔ ∀ c ∈ cs, isBlank c = true := by
  constructor
  · intro h c hc
    obtain ⟨p, hp, rfl⟩ := List.mem_iff_getElem.1 hc
    have hcovers := h.covers p cs[p] (List.getElem?_eq_getElem hp)
    simpa using hcovers
  · intro h
    refine ⟨by simp, by simp, by simp, .nil, fun p c hc => ?_, by simp, by simp⟩
    simp [h c (List.mem_of_getElem? hc)]

theorem scan_eq_nil_iff {s : String} :
    Token.scan s = .ok [] ↔ ∀ c ∈ s.toList, isBlank c = true :=
  ⟨fun h => cuts_nil_iff.1 (Token.cuts_of_scan h), fun h => Token.scan_of_cuts (cuts_nil_iff.2 h)⟩

theorem trimBlanks_eq_nil_iff {l : List Char} :
    trimBlanks l = [] ↔ ∀ c ∈ l, isBlank c = true := by
  rw [trimBlanks, List.reverse_eq_nil_iff, List.dropWhile_eq_nil_iff]
  constructor
  · intro h c hc
    rw [← List.takeWhile_append_dropWhile (p := isBlank) (l := l)] at hc
    rcases List.mem_append.1 hc with hc | hc
    · exact List.mem_takeWhile_imp hc
    · exact h c (List.mem_reverse.2 hc)
  · intro h c hc
    exact h c ((List.dropWhile_sublist isBlank).mem (List.mem_reverse.1 hc))

namespace Script

/-- The lines that have a character other than a blank, and their numbers counted from one on. -/
def filled (ls : List (List Char)) : List (Nat × String) :=
  ((ls.zipIdx 1).filter fun e => e.1.any fun c => !isBlank c).map fun e => (e.2, String.ofList e.1)

theorem expressions_eq_filled (text : String) :
    expressions text = filled (lines text.toList) := by
  rw [expressions, filled, ← List.filterMap_eq_map, List.filterMap_filter]
  refine List.filterMap_congr fun e _ => ?_
  have hblank : (trimBlanks e.1).isEmpty = !e.1.any fun c => !isBlank c := by
    rw [Bool.eq_iff_iff, List.isEmpty_iff, trimBlanks_eq_nil_iff]
    simp
  simp only [hblank]
  rcases e.1.any fun c => !isBlank c with _ | _
  · rfl
  · rfl

theorem filled_increasing (ls : List (List Char)) :
    ((filled ls).map (·.1)).Pairwise (· < ·) := by
  have hnumbers : ((ls.zipIdx 1).map (·.2)).Pairwise (· < ·) := by
    rw [List.zipIdx_map_snd]
    exact List.pairwise_lt_range'
  rw [filled, List.map_map]
  exact hnumbers.sublist (List.filter_sublist.map _)

variable {p : Presentation} {mode : Mode}

theorem run_withReturns {text : String} (h : '\r' ∉ text.toList) :
    run p mode (String.ofList (withReturns text.toList)) = run p mode text := by
  simp only [run, answers, expressions, String.toList_ofList, lines_withReturns h]

theorem perform_script {s : Surroundings} {path text : String}
    (h : s.file path = some text.toUTF8) :
    Program.perform s p (.script mode path) = .ofAnswer (run p mode text) := by
  have htext : Program.fileText? s path = some text := by
    rw [Program.fileText?, h, Option.bind_some, fromUTF8?_toUTF8]
  simp only [Program.perform, htext]

theorem output_run (text : String) :
    (run p mode text).output = String.join
      ((filled (lines text.toList)).map fun e => (Answer.give p mode (some e.1) e.2).output) := by
  rw [run, answers, expressions_eq_filled, List.map_map]
  rfl

theorem succeeded_run (text : String) :
    (run p mode text).succeeded = true ↔ ∀ e ∈ filled (lines text.toList),
      (Answer.give p mode (some e.1) e.2).succeeded = true := by
  rw [run, answers, expressions_eq_filled, List.all_eq_true, List.forall_mem_map]

/-- The row of a numbered line, next to the number. -/
def row (p : Presentation) (mode : Mode) (e : Nat × String) : Nat × String :=
  (e.1, (Report.json (some e.1) (outcome p.emission mode e.2)).write)

theorem output_give_of_json (hp : p.format = .json) (e : Nat × String) :
    (Answer.give p mode (some e.1) e.2).output = (row p mode e).2 ++ "\n" := by
  simp only [Answer.give, Answer.text, hp, row]

theorem body_ne_line (result : Except Fault Outcome) : (Report.body result).1 ≠ "line" := by
  have hkey : (Report.body result).1 ∈ ["value", "tokens", "postfix", "errors"] := by
    unfold Report.body
    split <;> simp
  exact (by decide : ∀ key ∈ ["value", "tokens", "postfix", "errors"], key ≠ "line") _ hkey

/-- The row is read as one object, which begins with the number. -/
theorem textOf_row_iff (e : Nat × String) : ∃ key value, key ≠ "line" ∧
    ∀ v, Json.TextOf v (row p mode e).2.toList
      ↔ v = .object [("line", .count e.1), (key, value)] :=
  ⟨_, _, body_ne_line _, (Report.written_json (some e.1) _).reads⟩

/-- Each line that is not blank is answered by itself, with its number, and nothing else is written.
In reports it takes one row, an object with that number, and the rows do not depend on how lines
end. -/
theorem run_answers_lines (p : Presentation) (mode : Mode) (text : String) :
    ∃ ls, (∀ ls', LinesOf text.toList ls' ↔ ls' = ls) ∧
      (run p mode text).output
        = String.join ((filled ls).map fun e => (Answer.give p mode (some e.1) e.2).output) ∧
      ((run p mode text).succeeded = true ↔
        ∀ e ∈ filled ls, (Answer.give p mode (some e.1) e.2).succeeded = true) ∧
      (∀ l ∈ ls, Token.scan (String.ofList l) = .ok [] ↔ ∀ c ∈ l, isBlank c = true) ∧
      (p.format = .json → ∃ rows : List (Nat × String),
        (run p mode text).output = String.join (rows.map fun r => r.2 ++ "\n") ∧
          rows.map (·.1) = (filled ls).map (·.1) ∧ (rows.map (·.1)).Pairwise (· < ·) ∧
          ∀ r ∈ rows, Json.Printable r.2.toList ∧ ∃ key value, key ≠ "line" ∧
            ∀ v, Json.TextOf v r.2.toList ↔ v = .object [("line", .count r.1), (key, value)]) ∧
      ('\r' ∉ text.toList →
        run p mode (String.ofList (withReturns text.toList)) = run p mode text) ∧
      ∀ (s : Surroundings) (path : String), s.file path = some text.toUTF8 →
        Program.perform s p (.script mode path) = .ofAnswer (run p mode text) := by
  refine ⟨lines text.toList, fun _ => linesOf_iff, output_run text, succeeded_run text,
    fun l _ => ?_, fun hp => ⟨(filled (lines text.toList)).map (row p mode), ?_, ?_, ?_, ?_⟩,
    run_withReturns, fun _ _ => perform_script⟩
  · rw [scan_eq_nil_iff, String.toList_ofList]
  · simp only [output_run, output_give_of_json hp, List.map_map, Function.comp_def]
  · rw [List.map_map]
    rfl
  · rw [List.map_map]
    exact filled_increasing _
  · rw [List.forall_mem_map]
    intro e _
    obtain ⟨key, value, hkey, htext⟩ := @textOf_row_iff p mode e
    exact ⟨((htext _).2 rfl).printable, key, value, hkey, htext⟩

theorem run_answers_lines_around_blank :
    let p : Presentation := ⟨.json, .value, false, none⟩
    let s : Surroundings := ⟨fun _ => some ")\n \n1".toUTF8, .empty, none, false⟩
    p.format = .json ∧ '\r' ∉ ")\n \n1".toList ∧ s.file "script" = some ")\n \n1".toUTF8 ∧
      (∃ rows : List (Nat × String),
        (run p .check ")\n \n1").output = String.join (rows.map fun r => r.2 ++ "\n") ∧
          rows.map (·.1) = [1, 3] ∧ ∀ r ∈ rows, Json.Printable r.2.toList) ∧
      (run p .check ")\n \n1").succeeded = false ∧
      run p .check ")\r\n \r\n1" = run p .check ")\n \n1" ∧
      Program.perform s p (.script .check "script") = .ofAnswer (run p .check ")\n \n1") := by
  intro p s
  have hreturn : '\r' ∉ ")\n \n1".toList := by decide
  obtain ⟨ls, hls, -, hok, -, hjson, hreturns, hfile⟩ := run_answers_lines p .check ")\n \n1"
  obtain rfl := (hls _).1 (linesOf_lines _)
  obtain ⟨rows, hrows, hnumbers, -, htext⟩ := hjson rfl
  refine ⟨rfl, hreturn, rfl, ⟨rows, hrows, ?_, fun r hr => (htext r hr).1⟩, ?_, ?_,
    hfile s "script" rfl⟩
  · rw [hnumbers]
    decide
  · rw [Bool.eq_false_iff, Ne, hok]
    decide
  · rw [← hreturns hreturn]
    congr 1

end Script

end Calculator

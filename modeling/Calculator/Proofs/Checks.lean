import Calculator.Proofs.FaultSpans
import Calculator.Proofs.Scripts

/-!
# Checking a script and running it

A check stops before the evaluation. Each part of the work has faults of a stage of its own, so a
check finds the fault that a run finds, unless the run finds it in the evaluation
(`postfixTokens_eq_error_iff`). A script passes its check exactly if it can be written in postfix
order, and the reports of a check and of a run agree line by line (`Script.check_agrees_with_run`).
-/

namespace Calculator

open Token

theorem stage_of_scan {s : String} {f : Fault} (h : scan s = .error f) : f.stage = .scanning := by
  obtain ⟨-, before, c, after, -, -, rfl⟩ := invalidCharacter_of_scan h
  rfl

theorem stage_of_postfixOrder {ts : List Token} {f : Fault} (h : postfixOrder ts = .error f) :
    f.stage = .ordering := by
  rcases Reordering.mismatch_of_postfixOrder h with
    ⟨_, c, _, -, -, rfl⟩ | ⟨_, o, _, -, -, rfl⟩
  · rfl
  · rfl

theorem stage_of_evaluate {ts : List Token} {f : Fault} (h : evaluate ts = .error f) :
    f.stage = .evaluation := by
  rcases evaluate_eq_error_iff.1 h with ⟨before, t, after, -, -, ho⟩ | ⟨-, hl⟩
  · cases ho <;> rfl
  · cases hl <;> rfl

theorem postfixTokens_eq_error_iff {s : String} {f : Fault} :
    postfixTokens s = .error f ↔ calculate s = .error f ∧ f.stage ≠ .evaluation := by
  rw [calculate, bind_eq_error]
  constructor
  · intro h
    refine ⟨.inl h, ?_⟩
    rcases bind_eq_error.1 h with hs | ⟨ts, -, ho⟩
    · simp [stage_of_scan hs]
    · simp [stage_of_postfixOrder ho]
  · rintro ⟨h | ⟨ts, -, he⟩, hstage⟩
    · exact h
    · exact absurd (stage_of_evaluate he) hstage

theorem stage_of_postfixTokens {s : String} {ts : List Token} {f : Fault}
    (hts : postfixTokens s = .ok ts) (h : calculate s = .error f) : f.stage = .evaluation := by
  by_contra hstage
  rw [postfixTokens_eq_error_iff.2 ⟨h, hstage⟩] at hts
  cases hts

variable {p : Presentation} {emission : Emission} {s : String}

/-- Whatever is asked of an expression, its first fault is that of its calculation. -/
theorem calculate_of_outcome {mode : Mode} {f : Fault} (h : outcome emission mode s = .error f) :
    calculate s = .error f := by
  unfold outcome at h
  split at h
  · exact (postfixTokens_eq_error_iff.1 (map_eq_error.1 h)).1
  · exact map_eq_error.1 h
  · have htokens : postfixTokens s = .error f := bind_eq_error.2 (.inl (map_eq_error.1 h))
    exact (postfixTokens_eq_error_iff.1 htokens).1
  · exact (postfixTokens_eq_error_iff.1 (map_eq_error.1 h)).1

theorem isOk_outcome_check :
    (outcome emission .check s).isOk = (outcome .postfixOrder .evaluate s).isOk := by
  simp only [outcome]
  rcases postfixTokens s with f | ts
  · rfl
  · rfl

theorem isOk_check_of_isOk_value (h : (outcome .value .evaluate s).isOk = true) :
    (outcome emission .check s).isOk = true := by
  simp only [outcome] at h ⊢
  rcases hts : postfixTokens s with f | ts
  · rw [(postfixTokens_eq_error_iff.1 hts).1] at h
    cases h
  · rfl

theorem isOk_tokens_of_isOk_check (h : (outcome emission .check s).isOk = true) :
    (outcome .tokens .evaluate s).isOk = true := by
  simp only [outcome, postfixTokens] at h ⊢
  rcases hts : scan s with f | ts
  · rw [hts] at h
    cases h
  · rfl

/-- A list of one fault, which was found at the stage. -/
def FoundAt (stage : String) (value : Json) : Prop :=
  ∃ rest, value = .array [.object (("stage", .text stage) :: rest)]

/-- What a check and a run report on a line: the same fault, or none in the check if the run comes
to the evaluation. -/
def Agree (n : Nat) (check run : String) : Prop :=
  ∃ errors key value, Json.Reads check (.object [("line", .count n), ("errors", .array errors)]) ∧
    Json.Reads run (.object [("line", .count n), (key, value)]) ∧
    (errors ≠ [] ↔ key = "errors" ∧ (FoundAt "lex" value ∨ FoundAt "syntax" value)) ∧
    (errors ≠ [] → check = run) ∧
    (errors = [] ↔ key = "value" ∨ key = "errors" ∧ FoundAt "eval" value)

theorem foundAt_ofFault_iff {stage : String} {f : Fault} :
    FoundAt stage (.array [Report.ofFault f]) ↔ f.stage.name = stage := by
  simp [FoundAt, Report.ofFault]

theorem Stage.name_ne_eval {stage : Stage} (h : stage ≠ .evaluation) :
    (stage.name = "lex" ∨ stage.name = "syntax") ∧ stage.name ≠ "eval" := by
  cases stage with
  | scanning => decide
  | ordering => decide
  | evaluation => exact absurd rfl h

theorem agree_reports (n : Nat) (emission : Emission) (s : String) :
    Agree n (Report.json (some n) (outcome emission .check s)).write
      (Report.json (some n) (outcome .value .evaluate s)).write := by
  have hcheck := (Report.written_json (some n) (outcome emission .check s)).reads
  have hrun := (Report.written_json (some n) (outcome .value .evaluate s)).reads
  simp only [outcome] at hcheck hrun ⊢
  rcases hts : postfixTokens s with f | ts
  · -- both stop at the fault
    obtain ⟨hf, hstage⟩ := postfixTokens_eq_error_iff.1 hts
    obtain ⟨hname, hne⟩ := Stage.name_ne_eval hstage
    rw [hts, map_error] at hcheck
    rw [hf, map_error] at hrun
    rw [hf, map_error, map_error]
    refine ⟨_, _, _, hcheck, hrun, ?_, fun _ => rfl, ?_⟩
    · simp [foundAt_ofFault_iff, hname]
    · simp [foundAt_ofFault_iff, hne]
  · rw [hts, map_ok] at hcheck
    rw [map_ok]
    refine ⟨[], _, _, hcheck, hrun, ?_⟩
    rcases hv : calculate s with f | x
    · simp [foundAt_ofFault_iff, stage_of_postfixTokens hts hv, Stage.name]
    · simp

namespace Script

variable {mode : Mode}

theorem succeeded_run_of_imp {q : Presentation} {mode' : Mode} (text : String)
    (h : ∀ s, (outcome p.emission mode s).isOk = true → (outcome q.emission mode' s).isOk = true)
    (hp : (run p mode text).succeeded = true) : (run q mode' text).succeeded = true := by
  rw [succeeded_run] at hp ⊢
  exact fun e he => h e.2 (hp e he)

theorem status_ofAnswer_eq_success_iff {a : Answer} :
    (Ending.ofAnswer a).status = .success ↔ a.succeeded = true := by
  rcases a with ⟨_ | _, output⟩
  · simp [Ending.ofAnswer]
  · simp [Ending.ofAnswer]

/-- The rows of a check and of a run that emits values, next to the number of their line. -/
def rowPair (p : Presentation) (e : Nat × String) : Nat × String × String :=
  (e.1, (row p .check e).2, (row { p with emission := .value } .evaluate e).2)

/-- A script passes its check exactly if it runs through in postfix order, which it does if it runs
through to its values, and only if its tokens can be listed. In reports a check tells of the same
lines as a run to the values, those that are not blank, with the faults of the run that come before
its evaluation. -/
theorem check_agrees_with_run (s : Surroundings) (p : Presentation) {path text : String}
    (h : s.file path = some text.toUTF8) :
    let check := Program.perform s p (.script .check path)
    let run := fun emission =>
      Program.perform s { p with emission := emission } (.script .evaluate path)
    (check.status = .success ↔ (run .postfixOrder).status = .success) ∧
      ((run .value).status = .success → check.status = .success) ∧
      (check.status = .success → (run .tokens).status = .success) ∧
      (p.format = .json → ∃ ls, (∀ ls', LinesOf text.toList ls' ↔ ls' = ls) ∧
        ∃ rows : List (Nat × String × String),
          check.output = String.join (rows.map fun r => r.2.1 ++ "\n") ∧
            (run .value).output = String.join (rows.map fun r => r.2.2 ++ "\n") ∧
            rows.map (·.1) = (filled ls).map (·.1) ∧ (rows.map (·.1)).Pairwise (· < ·) ∧
            ∀ r ∈ rows, Agree r.1 r.2.1 r.2.2) := by
  intro check run
  have hcheck : check = .ofAnswer (Script.run p .check text) := perform_script h
  have hrun (emission : Emission) :
      run emission = .ofAnswer (Script.run { p with emission := emission } .evaluate text) :=
    perform_script h
  simp only [hcheck, hrun, status_ofAnswer_eq_success_iff]
  refine ⟨⟨?_, ?_⟩, ?_, ?_, fun hp => ⟨lines text.toList, fun _ => linesOf_iff,
    (filled (lines text.toList)).map (rowPair p), ?_⟩⟩
  · exact succeeded_run_of_imp text fun _ => isOk_outcome_check.symm.trans
  · exact succeeded_run_of_imp text fun _ => isOk_outcome_check.trans
  · exact succeeded_run_of_imp text fun _ => isOk_check_of_isOk_value
  · exact succeeded_run_of_imp text fun _ => isOk_tokens_of_isOk_check
  · have hp' : { p with emission := Emission.value }.format = .json := hp
    refine ⟨?_, ?_, ?_, ?_, ?_⟩
    · simp only [Ending.ofAnswer, output_run, output_give_of_json hp, List.map_map,
        Function.comp_def, rowPair]
    · simp only [Ending.ofAnswer, output_run, output_give_of_json hp', List.map_map,
        Function.comp_def, rowPair]
    · rw [List.map_map]
      rfl
    · rw [List.map_map]
      exact filled_increasing _
    · rw [List.forall_mem_map]
      exact fun e _ => agree_reports e.1 p.emission e.2

/-- A division by zero is found by the run only, a parenthesis by both. -/
theorem check_agrees_with_run_division :
    let s : Surroundings := ⟨fun path => some (if path = "zero" then "1/0" else "1/0\n\n(").toUTF8,
      .empty, none, false⟩
    let p : Presentation := ⟨.json, .value, false, none⟩
    s.file "zero" = some "1/0".toUTF8 ∧ s.file "both" = some "1/0\n\n(".toUTF8 ∧ p.format = .json ∧
      (Program.perform s p (.script .check "zero")).status = .success ∧
      (Program.perform s p (.script .evaluate "zero")).status = .failure ∧
      Program.perform s p (.script .check "both")
        = ⟨.failure, "\x7b\"line\":1,\"errors\":[]\x7d\n" ++
          "\x7b\"line\":3,\"errors\":[\x7b\"stage\":\"syntax\",\"spans\":" ++
          "[\x7b\"start\":0,\"end\":1\x7d],\"desc\":\"Parentheses do not match\"\x7d]\x7d\n",
          none⟩ ∧
      Program.perform s p (.script .evaluate "both")
        = ⟨.failure, "\x7b\"line\":1,\"errors\":[\x7b\"stage\":\"eval\",\"spans\":" ++
          "[\x7b\"start\":1,\"end\":2\x7d,\x7b\"start\":2,\"end\":3\x7d]," ++
          "\"desc\":\"Attempted to divide by 0\"\x7d]\x7d\n" ++
          "\x7b\"line\":3,\"errors\":[\x7b\"stage\":\"syntax\",\"spans\":" ++
          "[\x7b\"start\":0,\"end\":1\x7d],\"desc\":\"Parentheses do not match\"\x7d]\x7d\n",
          none⟩ ∧
      ∃ rows : List (Nat × String × String),
        (Program.perform s p (.script .check "both")).output
            = String.join (rows.map fun r => r.2.1 ++ "\n") ∧
          (Program.perform s p (.script .evaluate "both")).output
            = String.join (rows.map fun r => r.2.2 ++ "\n") ∧
          rows.map (·.1) = [1, 3] ∧ ∀ r ∈ rows, Agree r.1 r.2.1 r.2.2 := by
  intro s p
  have hzero : s.file "zero" = some "1/0".toUTF8 := rfl
  have hboth : s.file "both" = some "1/0\n\n(".toUTF8 := rfl
  obtain ⟨hordered, -, -, -⟩ := check_agrees_with_run s p hzero
  obtain ⟨-, -, -, hjson⟩ := check_agrees_with_run s p hboth
  obtain ⟨ls, hls, rows, hcheck, hrun, hnumbers, -, hagree⟩ := hjson rfl
  obtain rfl := (hls _).1 (linesOf_lines _)
  have hfilled : (filled (lines "1/0\n\n(".toList)).map (·.1) = [1, 3] := by decide
  refine ⟨hzero, hboth, rfl, hordered.2 (by decide +kernel), by decide +kernel, ?_, ?_,
    rows, hcheck, hrun, hnumbers.trans hfilled, hagree⟩
  · simp only [Program.perform, Script.run, answers, Answer.give, Answer.text, Report.write_json]
    decide +kernel
  · simp only [Program.perform, Script.run, answers, Answer.give, Answer.text, Report.write_json]
    decide +kernel

end Script

end Calculator

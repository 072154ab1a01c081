import Calculator.Program
import Calculator.Proofs.Bytes
import Calculator.Proofs.JsonReading
import Calculator.Proofs.Reports
import Mathlib.Data.List.Forall2

/-!
# What a session writes

A session hears its lines one by one until the input ends, a line says `exit`, or a line is no text
(`Session.Hears`). What it writes is a prompt and a reply for each line heard, each by itself, and
one more prompt (`Session.perform_session`). A session of reports writes nothing but reports, one
for each expression, as long as it is not told to clear the screen (`Session.reports_session`).
-/

namespace Calculator

namespace Session

/-- A line without the blanks at its ends. -/
def word (line : String) : String :=
  String.ofList (trimBlanks line.toList)

/-- What is written for a line that does not end the session. -/
def replyTo (p : Presentation) (word : String) : String :=
  if word = "" then ""
  else if word = "clear" then clearScreen
  else (Answer.give p .evaluate none word).output

variable {p : Presentation}

theorem reply?_eq (p : Presentation) (line : String) :
    reply? p line = if word line = "exit" then none else some (replyTo p (word line)) := by
  unfold reply?
  split
  · rename_i hw
    rw [word, hw, if_pos rfl]
  · rename_i hw
    rw [word, hw]
    rfl
  · rename_i hw
    rw [word, hw]
    rfl
  · rename_i hexit hclear hempty
    rw [word, if_neg hexit, replyTo, if_neg hempty, if_neg hclear]

/-- What ends a session: the end of its input, an `exit`, or bytes that are no text. -/
inductive Ends : List ByteArray → (broken : Bool) → Prop
  | input : Ends [] false
  | exit {line : String} {rest : List ByteArray} (h : word line = "exit") :
    Ends (line.toUTF8 :: rest) false
  | noText {bytes : ByteArray} {rest : List ByteArray} (h : String.fromUTF8? bytes = none) :
    Ends (bytes :: rest) true

/-- The lines that are heard before the session ends. -/
def Hears (ls : List ByteArray) (heard : List String) (broken : Bool) : Prop :=
  (∀ line ∈ heard, word line ≠ "exit") ∧
    ∃ rest, ls = heard.map String.toUTF8 ++ rest ∧ Ends rest broken

theorem exists_hears : ∀ ls : List ByteArray, ∃ heard broken, Hears ls heard broken
  | [] => ⟨[], false, by simp, [], rfl, .input⟩
  | bytes :: rest => by
    rcases hline : String.fromUTF8? bytes with _ | line
    · exact ⟨[], true, by simp, bytes :: rest, rfl, .noText hline⟩
    · obtain rfl := toUTF8_of_fromUTF8? hline
      by_cases hexit : word line = "exit"
      · exact ⟨[], false, by simp, _, rfl, .exit hexit⟩
      · obtain ⟨heard, broken, hheard, rest, rfl, hends⟩ := exists_hears rest
        exact ⟨line :: heard, broken, by simpa using ⟨hexit, hheard⟩, rest, rfl, hends⟩

/-- What is written once the lines have been heard. -/
def saidFor (p : Presentation) (heard : List String) : String :=
  String.join (heard.map fun line => prompt p ++ replyTo p (word line))

theorem continueWith_heard : ∀ {heard : List String}, (∀ line ∈ heard, word line ≠ "exit") →
    ∀ rest output, continueWith p (heard.map String.toUTF8 ++ rest) output
      = continueWith p rest (output ++ saidFor p heard)
  | [], _, rest, output => by simp [saidFor]
  | line :: heard, h, rest, output => by
    obtain ⟨hexit, hheard⟩ := List.forall_mem_cons.1 h
    rw [List.map_cons, List.cons_append, continueWith, fromUTF8?_toUTF8]
    simp only [reply?_eq, if_neg hexit]
    rw [continueWith_heard hheard]
    simp [saidFor, String.append_assoc]

theorem continueWith_of_ends {rest : List ByteArray} {broken : Bool} (h : Ends rest broken)
    (output : String) : continueWith p rest output = ⟨output ++ prompt p, broken⟩ := by
  cases h with
  | input => rfl
  | exit h =>
    rw [continueWith, fromUTF8?_toUTF8]
    simp only [reply?_eq, if_pos h]
  | noText h =>
    rw [continueWith, h]

theorem transcript_of_hears {input : ByteArray} {heard : List String} {broken : Bool}
    (h : Hears (inputLines input) heard broken) :
    transcript p input = ⟨greeting p ++ saidFor p heard ++ prompt p, broken⟩ := by
  obtain ⟨hheard, rest, hls, hends⟩ := h
  rw [transcript, hls, continueWith_heard hheard, continueWith_of_ends hends]

theorem piecesOf_inputLines_iff {input : ByteArray} {ls : List ByteArray} :
    PiecesOf 10 input.toList (ls.map (·.toList)) ↔ ls = inputLines input := by
  rw [piecesOf_iff, inputLines_eq_pieces]
  constructor
  · intro h
    rw [← h, List.map_map]
    simp [Function.comp_def]
  · rintro rfl
    rw [List.map_map]
    simp [Function.comp_def]

/-- A session greets, writes a prompt and a reply for each line that it hears, which depends on no
other line, and prompts once more before it ends. A blank line has no reply, `clear` clears the
screen, and any other line is answered as an expression. The session ends well at the end of its
input and at an `exit`, whatever stands behind it, and fails at a line that is no text. -/
theorem perform_session (s : Surroundings) (p : Presentation) :
    ∃ ls : List ByteArray,
      (∀ ls' : List ByteArray, PiecesOf 10 s.input.toList (ls'.map (·.toList)) ↔ ls' = ls) ∧
      (∃ heard broken, Hears ls heard broken) ∧
      (∀ heard broken, Hears ls heard broken →
        Program.perform s p .session
          = ⟨if broken then .failure else .success,
              greeting p ++ String.join (heard.map fun line => prompt p ++ replyTo p (word line))
                ++ prompt p,
              if broken then some .unreadableLine else none⟩) ∧
      Failure.unreadableLine.message = "Error reading line" ∧
      (∀ w, replyTo p w = if w = "" then "" else if w = "clear" then clearScreen
        else (Answer.give p .evaluate none w).output) ∧
      clearScreen = "\x1b[1;1H\x1b[2J" ∧
      (p.format = .pretty →
        greeting p = paint p.coloured .blue "Started interactive repl" ++ "\n" ∧
          prompt p = paint p.coloured .blue " >> ") := by
  refine ⟨inputLines s.input, fun _ => piecesOf_inputLines_iff, exists_hears _, ?_, rfl,
    fun _ => rfl, rfl, ?_⟩
  · intro heard broken h
    simp only [Program.perform, transcript_of_hears h]
    rcases broken with _ | _
    · rfl
    · rfl
  · intro hp
    simp [greeting, prompt, hp]

/-- The byte behind the `exit` is no text, and is not heard. -/
theorem perform_session_exit :
    let s : Surroundings := ⟨fun _ => none, ⟨#[32, 40, 10, 10, 99, 108, 101, 97, 114, 10, 49, 47,
      50, 10, 32, 101, 120, 105, 116, 10, 255]⟩, none, false⟩
    let p : Presentation := ⟨.pretty, .value, false, none⟩
    Hears (inputLines s.input) [" (\n", "\n", "clear\n", "1/2\n"] false ∧ p.format = .pretty ∧
      Program.perform s p .session
        = ⟨.success, "Started interactive repl\n >> 1 │ (\n  │ ^\n" ++
            "  │ Parentheses do not match\n\n >>  >> \x1b[1;1H\x1b[2J >> 0.5\n >> ", none⟩ := by
  intro s p
  obtain ⟨ls, hls, -, hsaid, -, hreply, hclear, hpretty⟩ := perform_session s p
  obtain rfl : inputLines s.input = ls := (hls _).1 (piecesOf_inputLines_iff.2 rfl)
  obtain ⟨hgreeting, hprompt⟩ := hpretty rfl
  have hears : Hears (inputLines s.input) [" (\n", "\n", "clear\n", "1/2\n"] false :=
    ⟨by decide +kernel, [" exit\n".toUTF8, ⟨#[255]⟩], by decide +kernel, .exit (by decide)⟩
  refine ⟨hears, rfl, ?_⟩
  simp only [hsaid _ _ hears, hgreeting, hprompt, hreply, hclear]
  decide +kernel

theorem hears_takeWhile : ∀ lines : List String,
    Hears (lines.map String.toUTF8) (lines.takeWhile fun line => word line ≠ "exit") false
  | [] => ⟨by simp, [], rfl, .input⟩
  | line :: lines => by
    by_cases hexit : word line = "exit"
    · exact ⟨by simp [hexit], (line :: lines).map String.toUTF8, by simp [hexit], .exit hexit⟩
    · obtain ⟨hheard, rest, hls, hends⟩ := hears_takeWhile lines
      refine ⟨by simpa [hexit] using hheard, rest, ?_, hends⟩
      rw [List.map_cons, hls]
      simp [hexit]

/-- The words of the lines that are heard in a text. -/
def words (ls : List (List Char)) : List String :=
  (ls.map fun l => word (String.ofList l)).takeWhile (· ≠ "exit")

theorem perform_session_of_json {s : Surroundings} {text : String} (hp : p.format = .json)
    (hs : s.input = text.toUTF8) :
    Program.perform s p .session
      = ⟨.success, String.join ((words (pieces '\n' text.toList)).map (replyTo p)), none⟩ := by
  have hears := hears_takeWhile ((pieces '\n' text.toList).map String.ofList)
  rw [← inputLines_toUTF8, ← hs] at hears
  simp only [Program.perform, transcript_of_hears hears, saidFor, greeting, prompt, hp]
  simp [words, List.takeWhile_map, Function.comp_def]

/-- The report on an expression of a session. -/
def row (p : Presentation) (word : String) : String :=
  (Report.json none (outcome p.emission .evaluate word)).write

theorem replyTo_of_json (hp : p.format = .json) {w : String} (hw : w ≠ "clear") :
    replyTo p w = if w = "" then "" else row p w ++ "\n" := by
  simp only [replyTo, if_neg hw, Answer.give, Answer.text, hp]
  rfl

theorem join_replyTo (hp : p.format = .json) : ∀ {ws : List String}, "clear" ∉ ws →
    String.join (ws.map (replyTo p))
      = String.join (((ws.filter fun w => w ≠ "" ∧ w ≠ "clear").map (row p)).map (· ++ "\n"))
  | [], _ => rfl
  | w :: ws, h => by
    rw [List.mem_cons, not_or] at h
    have ih := join_replyTo hp h.2
    rw [List.map_cons, String.join_cons, ih, replyTo_of_json hp (Ne.symm h.1)]
    by_cases hw : w = ""
    · simp [hw]
    · simp [hw, Ne.symm h.1]

/-- Rows of objects hold no control character but the line feeds between them. -/
theorem printable_of_rows {rows : List String}
    (h : ∀ row ∈ rows, ∃ fields, Json.TextOf (.object fields) row.toList) {c : Char}
    (hc : c ∈ (String.join (rows.map (· ++ "\n"))).toList) : c = '\n' ∨ 0x20 ≤ c.toNat := by
  simp only [String.toList_join, List.flatMap_map, List.mem_flatMap, String.toList_append,
    List.mem_append] at hc
  obtain ⟨row, hrow, hc | hc⟩ := hc
  · obtain ⟨fields, htext⟩ := h row hrow
    exact .inr (htext.printable c hc)
  · exact .inl (by simpa using hc)

/-- A session of reports ends well if its input is a text, and replies to each expression with a row
that is read as the report on it. What it writes consists of such rows exactly if no line says
`clear` before an `exit`, and then there is one for each expression, in order. -/
theorem reports_session (s : Surroundings) {text : String} (hp : p.format = .json)
    (hs : s.input = text.toUTF8) :
    ∃ ls : List (List Char), (∀ ls', PiecesOf '\n' text.toList ls' ↔ ls' = ls) ∧
      Program.perform s p .session
        = ⟨.success, String.join ((words ls).map (replyTo p)), none⟩ ∧
      (∀ w, w ≠ "" → w ≠ "clear" → ∃ row, replyTo p w = row ++ "\n" ∧
        Json.Reads row (.object [Report.body (outcome p.emission .evaluate w)])) ∧
      ((∃ rows : List String,
          (Program.perform s p .session).output = String.join (rows.map (· ++ "\n")) ∧
          ∀ row ∈ rows, ∃ fields, Json.TextOf (.object fields) row.toList) ↔
        "clear" ∉ words ls) ∧
      ("clear" ∉ words ls → ∃ rows : List String,
        (Program.perform s p .session).output = String.join (rows.map (· ++ "\n")) ∧
        List.Forall₂ (fun w row =>
            Json.Reads row (.object [Report.body (outcome p.emission .evaluate w)]))
          ((words ls).filter fun w => w ≠ "" ∧ w ≠ "clear") rows) := by
  have hsession := perform_session_of_json hp hs
  refine ⟨pieces '\n' text.toList, fun _ => piecesOf_iff, hsession, fun w hw hclear => ?_,
    ⟨?_, fun hclear => ?_⟩, fun hclear => ?_⟩
  · have hreply : replyTo p w = row p w ++ "\n" := by rw [replyTo_of_json hp hclear, if_neg hw]
    exact ⟨row p w, hreply, (Report.written_json none _).reads⟩
  · rintro ⟨rows, hrows, htext⟩ hclear
    have hescape : '\x1b' ∈ (Program.perform s p .session).output.toList := by
      rw [hsession, String.toList_join, List.mem_flatMap]
      exact ⟨clearScreen, List.mem_map.2 ⟨_, hclear, rfl⟩, by decide⟩
    rw [hrows] at hescape
    exact absurd (printable_of_rows htext hescape) (by decide)
  · refine ⟨_, by rw [hsession, join_replyTo hp hclear], ?_⟩
    rw [List.forall_mem_map]
    exact fun w _ => ⟨_, Report.written_json none _⟩
  · refine ⟨_, by rw [hsession, join_replyTo hp hclear], ?_⟩
    rw [List.forall₂_map_right_iff, List.forall₂_same]
    exact fun w _ => (Report.written_json none _).reads

theorem reports_session_reset :
    let p : Presentation := ⟨.json, .value, false, none⟩
    let s : Surroundings := ⟨fun _ => none, "1\n\nreset\nexit\nclear".toUTF8, none, false⟩
    p.format = .json ∧ s.input = "1\n\nreset\nexit\nclear".toUTF8 ∧
      (Program.perform s p .session).status = .success ∧
      ∃ rows : List String,
        (Program.perform s p .session).output = String.join (rows.map (· ++ "\n")) ∧
        List.Forall₂ (fun w row =>
            Json.Reads row (.object [Report.body (outcome p.emission .evaluate w)]))
          ["1", "reset"] rows := by
  intro p s
  have hp : p.format = .json := rfl
  have hinput : s.input = "1\n\nreset\nexit\nclear".toUTF8 := rfl
  obtain ⟨ls, hls, hsession, -, -, hrows⟩ := reports_session s hp hinput
  obtain rfl := (hls _).1 (piecesOf_pieces _ _)
  exact ⟨hp, hinput, by rw [hsession], hrows (by decide)⟩

/-- The screen is cleared among the reports. -/
theorem reports_session_clear :
    let p : Presentation := ⟨.json, .value, false, none⟩
    let s : Surroundings := ⟨fun _ => none, "clear\n1\n".toUTF8, none, false⟩
    p.format = .json ∧ s.input = "clear\n1\n".toUTF8 ∧
      Program.perform s p .session = ⟨.success, clearScreen ++ (row p "1" ++ "\n"), none⟩ ∧
      ¬ ∃ rows : List String,
        (Program.perform s p .session).output = String.join (rows.map (· ++ "\n")) ∧
        ∀ row ∈ rows, ∃ fields, Json.TextOf (.object fields) row.toList := by
  intro p s
  have hp : p.format = .json := rfl
  have hinput : s.input = "clear\n1\n".toUTF8 := rfl
  have hwords : words (pieces '\n' "clear\n1\n".toList) = ["clear", "1"] := by decide +kernel
  have hclear : replyTo p "clear" = clearScreen := by decide
  have hone : replyTo p "1" = row p "1" ++ "\n" := replyTo_of_json hp (by decide)
  have hsession : Program.perform s p .session
      = ⟨.success, clearScreen ++ (row p "1" ++ "\n"), none⟩ := by
    rw [perform_session_of_json hp hinput, hwords, List.map_cons, List.map_singleton, hclear, hone,
      String.join_cons, String.join_cons, String.join_nil, String.append_empty]
  refine ⟨hp, hinput, hsession, ?_⟩
  rintro ⟨rows, hrows, htext⟩
  have hescape : '\x1b' ∈ (String.join (rows.map (· ++ "\n"))).toList := by
    rw [← hrows, hsession, String.toList_append]
    exact List.mem_append_left _ (by decide)
  exact absurd (printable_of_rows htext hescape) (by decide)

end Session

end Calculator

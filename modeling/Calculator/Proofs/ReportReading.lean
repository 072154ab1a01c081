import Calculator.Proofs.NumberTexts
import Calculator.Proofs.Overflow

/-!
# Reports are read back

What a report tells is its line and its content (`Report.Content`), which is read from the parts of
the JSON object by their keys (`Report.read?`). Reading gives back what was reported
(`read?_json`), and the text of a report determines the object, so two reports with the same text
tell the same (`report_read_back`).
-/

namespace Calculator

namespace Json

def field? (key : String) : Json → Option Json
  | .object fields => fields.lookup key
  | _ => none

def readCount? : Json → Option Nat
  | .number literal =>
    if literal.toList.all Char.isDigit then some (Decimal.ofDigits literal.toList) else none
  | _ => none

def readText? : Json → Option String
  | .text s => some s
  | _ => none

def readList? {α : Type} (read : Json → Option α) : Json → Option (List α)
  | .array items => items.mapM read
  | _ => none

@[simp] theorem readCount?_count (n : ℕ) : readCount? (count n) = some n := by
  have hdigits : n.repr.toList = Decimal.digits n := by simp [Decimal.digits]
  have hall : (Decimal.digits n).all Char.isDigit = true :=
    List.all_eq_true.2 fun c => Decimal.isDigit_of_mem_digits
  rw [count, readCount?, hdigits, if_pos hall, Decimal.ofDigits_digits]

theorem readList?_map {α β : Type} {write : α → Json} {read : Json → Option β} {f : α → β}
    (h : ∀ a, read (write a) = some (f a)) (items : List α) :
    readList? read (.array (items.map write)) = some (items.map f) := by
  rw [readList?]
  induction items with
  | nil => rfl
  | cons a items ih => simp [List.mapM_cons, h, ih]

end Json

namespace Report

open Json

/-- One fault as a report tells it. -/
structure Finding where
  stage : String
  spans : List Span
  description : String
deriving DecidableEq, Repr

/-- Which result it was, and what is told of it. A value that is not finite is not told. -/
inductive Content where
  | value (x : Option Float)
  | tokens (literals : List String)
  | postfixOrder (literals : List String)
  | errors (found : List Finding)

def finding (f : Fault) : Finding :=
  ⟨f.stage.name, f.spans, f.description⟩

def content : Except Fault Outcome → Content
  | .ok (.value x) => .value (if x.isFinite then some x else none)
  | .ok (.tokens tokens) => .tokens (tokens.map Token.text)
  | .ok (.postfixOrder tokens) => .postfixOrder (tokens.map Token.text)
  | .ok .checked => .errors []
  | .error f => .errors [finding f]

def readSpan? (v : Json) : Option Span := do
  let start ← v.field? "start" >>= readCount?
  let stop ← v.field? "end" >>= readCount?
  return ⟨start, stop⟩

def readFinding? (v : Json) : Option Finding := do
  let stage ← v.field? "stage" >>= readText?
  let spans ← v.field? "spans" >>= readList? readSpan?
  let description ← v.field? "desc" >>= readText?
  return ⟨stage, spans, description⟩

/-- A number is the float that its literal denotes, and null is a value that is not told. -/
def readValue? : Json → Option (Option Float)
  | .null => some none
  | .number literal => (literalValue? literal).map some
  | _ => none

def readContent? (v : Json) : Option Content :=
  (v.field? "value" >>= fun w => (readValue? w).map .value) <|>
    (v.field? "tokens" >>= fun w => (readList? readText? w).map .tokens) <|>
    (v.field? "postfix" >>= fun w => (readList? readText? w).map .postfixOrder) <|>
    (v.field? "errors" >>= fun w => (readList? readFinding? w).map .errors)

/-- The line is left out where there is none. -/
def readLine? (v : Json) : Option (Option Nat) :=
  match v.field? "line" with
  | none => some none
  | some n => (readCount? n).map some

def read? (v : Json) : Option (Option Nat × Content) := do
  let line ← readLine? v
  let content ← readContent? v
  return (line, content)

theorem readSpan?_ofSpan (s : Span) : readSpan? (ofSpan s) = some s := by
  simp [readSpan?, ofSpan, field?, List.lookup]

theorem readFinding?_ofFault (f : Fault) : readFinding? (ofFault f) = some (finding f) := by
  have hspans := readList?_map readSpan?_ofSpan f.spans
  simp [readFinding?, ofFault, field?, List.lookup, readText?, finding, hspans]

theorem readTexts?_ofTokens (tokens : List Token) :
    readList? readText? (ofTokens tokens) = some (tokens.map Token.text) := by
  have h (t : Token) : readText? (.text t.text) = some t.text := rfl
  exact readList?_map h tokens

theorem readValue?_ofValue (x : Float) :
    readValue? (ofValue x) = some (if x.isFinite then some x else none) := by
  have hfinite := isSome_jsonNumber?_iff (x := x)
  rw [ofValue]
  rcases h : jsonNumber? x with _ | literal
  · simp_all [readValue?]
  · simp_all [readValue?, literalValue?_of_jsonNumber? h]

theorem field?_json_line (line : Option ℕ) (result : Except Fault Outcome) :
    (json line result).field? "line" = line.map count := by
  rcases line with _ | n
  · rcases result with f | (x | tokens | tokens | _) <;> rfl
  · rfl

theorem field?_json (line : Option ℕ) (result : Except Fault Outcome) {key : String}
    (h : key ≠ "line") : (json line result).field? key = [body result].lookup key := by
  rcases line with _ | n
  · rfl
  · have hkey : (key == "line") = false := beq_false_of_ne h
    simp [json, field?, List.lookup_cons, hkey]

theorem readLine?_json (line : Option ℕ) (result : Except Fault Outcome) :
    readLine? (json line result) = some line := by
  rw [readLine?, field?_json_line]
  rcases line with _ | n
  · rfl
  · simp

theorem readContent?_json (line : Option ℕ) (result : Except Fault Outcome) :
    readContent? (json line result) = some (content result) := by
  rw [readContent?, field?_json line result (by decide), field?_json line result (by decide),
    field?_json line result (by decide), field?_json line result (by decide)]
  rcases result with f | (x | tokens | tokens | _)
  · have hfound := readList?_map readFinding?_ofFault [f]
    simpa [body, List.lookup_cons, content] using hfound
  · simp [body, List.lookup_cons, content, readValue?_ofValue]
  · simp [body, List.lookup_cons, content, readTexts?_ofTokens]
  · simp [body, List.lookup_cons, content, readTexts?_ofTokens]
  · simp [body, List.lookup_cons, content, readList?]

theorem read?_json (line : Option ℕ) (result : Except Fault Outcome) :
    read? (json line result) = some (line, content result) := by
  simp [read?, readLine?_json, readContent?_json]

/-- The field of a report with this content. -/
def field : Content → String × Json
  | .value none => ("value", .null)
  | .value (some x) => ("value", ofValue x)
  | .tokens literals => ("tokens", .array (literals.map .text))
  | .postfixOrder literals => ("postfix", .array (literals.map .text))
  | .errors found => ("errors", .array (found.map fun f => .object [("stage", .text f.stage),
      ("spans", .array (f.spans.map ofSpan)), ("desc", .text f.description)]))

theorem body_eq_field (result : Except Fault Outcome) : body result = field (content result) := by
  rcases result with f | (x | tokens | tokens | _)
  · rfl
  · rcases hx : x.isFinite with _ | _
    · simp [body, content, field, hx, ofValue_eq_null_iff.2 hx]
    · simp [body, content, field, hx]
  · simp [body, content, field, ofTokens]
  · simp [body, content, field, ofTokens]
  · rfl

/-- A report is one JSON object on one line, which is read back to the line and the content that
were reported. Two reports have the same text exactly if they tell the same. -/
theorem report_read_back (line : Option ℕ) (result : Except Fault Outcome) :
    Printable (json line result).write.toList ∧
      (∃ fields, Reads (json line result).write (.object fields) ∧
        read? (.object fields) = some (line, content result)) ∧
      ∀ line' result', (json line' result').write = (json line result).write ↔
        line' = line ∧ content result' = content result := by
  have hreads (line : Option ℕ) (result : Except Fault Outcome) :
      Reads (json line result).write (json line result) := (written_json line result).reads
  refine ⟨(written_json line result).printable, ⟨_, hreads line result, read?_json line result⟩,
    fun line' result' => ⟨fun htext => ?_, fun ⟨hline, hcontent⟩ => ?_⟩⟩
  · have hsame : json line' result' = json line result :=
      (hreads line result _).1 (htext ▸ (written_json line' result'))
    have hread := read?_json line' result'
    rw [hsame, read?_json, Option.some.injEq, Prod.mk.injEq] at hread
    exact ⟨hread.1.symm, hread.2.symm⟩
  · rw [json, json, body_eq_field, body_eq_field, hline, hcontent]

end Report

end Calculator

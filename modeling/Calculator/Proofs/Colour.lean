import Calculator.Proofs.Checks
import Calculator.Proofs.Flags
import Calculator.Proofs.Sessions

/-!
# Colour

Coloured output is the output without colour and escape sequences around some of its texts. Taking
the sequences out again leaves what is written without colour (`Program.run_unpainted`), as long as
the program is given no text with an escape character of its own. All that is written is put
together from texts without the character, painted or not, and from the sequence that clears the
screen, and the relation `Paints` is kept when such pieces are joined.
-/

namespace Calculator

/-- A text without the escape sequences of the two tints and of their end. -/
def unpainted : List Char → List Char
  | '\x1b' :: '[' :: '1' :: ';' :: '3' :: '4' :: 'm' :: rest => unpainted rest
  | '\x1b' :: '[' :: '1' :: ';' :: '3' :: '1' :: 'm' :: rest => unpainted rest
  | '\x1b' :: '[' :: '0' :: 'm' :: rest => unpainted rest
  | c :: rest => c :: unpainted rest
  | [] => []

/-- Without its paint, `painted` is `text`, whatever is written behind it. -/
def Paints (painted text : String) : Prop :=
  ∀ rest, unpainted (painted.toList ++ rest) = text.toList ++ unpainted rest

/-- A text without an escape character. -/
def Plain (text : String) : Prop :=
  '\x1b' ∉ text.toList
deriving Decidable

theorem unpainted_cons {c : Char} (hc : c ≠ '\x1b') (rest : List Char) :
    unpainted (c :: rest) = c :: unpainted rest := by
  rw [unpainted] <;> simp [hc]

theorem unpainted_opening (tint : Tint) (rest : List Char) :
    unpainted (tint.opening.toList ++ rest) = unpainted rest := by
  cases tint <;> rfl

theorem unpainted_closing (rest : List Char) :
    unpainted (Tint.closing.toList ++ rest) = unpainted rest :=
  rfl

theorem unpainted_append : ∀ {cs : List Char}, '\x1b' ∉ cs → ∀ rest,
    unpainted (cs ++ rest) = cs ++ unpainted rest
  | [], _, _ => rfl
  | c :: cs, h, rest => by
    rw [List.mem_cons, not_or] at h
    rw [List.cons_append, unpainted_cons (Ne.symm h.1), unpainted_append h.2, List.cons_append]

namespace Paints

variable {a b c d : String}

theorem eq (h : Paints a b) : unpainted a.toList = b.toList := by
  have hnil : unpainted [] = [] := rfl
  simpa [hnil] using h []

theorem of_plain (h : Plain a) : Paints a a :=
  unpainted_append h

theorem paint (h : Plain a) (tint : Tint) :
    Paints (Calculator.paint true tint a) (Calculator.paint false tint a) := by
  intro rest
  show unpainted ((tint.opening ++ a ++ Tint.closing).toList ++ rest) = a.toList ++ _
  rw [String.toList_append, String.toList_append, List.append_assoc, List.append_assoc,
    unpainted_opening, unpainted_append h, unpainted_closing]

theorem clearScreen : Paints Session.clearScreen Session.clearScreen :=
  fun _ => rfl

theorem append (h : Paints a b) (h' : Paints c d) : Paints (a ++ c) (b ++ d) := by
  intro rest
  rw [String.toList_append, String.toList_append, List.append_assoc, h, h', List.append_assoc]

theorem join {α : Type} {f g : α → String} {l : List α} (h : ∀ x ∈ l, Paints (f x) (g x)) :
    Paints (String.join (l.map f)) (String.join (l.map g)) := by
  induction l with
  | nil => exact of_plain (by simp [Plain])
  | cons x l ih =>
    obtain ⟨hx, hl⟩ := List.forall_mem_cons.1 h
    rw [List.map_cons, List.map_cons, String.join_cons, String.join_cons]
    exact hx.append (ih hl)

end Paints

@[simp] theorem plain_append {a b : String} : Plain (a ++ b) ↔ Plain a ∧ Plain b := by
  simp [Plain, not_or]

theorem plain_of_printable {text : String} (h : Json.Printable text.toList) : Plain text :=
  fun hmem => absurd (h _ hmem) (by decide)

theorem plain_intercalate {parts : List String} (h : ∀ part ∈ parts, Plain part) :
    Plain (" ".intercalate parts) := by
  unfold Plain
  rw [String.toList_intercalate]
  intro hmem
  rcases mem_of_mem_intercalate hmem with hspace | ⟨cs, hcs, hmem⟩
  · exact absurd hspace (by decide)
  · obtain ⟨part, hpart, rfl⟩ := List.mem_map.1 hcs
    exact h part hpart hmem

/-- No number is written with an escape character. -/
theorem Decimal.printable_positional (d : Decimal) : Json.Printable d.positional := by
  unfold Decimal.positional
  split_ifs with hexponent
  · exact (Decimal.magnitude_pointed _ (by omega)).numeric.printable
  · refine Json.Numeric.printable (Json.numeric_append.2 ⟨?_, ?_⟩)
    · exact List.all_eq_true.2 fun c hc => by simp [Json.isNumberChar, isDigit_of_mem_digits hc]
    · exact List.all_eq_true.2 fun c hc => by simp [Json.isNumberChar, isDigit_of_mem_zeros hc]

theorem plain_plainNumber (places : Option Nat) (x : Float) : Plain (plainNumber places x) := by
  have hsign (negative : Bool) : Json.Printable (Decimal.sign negative) := by
    cases negative <;> decide
  unfold plainNumber
  split
  · exact plain_of_printable (by decide)
  · refine plain_of_printable ?_
    rw [String.toList_ofList, Json.printable_append]
    exact ⟨hsign _, by decide⟩
  · refine plain_of_printable ?_
    rw [String.toList_ofList, Json.printable_append]
    exact ⟨hsign _, Decimal.printable_positional _⟩

/-- The tokens of an expression are written with its characters. -/
theorem plain_line {s : String} {ts : List Token} (h : Plain s)
    (hts : ∀ t ∈ ts, ∃ x : Span, t.text.toList = x.slice s.toList) : Plain (Token.line ts) := by
  refine plain_intercalate fun text htext => ?_
  obtain ⟨t, ht, rfl⟩ := List.mem_map.1 htext
  obtain ⟨x, hx⟩ := hts t ht
  unfold Plain
  rw [hx]
  exact fun hmem => h (List.mem_of_mem_take (List.mem_of_mem_drop hmem))

/-! ## What is written -/

/-- The lines of a text are written with its characters. -/
theorem SourceLine.not_mem_of_mem_listFrom {c : Char} : ∀ {rest : List Char}
    {start position : Nat} {text : List Char} {listed : Bool} {found : List SourceLine},
    c ∉ rest → c ∉ text → (∀ l ∈ found, c ∉ l.text) →
      ∀ l ∈ listFrom rest start position text listed found, c ∉ l.text
  | [], start, position, text, listed, found, _, htext, hfound => by
    have hending : ∀ l ∈ ending start position text :: found, c ∉ l.text := by
      simpa [ending] using ⟨htext, hfound⟩
    intro l hl
    rw [listFrom, List.mem_reverse] at hl
    split_ifs at hl
    · exact hfound l hl
    · exact hending l hl
  | d :: rest, start, position, text, listed, found, hrest, htext, hfound => by
    rw [List.mem_cons, not_or] at hrest
    have hmore : c ∉ d :: text := by simpa using ⟨hrest.1, htext⟩
    have hending : ∀ l ∈ ending start position text :: found, c ∉ l.text := by
      simpa [ending] using ⟨htext, hfound⟩
    unfold listFrom
    split_ifs
    · exact not_mem_of_mem_listFrom hrest.2 hmore hending
    · exact not_mem_of_mem_listFrom hrest.2 List.not_mem_nil hfound
    · exact not_mem_of_mem_listFrom hrest.2 List.not_mem_nil hending
    · exact not_mem_of_mem_listFrom hrest.2 hmore hfound

namespace Diagnostic

theorem plain_description {f : Fault} (h : ∀ c s, f = .invalidCharacter c s → c ≠ '\x1b') :
    Plain f.description := by
  cases f with
  | invalidCharacter c s =>
    have hc : Plain c.toString := by simpa [Plain] using Ne.symm (h c s rfl)
    exact plain_append.2 ⟨plain_append.2 ⟨by decide, hc⟩, by decide⟩
  | mismatchedParentheses => exact (by decide : Plain "Parentheses do not match")
  | invalidNumber => exact (by decide : Plain "Invalid number format")
  | insufficientOperands => exact (by decide : Plain "Missing an operand")
  | divisionByZero => exact (by decide : Plain "Attempted to divide by 0")
  | malformedExpression => exact (by decide : Plain "Malformed expression")

theorem plain_blanks (n : Nat) : Plain (blanks n) := by
  simp [Plain, blanks]

theorem plain_numberText (width n : Nat) : Plain (numberText width n) := by
  have hdigits : Plain n.repr := by
    unfold Plain
    rw [Nat.toList_repr]
    exact fun hmem => absurd (Nat.isDigit_of_mem_toDigits (by decide) (by decide) hmem) (by decide)
  exact plain_append.2 ⟨plain_blanks _, hdigits⟩

theorem paints_bar : Paints (bar true) (bar false) :=
  ((Paints.of_plain (by decide)).append (.paint (by decide) .blue)).append (.of_plain (by decide))

theorem paints_markText (m : Mark) : Paints (markText true m) (markText false m) :=
  (Paints.of_plain (plain_blanks _)).append (.paint (by simp [Plain]) .red)

theorem paints_gapText (previous : Option Nat) (number : Nat) :
    Paints (gapText true previous number) (gapText false previous number) := by
  unfold gapText
  split
  · split_ifs
    · exact (Paints.paint (by decide) .blue).append (.of_plain (by decide))
    · exact .of_plain (by decide)
  · exact .of_plain (by decide)

theorem paints_excerptText (width : Nat) {e : Excerpt} (h : '\x1b' ∉ e.text) :
    Paints (excerptText true width e) (excerptText false width e) := by
  have htext : Plain (String.ofList e.text) := by simpa [Plain] using h
  have hsource := (((Paints.paint (plain_numberText width e.number) .blue).append
    paints_bar).append (.of_plain htext)).append (.of_plain (by decide : Plain "\n"))
  have hmarks := Paints.join fun m (_ : m ∈ marks e.text e.spans) => paints_markText m
  exact hsource.append ((((Paints.of_plain (plain_blanks width)).append paints_bar).append
    hmarks).append (.of_plain (by decide)))

theorem paints_excerptsText (width : Nat) {shown : List Excerpt}
    (h : ∀ e ∈ shown, '\x1b' ∉ e.text) :
    Paints (excerptsText true width shown) (excerptsText false width shown) := by
  refine Paints.join fun pair hpair => ?_
  exact (paints_gapText _ _).append
    (paints_excerptText width (h pair.2 (List.of_mem_zip hpair).2))

/-- A coloured diagnostic without its paint is the one without colour. -/
theorem paints_render (firstLine : Nat) {text : String} {f : Fault} (h : Plain text)
    (hf : Plain f.description) :
    Paints (render true firstLine text f) (render false firstLine text f) := by
  have hshown : ∀ e ∈ excerpts firstLine text.toList f.spans, '\x1b' ∉ e.text := by
    intro e he
    obtain ⟨⟨l, i⟩, hl, he⟩ := List.mem_filterMap.1 he
    dsimp only at he
    split_ifs at he
    cases he
    exact SourceLine.not_mem_of_mem_listFrom h List.not_mem_nil (by simp) l
      (List.fst_mem_of_mem_zipIdx hl)
  exact (paints_excerptsText _ hshown).append
    (((Paints.of_plain (plain_blanks _)).append paints_bar).append (.paint hf .red))

end Diagnostic

theorem invalidCharacter_mem {s : String} {c : Char} {x : Span}
    (h : calculate s = .error (.invalidCharacter c x)) : c ∈ s.toList := by
  rcases scan_or_blames h with ⟨before, d, after, hs, -, hf⟩ | ⟨ts, -, hb⟩
  · cases hf
    simp [hs]
  · cases hb

/-- The tokens of an outcome are among those scanned. -/
theorem subset_of_outcome {emission : Emission} {mode : Mode} {s : String} {ts : List Token}
    (h : outcome emission mode s = .ok (.tokens ts) ∨
      outcome emission mode s = .ok (.postfixOrder ts)) :
    ∃ scanned, Token.scan s = .ok scanned ∧ ts ⊆ scanned := by
  unfold outcome at h
  split at h
  · rcases hout : postfixTokens s with f | out <;> simp [hout] at h
  · rcases hx : calculate s with f | x <;> simp [hx] at h
  · rcases hscan : Token.scan s with f | scanned
    · simp [hscan] at h
    · simp only [hscan, map_ok, Except.ok.injEq, Outcome.tokens.injEq, reduceCtorEq, or_false] at h
      exact ⟨scanned, rfl, h ▸ List.Subset.refl _⟩
  · rcases hout : postfixTokens s with f | out
    · simp [hout] at h
    · simp only [hout, map_ok, Except.ok.injEq, Outcome.postfixOrder.injEq, reduceCtorEq,
        false_or] at h
      obtain ⟨scanned, hscan, horder⟩ := bind_eq_ok.1 hout
      exact ⟨scanned, hscan, h ▸ fun t ht => mem_of_postfixOrder horder ht⟩

theorem plain_line_of_outcome {emission : Emission} {mode : Mode} {s : String} {ts : List Token}
    (hs : Plain s) (h : outcome emission mode s = .ok (.tokens ts) ∨
      outcome emission mode s = .ok (.postfixOrder ts)) : Plain (Token.line ts) := by
  obtain ⟨scanned, hscan, hsubset⟩ := subset_of_outcome h
  exact plain_line hs fun t ht => ⟨_, (Token.cuts_of_scan hscan).text t (hsubset ht)⟩

namespace Answer

variable (p : Presentation) (mode : Mode) (line : Option Nat) {s : String}

theorem paints_pretty (hs : Plain s) : Paints
    (pretty { p with coloured := true } line s (outcome p.emission mode s))
    (pretty { p with coloured := false } line s (outcome p.emission mode s)) := by
  rcases hresult : outcome p.emission mode s with f | result
  · have hf : Plain f.description := Diagnostic.plain_description fun c x hf hc => by
      subst hf hc
      exact hs (invalidCharacter_mem (calculate_of_outcome hresult))
    exact (Diagnostic.paints_render _ hs hf).append (.of_plain (by decide))
  · rcases result with x | ts | ts | _
    · exact .of_plain (plain_append.2 ⟨plain_plainNumber _ _, by decide⟩)
    · exact .of_plain (plain_append.2 ⟨plain_line_of_outcome hs (.inl hresult), by decide⟩)
    · exact .of_plain (plain_append.2 ⟨plain_line_of_outcome hs (.inr hresult), by decide⟩)
    · exact .of_plain (by decide : Plain "")

/-- Colour has no part in what succeeds. -/
theorem succeeded_give_coloured (s : String) :
    (give { p with coloured := true } mode line s).succeeded
      = (give { p with coloured := false } mode line s).succeeded := by
  simp only [give]

theorem paints_output_give (hs : Plain s) : Paints
    (give { p with coloured := true } mode line s).output
    (give { p with coloured := false } mode line s).output := by
  obtain ⟨format, emission, coloured, places⟩ := p
  rcases format with _ | _
  · exact paints_pretty ⟨_, emission, coloured, places⟩ mode line hs
  · refine .of_plain (plain_append.2 ⟨plain_of_printable ?_, by decide⟩)
    exact (Report.written_json _ _).printable

end Answer

theorem LinesOf.not_mem {c : Char} {cs : List Char} {ls : List (List Char)} (h : LinesOf cs ls)
    (hc : c ∉ cs) : ∀ l ∈ ls, c ∉ l := by
  induction h with
  | nil => simp
  | last => simpa using hc
  | feed _ _ _ ih | returnFeed _ _ ih =>
    simp only [List.mem_append, List.mem_cons, not_or] at hc
    refine List.forall_mem_cons.2 ⟨hc.1, ih ?_⟩
    simp [hc]

theorem Script.plain_of_mem_expressions {text : String} (h : Plain text) {e : Nat × String}
    (he : e ∈ expressions text) : Plain e.2 := by
  rw [expressions_eq_filled] at he
  obtain ⟨l, hl, rfl⟩ := List.mem_map.1 he
  unfold Plain
  rw [String.toList_ofList]
  exact (linesOf_lines _).not_mem h l.1 (List.fst_mem_of_mem_zipIdx (List.mem_filter.1 hl).1)

theorem Script.succeeded_run_coloured (p : Presentation) (mode : Mode) (text : String) :
    (run { p with coloured := true } mode text).succeeded
      = (run { p with coloured := false } mode text).succeeded := by
  simp only [run, answers, List.all_map, Function.comp_def, Answer.give]

theorem Script.paints_output_run (p : Presentation) (mode : Mode) {text : String}
    (h : Plain text) : Paints (run { p with coloured := true } mode text).output
      (run { p with coloured := false } mode text).output := by
  simp only [run, answers, List.map_map]
  exact Paints.join fun e he =>
    Answer.paints_output_give p mode (some e.1) (plain_of_mem_expressions h he)

theorem plain_of_bytes {text : String} (h : 27 ∉ text.toUTF8.toList) : Plain text := by
  rw [toList_toUTF8] at h
  exact fun hmem => h (List.mem_flatMap.2 ⟨_, hmem, by decide⟩)

theorem PiecesOf.flatten_eq {α : Type} {mark : α} {l : List α} {ls : List (List α)}
    (h : PiecesOf mark l ls) : ls.flatten = l := by
  induction h with
  | nil => rfl
  | last => exact List.append_nil _
  | ended _ _ ih => simp [ih]

namespace Session

/-- A line that is heard has no byte that the input does not have. -/
theorem mem_of_hears {input : ByteArray} {heard : List String} {broken : Bool}
    (h : Hears (inputLines input) heard broken) {line : String} (hline : line ∈ heard) {b : UInt8}
    (hb : b ∈ line.toUTF8.toList) : b ∈ input.toList := by
  obtain ⟨-, rest, hls, -⟩ := h
  have hmem : line.toUTF8 ∈ inputLines input :=
    hls ▸ List.mem_append_left _ (List.mem_map_of_mem hline)
  rw [← (piecesOf_inputLines_iff.2 rfl).flatten_eq]
  exact List.mem_flatten.2 ⟨_, List.mem_map_of_mem hmem, hb⟩

theorem plain_word {line : String} (h : Plain line) : Plain (word line) := by
  unfold Plain word trimBlanks
  rw [String.toList_ofList, List.mem_reverse]
  intro hmem
  have hmem := (List.dropWhile_sublist isBlank).mem hmem
  exact h ((List.dropWhile_sublist isBlank).mem (List.mem_reverse.1 hmem))

theorem paints_replyTo (p : Presentation) {word : String} (h : Plain word) : Paints
    (replyTo { p with coloured := true } word) (replyTo { p with coloured := false } word) := by
  unfold replyTo
  split_ifs
  · exact .of_plain (by decide)
  · exact .clearScreen
  · exact Answer.paints_output_give p .evaluate none h

theorem paints_greeting (p : Presentation) : Paints
    (greeting { p with coloured := true }) (greeting { p with coloured := false }) := by
  obtain ⟨format, emission, coloured, places⟩ := p
  rcases format with _ | _
  · exact (Paints.paint (by decide) .blue).append (.of_plain (by decide))
  · exact .of_plain (by decide : Plain "")

theorem paints_prompt (p : Presentation) : Paints
    (prompt { p with coloured := true }) (prompt { p with coloured := false }) := by
  obtain ⟨format, emission, coloured, places⟩ := p
  rcases format with _ | _
  · exact .paint (by decide) .blue
  · exact .of_plain (by decide : Plain "")

theorem paints_transcript (p : Presentation) {input : ByteArray} (h : 27 ∉ input.toList) :
    ∃ broken painted text, transcript { p with coloured := true } input = ⟨painted, broken⟩ ∧
      transcript { p with coloured := false } input = ⟨text, broken⟩ ∧ Paints painted text := by
  obtain ⟨heard, broken, hheard⟩ := exists_hears (inputLines input)
  refine ⟨broken, _, _, transcript_of_hears hheard, transcript_of_hears hheard, ?_⟩
  refine ((paints_greeting p).append (Paints.join fun line hline => ?_)).append (paints_prompt p)
  have hplain : Plain line := plain_of_bytes fun hmem => h (mem_of_hears hheard hline hmem)
  exact (paints_prompt p).append (paints_replyTo p (plain_word hplain))

end Session

/-! ## The program -/

/-- A task is given no text with an escape character: neither an expression, nor a script, nor an
input. -/
def Task.Plain (s : Surroundings) : Task → Prop
  | .evaluate expression => Calculator.Plain expression
  | .script _ path => ∀ text, Program.fileText? s path = some text → Calculator.Plain text
  | .session => 27 ∉ s.input.toList

/-- Two endings with the same status, of which one is the other with paint. -/
def Ending.Paints (painted plain : Ending) : Prop :=
  painted.status = plain.status ∧ Calculator.Paints painted.output plain.output

namespace Program

theorem paints_ofAnswer {a b : Answer} (hsucceeded : a.succeeded = b.succeeded)
    (h : Paints a.output b.output) : (Ending.ofAnswer a).Paints (.ofAnswer b) := by
  unfold Ending.ofAnswer
  rw [hsucceeded]
  exact ⟨rfl, h⟩

theorem perform_paints {s : Surroundings} {task : Task} (h : task.Plain s) (p : Presentation) :
    (perform s { p with coloured := true } task).Paints
      (perform s { p with coloured := false } task) := by
  rcases task with expression | ⟨mode, path⟩ | _
  · exact paints_ofAnswer (Answer.succeeded_give_coloured p .evaluate none expression)
      (Answer.paints_output_give p .evaluate none h)
  · rcases htext : fileText? s path with _ | text
    · simp only [perform, htext]
      exact ⟨rfl, .of_plain (by decide : Plain "")⟩
    · simp only [perform, htext]
      exact paints_ofAnswer (Script.succeeded_run_coloured p mode text)
        (Script.paints_output_run p mode (h text htext))
  · obtain ⟨broken, painted, text, hpainted, htext, hpaints⟩ := Session.paints_transcript p h
    simp only [perform, hpainted, htext]
    cases broken
    · exact ⟨rfl, hpaints⟩
    · exact ⟨rfl, hpaints⟩

theorem answer_paints {s : Surroundings} {task : Task} (h : task.Plain s) (o : Options) :
    (answer s ⟨{ o with colour := some .always }, some task⟩).Paints
      (answer s ⟨{ o with colour := some .never }, some task⟩) := by
  unfold answer presentation
  rcases fileSettings s o.file with f | settings
  · exact ⟨rfl, .of_plain (by decide : Plain "")⟩
  · exact perform_paints h ((o.over settings).presentation s.onTerminal)

/-- Always in colour and never in colour, the program does the same but for the paint, unless it is
given a text with an escape character. The two command lines may be written in any way. A line that
does not speak of colour takes the option wherever options may stand. Diagnostics keep to it with
any first line and for any fault, whether it fits the text or not. -/
theorem run_unpainted :
    (∀ (s : Surroundings) (o : Options) (task : Task), task.Plain s → ∀ always never : List String,
      CommandLine.read always = .request ⟨{ o with colour := some .always }, some task⟩ →
      CommandLine.read never = .request ⟨{ o with colour := some .never }, some task⟩ →
        (run s always).status = (run s never).status ∧
          unpainted (run s always).output.toList = (run s never).output.toList) ∧
    (∀ (before after : List String) (o : Options) (task : Task), CommandLine.Open before →
      CommandLine.read (before ++ after) = .request ⟨o, some task⟩ → o.colour = none →
      ∀ (c : ColourChoice) (words : List String), (Setting.colour c).Flag words →
        CommandLine.read (before ++ words ++ after)
          = .request ⟨{ o with colour := some c }, some task⟩) ∧
    ∀ (firstLine : Nat) (text : String) (f : Fault), Plain text →
      (∀ c x, f = .invalidCharacter c x → c ≠ '\x1b') →
        unpainted (Diagnostic.render true firstLine text f).toList
          = (Diagnostic.render false firstLine text f).toList := by
  refine ⟨fun s o task h always never halways hnever => ?_,
    fun before after o task hopen hread hcolour c words hwords => ?_, fun n text f h hf => ?_⟩
  · unfold run
    rw [halways, hnever]
    obtain ⟨hstatus, houtput⟩ := answer_paints h o
    exact ⟨hstatus, houtput.eq⟩
  · have hapart : o.Apart (Setting.colour c).option :=
      CommandLine.apart_option_iff.2 (by simp [Setting.name, Options.gives, hcolour])
    have hrange : (Setting.colour c).InRange := trivial
    rw [CommandLine.read_insert hopen hread (CommandLine.writes_of_flag hrange hwords) hapart]
    simp [Options.or, Setting.option, hcolour]
  · exact (Diagnostic.paints_render n h (Diagnostic.plain_description hf)).eq

/-- A script with a fault in its second line, once with the option in front and once behind, and the
diagnostic of a character that does not belong in its text. -/
theorem run_unpainted_script :
    let s : Surroundings := ⟨fun _ => some "1\n2+".toUTF8, ByteArray.empty, none, false⟩
    let always := ["--color", "always", "run", "f"]
    let never := ["run", "f", "--color=never"]
    let fault := Fault.invalidCharacter 'a' ⟨1, 2⟩
    (Task.script .evaluate "f").Plain s ∧ (run s always).status = (run s never).status ∧
      unpainted (run s always).output.toList = (run s never).output.toList ∧
      (run s always).output ≠ (run s never).output ∧
      unpainted (Diagnostic.render true 7 "1a" fault).toList
        = (Diagnostic.render false 7 "1a" fault).toList := by
  intro s always never fault
  have hplain : (Task.script .evaluate "f").Plain s := by
    rintro text ⟨⟩
    decide +kernel
  have hword : CommandLine.Argument.ofString "f" = .word "f" := by decide
  have hbehind : CommandLine.Open ["run", "f"] := .of_word (by decide) rfl hword
  have halways := run_unpainted.2.1 [] ["run", "f"] {} (.script .evaluate "f") .nil (by decide) rfl
    .always _ .long
  have hnever := run_unpainted.2.1 ["run", "f"] [] {} (.script .evaluate "f") hbehind (by decide)
    rfl .never _ .longAttached
  obtain ⟨hstatus, houtput⟩ := run_unpainted.1 s {} _ hplain always never halways hnever
  have hrender := run_unpainted.2.2 7 "1a" (.invalidCharacter 'a' ⟨1, 2⟩) (by decide)
    (by rintro c x ⟨⟩; decide)
  exact ⟨hplain, hstatus, houtput, by decide +kernel, hrender⟩

end Program

end Calculator

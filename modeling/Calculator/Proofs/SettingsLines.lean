import Calculator.Proofs.JsonText
import Calculator.Settings.File
import Mathlib.Data.List.Nodup

/-!
# Settings files of lines

A settings file as people write it is a sequence of lines, each blank, a comment, or an assignment
of a string without escapes or of a whole number (`SettingsFile.LineOf`). Its statements are these
assignments in their order, whatever blanks and comments stand around them
(`SettingsFile.statements?_of_assigns`).
-/

namespace Calculator

namespace SettingsFile

/-- A character that may stand in a line of a document. -/
def isLineChar (c : Char) : Bool :=
  c == '\t' || (0x20 ≤ c.toNat && c.toNat != 0x7F)

def Spaces (cs : List Char) : Prop :=
  ∀ c ∈ cs, isSpace c = true

/-- What may stand behind an assignment. -/
inductive Trailing : List Char → Prop
  | spaces {cs : List Char} (h : Spaces cs) : Trailing cs
  | comment {cs comment : List Char} (h : Spaces cs) (hc : ∀ c ∈ comment, isLineChar c = true) :
    Trailing (cs ++ '#' :: comment)

/-- The ways to write a value: a string between double quotes, or a number in decimal. -/
inductive Writing : List Char → Value → Prop
  | text {s : List Char} (h : ∀ c ∈ s, isLineChar c = true ∧ c ≠ '"' ∧ c ≠ '\\') :
    Writing ('"' :: s ++ ['"']) (.text s)
  | natural (n : Nat) : Writing (Nat.toDigits 10 n) (.integer n)
  | negative (n : Nat) : Writing ('-' :: Nat.toDigits 10 n) (.integer (-n))

/-- A line, and the assignment that it makes. -/
inductive LineOf : List Char → Option (List Char × Value) → Prop
  | filler {cs : List Char} (h : Trailing cs) : LineOf cs none
  | assignment {indent key before after writing trailing : List Char} {value : Value}
    (hindent : Spaces indent) (hne : key ≠ []) (hkey : ∀ c ∈ key, isBare c = true)
    (hbefore : Spaces before) (hafter : Spaces after) (hvalue : Writing writing value)
    (htrailing : Trailing trailing) :
    LineOf (indent ++ (key ++ (before ++ '=' :: (after ++ (writing ++ trailing)))))
      (some (key, value))

/-- The end of a text, or of a line of it. -/
def AtEnd (rest : List Char) : Prop :=
  ∀ c ∈ rest.head?, c = '\n'

/-- A character of a class is none that is not in it. -/
theorem ne_of_class {p : Char → Bool} {c d : Char} (hc : p c = true) (hd : p d = false) :
    c ≠ d := by
  rintro rfl
  rw [hc] at hd
  cases hd

variable {rest : List Char}

theorem ne_feed_of_isLineChar {c : Char} (h : isLineChar c = true) : c ≠ '\n' :=
  ne_of_class h (by decide)

theorem skipFiller_spaces : ∀ {cs : List Char}, Spaces cs →
    skipFiller false (cs ++ rest) = skipFiller false rest
  | [], _ => rfl
  | c :: cs, h => by
    obtain ⟨hc, hcs⟩ := List.forall_mem_cons.1 h
    have hspace : c ≠ '\n' ∧ c ≠ '#' := ⟨ne_of_class hc (by decide), ne_of_class hc (by decide)⟩
    simp [skipFiller, hspace, hc, skipFiller_spaces hcs]

theorem skipFiller_feed (comment : Bool) :
    skipFiller comment ('\n' :: rest) = skipFiller false rest := by
  simp [skipFiller]

theorem skipFiller_comment (hrest : AtEnd rest) : ∀ {cs : List Char},
    (∀ c ∈ cs, isLineChar c = true) → skipFiller true (cs ++ rest) = skipFiller false rest
  | [], _ => by
    rcases rest with _ | ⟨c, rest⟩
    · rfl
    · rw [hrest c rfl, List.nil_append, skipFiller_feed, skipFiller_feed]
  | c :: cs, h => by
    obtain ⟨hc, hcs⟩ := List.forall_mem_cons.1 h
    simp [skipFiller, ne_feed_of_isLineChar hc, skipFiller_comment hrest hcs]

theorem skipFiller_trailing {cs : List Char} (h : Trailing cs) (hrest : AtEnd rest) :
    skipFiller false (cs ++ rest) = skipFiller false rest := by
  cases h with
  | spaces h => exact skipFiller_spaces h
  | @comment cs comment h hc =>
    rw [List.append_assoc, skipFiller_spaces h, List.cons_append]
    simp [skipFiller, skipFiller_comment hrest hc]

/-- What may follow a value right away. -/
def Closes (rest : List Char) : Prop :=
  ∀ c ∈ rest.head?, isSpace c = true ∨ c = '#' ∨ c = '\n'

theorem Spaces.head {cs : List Char} (h : Spaces cs) {P : Char → Prop}
    (hrest : ∀ c ∈ rest.head?, P c) (hspace : ∀ c, isSpace c = true → P c) :
    ∀ c ∈ (cs ++ rest).head?, P c := by
  rcases cs with _ | ⟨d, cs⟩
  · exact hrest
  · rintro c ⟨⟩
    exact hspace d (h d List.mem_cons_self)

theorem closes_trailing {cs : List Char} (h : Trailing cs) (hrest : AtEnd rest) :
    Closes (cs ++ rest) := by
  cases h with
  | spaces h => exact h.head (fun c hc => .inr (.inr (hrest c hc))) fun c hc => .inl hc
  | comment h =>
    rw [List.append_assoc]
    refine h.head ?_ fun c hc => .inl hc
    rintro c ⟨⟩
    exact .inr (.inl rfl)

theorem isSpace_cases {c : Char} (h : isSpace c = true) : c = ' ' ∨ c = '\t' := by
  simpa [isSpace] using h

theorem skipSpaces_spaces {cs : List Char} (h : Spaces cs)
    (hrest : ∀ c ∈ rest.head?, isSpace c = false) : skipSpaces (cs ++ rest) = rest :=
  dropWhile_run h hrest

theorem readKeyPart?_bare {key : List Char} (hne : key ≠ []) (hkey : ∀ c ∈ key, isBare c = true)
    (hrest : ∀ c ∈ rest.head?, isBare c = false) :
    readKeyPart? (key ++ rest) = some (key, rest) := by
  obtain ⟨c, cs, rfl⟩ := List.exists_cons_of_ne_nil hne
  have hc : isBare c = true := hkey c List.mem_cons_self
  unfold readKeyPart?
  split
  · rename_i heq
    cases heq
    exact absurd hc (by decide)
  · rename_i heq
    cases heq
    exact absurd hc (by decide)
  · rw [takeWhile_run hkey hrest, dropWhile_run hkey hrest]
    rfl

theorem readKey?_bare {key before : List Char} (hne : key ≠ [])
    (hkey : ∀ c ∈ key, isBare c = true) (hbefore : Spaces before) :
    readKey? (key ++ (before ++ '=' :: rest)) = some (⟨key, none⟩, '=' :: rest) := by
  have hstop : ∀ c ∈ (before ++ '=' :: rest).head?, isBare c = false := by
    refine hbefore.head ?_ fun c hc => ?_
    · rintro c ⟨⟩
      decide
    · rcases isSpace_cases hc with rfl | rfl <;> decide
  have hequals : skipSpaces (before ++ '=' :: rest) = '=' :: rest := by
    refine skipSpaces_spaces hbefore ?_
    rintro c ⟨⟩
    decide
  unfold readKey?
  rw [readKeyPart?_bare hne hkey hstop]
  simp [hequals]

theorem cutLine_plain : ∀ {s : List Char}, (∀ c ∈ s, isLineChar c = true ∧ c ≠ '"' ∧ c ≠ '\\') →
    ∀ content, cutLine '"' true false (s ++ '"' :: rest) content = some (content.reverse ++ s, rest)
  | [], _, content => by simp [cutLine]
  | c :: s, h, content => by
    obtain ⟨⟨hc, hquote, hslash⟩, hs⟩ := List.forall_mem_cons.1 h
    have hescape : (c == '\\') = false := by simpa using hslash
    rw [List.cons_append, cutLine, if_neg (ne_feed_of_isLineChar hc)]
    simp [hquote, hescape, cutLine_plain hs]

theorem decodeFrom_plain : ∀ {s : List Char}, (∀ c ∈ s, c ≠ '\\') → ∀ done,
    decodeFrom .plain s done = some (done.reverse ++ s)
  | [], _, done => by simp [decodeFrom]
  | c :: s, h, done => by
    obtain ⟨hc, hs⟩ := List.forall_mem_cons.1 h
    simp [decodeFrom, hc, decodeFrom_plain hs]

theorem hexValue?_of_isDigit {c : Char} (h : c.isDigit = true) :
    hexValue? c = some (c.toNat - '0'.toNat) ∧ c.toNat - '0'.toNat < 10 ∧ c ≠ '_' := by
  have hbounds : '0' ≤ c ∧ c ≤ '9' := by simpa [Char.isDigit, Char.le_def] using h
  have hle : c.toNat ≤ '9'.toNat := UInt32.le_iff_toNat_le.1 hbounds.2
  have hnine : '9'.toNat = 57 := by decide
  have hzero : '0'.toNat = 48 := by decide
  exact ⟨if_pos hbounds, by omega, ne_of_class h (by decide)⟩

theorem digitsFrom_decimal : ∀ {cs : List Char}, (∀ c ∈ cs, c.isDigit = true) → ∀ value afterDigit,
    (cs ≠ [] ∨ afterDigit = true) →
      digitsFrom 10 cs value afterDigit = some (Nat.ofDigitChars 10 cs value)
  | [], _, value, afterDigit, h => by
    rw [digitsFrom, if_pos (h.resolve_left (by simp))]
    rfl
  | c :: cs, h, value, afterDigit, _ => by
    obtain ⟨hc, hcs⟩ := List.forall_mem_cons.1 h
    obtain ⟨hvalue, hlt, hunderscore⟩ := hexValue?_of_isDigit hc
    rw [digitsFrom, if_neg hunderscore, hvalue]
    dsimp only
    rw [if_pos hlt, digitsFrom_decimal hcs _ true (.inr rfl)]
    rfl

theorem isDigit_of_mem_toDigits {n : Nat} {c : Char} (h : c ∈ Nat.toDigits 10 n) :
    c.isDigit = true :=
  Nat.isDigit_of_mem_toDigits (by decide) (by decide) h

theorem readDigits?_toDigits (n : Nat) : readDigits? 10 (Nat.toDigits 10 n) = some n := by
  rw [readDigits?, digitsFrom_decimal (fun c => isDigit_of_mem_toDigits) 0 false
    (.inl Nat.toDigits_ne_nil), Nat.ofDigitChars_toDigits (by decide) (by decide)]

/-- Only the digits of zero begin with a zero. -/
theorem toDigits_eq_or (n : Nat) : Nat.toDigits 10 n = ['0'] ∨
    ∃ c cs, Nat.toDigits 10 n = c :: cs ∧ c ≠ '0' ∧ c.isDigit = true := by
  obtain ⟨c, cs, hcs⟩ := List.exists_cons_of_ne_nil (@Nat.toDigits_ne_nil n 10)
  have hc : c.isDigit = true := isDigit_of_mem_toDigits (hcs ▸ List.mem_cons_self)
  by_cases hzero : c = '0'
  · have hn : n = 0 := Json.eq_zero_of_head?_toDigits n (by rw [hcs, List.head?_cons, hzero])
    exact .inl (hn ▸ Nat.toDigits_zero 10)
  · exact .inr ⟨c, cs, hcs, hzero, hc⟩

theorem readDecimal?_toDigits (n : Nat) : readDecimal? (Nat.toDigits 10 n) = some n := by
  have hdigits := readDigits?_toDigits n
  rcases toDigits_eq_or n with hzero | ⟨c, cs, hcs, hc, -⟩
  · rw [hzero] at hdigits ⊢
    exact hdigits
  · rw [hcs] at hdigits ⊢
    rw [readDecimal?, hdigits] <;> simp [hc]

theorem readInteger?_toDigits (n : Nat) : readInteger? (Nat.toDigits 10 n) = some (n : Int) := by
  have hdecimal := readDecimal?_toDigits n
  rcases toDigits_eq_or n with hzero | ⟨c, cs, hcs, hc, hdigit⟩
  · rw [hzero] at hdecimal ⊢
    simp [readInteger?, hdecimal]
  · have hsign : c ≠ '+' ∧ c ≠ '-' :=
      ⟨ne_of_class hdigit (by decide), ne_of_class hdigit (by decide)⟩
    rw [hcs] at hdecimal ⊢
    rw [readInteger?, hdecimal] <;> simp [hc, hsign]

theorem readInteger?_negative (n : Nat) :
    readInteger? ('-' :: Nat.toDigits 10 n) = some (-(n : Int)) := by
  simp [readInteger?, readDecimal?_toDigits]

theorem isNumberChar_of_isDigit {c : Char} (h : c.isDigit = true) : isNumberChar c = true := by
  simp [isNumberChar, Char.isAlphanum, h]

theorem isNumberChar_of_closes (h : Closes rest) : ∀ c ∈ rest.head?, isNumberChar c = false := by
  intro c hc
  rcases h c hc with hspace | rfl | rfl
  · rcases isSpace_cases hspace with rfl | rfl <;> decide
  · decide
  · decide

theorem readValue?_number {cs : List Char} {n : Int} (hcs : ∀ c ∈ cs, isNumberChar c = true)
    (hne : cs ≠ []) (hn : readInteger? cs = some n) (hrest : Closes rest) :
    readValue? (cs ++ rest) = some (.integer n, rest) := by
  have hstop := isNumberChar_of_closes hrest
  obtain ⟨c, ds, rfl⟩ := List.exists_cons_of_ne_nil hne
  have hc : isNumberChar c = true := hcs c List.mem_cons_self
  have hopening : c ≠ '"' ∧ c ≠ '\'' ∧ c ≠ '[' ∧ c ≠ '\x7b' :=
    ⟨ne_of_class hc (by decide), ne_of_class hc (by decide), ne_of_class hc (by decide),
      ne_of_class hc (by decide)⟩
  have hdefault : readValue? (c :: ds ++ rest)
      = (readInteger? ((c :: ds ++ rest).takeWhile isNumberChar)).map fun n =>
        (.integer n, (c :: ds ++ rest).dropWhile isNumberChar) := by
    rw [List.cons_append, readValue?] <;> simp [hopening]
  rw [hdefault, takeWhile_run hcs hstop, dropWhile_run hcs hstop, hn]
  rfl

theorem readString?_plain {s : List Char}
    (h : ∀ c ∈ s, isLineChar c = true ∧ c ≠ '"' ∧ c ≠ '\\') :
    readString? ('"' :: s ++ '"' :: rest) = some (s, rest) := by
  rw [List.cons_append, readString?, cutLine_plain h]
  simp [decode, decodeFrom_plain fun c hc => (h c hc).2.2]

theorem readValue?_text {s : List Char}
    (h : ∀ c ∈ s, isLineChar c = true ∧ c ≠ '"' ∧ c ≠ '\\') (hrest : Closes rest) :
    readValue? ('"' :: s ++ '"' :: rest) = some (.text s, rest) := by
  have hstring : readAnyString? ('"' :: s ++ '"' :: rest)
      = readString? ('"' :: s ++ '"' :: rest) := by
    rcases s with _ | ⟨c, s⟩
    · have hquote : ∀ more, rest ≠ '"' :: more := by
        rintro more rfl
        rcases hrest '"' rfl with hspace | hcomment | hfeed
        · exact absurd hspace (by decide)
        · exact absurd hcomment (by decide)
        · exact absurd hfeed (by decide)
      show readAnyString? ('"' :: '"' :: rest) = _
      rw [readAnyString?] <;> simp [hquote]
    · have hc : c ≠ '"' := (h c List.mem_cons_self).2.1
      show readAnyString? ('"' :: c :: (s ++ '"' :: rest)) = _
      rw [readAnyString?] <;> simp [hc]
  rw [List.cons_append] at hstring ⊢
  rw [readValue?, hstring, ← List.cons_append, readString?_plain h]
  rfl

theorem readValue?_of_writing {writing : List Char} {value : Value} (h : Writing writing value)
    (hrest : Closes rest) : readValue? (writing ++ rest) = some (value, rest) := by
  have hdigits (n : Nat) : ∀ c ∈ Nat.toDigits 10 n, isNumberChar c = true :=
    fun c hc => isNumberChar_of_isDigit (isDigit_of_mem_toDigits hc)
  cases h with
  | text h => simpa using readValue?_text h hrest
  | natural n =>
    exact readValue?_number (hdigits n) Nat.toDigits_ne_nil (readInteger?_toDigits n) hrest
  | negative n =>
    have hall : ∀ c ∈ '-' :: Nat.toDigits 10 n, isNumberChar c = true :=
      List.forall_mem_cons.2 ⟨by decide, hdigits n⟩
    exact readValue?_number hall (List.cons_ne_nil _ _) (readInteger?_negative n) hrest

/-! ## Statements -/

theorem isSpace_of_atEnd (h : AtEnd rest) : ∀ c ∈ rest.head?, isSpace c = false := by
  intro c hc
  rw [h c hc]
  decide

theorem endStatement?_trailing {cs : List Char} (h : Trailing cs) (hrest : AtEnd rest) :
    endStatement? (cs ++ rest) = some rest := by
  cases h with
  | spaces h =>
    rw [endStatement?, skipSpaces_spaces h (isSpace_of_atEnd hrest)]
    rcases rest with _ | ⟨c, rest⟩
    · rfl
    · obtain rfl := hrest c rfl
      rfl
  | @comment cs comment h hc =>
    have hskip : skipSpaces (cs ++ '#' :: (comment ++ rest)) = '#' :: (comment ++ rest) := by
      refine skipSpaces_spaces h ?_
      rintro c ⟨⟩
      decide
    have hcomment : skipComment (comment ++ rest) = rest := by
      refine dropWhile_run (fun c hmem => ?_) fun c hmem => ?_
      · simpa using ne_feed_of_isLineChar (hc c hmem)
      · simpa using hrest c hmem
    rw [List.append_assoc, List.cons_append, endStatement?, hskip]
    simp [hcomment]

theorem Writing.head {writing : List Char} {value : Value} (h : Writing writing value) :
    ∃ c cs, writing = c :: cs ∧ isSpace c = false := by
  cases h with
  | text => exact ⟨_, _, rfl, by decide⟩
  | natural n =>
    obtain ⟨c, cs, hcs⟩ := List.exists_cons_of_ne_nil (@Nat.toDigits_ne_nil n 10)
    have hdigit : c.isDigit = true := isDigit_of_mem_toDigits (hcs ▸ List.mem_cons_self)
    refine ⟨c, cs, hcs, Bool.eq_false_iff.2 fun hspace => ?_⟩
    rcases isSpace_cases hspace with rfl | rfl
    · exact absurd hdigit (by decide)
    · exact absurd hdigit (by decide)
  | negative => exact ⟨_, _, rfl, by decide⟩

theorem readAssignment?_bare {key before after writing : List Char} {value : Value}
    (hne : key ≠ []) (hkey : ∀ c ∈ key, isBare c = true) (hbefore : Spaces before)
    (hafter : Spaces after) (hvalue : Writing writing value) (hrest : Closes rest) :
    readAssignment? (key ++ (before ++ '=' :: (after ++ (writing ++ rest))))
      = some (.assign ⟨key, none⟩ value, rest) := by
  have hskip : skipSpaces (after ++ (writing ++ rest)) = writing ++ rest := by
    obtain ⟨c, cs, rfl, hc⟩ := hvalue.head
    refine skipSpaces_spaces hafter ?_
    rintro d ⟨⟩
    exact hc
  unfold readAssignment?
  rw [readKey?_bare hne hkey hbefore]
  simp [hskip, readValue?_of_writing hvalue hrest]

/-- Statements are read behind the filler before them. -/
theorem statementsFrom_congr {fuel : Nat} {cs cs' : List Char}
    (h : skipFiller false cs = skipFiller false cs') (found : List Statement) :
    statementsFrom fuel cs found = statementsFrom fuel cs' found := by
  rcases fuel with _ | fuel
  · simp only [statementsFrom, h]
  · simp only [statementsFrom, h]

theorem statementsFrom_assignment {line key : List Char} {value : Value}
    (h : LineOf line (some (key, value))) (hrest : AtEnd rest) (fuel : Nat)
    (found : List Statement) : statementsFrom (fuel + 1) (line ++ rest) found
      = statementsFrom fuel rest (.assign ⟨key, none⟩ value :: found) := by
  cases h with
  | @assignment indent _ before after writing trailing _ hindent hne hkey hbefore hafter hvalue
      htrailing =>
    have hread := readAssignment?_bare hne hkey hbefore hafter hvalue
      (closes_trailing htrailing hrest)
    obtain ⟨c, cs, rfl⟩ := List.exists_cons_of_ne_nil hne
    have hc : isBare c = true := hkey c List.mem_cons_self
    have hfirst : c ≠ '\n' ∧ c ≠ '#' ∧ c ≠ '[' ∧ isSpace c = false := by
      refine ⟨ne_of_class hc (by decide), ne_of_class hc (by decide), ne_of_class hc (by decide),
        Bool.eq_false_iff.2 fun hspace => ?_⟩
      rcases isSpace_cases hspace with rfl | rfl
      · exact absurd hc (by decide)
      · exact absurd hc (by decide)
    have hline : indent ++ (c :: cs ++ (before ++ '=' :: (after ++ (writing ++ trailing)))) ++ rest
        = indent ++ (c :: cs ++ (before ++ '=' :: (after ++ (writing ++ (trailing ++ rest))))) := by
      simp
    generalize hbody : c :: cs ++ (before ++ '=' :: (after ++ (writing ++ (trailing ++ rest))))
      = body at hread hline
    have hskip : skipFiller false body = body := by
      simp [← hbody, skipFiller, hfirst]
    have hstatement : readStatement? body = readAssignment? body := by
      rw [← hbody, List.cons_append, readStatement?]
      simp [hfirst]
    have hnonempty : body ≠ [] := by simp [← hbody]
    rw [hline, statementsFrom_congr (skipFiller_spaces hindent), statementsFrom, hskip]
    simp [hstatement, hread, endStatement?_trailing htrailing hrest]

/-! ## Documents -/

/-- The assignments of a text, line by line. -/
def Assigns (text : List Char) (assignments : List (List Char × Value)) : Prop :=
  ∃ ls : List (List Char × Option (List Char × Value)), (∀ l ∈ ls, LineOf l.1 l.2) ∧
    text = ['\n'].intercalate (ls.map (·.1)) ∧ assignments = ls.filterMap (·.2)

/-- The text behind the first line reads like the other lines. -/
theorem exists_intercalate_cons (l : List Char) (ls : List (List Char)) :
    ∃ tail, ['\n'].intercalate (l :: ls) = l ++ tail ∧ AtEnd tail ∧
      skipFiller false tail = skipFiller false (['\n'].intercalate ls) ∧
        (['\n'].intercalate ls).length ≤ tail.length := by
  rcases ls with _ | ⟨next, ls⟩
  · exact ⟨[], by simp, by simp [AtEnd], by simp, by simp⟩
  · refine ⟨'\n' :: ['\n'].intercalate (next :: ls), ?_, ?_, skipFiller_feed false, by simp⟩
    · rw [List.intercalate_cons_cons, List.append_assoc, List.singleton_append]
    · rintro c ⟨⟩
      rfl

theorem length_pos_of_lineOf {line : List Char} {a : List Char × Value}
    (h : LineOf line (some a)) : 0 < line.length := by
  cases h
  simp only [List.length_append, List.length_cons]
  omega

theorem statementsFrom_lines : ∀ {ls : List (List Char × Option (List Char × Value))},
    (∀ l ∈ ls, LineOf l.1 l.2) → ∀ fuel found,
      (['\n'].intercalate (ls.map (·.1))).length ≤ fuel →
        statementsFrom fuel (['\n'].intercalate (ls.map (·.1))) found
          = some (found.reverse ++ (ls.filterMap (·.2)).map fun a => .assign ⟨a.1, none⟩ a.2)
  | [], _, fuel, found, _ => by
    rcases fuel with _ | fuel <;> simp [statementsFrom, skipFiller]
  | (line, assignment) :: ls, h, fuel, found, hfuel => by
    obtain ⟨hline, hls⟩ := List.forall_mem_cons.1 h
    obtain ⟨tail, htext, hend, hskip, hlength⟩ := exists_intercalate_cons line (ls.map (·.1))
    rw [List.map_cons, htext] at hfuel ⊢
    rw [List.length_append] at hfuel
    rcases assignment with _ | ⟨key, value⟩
    · have hrest : skipFiller false (line ++ tail)
          = skipFiller false (['\n'].intercalate (ls.map (·.1))) := by
        cases hline with
        | filler htrailing => rw [skipFiller_trailing htrailing hend, hskip]
      rw [statementsFrom_congr hrest, statementsFrom_lines hls fuel found (by omega)]
      simp
    · have hpos : 0 < line.length := length_pos_of_lineOf hline
      obtain ⟨fuel, rfl⟩ : ∃ n, fuel = n + 1 := ⟨fuel - 1, by omega⟩
      rw [statementsFrom_assignment hline hend, statementsFrom_congr hskip,
        statementsFrom_lines hls fuel _ (by omega)]
      simp

theorem isLineChar_of_isSpace {c : Char} (h : isSpace c = true) : isLineChar c = true := by
  rcases isSpace_cases h with rfl | rfl <;> decide

theorem isLineChar_of_isBare {c : Char} (h : isBare c = true) : isLineChar c = true := by
  have hascii : ∀ n < 128, isBare (Char.ofNat n) = true → isLineChar (Char.ofNat n) = true := by
    decide
  by_cases hc : c.toNat < 128
  · have hline := hascii c.toNat hc
    rw [Char.ofNat_toNat] at hline
    exact hline h
  · simp [isLineChar]
    omega

theorem Writing.bare {s : List Char} (h : s.all isBare = true) :
    Writing ('"' :: s ++ ['"']) (.text s) := by
  refine .text fun c hc => ?_
  have hbare : isBare c = true := List.all_eq_true.1 h c hc
  exact ⟨isLineChar_of_isBare hbare, ne_of_class hbare (by decide), ne_of_class hbare (by decide)⟩

theorem Trailing.chars {cs : List Char} (h : Trailing cs) : ∀ c ∈ cs, isLineChar c = true := by
  cases h with
  | spaces h => exact fun c hc => isLineChar_of_isSpace (h c hc)
  | comment h hc =>
    refine List.forall_mem_append.2 ⟨fun c hc => isLineChar_of_isSpace (h c hc), ?_⟩
    exact List.forall_mem_cons.2 ⟨by decide, hc⟩

theorem Writing.chars {writing : List Char} {value : Value} (h : Writing writing value) :
    ∀ c ∈ writing, isLineChar c = true := by
  have hdigits (n : Nat) : ∀ c ∈ Nat.toDigits 10 n, isLineChar c = true := fun c hc =>
    isLineChar_of_isBare (by simp [isBare, Char.isAlphanum, isDigit_of_mem_toDigits hc])
  cases h with
  | text h =>
    refine List.forall_mem_append.2 ⟨List.forall_mem_cons.2 ⟨by decide, fun c hc => (h c hc).1⟩, ?_⟩
    exact List.forall_mem_singleton.2 (by decide)
  | natural n => exact hdigits n
  | negative n => exact List.forall_mem_cons.2 ⟨by decide, hdigits n⟩

theorem LineOf.chars {line : List Char} {assignment : Option (List Char × Value)}
    (h : LineOf line assignment) : ∀ c ∈ line, isLineChar c = true := by
  have hspaces {cs : List Char} (h : Spaces cs) : ∀ c ∈ cs, isLineChar c = true :=
    fun c hc => isLineChar_of_isSpace (h c hc)
  cases h with
  | filler h => exact h.chars
  | assignment hindent hne hkey hbefore hafter hvalue htrailing =>
    simp only [List.forall_mem_append, List.forall_mem_cons]
    exact ⟨hspaces hindent, fun c hc => isLineChar_of_isBare (hkey c hc), hspaces hbefore,
      by decide, hspaces hafter, hvalue.chars, htrailing.chars⟩

/-- A line has no byte order mark in front. -/
theorem LineOf.head {line : List Char} {assignment : Option (List Char × Value)}
    (h : LineOf line assignment) {rest : List Char} (hrest : AtEnd rest) :
    ∀ c ∈ (line ++ rest).head?, c ≠ '\uFEFF' := by
  have hspace (c) (hc : isSpace c = true) : c ≠ '\uFEFF' := by
    rcases isSpace_cases hc with rfl | rfl <;> decide
  cases h with
  | filler h =>
    intro c hc
    rcases closes_trailing h hrest c hc with hc | rfl | rfl
    · exact hspace c hc
    · decide
    · decide
  | assignment hindent hne hkey hbefore hafter hvalue htrailing =>
    rw [List.append_assoc]
    refine hindent.head ?_ hspace
    obtain ⟨c, cs, rfl⟩ := List.exists_cons_of_ne_nil hne
    rintro d ⟨⟩
    exact ne_of_class (hkey c List.mem_cons_self) (by decide)

theorem isClean_append {rest : List Char} : ∀ {cs : List Char},
    (∀ c ∈ cs, isLineChar c = true ∨ c = '\n') → isClean (cs ++ rest) = isClean rest
  | [], _ => rfl
  | c :: cs, h => by
    obtain ⟨hc, hcs⟩ := List.forall_mem_cons.1 h
    have hreturn : c ≠ '\r' := by
      rintro rfl
      exact absurd hc (by decide)
    have hclean : (c == '\t' || c == '\n' || (0x20 ≤ c.toNat && c.toNat != 0x7F)) = true := by
      rcases hc with hc | rfl
      · simp only [isLineChar, Bool.or_eq_true] at hc ⊢
        exact hc.imp_left .inl
      · decide
    rw [List.cons_append, isClean, hclean, isClean_append hcs]
    · rfl
    · exact fun h => hreturn h

theorem isClean_of_chars {cs : List Char} (h : ∀ c ∈ cs, isLineChar c = true ∨ c = '\n') :
    isClean cs = true := by
  have hend := @isClean_append [] cs h
  rwa [List.append_nil] at hend

/-- Lines hold no carriage returns. -/
theorem filter_return_of_chars {cs : List Char} (h : ∀ c ∈ cs, isLineChar c = true ∨ c = '\n') :
    cs.filter (· != '\r') = cs := by
  refine List.filter_eq_self.2 fun c hc => ?_
  rcases h c hc with hc | rfl
  · exact bne_iff_ne.2 (ne_of_class hc (by decide))
  · decide

theorem withoutMark_of_head {cs : List Char} (h : ∀ c ∈ cs.head?, c ≠ '\uFEFF') :
    withoutMark cs = cs := by
  rcases cs with _ | ⟨c, cs⟩
  · rfl
  · have hc : c ≠ '\uFEFF' := h c rfl
    rw [withoutMark]
    simp [hc]

section Assigns

variable {text : List Char} {assignments : List (List Char × Value)}

theorem Assigns.chars (h : Assigns text assignments) :
    ∀ c ∈ text, isLineChar c = true ∨ c = '\n' := by
  obtain ⟨ls, hls, rfl, -⟩ := h
  intro c hc
  rcases mem_of_mem_intercalate hc with hfeed | ⟨line, hline, hc⟩
  · exact .inr hfeed
  · obtain ⟨l, hl, rfl⟩ := List.mem_map.1 hline
    exact .inl ((hls l hl).chars c hc)

theorem Assigns.head (h : Assigns text assignments) : ∀ c ∈ text.head?, c ≠ '\uFEFF' := by
  obtain ⟨ls, hls, rfl, -⟩ := h
  rcases ls with _ | ⟨l, ls⟩
  · simp
  · obtain ⟨tail, htext, hend, -, -⟩ := exists_intercalate_cons l.1 (ls.map (·.1))
    rw [List.map_cons, htext]
    exact (hls l List.mem_cons_self).head hend

/-- Carriage returns that may stand in a document make no difference. -/
theorem statements?_of_withoutReturns (hclean : isClean text = true)
    (h : Assigns (text.filter (· != '\r')) assignments) :
    statements? text = some (assignments.map fun a => .assign ⟨a.1, none⟩ a.2) := by
  have hhead : ∀ c ∈ text.head?, c ≠ '\uFEFF' := by
    rcases text with _ | ⟨d, text⟩
    · simp
    · rintro c ⟨⟩ rfl
      exact h.head '\uFEFF' (by simp) rfl
  obtain ⟨ls, hls, htext, rfl⟩ := h
  simp only [statements?, withoutMark_of_head hhead, hclean, if_true, htext]
  rw [statementsFrom_lines hls _ [] (Nat.le_refl _), List.reverse_nil, List.nil_append]

/-- The statements of a text of lines are its assignments. -/
theorem statements?_of_assigns (h : Assigns text assignments) :
    statements? text = some (assignments.map fun a => .assign ⟨a.1, none⟩ a.2) :=
  statements?_of_withoutReturns (isClean_of_chars h.chars)
    ((filter_return_of_chars h.chars).symm ▸ h)

end Assigns

/-- The entry that a value makes under a key of one part, where no empty table may stand. -/
def Value.entry : Value → Entry
  | text s => .text s
  | integer n => .integer n
  | choice name => .table true true (some name)
  | empty => .table true true none

theorem step?_assign {entries : List (List Char × Entry)} {key : List Char} {value : Value}
    (h : value ≠ .empty) : Gathering.step? ⟨none, entries⟩ (.assign ⟨key, none⟩ value)
      = if key ∈ entries.map (·.1) then none else some ⟨none, (key, value.entry) :: entries⟩ := by
  have hadd : Gathering.step? ⟨none, entries⟩ (.assign ⟨key, none⟩ value)
      = Gathering.add? ⟨none, entries⟩ key value.entry := by
    cases value with
    | empty => exact absurd rfl h
    | _ => rfl
  rw [hadd, Gathering.add?, Gathering.entry?]
  split_ifs with hkey
  · obtain ⟨e, he, rfl⟩ := List.mem_map.1 hkey
    obtain ⟨old, hold⟩ := Option.ne_none_iff_exists'.1 fun hnone : entries.lookup e.1 = none => by
      simpa using List.lookup_eq_none_iff.1 hnone e he
    simp only [hold]
  · have hnone : entries.lookup key = none := by
      refine List.lookup_eq_none_iff.2 fun e he => ?_
      simpa using fun heq : key = e.1 => hkey (List.mem_map.2 ⟨e, he, heq.symm⟩)
    simp only [hnone]

/-- The assignments are gathered if no key is given twice, on them or before. -/
theorem foldlM_step? : ∀ {assignments : List (List Char × Value)}
    {entries : List (List Char × Entry)}, (∀ a ∈ assignments, a.2 ≠ .empty) →
    (entries.map (·.1)).Nodup →
      (assignments.map fun a => Statement.assign ⟨a.1, none⟩ a.2).foldlM Gathering.step?
          ⟨none, entries⟩
        = let all := (assignments.map fun a => (a.1, a.2.entry)).reverse ++ entries
          if (all.map (·.1)).Nodup then some ⟨none, all⟩ else none
  | [], entries, _, h => by simp [h]
  | a :: assignments, entries, hvalues, h => by
    obtain ⟨ha, hvalues⟩ := List.forall_mem_cons.1 hvalues
    rw [List.map_cons, List.foldlM_cons, step?_assign ha]
    by_cases hkey : a.1 ∈ entries.map (·.1)
    · have htwice : ¬ ((((a :: assignments).map fun a => (a.1, a.2.entry)).reverse
          ++ entries).map (·.1)).Nodup := by
        rw [List.map_append]
        intro hnodup
        have hmem : a.1 ∈ ((a :: assignments).map fun a => (a.1, a.2.entry)).reverse.map (·.1) := by
          simp
        exact List.disjoint_of_nodup_append hnodup hmem hkey
      rw [if_pos hkey, if_neg htwice]
      rfl
    · have hmore : (((a.1, a.2.entry) :: entries).map (·.1)).Nodup :=
        List.nodup_cons.2 ⟨hkey, h⟩
      rw [if_neg hkey, Option.bind_eq_bind, Option.bind_some, foldlM_step? hvalues hmore]
      simp

theorem entries?_eq {assignments : List (List Char × Value)}
    (h : ∀ a ∈ assignments, a.2 ≠ .empty) :
    entries? (assignments.map fun a => .assign ⟨a.1, none⟩ a.2)
      = if (assignments.map (·.1)).Nodup
        then some (assignments.map fun a => (a.1, a.2.entry)).reverse else none := by
  have hkeys : ((assignments.map fun a => (a.1, a.2.entry)).reverse.map (·.1)).Nodup
      ↔ (assignments.map (·.1)).Nodup := by
    rw [List.map_reverse, List.nodup_reverse, List.map_map]
    rfl
  have hsteps := @foldlM_step? assignments [] h List.nodup_nil
  simp only [List.append_nil, hkeys] at hsteps
  rw [entries?, Gathering.start, hsteps]
  split_ifs <;> rfl

end SettingsFile

end Calculator

import Calculator.Json
import Mathlib.Tactic.SplitIfs

/-!
# JSON texts

`Json.TextOf` is the grammar of JSON for texts without blanks between their parts, as far as reports
need it. A text of a value holds no control character, and so no line break (`TextOf.printable`).
Writing a value gives a text of it if its number literals are numbers, which is shown for each kind
of value from the texts of its parts.
-/

namespace Calculator

theorem mem_of_mem_intercalate {α : Type} {mark a : α} : ∀ {parts : List (List α)},
    a ∈ [mark].intercalate parts → a = mark ∨ ∃ part ∈ parts, a ∈ part
  | [], h => by simp at h
  | [part], h => .inr ⟨part, List.mem_singleton_self part, by simpa using h⟩
  | part :: next :: parts, h => by
    rw [List.intercalate_cons_cons, List.mem_append, List.mem_append, List.mem_singleton] at h
    rcases h with (h | h) | h
    · exact .inr ⟨part, List.mem_cons_self, h⟩
    · exact .inl h
    · exact (mem_of_mem_intercalate h).imp_right fun ⟨other, hother, ha⟩ =>
        ⟨other, List.mem_cons_of_mem part hother, ha⟩

section Run

variable {p : Char → Bool} {cs rest : List Char}

theorem takeWhile_run (h : ∀ c ∈ cs, p c = true) (hrest : ∀ c ∈ rest.head?, p c = false) :
    (cs ++ rest).takeWhile p = cs := by
  rw [List.takeWhile_append_of_pos h]
  rcases rest with _ | ⟨c, rest⟩
  · simp
  · simp [hrest c rfl]

theorem dropWhile_run (h : ∀ c ∈ cs, p c = true) (hrest : ∀ c ∈ rest.head?, p c = false) :
    (cs ++ rest).dropWhile p = rest := by
  rw [List.dropWhile_append_of_pos h]
  rcases rest with _ | ⟨c, rest⟩
  · rfl
  · simp [hrest c rfl]

end Run

namespace Json

def Digits (cs : List Char) : Prop :=
  cs ≠ [] ∧ ∀ c ∈ cs, c.isDigit = true

/-- Digits with no zero in front of others. -/
def Whole (cs : List Char) : Prop :=
  Digits cs ∧ (cs.head? = some '0' → cs = ['0'])

inductive Fraction : List Char → Prop
  | none : Fraction []
  | some {ds : List Char} (h : Digits ds) : Fraction ('.' :: ds)

inductive Power : List Char → Prop
  | none : Power []
  | some {e : Char} {sign ds : List Char} (he : e ∈ ['e', 'E']) (hs : sign ∈ [[], ['+'], ['-']])
    (h : Digits ds) : Power (e :: (sign ++ ds))

inductive Magnitude : List Char → Prop
  | mk {whole fraction power : List Char} (hw : Whole whole) (hf : Fraction fraction)
    (hp : Power power) : Magnitude (whole ++ fraction ++ power)

inductive NumberText : List Char → Prop
  | positive {cs : List Char} (h : Magnitude cs) : NumberText cs
  | negative {cs : List Char} (h : Magnitude cs) : NumberText ('-' :: cs)

/-- The characters that a backslash and one more character stand for, with that character. -/
def shortEscapes : List (Char × Char) :=
  [('"', '"'), ('\\', '\\'), ('/', '/'), ('\x08', 'b'), ('\x0c', 'f'), ('\n', 'n'), ('\r', 'r'),
    ('\t', 't')]

/-- A code below 65536 in four hexadecimal digits. -/
def hexFour (n : Nat) : List Char :=
  [n / 4096, n / 256 % 16, n / 16 % 16, n % 16].map Nat.digitChar

/-- The texts that stand for a character between quotes. -/
inductive Escapes : Char → List Char → Prop
  | plain {c : Char} (hc : 0x20 ≤ c.toNat) (hq : c ≠ '"') (hb : c ≠ '\\') : Escapes c [c]
  | short {c e : Char} (h : (c, e) ∈ shortEscapes) : Escapes c ['\\', e]
  | code {c : Char} (h : c.toNat < 0x10000) : Escapes c ('\\' :: 'u' :: hexFour c.toNat)

/-- The second text, put between quotes, stands for the first one. -/
inductive Spells : List Char → List Char → Prop
  | nil : Spells [] []
  | cons {c : Char} {s e cs : List Char} (hc : Escapes c e) (hs : Spells s cs) :
    Spells (c :: s) (e ++ cs)

/-- A member of an object, with what spells its key and with a text of its value. -/
structure Member where
  key : String
  value : Json
  spelling : List Char
  text : List Char

/-- The texts of a value. Each element of an array and each member of an object stands with its own
text. -/
inductive TextOf : Json → List Char → Prop
  | null : TextOf .null "null".toList
  | number {literal : String} (h : NumberText literal.toList) :
    TextOf (.number literal) literal.toList
  | text {s : String} {cs : List Char} (h : Spells s.toList cs) :
    TextOf (.text s) ('"' :: cs ++ ['"'])
  | array {parts : List (Json × List Char)} (h : ∀ e ∈ parts, TextOf e.1 e.2) :
    TextOf (.array (parts.map (·.1))) ('[' :: [','].intercalate (parts.map (·.2)) ++ [']'])
  | object {members : List Member} (hk : ∀ m ∈ members, Spells m.key.toList m.spelling)
    (hv : ∀ m ∈ members, TextOf m.value m.text) :
    TextOf (.object (members.map fun m => (m.key, m.value)))
      ('\x7b' :: [','].intercalate (members.map fun m => '"' :: m.spelling ++ '"' :: ':' :: m.text)
        ++ ['\x7d'])

def isNumberChar (c : Char) : Bool :=
  c.isDigit || ['.', 'e', 'E', '+', '-'].elem c

def Numeric (cs : List Char) : Prop :=
  cs.all isNumberChar = true
deriving Decidable

@[simp] theorem numeric_cons {c : Char} {cs : List Char} :
    Numeric (c :: cs) ↔ isNumberChar c = true ∧ Numeric cs := by
  simp [Numeric]

@[simp] theorem numeric_append {cs us : List Char} :
    Numeric (cs ++ us) ↔ Numeric cs ∧ Numeric us := by
  simp [Numeric]

theorem Digits.numeric {cs : List Char} (h : Digits cs) : Numeric cs := by
  rw [Numeric, List.all_eq_true]
  intro c hc
  rw [isNumberChar, h.2 c hc, Bool.true_or]

theorem Fraction.numeric {cs : List Char} : Fraction cs → Numeric cs
  | .none => rfl
  | .some h => numeric_cons.2 ⟨by decide, h.numeric⟩

theorem Power.numeric {cs : List Char} : Power cs → Numeric cs
  | .none => rfl
  | .some he hs h => by
    rw [numeric_cons, numeric_append]
    refine ⟨?_, ?_, h.numeric⟩
    · exact List.all_eq_true.1 (by decide : Numeric ['e', 'E']) _ he
    · exact (by decide : ∀ sign ∈ [[], ['+'], ['-']], Numeric sign) _ hs

theorem Magnitude.numeric {cs : List Char} : Magnitude cs → Numeric cs
  | .mk hw hf hp => by
    rw [numeric_append, numeric_append]
    exact ⟨⟨hw.1.numeric, hf.numeric⟩, hp.numeric⟩

theorem NumberText.numeric {cs : List Char} : NumberText cs → Numeric cs
  | .positive h => h.numeric
  | .negative h => numeric_cons.2 ⟨by decide, h.numeric⟩

theorem NumberText.ne_nil {cs : List Char} : NumberText cs → cs ≠ []
  | .positive (.mk hw _ _) => by simp [hw.1.1]
  | .negative _ => List.cons_ne_nil _ _

def Printable (cs : List Char) : Prop :=
  ∀ c ∈ cs, 0x20 ≤ c.toNat

instance (cs : List Char) : Decidable (Printable cs) :=
  List.decidableBAll _ _

theorem printable_nil : Printable [] := by
  simp [Printable]

@[simp] theorem printable_cons {c : Char} {cs : List Char} :
    Printable (c :: cs) ↔ 0x20 ≤ c.toNat ∧ Printable cs :=
  List.forall_mem_cons

@[simp] theorem printable_append {cs us : List Char} :
    Printable (cs ++ us) ↔ Printable cs ∧ Printable us :=
  List.forall_mem_append

theorem printable_intercalate {parts : List (List Char)} (h : ∀ cs ∈ parts, Printable cs) :
    Printable ([','].intercalate parts) := by
  intro c hc
  rcases mem_of_mem_intercalate hc with rfl | ⟨cs, hcs, hc⟩
  · decide
  · exact h cs hcs c hc

theorem Numeric.printable {cs : List Char} (h : Numeric cs) : Printable cs := by
  intro c hc
  have hnumeric := List.all_eq_true.1 h c hc
  simp only [isNumberChar, Bool.or_eq_true, List.elem_eq_mem, decide_eq_true_eq] at hnumeric
  rcases hnumeric with hdigit | hmark
  · simp only [Char.isDigit, Bool.and_eq_true, decide_eq_true_eq] at hdigit
    exact Nat.le_trans (by decide) (UInt32.le_iff_toNat_le.1 hdigit.1)
  · exact (by decide : Printable ['.', 'e', 'E', '+', '-']) c hmark

theorem printable_digitChar (n : Nat) : 0x20 ≤ (Nat.digitChar n).toNat := by
  rcases Nat.lt_or_ge n 16 with h | h
  · exact (by decide : ∀ m < 16, 0x20 ≤ (Nat.digitChar m).toNat) n h
  · rw [Nat.digitChar_eq_star.2 h]
    decide

theorem Escapes.printable {c : Char} {cs : List Char} : Escapes c cs → Printable cs
  | .plain hc _ _ => printable_cons.2 ⟨hc, printable_nil⟩
  | .short h => (by decide : ∀ p ∈ shortEscapes, Printable ['\\', p.2]) _ h
  | .code _ => by
    simp only [printable_cons, hexFour, List.map_cons, List.map_nil]
    exact ⟨by decide, by decide, printable_digitChar _, printable_digitChar _,
      printable_digitChar _, printable_digitChar _, printable_nil⟩

theorem Spells.printable {s cs : List Char} (h : Spells s cs) : Printable cs := by
  induction h with
  | nil => exact printable_nil
  | cons hc _ ih => exact printable_append.2 ⟨hc.printable, ih⟩

/-- A part between two delimiters. -/
theorem printable_delimited {o c : Char} {cs : List Char} (ho : 0x20 ≤ o.toNat)
    (h : Printable cs) (hc : 0x20 ≤ c.toNat) : Printable (o :: cs ++ [c]) := by
  rw [printable_append, printable_cons, printable_cons]
  exact ⟨⟨ho, h⟩, hc, printable_nil⟩

theorem TextOf.printable {v : Json} {cs : List Char} (h : TextOf v cs) : Printable cs := by
  induction h with
  | null => decide
  | number h => exact h.numeric.printable
  | text h => exact printable_delimited (by decide) h.printable (by decide)
  | array _ ih =>
    refine printable_delimited (by decide) (printable_intercalate fun cs hcs => ?_) (by decide)
    obtain ⟨e, he, rfl⟩ := List.mem_map.1 hcs
    exact ih e he
  | object hk _ ih =>
    refine printable_delimited (by decide) (printable_intercalate fun cs hcs => ?_) (by decide)
    obtain ⟨m, hm, rfl⟩ := List.mem_map.1 hcs
    rw [printable_append, printable_cons, printable_cons, printable_cons]
    exact ⟨⟨by decide, (hk m hm).printable⟩, by decide, by decide, ih m hm⟩

theorem eq_zero_of_head?_toDigits (n : Nat) (h : (Nat.toDigits 10 n).head? = some '0') :
    n = 0 := by
  rw [Nat.toDigits_eq_if (by decide)] at h
  split at h
  · simpa using h
  · -- the first digit is that of `n / 10`, which is not zero
    obtain ⟨c, cs, hd⟩ := List.exists_cons_of_ne_nil (@Nat.toDigits_ne_nil (n / 10) 10)
    rw [hd, List.cons_append, List.head?_cons] at h
    have := eq_zero_of_head?_toDigits (n / 10) (by rw [hd, List.head?_cons, h])
    omega

theorem whole_toDigits (n : Nat) : Whole (Nat.toDigits 10 n) := by
  refine ⟨⟨Nat.toDigits_ne_nil, fun c hc => Nat.isDigit_of_mem_toDigits (by decide) (by decide) hc⟩,
    fun h => ?_⟩
  rw [eq_zero_of_head?_toDigits n h, Nat.toDigits_zero]

/-- A control character is written by its code, which has at most two digits. -/
theorem hexFour_of_lt {n : Nat} (h : n < 0x20) : hexFour n = '0' :: '0' :: hexPair n :=
  (by decide : ∀ m < 0x20, hexFour m = '0' :: '0' :: hexPair m) n h

theorem escapes_escape (c : Char) : Escapes c (escape c) := by
  unfold escape
  split_ifs with hq hb h8 h9 h10 h12 h13 hc
  · subst hq; exact .short (by decide)
  · subst hb; exact .short (by decide)
  · subst h8; exact .short (by decide)
  · subst h9; exact .short (by decide)
  · subst h10; exact .short (by decide)
  · subst h12; exact .short (by decide)
  · subst h13; exact .short (by decide)
  · have hcode := Escapes.code (c := c) (by omega)
    rwa [hexFour_of_lt hc] at hcode
  · exact .plain (by omega) hq hb

theorem spells_escape : ∀ s : List Char, Spells s (s.flatMap escape)
  | [] => .nil
  | c :: s => .cons (escapes_escape c) (spells_escape s)

/-- Writing the value gives a text of it. -/
def Written (v : Json) : Prop :=
  TextOf v v.write.toList

theorem written_text (s : String) : Written (.text s) := by
  rw [Written, write, quote, String.toList_ofList]
  exact .text (spells_escape _)

theorem written_number {literal : String} (h : NumberText literal.toList) :
    Written (.number literal) := by
  rw [Written, write]
  exact .number h

theorem written_null : Written .null := by
  rw [Written, write]
  exact .null

theorem written_count (n : Nat) : Written (count n) := by
  have hdigits : Magnitude (Nat.toDigits 10 n) := by
    simpa using Magnitude.mk (whole_toDigits n) .none .none
  exact written_number (by simpa using NumberText.positive hdigits)

theorem written_array {items : List Json} (h : ∀ v ∈ items, Written v) :
    Written (.array items) := by
  let written (v : Json) : Json × List Char := (v, v.write.toList)
  have hparts : ∀ e ∈ items.map written, TextOf e.1 e.2 := by
    rintro _ he
    obtain ⟨v, hv, rfl⟩ := List.mem_map.1 he
    exact h v hv
  rw [Written, write]
  simpa [String.toList_intercalate, Function.comp_def, written] using TextOf.array hparts

theorem written_object {fields : List (String × Json)} (h : ∀ f ∈ fields, Written f.2) :
    Written (.object fields) := by
  let written (f : String × Json) : Member :=
    ⟨f.1, f.2, f.1.toList.flatMap escape, f.2.write.toList⟩
  have hkeys : ∀ m ∈ fields.map written, Spells m.key.toList m.spelling := by
    rintro _ hm
    obtain ⟨f, -, rfl⟩ := List.mem_map.1 hm
    exact spells_escape _
  have hvalues : ∀ m ∈ fields.map written, TextOf m.value m.text := by
    rintro _ hm
    obtain ⟨f, hf, rfl⟩ := List.mem_map.1 hm
    exact h f hf
  rw [Written, write]
  simpa [String.toList_intercalate, Function.comp_def, quote, quoted, written] using
    TextOf.object hkeys hvalues

end Json

end Calculator

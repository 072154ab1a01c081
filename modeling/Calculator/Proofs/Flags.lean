import Calculator.Proofs.Arguments
import Mathlib.Data.List.Perm.Basic

/-!
# Flags

A setting can be written as a flag in several ways (`Setting.Flag`), with its name in full or as a
letter and with the value attached or behind. Each way gives exactly that setting
(`CommandLine.writes_of_flag`), so any settings of different kinds can be written into a command
line in any order and at any places (`CommandLine.read_of_given`).
-/

namespace Calculator

/-- One setting with its value. -/
inductive Setting where
  | format (f : Format)
  | emission (e : Emission)
  | colour (c : ColourChoice)
  | places (n : Nat)
deriving DecidableEq, Repr

namespace OptionName

def long : OptionName → String
  | format => "format"
  | emission => "emit"
  | colour => "color"
  | places => "precision"
  | file => "config"

def short? : OptionName → Option Char
  | format => some 'f'
  | emission => some 'e'
  | file => some 'c'
  | colour | places => none

theorem long_injective : ∀ {a b : OptionName}, a.long = b.long → a = b := by
  intro a b
  cases a <;> cases b <;> decide

/-- The ways to write an option with a value. A value with a hyphen in front is no argument of its
own, unless it is the hyphen alone. -/
inductive Written (name : OptionName) (value : String) : List String → Prop
  | long (hvalue : value.toList.head? ≠ some '-' ∨ value = "-") :
    Written name value ["--" ++ name.long, value]
  | longAttached : Written name value ["--" ++ name.long ++ "=" ++ value]
  | short {letter : Char} (h : name.short? = some letter)
    (hvalue : value.toList.head? ≠ some '-' ∨ value = "-") :
    Written name value ["-" ++ letter.toString, value]
  | shortAttached {letter : Char} (h : name.short? = some letter) (hne : value ≠ "")
    (hvalue : value.toList.head? ≠ some '=') :
    Written name value ["-" ++ letter.toString ++ value]
  | shortEquals {letter : Char} (h : name.short? = some letter) :
    Written name value ["-" ++ letter.toString ++ "=" ++ value]

end OptionName

namespace Setting

def name : Setting → OptionName
  | format _ => .format
  | emission _ => .emission
  | colour _ => .colour
  | places _ => .places

/-- The value as it is written. -/
def text : Setting → String
  | format f => f.name
  | emission e => e.name
  | colour c => c.name
  | places n => n.repr

/-- The option that gives this setting alone. -/
def option : Setting → Options
  | format f => { format := some f }
  | emission e => { emission := some e }
  | colour c => { colour := some c }
  | places n => { places := some n }

/-- A setting whose value the program takes. -/
def InRange : Setting → Prop
  | places n => n ≤ 65535
  | _ => True

/-- The ways to write a setting as a flag. -/
inductive Flag (x : Setting) : List String → Prop
  | long : Flag x ["--" ++ x.name.long, x.text]
  | longAttached : Flag x ["--" ++ x.name.long ++ "=" ++ x.text]
  | short {letter : Char} (h : x.name.short? = some letter) :
    Flag x ["-" ++ letter.toString, x.text]
  | shortAttached {letter : Char} (h : x.name.short? = some letter) :
    Flag x ["-" ++ letter.toString ++ x.text]
  | shortEquals {letter : Char} (h : x.name.short? = some letter) :
    Flag x ["-" ++ letter.toString ++ "=" ++ x.text]

theorem readPlaces?_digits {value : String} {digits : List Char} (hne : digits ≠ [])
    (hdigits : ∀ c ∈ digits, c.isDigit = true)
    (hbound : Nat.ofDigitChars 10 digits 0 < placesBound)
    (hvalue : value.toList = digits ∨ value.toList = '+' :: digits) :
    readPlaces? value = some (Nat.ofDigitChars 10 digits 0) := by
  have hplus {rest : List Char} : digits ≠ '+' :: rest := by
    rintro rfl
    exact absurd (hdigits '+' List.mem_cons_self) (by decide)
  have hall : digits.all Char.isDigit = true := List.all_eq_true.2 hdigits
  unfold readPlaces?
  rcases hvalue with hvalue | hvalue
  · rw [hvalue]
    split
    · exact absurd rfl hplus
    · simp [hne, hall, hbound]
  · rw [hvalue]
    simp [hne, hall, hbound]

theorem readPlaces?_repr {n : Nat} (h : n < placesBound) : readPlaces? n.repr = some n := by
  have hn : Nat.ofDigitChars 10 (Nat.toDigits 10 n) 0 = n :=
    Nat.ofDigitChars_toDigits (by decide) (by decide)
  have hread := @readPlaces?_digits n.repr (Nat.toDigits 10 n) Nat.toDigits_ne_nil
    (fun c => Nat.isDigit_of_mem_toDigits (by decide) (by decide)) (hn.symm ▸ h)
    (.inl Nat.toList_repr)
  rwa [hn] at hread

theorem set?_text {x : Setting} (h : x.InRange) :
    Options.set? {} x.name x.text = some x.option := by
  rcases x with f | e | c | n
  · cases f <;> decide
  · cases e <;> decide
  · cases c <;> decide
  · have hn : n < placesBound := Nat.lt_of_le_of_lt h (by decide)
    show (readPlaces? n.repr).map _ = _
    rw [readPlaces?_repr hn]
    rfl

/-- A value begins with a letter or a digit. -/
theorem exists_text_eq_cons (x : Setting) :
    ∃ c cs, x.text.toList = c :: cs ∧ c.isAlphanum = true := by
  rcases x with f | e | c | n
  · cases f <;> exact ⟨_, _, rfl, by decide⟩
  · cases e <;> exact ⟨_, _, rfl, by decide⟩
  · cases c <;> exact ⟨_, _, rfl, by decide⟩
  · obtain ⟨c, cs, hcs⟩ := List.exists_cons_of_ne_nil (@Nat.toDigits_ne_nil n 10)
    have hdigit : c.isDigit = true :=
      Nat.isDigit_of_mem_toDigits (by decide) (by decide) (hcs ▸ List.mem_cons_self)
    refine ⟨c, cs, ?_, by simp [Char.isAlphanum, hdigit]⟩
    rw [text, Nat.toList_repr, hcs]

theorem Flag.written {x : Setting} {words : List String} (h : x.Flag words) :
    x.name.Written x.text words := by
  obtain ⟨c, cs, htext, hc⟩ := x.exists_text_eq_cons
  have hhead {d : Char} (hd : d.isAlphanum = false) : x.text.toList.head? ≠ some d := by
    rw [htext, List.head?_cons]
    rintro ⟨⟩
    rw [hc] at hd
    cases hd
  have hne : x.text ≠ "" := by
    intro hempty
    rw [hempty] at htext
    cases htext
  cases h with
  | long => exact .long (.inl (hhead (by decide)))
  | longAttached => exact .longAttached
  | short h => exact .short h (.inl (hhead (by decide)))
  | shortAttached h => exact .shortAttached h hne (hhead (by decide))
  | shortEquals h => exact .shortEquals h

end Setting

namespace CommandLine

open Argument

theorem ofString_word {word : String} (h : word.toList.head? ≠ some '-' ∨ word = "-") :
    ofString word = .word word := by
  rcases h with h | rfl
  · unfold ofString
    split <;> simp_all
  · rfl

theorem ofString_long (name : OptionName) : ofString ("--" ++ name.long) = .option name none := by
  cases name <;> decide

theorem ofString_longAttached (name : OptionName) (value : String) :
    ofString ("--" ++ name.long ++ "=" ++ value) = .option name (some value) := by
  unfold ofString
  cases name <;> simp [OptionName.long, ofLong, OptionName.ofLong?]

theorem ofString_short {name : OptionName} {letter : Char} (h : name.short? = some letter) :
    ofString ("-" ++ letter.toString) = .option name none := by
  cases name <;> cases h <;> decide

theorem ofString_shortAttached {name : OptionName} {letter : Char} (h : name.short? = some letter)
    {value : String} (hne : value ≠ "") (hvalue : value.toList.head? ≠ some '=') :
    ofString ("-" ++ letter.toString ++ value) = .option name (some value) := by
  obtain ⟨c, cs, hcs⟩ : ∃ c cs, value.toList = c :: cs :=
    List.exists_cons_of_ne_nil fun hnil => hne (String.toList_injective hnil)
  have hequals : c ≠ '=' := by
    rintro rfl
    exact hvalue (by rw [hcs, List.head?_cons])
  have htext : ("-" ++ letter.toString ++ value).toList = '-' :: letter :: c :: cs := by
    simp [hcs]
  have hback : String.ofList (c :: cs) = value := by rw [← hcs, String.ofList_toList]
  unfold ofString
  rw [htext]
  cases name <;> cases h <;> simp [ofShort, OptionName.ofShort?, hequals, hback]

theorem ofString_shortEquals {name : OptionName} {letter : Char} (h : name.short? = some letter)
    (value : String) : ofString ("-" ++ letter.toString ++ "=" ++ value)
      = .option name (some value) := by
  unfold ofString
  cases name <;> cases h <;> simp [ofShort, OptionName.ofShort?]

/-- Each way to write an option gives it and nothing else. -/
theorem writes_of_written {name : OptionName} {value : String} {d : Options} {words : List String}
    (h : name.Written value words) (hset : Options.set? {} name value = some d) :
    Writes words d := by
  cases h with
  | long hvalue => exact .following (ofString_long _) (ofString_word hvalue) hset
  | longAttached => exact .attached (ofString_longAttached _ _) hset
  | short h hvalue => exact .following (ofString_short h) (ofString_word hvalue) hset
  | shortAttached h hne hvalue => exact .attached (ofString_shortAttached h hne hvalue) hset
  | shortEquals h => exact .attached (ofString_shortEquals h _) hset

theorem writes_of_flag {x : Setting} (hx : x.InRange) {words : List String}
    (h : x.Flag words) : Writes words x.option :=
  writes_of_written h.written (Setting.set?_text hx)

/-- The flags are written into a line one after the other, each where options may stand. -/
inductive Given : List Setting → List String → List String → Prop
  | none {line : List String} : Given [] line line
  | flag {xs : List Setting} {x : Setting} {line before after words : List String}
    (h : Given xs line (before ++ after)) (hbefore : Open before) (hx : x.Flag words) :
    Given (x :: xs) line (before ++ words ++ after)

/-- All these settings as options. -/
def options (xs : List Setting) : Options :=
  xs.foldr (fun x o => o.or x.option) {}

theorem gives_option (x : Setting) (name : OptionName) :
    x.option.gives name = decide (name = x.name) := by
  cases x <;> cases name <;> rfl

theorem apart_option_iff {o : Options} {x : Setting} :
    o.Apart x.option ↔ o.gives x.name = false :=
  Options.apart_iff (gives_option x)

theorem gives_options {xs : List Setting} {name : OptionName} :
    (options xs).gives name = true ↔ name ∈ xs.map Setting.name := by
  induction xs with
  | nil => simp [options]
  | cons x xs ih =>
    rw [options, List.foldr_cons, Options.gives_or, Bool.or_eq_true, List.map_cons, List.mem_cons,
      gives_option, decide_eq_true_iff, or_comm]
    exact or_congr_right ih

theorem file_options (xs : List Setting) : (options xs).file = none := by
  have hfile : (options xs).gives .file ≠ true := by
    rw [Ne, gives_options, List.mem_map]
    rintro ⟨x, -, hx⟩
    cases x <;> cases hx
  simpa [Options.gives] using hfile

/-- A line with flags asks for what it asks for without them, with their settings. -/
theorem read_of_given {xs : List Setting} {line line' : List String} {r : Request}
    (h : Given xs line line') (hread : read line = .request r)
    (hkinds : (xs.map Setting.name).Nodup) (hranges : ∀ x ∈ xs, x.InRange)
    (hfree : ∀ x ∈ xs, r.options.gives x.name = false) :
    read line' = .request ⟨r.options.or (options xs), r.task⟩ := by
  induction h with
  | none => rw [hread, options, List.foldr_nil, Options.or_empty]
  | @flag xs x line before after words _ hbefore hx ih =>
    rw [List.map_cons, List.nodup_cons] at hkinds
    obtain ⟨hrange, hranges⟩ := List.forall_mem_cons.1 hranges
    obtain ⟨hfree, hfrees⟩ := List.forall_mem_cons.1 hfree
    have hothers : (options xs).gives x.name = false :=
      Bool.eq_false_iff.2 fun hx => hkinds.1 (gives_options.1 hx)
    have hapart : (r.options.or (options xs)).Apart x.option :=
      apart_option_iff.2 (by rw [Options.gives_or, hfree, hothers, Bool.or_self])
    have hinsert := read_insert hbefore (ih hread hkinds.2 hranges hfrees)
      (writes_of_flag hrange hx) hapart
    rw [hinsert]
    show Reading.request ⟨(r.options.or (options xs)).or x.option, r.task⟩ = _
    rw [Options.or_assoc]
    rfl

end CommandLine

end Calculator

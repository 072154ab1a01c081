import Calculator.Proofs.Sources

/-!
# Words behind the separator

Behind `--` no word is an option, a command or another separator. Whatever stands there is one
expression, its words joined by single spaces, so it may as well be given as one word; the options
before it are the settings that its answer has (`Program.run_separator`).
-/

namespace Calculator

/-- What one option gives: a setting, or the settings file. -/
inductive Choice where
  | setting (x : Setting)
  | file (path : String)
deriving DecidableEq, Repr

namespace Choice

def name : Choice → OptionName
  | setting x => x.name
  | file _ => .file

def option : Choice → Options
  | setting x => x.option
  | file path => { file := some path }

def setting? : Choice → Option Setting
  | setting x => some x
  | file _ => none

def file? : Choice → Option String
  | setting _ => none
  | file path => some path

/-- The texts of a choice. A number of places may have zeros in front, and a plus sign. -/
inductive Text : Choice → String → Prop
  | format (f : Format) : Text (setting (.format f)) f.name
  | emission (e : Emission) : Text (setting (.emission e)) e.name
  | colour (c : ColourChoice) : Text (setting (.colour c)) c.name
  | places {text : String} {digits : List Char} (hne : digits ≠ [])
    (hdigits : ∀ c ∈ digits, c.isDigit = true)
    (hbound : Nat.ofDigitChars 10 digits 0 < placesBound)
    (htext : text.toList = digits ∨ text.toList = '+' :: digits) :
    Text (setting (.places (Nat.ofDigitChars 10 digits 0))) text
  | file {path : String} (h : path ≠ "") : Text (file path) path

/-- Arguments that give this choice. -/
def Written (c : Choice) (words : List String) : Prop :=
  ∃ text, c.Text text ∧ c.name.Written text words

/-- Choices as options, where the first of a name holds. -/
def options (choices : List Choice) : Options :=
  choices.foldr (fun c o => c.option.or o) {}

theorem options_eq (choices : List Choice) : options choices =
    let flags := choices.filterMap setting?
    { format := flags.findSome? Setting.format?
      emission := flags.findSome? Setting.emission?
      colour := flags.findSome? Setting.colour?
      places := flags.findSome? Setting.places?
      file := choices.findSome? file? } := by
  induction choices with
  | nil => rfl
  | cons c choices ih =>
    rw [options, List.foldr_cons, ← options, ih]
    rcases c with (_ | _ | _ | _) | _ <;>
      simp [Options.or, option, Setting.option, List.filterMap_cons, List.findSome?_cons, setting?,
        file?, Setting.format?, Setting.emission?, Setting.colour?, Setting.places?]

theorem set?_of_text {c : Choice} {text : String} (h : c.Text text) :
    Options.set? {} c.name text = some c.option := by
  cases h with
  | format f => exact @Setting.set?_text (.format f) trivial
  | emission e => exact @Setting.set?_text (.emission e) trivial
  | colour c => exact @Setting.set?_text (.colour c) trivial
  | places hne hdigits hbound htext =>
    have hread := Setting.readPlaces?_digits hne hdigits hbound htext
    show (readPlaces? text).map _ = _
    rw [hread]
    rfl
  | file h => simp [Options.set?, name, option, h]

variable {choices : List Choice} {parts : List (List String)} {words args : List String}

/-- Options before anything else are all read. -/
theorem resume_written (h : List.Forall₂ Written choices parts) : ∀ {o : Options},
    (choices.map name).Nodup → (∀ c ∈ choices, o.gives c.name = false) →
      (⟨none, o, none⟩ : CommandLine.Progress).resume (parts.flatten ++ args)
        = (⟨none, o.or (options choices), none⟩ : CommandLine.Progress).resume args := by
  induction h with
  | nil =>
    intro o _ _
    rw [List.flatten_nil, List.nil_append, options, List.foldr_nil, Options.or_empty]
  | @cons c words choices parts hc _ ih =>
    intro o hnames hfree
    rw [List.map_cons, List.nodup_cons] at hnames
    obtain ⟨hc', hfree⟩ := List.forall_mem_cons.1 hfree
    obtain ⟨text, htext, hwords⟩ := hc
    have hset := set?_of_text htext
    have hgives (n : OptionName) : c.option.gives n = decide (n = c.name) :=
      Options.gives_of_set? hset
    have hothers : ∀ d ∈ choices, (o.or c.option).gives d.name = false := by
      intro d hd
      have hne : d.name ≠ c.name := fun hname => hnames.1 (hname ▸ List.mem_map_of_mem hd)
      rw [Options.gives_or, hfree d hd, hgives, decide_eq_false hne, Bool.or_self]
    rw [List.flatten_cons, List.append_assoc,
      CommandLine.resume_writes (CommandLine.writes_of_written hwords hset)
        ((Options.apart_iff hgives).2 hc'),
      ih hnames.2 hothers, Options.or_assoc]
    rfl

theorem read_written (hparts : List.Forall₂ Written choices parts)
    (hnames : (choices.map name).Nodup) (hwords : words ≠ []) :
    CommandLine.read (parts.flatten ++ "--" :: words)
      = .request ⟨options choices, some (.evaluate (" ".intercalate words))⟩ := by
  have hseparator : CommandLine.Argument.ofString "--" = .separator := by decide
  have hresume := @resume_written _ _ ("--" :: words) hparts {} hnames
    fun c _ => Options.gives_empty
  rw [Options.empty_or] at hresume
  refine hresume.trans ?_
  simp [CommandLine.Progress.resume, CommandLine.readFrom, hseparator, hwords]

end Choice

namespace Program

/-- Any words behind `--` do what one word does, all of them joined by single spaces: this is the
expression that is evaluated, with the settings that the options before it give and, where they
give none, with those of the settings file. -/
theorem run_separator {choices : List Choice} {parts : List (List String)} {words : List String}
    (hparts : List.Forall₂ Choice.Written choices parts)
    (hnames : (choices.map Choice.name).Nodup) (hwords : words ≠ []) (s : Surroundings) :
    let line := parts.flatten ++ "--" :: words
    let expression := " ".intercalate words
    run s line = run s (parts.flatten ++ ["--", expression]) ∧
    ∀ file : Settings, fileSettings s (choices.findSome? Choice.file?) = .ok file →
      let flags := choices.filterMap Choice.setting?
      let colour := (flags.findSome? Setting.colour?).getD file.colour
      let answer := Answer.give {
        format := (flags.findSome? Setting.format?).getD file.format
        emission := (flags.findSome? Setting.emission?).getD file.emission
        coloured := colour = .always || (colour = .auto && s.onTerminal)
        places := (flags.findSome? Setting.places?).or file.places } .evaluate none expression
      run s line = .ofAnswer answer ∧
        (run s line).status.code = if answer.succeeded then 0 else 1 := by
  intro line expression
  have hread := Choice.read_written hparts hnames hwords
  have hread' := Choice.read_written hparts hnames (List.cons_ne_nil expression [])
  have hone : " ".intercalate [expression] = expression := by simp
  rw [hone] at hread'
  refine ⟨by rw [run, run, hread, hread'], ?_⟩
  intro file hfile flags colour answer
  have hrun : run s line = .ofAnswer answer := by
    rw [run, hread, Choice.options_eq]
    simp only [Program.answer, presentation, hfile, map_ok, Settings.presentation_eq]
    rfl
  refine ⟨hrun, ?_⟩
  rw [hrun, Ending.ofAnswer]
  split_ifs <;> rfl

/-- Words that would be a separator, an option and a command, and an empty one; and operators that
follow their operands, where an option wins over the file for its own setting only. -/
theorem run_separator_words :
    let keys := [.places 2, .emission .postfixOrder]
    let s : Surroundings := ⟨fun _ => some (Setting.document keys).toUTF8, ByteArray.empty, none,
      false⟩
    run s ["-fjson", "-c=c", "--precision", "+02", "--", "--", "-V", "run", ""]
        = run s ["-fjson", "-c=c", "--precision", "+02", "--", "-- -V run "] ∧
      run s ["-fjson", "-c=c", "--precision", "+02", "--", "--", "-V", "run", ""]
        = ⟨.failure, "\x7b\"errors\":[\x7b\"stage\":\"lex\",\"spans\":" ++
          "[\x7b\"start\":4,\"end\":5\x7d],\"desc\":\"Found an invalid character 'V'\"\x7d]\x7d\n",
          none⟩ ∧
      run s ["-c=c", "-evalue", "--", "1", "2", "3", "--"] = ⟨.success, "2.00\n", none⟩ := by
  intro keys s
  have hfile : fileSettings s (some "c") = .ok (Setting.resolve keys) :=
    fileSettings_of_reads (by decide +kernel : fileText? s "c" = some (Setting.document keys))
      (Setting.read?_of_lists (Setting.lists_document keys)
        ⟨by decide, by simp [keys, Setting.InRange]⟩)
  have hc : Choice.Written (.file "c") ["-c=c"] :=
    ⟨"c", .file (by decide), @OptionName.Written.shortEquals .file "c" 'c' rfl⟩
  have hparts : List.Forall₂ Choice.Written
      [.setting (.format .json), .file "c", .setting (.places 2)]
      [["-fjson"], ["-c=c"], ["--precision", "+02"]] := by
    refine .cons ⟨"json", .format .json, ?_⟩ (.cons hc (.cons ⟨"+02", ?_, ?_⟩ .nil))
    · exact @OptionName.Written.shortAttached .format "json" 'f' rfl (by decide) (by decide)
    · exact @Choice.Text.places "+02" ['0', '2'] (by decide)
        (List.all_eq_true.1 (by decide)) (by decide) (.inr (by decide))
    · exact @OptionName.Written.long .places "+02" (.inl (by decide))
  have hparts' : List.Forall₂ Choice.Written [.file "c", .setting (.emission .value)]
      [["-c=c"], ["-evalue"]] := by
    refine .cons hc (.cons ⟨"value", .emission .value, ?_⟩ .nil)
    exact @OptionName.Written.shortAttached .emission "value" 'e' rfl (by decide) (by decide)
  obtain ⟨hsame, hanswer⟩ := run_separator hparts (by decide)
    (List.cons_ne_nil "--" ["-V", "run", ""]) s
  obtain ⟨-, hanswer'⟩ := run_separator hparts' (by decide)
    (List.cons_ne_nil "1" ["2", "3", "--"]) s
  refine ⟨hsame, (hanswer _ hfile).1.trans ?_, (hanswer' _ hfile).1.trans ?_⟩
  · simp only [Answer.give, Answer.text, Report.write_json]
    decide +kernel
  · decide +kernel

end Program

end Calculator

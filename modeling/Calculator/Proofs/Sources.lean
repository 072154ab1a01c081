import Calculator.Program
import Calculator.Proofs.Flags
import Calculator.Proofs.Reports
import Calculator.Proofs.Runs
import Calculator.Proofs.SettingsLines

/-!
# Where settings come from

A setting means the same as a flag and as a line of a settings file: both add it to the settings
that hold otherwise (`Setting.over_options`, `Setting.read?_of_lists`). So the program does the same
wherever its settings are given, a flag wins over the file, and what neither gives has its default
(`Program.run_settings`).
-/

namespace Calculator

/-- Output is coloured if it always is, or if it goes to a terminal and may be. -/
theorem Settings.presentation_eq (s : Settings) (onTerminal : Bool) :
    s.presentation onTerminal = ⟨s.format, s.emission,
      s.colour = .always || (s.colour = .auto && onTerminal), s.places⟩ := by
  obtain ⟨f, e, c, n⟩ := s
  cases c <;> rfl

namespace Setting

/-- The settings with this one. -/
def apply : Setting → Settings → Settings
  | format f, s => { s with format := f }
  | emission e, s => { s with emission := e }
  | colour c, s => { s with colour := c }
  | places n, s => { s with places := some n }

def format? : Setting → Option Format
  | format f => some f
  | _ => none

def emission? : Setting → Option Emission
  | emission e => some e
  | _ => none

def colour? : Setting → Option ColourChoice
  | colour c => some c
  | _ => none

def places? : Setting → Option Nat
  | places n => some n
  | _ => none

/-- The settings that a list of them makes: each is the first one given of its kind, or else has its
default. -/
def resolve (xs : List Setting) : Settings where
  format := (xs.findSome? format?).getD .pretty
  emission := (xs.findSome? emission?).getD .value
  colour := (xs.findSome? colour?).getD .auto
  places := xs.findSome? places?

/-- At most one setting of each kind, all of them in range. -/
structure Coherent (xs : List Setting) : Prop where
  kinds : (xs.map name).Nodup
  ranges : ∀ x ∈ xs, x.InRange

variable {x y : Setting} {xs ys : List Setting} {s : Settings}

theorem Coherent.nil : Coherent [] :=
  ⟨List.nodup_nil, by simp⟩

theorem Coherent.perm (h : Coherent xs) (hperm : xs.Perm ys) : Coherent ys :=
  ⟨(hperm.map name).nodup_iff.1 h.kinds, fun x hx => h.ranges x (hperm.mem_iff.2 hx)⟩

theorem foldr_apply_eq_resolve : ∀ xs : List Setting, xs.foldr apply {} = resolve xs
  | [] => rfl
  | x :: xs => by
    rw [List.foldr_cons, foldr_apply_eq_resolve xs]
    cases x <;> simp [resolve, apply, List.findSome?_cons, format?, emission?, colour?, places?]

theorem apply_comm (h : x.name ≠ y.name) : x.apply (y.apply s) = y.apply (x.apply s) := by
  cases x <;> cases y <;> first | rfl | exact absurd rfl h

theorem foldr_apply_perm (h : xs.Perm ys) (hkinds : (xs.map name).Nodup) :
    xs.foldr apply s = ys.foldr apply s := by
  induction h with
  | nil => rfl
  | cons x _ ih =>
    rw [List.map_cons, List.nodup_cons] at hkinds
    rw [List.foldr_cons, List.foldr_cons, ih hkinds.2]
  | swap x y xs =>
    rw [List.map_cons, List.nodup_cons, List.map_cons, List.mem_cons, not_or] at hkinds
    exact apply_comm hkinds.1.1
  | trans h _ ih ih' =>
    exact (ih hkinds).trans (ih' ((h.map name).nodup_iff.1 hkinds))

theorem over_or_option {o : Options} (h : o.gives x.name = false) :
    (o.or x.option).over s = x.apply (o.over s) := by
  obtain ⟨⟨f, e, c, p⟩, file⟩ := o
  cases x
  all_goals
    simp only [name, Options.gives, Option.isSome_eq_false_iff, Option.isNone_iff_eq_none] at h
    subst h
    simp [Options.or, option, PartialSettings.over, apply]

theorem over_options (file : Option String) (h : (xs.map name).Nodup) :
    (Options.or { file := file } (CommandLine.options xs)).over s = xs.foldr apply s := by
  induction xs with
  | nil => simp [CommandLine.options, Options.or_empty, PartialSettings.over]
  | cons x xs ih =>
    rw [List.map_cons, List.nodup_cons] at h
    have hothers : (CommandLine.options xs).gives x.name = false :=
      Bool.eq_false_iff.2 fun hx => h.1 (CommandLine.gives_options.1 hx)
    have hfile : ({ file := file } : Options).gives x.name = false := by
      cases x <;> rfl
    have hgives : (Options.or { file := file } (CommandLine.options xs)).gives x.name = false := by
      rw [Options.gives_or, hfile, hothers, Bool.or_self]
    show (Options.or _ ((CommandLine.options xs).or x.option)).over s = _
    rw [← Options.or_assoc, over_or_option hgives, ih h.2, List.foldr_cons]

def value : Setting → SettingsFile.Value
  | format f => .text f.name.toList
  | emission e => .text e.name.toList
  | colour c => .text c.name.toList
  | places n => .integer n

def entry : Setting → SettingsFile.Entry
  | format f => .text f.name.toList
  | emission e => .text e.name.toList
  | colour c => .text c.name.toList
  | places n => .integer n

/-- The key of a setting in a file. -/
def key (x : Setting) : List Char :=
  x.name.long.toList

/-- A file gives these settings, line by line. -/
def Lists (text : String) (xs : List Setting) : Prop :=
  SettingsFile.Assigns text.toList (xs.map fun x => (x.key, x.value))

theorem key_eq_iff : x.key = y.key ↔ x.name = y.name :=
  ⟨fun h => OptionName.long_injective (String.toList_inj.1 h),
    congrArg fun name : OptionName => name.long.toList⟩

theorem nodup_keys (h : (xs.map name).Nodup) : (xs.map key).Nodup := by
  rw [List.Nodup, List.pairwise_map] at h ⊢
  exact h.imp fun hne hkey => hne (key_eq_iff.1 hkey)

theorem value_ne_empty (x : Setting) : x.value ≠ .empty := by
  cases x <;> simp [value]

theorem entry_value (x : Setting) : x.value.entry = x.entry := by
  cases x <;> rfl

theorem set?_entry (h : x.InRange) (s : Settings) :
    SettingsFile.set? s (x.key, x.entry) = some (x.apply s) := by
  rcases x with f | e | c | n
  · cases f <;> rfl
  · cases e <;> rfl
  · cases c <;> rfl
  · have hn : n < placesBound := Nat.lt_of_le_of_lt h (by decide)
    have hplaces : SettingsFile.Entry.places? (.integer n) = some n := by
      simp [SettingsFile.Entry.places?, hn]
    have hkey : String.ofList (places n).key = "precision" := String.ofList_toList
    unfold SettingsFile.set?
    rw [hkey]
    simp [entry, hplaces, apply]

theorem foldlM_set? : ∀ {xs : List Setting}, (∀ x ∈ xs, x.InRange) → ∀ s : Settings,
    (xs.map fun x => (x.key, x.entry)).foldlM SettingsFile.set? s
      = some (xs.foldl (fun s x => x.apply s) s)
  | [], _, s => rfl
  | x :: xs, h, s => by
    obtain ⟨hx, hxs⟩ := List.forall_mem_cons.1 h
    simp [set?_entry hx, foldlM_set? hxs]

theorem entries?_settings (h : (xs.map name).Nodup) : SettingsFile.entries?
    ((xs.map fun x => (x.key, x.value)).map fun a => .assign ⟨a.1, none⟩ a.2)
      = some (xs.map fun x => (x.key, x.entry)).reverse := by
  have hvalues : ∀ a ∈ xs.map fun x => (x.key, x.value), a.2 ≠ .empty := by
    simp [value_ne_empty]
  have hkeys : ((xs.map fun x => (x.key, x.value)).map (·.1)).Nodup := by
    simpa [Function.comp_def] using nodup_keys h
  rw [SettingsFile.entries?_eq hvalues, if_pos hkeys, List.map_map]
  simp [Function.comp_def, entry_value]

/-- A file gives the settings that it assigns, with at most one of each kind. -/
theorem read?_of_statements {text : String} (h : SettingsFile.statements? text.toList
    = some ((xs.map fun x => (x.key, x.value)).map fun a => .assign ⟨a.1, none⟩ a.2))
    (hxs : Coherent xs) : Settings.read? text = some (resolve xs) := by
  have hranges : ∀ x ∈ xs.reverse, x.InRange := fun x hx => hxs.ranges x (List.mem_reverse.1 hx)
  unfold Settings.read?
  rw [h]
  show (SettingsFile.entries? _).bind _ = _
  rw [entries?_settings hxs.kinds]
  show List.foldlM SettingsFile.set? {} _ = _
  rw [← List.map_reverse, foldlM_set? hranges, List.foldl_reverse, foldr_apply_eq_resolve]

theorem read?_of_lists {text : String} (h : Lists text xs) (hxs : Coherent xs) :
    Settings.read? text = some (resolve xs) :=
  read?_of_statements (SettingsFile.statements?_of_assigns h) hxs

/-- The value of a setting as it stands in a file. -/
def writing : Setting → List Char
  | places n => Nat.toDigits 10 n
  | x => '"' :: x.text.toList ++ ['"']

/-- A file with these settings, one a line. -/
def document (xs : List Setting) : String :=
  String.ofList
    (['\n'].intercalate (xs.map fun x => x.key ++ ([' '] ++ '=' :: ([' '] ++ x.writing))))

theorem writing_value (x : Setting) : SettingsFile.Writing x.writing x.value := by
  rcases x with f | e | c | n
  · exact .bare (by cases f <;> decide)
  · exact .bare (by cases e <;> decide)
  · exact .bare (by cases c <;> decide)
  · exact .natural n

theorem lists_document (xs : List Setting) : Lists (document xs) xs := by
  have hspace : SettingsFile.Spaces [' '] := by simp [SettingsFile.Spaces, SettingsFile.isSpace]
  have hnone : SettingsFile.Spaces [] := by simp [SettingsFile.Spaces]
  have hname (name : OptionName) :
      name.long.toList ≠ [] ∧ name.long.toList.all SettingsFile.isBare = true := by
    cases name <;> decide
  refine ⟨xs.map fun x => (x.key ++ ([' '] ++ '=' :: ([' '] ++ (x.writing ++ []))),
    some (x.key, x.value)), ?_, ?_, ?_⟩
  · rw [List.forall_mem_map]
    intro x _
    exact .assignment hnone (hname x.name).1 (List.all_eq_true.1 (hname x.name).2) hspace hspace
      x.writing_value (.spaces hnone)
  · simp [document, Function.comp_def]
  · rw [List.filterMap_map]
    exact (congrFun List.filterMap_eq_map xs).symm

end Setting

namespace Program

/-- The settings file that holds has this text. Without a file it is as if it were empty. -/
def ReadsSettings (s : Surroundings) (named : Option String) (text : String) : Prop :=
  match named, s.standing with
  | some path, _ => fileText? s path = some text
  | none, some (_, content) => String.fromUTF8? content = some text
  | none, none => text = ""

theorem fileSettings_of_reads {s : Surroundings} {named : Option String} {text : String}
    {settings : Settings} (h : ReadsSettings s named text)
    (hread : Settings.read? text = some settings) : fileSettings s named = .ok settings := by
  obtain ⟨file, input, standing, onTerminal⟩ := s
  rcases named with _ | path
  · rcases standing with _ | ⟨path, content⟩
    · obtain rfl : text = "" := h
      have hnone : Settings.read? "" = some {} := by decide
      rw [hnone, Option.some_inj] at hread
      rw [← hread]
      rfl
    · have hcontent : String.fromUTF8? content = some text := h
      simp [fileSettings, readSettings, hcontent, hread]
  · have hfile : fileText? ⟨file, input, standing, onTerminal⟩ path = some text := h
    simp [fileSettings, readSettings, hfile, hread]

/-- The standing settings have no part in what is done once the settings are known. -/
theorem perform_standing (s : Surroundings) (standing : Option (String × ByteArray))
    (p : Presentation) (task : Task) :
    perform { s with standing := standing } p task = perform s p task := by
  cases task <;> rfl

/-- What a line with flags does, over the settings of a file. -/
theorem run_of_given {s : Surroundings} {line line' : List String} {named : Option String}
    {task : Task} {text : String} {flags keys : List Setting}
    (hline : CommandLine.read line = .request ⟨{ file := named }, some task⟩)
    (hflags : CommandLine.Given flags line line') (hcoherent : Setting.Coherent flags)
    (htext : ReadsSettings s named text)
    (hkeys : Settings.read? text = some (Setting.resolve keys)) :
    run s line' = perform s ((Setting.resolve (flags ++ keys)).presentation s.onTerminal) task := by
  have hfree : ∀ x ∈ flags, ({ file := named } : Options).gives x.name = false := by
    intro x _
    cases x <;> rfl
  have hread := CommandLine.read_of_given hflags hline hcoherent.kinds hcoherent.ranges hfree
  have hsettings := fileSettings_of_reads htext hkeys
  have hfile : (Options.or { file := named } (CommandLine.options flags)).file = named := by
    show named.or (CommandLine.options flags).file = named
    rw [CommandLine.file_options, Option.or_none]
  unfold run
  rw [hread]
  simp only [answer, presentation, hfile, hsettings, map_ok]
  rw [Setting.over_options named hcoherent.kinds, ← Setting.foldr_apply_eq_resolve keys,
    ← List.foldr_append, Setting.foldr_apply_eq_resolve]

/-- Settings are given on the command line or in a file, all or only some of them and in any order:
the program does the same, whichever file it is. Where both give a setting the flag wins, and each
setting that neither gives has its default. A file gives the settings that are read from it, and
one of lines those of its lines. -/
theorem run_settings :
    (∀ (s : Surroundings) (standing : Option (String × ByteArray)) (line line' other : List String)
      (named named' : Option String) (task : Task) (flags keys : List Setting)
      (blank text : String), Setting.Coherent flags → flags.Perm keys →
      CommandLine.read line = .request ⟨{ file := named }, some task⟩ →
      CommandLine.Given flags line line' → ReadsSettings s named blank →
      Settings.read? blank = some {} →
      CommandLine.read other = .request ⟨{ file := named' }, some task⟩ →
      ReadsSettings { s with standing := standing } named' text →
      Settings.read? text = some (Setting.resolve keys) →
        run s line' = run { s with standing := standing } other) ∧
    (∀ (s : Surroundings) (line line' : List String) (named : Option String) (task : Task)
      (text : String) (flags keys : List Setting), Setting.Coherent flags →
      CommandLine.read line = .request ⟨{ file := named }, some task⟩ →
      CommandLine.Given flags line line' → ReadsSettings s named text →
      Settings.read? text = some (Setting.resolve keys) →
        let colour := ((flags.findSome? Setting.colour?).or
          (keys.findSome? Setting.colour?)).getD .auto
        run s line' = perform s {
          format := ((flags.findSome? Setting.format?).or
            (keys.findSome? Setting.format?)).getD .pretty
          emission := ((flags.findSome? Setting.emission?).or
            (keys.findSome? Setting.emission?)).getD .value
          coloured := colour = .always || (colour = .auto && s.onTerminal)
          places := (flags.findSome? Setting.places?).or (keys.findSome? Setting.places?) } task) ∧
    ∀ (text : String) (keys : List Setting), Setting.Coherent keys → Setting.Lists text keys →
      Settings.read? text = some (Setting.resolve keys) := by
  refine ⟨?_, ?_, fun text keys hcoherent hlists => Setting.read?_of_lists hlists hcoherent⟩
  · intro s standing line line' other named named' task flags keys blank text hcoherent hperm hline
      hflags hblank hempty hother htext hkeys
    have hnone : Settings.read? blank = some (Setting.resolve []) := hempty
    rw [run_of_given hline hflags hcoherent hblank hnone,
      run_of_given hother .none .nil htext hkeys, perform_standing s standing, List.append_nil,
      List.nil_append, ← Setting.foldr_apply_eq_resolve, ← Setting.foldr_apply_eq_resolve,
      Setting.foldr_apply_perm hperm hcoherent.kinds]
  · intro s line line' named task text flags keys hcoherent hline hflags htext hkeys colour
    rw [run_of_given hline hflags hcoherent htext hkeys, Settings.presentation_eq]
    simp only [Setting.resolve, List.findSome?_append, colour]

/-- A script run with flags in front and behind, and with a file of the same settings. Two other
flags win over the file for their own settings only. -/
theorem run_settings_script :
    let keys := [.places 2, .colour .always, .format .json, .emission .postfixOrder]
    let s : Surroundings := ⟨fun path => some (if path = "c" then Setting.document keys
      else "1/3\n(").toUTF8, ByteArray.empty, none, false⟩
    run s ["-f", "json", "-epostfix", "run", "f", "--color=always", "--precision", "2"]
        = run s ["run", "-c", "c", "f"] ∧
      run s ["run", "-c", "c", "f"]
        = ⟨.failure, "\x7b\"line\":1,\"postfix\":[\"1\",\"3\",\"/\"]\x7d\n" ++
          "\x7b\"line\":2,\"errors\":[\x7b\"stage\":\"syntax\",\"spans\":" ++
          "[\x7b\"start\":0,\"end\":1\x7d],\"desc\":\"Parentheses do not match\"\x7d]\x7d\n",
          none⟩ ∧
      run s ["-fpretty", "run", "-c", "c", "-e", "value", "f"]
        = ⟨.failure, "0.33\n\x1b[1;34m2\x1b[0m \x1b[1;34m│\x1b[0m (\n" ++
          "  \x1b[1;34m│\x1b[0m \x1b[1;31m^\x1b[0m\n" ++
          "  \x1b[1;34m│\x1b[0m \x1b[1;31mParentheses do not match\x1b[0m\n\n",
          none⟩ := by
  intro keys s
  have hkeys : Setting.Coherent keys := ⟨by decide, by simp [keys, Setting.InRange]⟩
  have hread := run_settings.2.2 _ _ hkeys (Setting.lists_document keys)
  have htext : ReadsSettings s (some "c") (Setting.document keys) := by
    show fileText? s "c" = _
    decide +kernel
  have hf : CommandLine.Argument.ofString "f" = .word "f" := by decide
  have hc : CommandLine.Argument.ofString "c" = .word "c" := by decide
  have hrun : CommandLine.Open ["run", "f"] := .of_word (by decide) rfl hf
  have hplaces : CommandLine.Given [.places 2] ["run", "f"] ["run", "f", "--precision", "2"] :=
    @CommandLine.Given.flag [] _ _ ["run", "f"] [] _ .none hrun .long
  have hbehind : CommandLine.Given [.colour .always, .places 2] ["run", "f"]
      ["run", "f", "--color=always", "--precision", "2"] :=
    @CommandLine.Given.flag _ _ _ ["run", "f"] _ _ hplaces hrun .longAttached
  have hemission := @CommandLine.Given.flag _ (.emission .postfixOrder) _ [] _ _ hbehind .nil
    (@Setting.Flag.shortAttached (.emission .postfixOrder) 'e' rfl)
  have hflags : CommandLine.Given
      [.format .json, .emission .postfixOrder, .colour .always, .places 2] ["run", "f"]
      ["-f", "json", "-epostfix", "run", "f", "--color=always", "--precision", "2"] :=
    @CommandLine.Given.flag _ (.format .json) _ [] _ _ hemission .nil
      (@Setting.Flag.short (.format .json) 'f' rfl)
  have hvalue : CommandLine.Given [.emission .value] ["run", "-c", "c", "f"]
      ["run", "-c", "c", "-e", "value", "f"] :=
    @CommandLine.Given.flag [] _ _ ["run", "-c", "c"] ["f"] _ .none (.of_word (by decide) rfl hc)
      (@Setting.Flag.short (.emission .value) 'e' rfl)
  have hover : CommandLine.Given [.format .pretty, .emission .value] ["run", "-c", "c", "f"]
      ["-fpretty", "run", "-c", "c", "-e", "value", "f"] :=
    @CommandLine.Given.flag _ (.format .pretty) _ [] _ _ hvalue .nil
      (@Setting.Flag.shortAttached (.format .pretty) 'f' rfl)
  refine ⟨?_, ?_, ?_⟩
  · exact run_settings.1 s s.standing _ _ _ none (some "c") (.script .evaluate "f") _ keys "" _
      ⟨by decide, by simp [Setting.InRange]⟩ (by decide) (by decide) hflags rfl (by decide)
      (by decide) htext hread
  · rw [run_settings.2.1 s _ _ (some "c") (.script .evaluate "f") _ [] keys .nil (by decide) .none
      htext hread]
    simp only [perform, Script.run, Script.answers, Answer.give, Answer.text, Report.write_json]
    decide +kernel
  · rw [run_settings.2.1 s _ _ (some "c") (.script .evaluate "f") _ _ keys
      ⟨by decide, by simp [Setting.InRange]⟩ (by decide) hover htext hread]
    decide +kernel

end Program

end Calculator

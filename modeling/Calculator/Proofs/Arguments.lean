import Calculator.CommandLine
import Mathlib.Tactic.SplitIfs

/-!
# Options among the arguments

Reading the arguments goes through states (`CommandLine.Progress`), and each argument before `--` of
a line that is a request takes one state to the next (`CommandLine.Takes`). An option that is
written into such a line, wherever no other option waits for its value, is added to the request and
changes nothing else (`CommandLine.read_insert`).
-/

namespace Calculator

namespace Options

/-- Whether an option is among those given. -/
def gives (o : Options) : OptionName → Bool
  | .format => o.format.isSome
  | .emission => o.emission.isSome
  | .colour => o.colour.isSome
  | .places => o.places.isSome
  | .file => o.file.isSome

/-- No option is given in both. -/
def Apart (o d : Options) : Prop :=
  ∀ name, o.gives name = true → d.gives name = false

variable {o o' d e : Options} {name : OptionName} {value : String}

@[simp] theorem gives_empty : ({} : Options).gives name = false := by
  cases name <;> rfl

@[simp] theorem gives_or : (o.or d).gives name = (o.gives name || d.gives name) := by
  cases name <;> exact Option.isSome_or

theorem or_empty (o : Options) : o.or {} = o := by
  obtain ⟨⟨f, e, c, p⟩, file⟩ := o
  simp [Options.or]

theorem empty_or (o : Options) : Options.or {} o = o := by
  obtain ⟨⟨f, e, c, p⟩, file⟩ := o
  simp [Options.or]

theorem or_assoc (o d e : Options) : (o.or d).or e = o.or (d.or e) := by
  simp [Options.or, Option.or_assoc]

theorem option_or_comm {α : Type} : ∀ {a b : Option α}, (a.isSome = true → b.isSome = false) →
    a.or b = b.or a
  | none, b, _ => by simp
  | some a, none, _ => rfl
  | some a, some b, h => by simp at h

theorem Apart.or_comm (h : Apart o d) : o.or d = d.or o := by
  simp only [Options.or, Options.mk.injEq, PartialSettings.mk.injEq]
  exact ⟨⟨option_or_comm (h .format), option_or_comm (h .emission), option_or_comm (h .colour),
    option_or_comm (h .places)⟩, option_or_comm (h .file)⟩

theorem Apart.mono (h : Apart o d) (ho : ∀ name, o'.gives name = true → o.gives name = true) :
    Apart o' d :=
  fun name hname => h name (ho name hname)

theorem Apart.symm (h : Apart o d) : Apart d o := by
  intro name hd
  rw [Bool.eq_false_iff]
  intro ho
  rw [h name ho] at hd
  cases hd

/-- Adding to the options before a command or behind it comes to the same. -/
theorem Apart.or_or_comm (h : Apart d e) : (o.or d).or e = (o.or e).or d := by
  rw [or_assoc, or_assoc, h.or_comm]

/-- One option is apart from those that do not give it. -/
theorem apart_iff (hd : ∀ n, d.gives n = decide (n = name)) :
    Apart o d ↔ o.gives name = false := by
  constructor
  · intro h
    rw [Bool.eq_false_iff]
    intro ho
    have hname := h name ho
    rw [hd, decide_eq_true rfl] at hname
    cases hname
  · intro h n hn
    rw [hd, decide_eq_false_iff_not]
    rintro rfl
    rw [h] at hn
    cases hn

theorem gives_of_set? {n : OptionName} (h : Options.set? {} name value = some d) :
    d.gives n = decide (n = name) := by
  cases name with
  | file =>
    simp only [set?, Option.isSome_none, Bool.false_or, Option.ite_none_left_eq_some,
      Option.some.injEq] at h
    obtain ⟨-, rfl⟩ := h
    cases n <;> rfl
  | _ =>
    obtain ⟨_, -, rfl⟩ := Option.map_eq_some_iff.1 h
    cases n <;> rfl

/-- One more option is added to those given, if it is not among them. -/
theorem set?_eq (o : Options) (name : OptionName) (value : String) : o.set? name value
    = if o.gives name = true then none else (Options.set? {} name value).map o.or := by
  obtain ⟨⟨f, e, c, p⟩, file⟩ := o
  cases name with
  | format => rcases f with _ | f <;> simp [set?, gives, Options.or, Function.comp_def]
  | emission => rcases e with _ | e <;> simp [set?, gives, Options.or, Function.comp_def]
  | colour => rcases c with _ | c <;> simp [set?, gives, Options.or, Function.comp_def]
  | places => rcases p with _ | p <;> simp [set?, gives, Options.or, Function.comp_def]
  | file =>
    rcases file with _ | file
    · by_cases hvalue : value.isEmpty = true
      · simp [set?, gives, hvalue]
      · simp [set?, gives, hvalue, Options.or]
    · simp [set?, gives]

theorem set?_eq_some_iff : o.set? name value = some o' ↔
    o.gives name = false ∧ ∃ d, Options.set? {} name value = some d ∧ o.or d = o' := by
  rw [set?_eq, Option.ite_none_left_eq_some, Bool.not_eq_true, Option.map_eq_some_iff]

theorem set?_of_apart (h : Options.set? {} name value = some d) (hd : Apart o d) :
    o.set? name value = some (o.or d) :=
  set?_eq_some_iff.2 ⟨(apart_iff fun _ => gives_of_set? h).1 hd, d, h, rfl⟩

/-- Options of other names may be given before. -/
theorem set?_or (h : o.set? name value = some o') (ho' : Apart o' e) :
    (o.or e).set? name value = some (o'.or e) := by
  obtain ⟨hgives, d, hd, rfl⟩ := set?_eq_some_iff.1 h
  have hde : Apart d e := ho'.mono fun n hn => by rw [gives_or, hn, Bool.or_true]
  have hname : d.gives name = true := by rw [gives_of_set? hd, decide_eq_true rfl]
  refine set?_eq_some_iff.2 ⟨?_, d, hd, hde.or_or_comm.symm⟩
  rw [gives_or, hgives, hde name hname, Bool.or_false]

end Options

namespace CommandLine

/-- How far reading has come: the command, if there was one, with the options before it and the path
behind it, and the options on this side of it. An option may be `awaiting` its value. -/
structure Progress where
  command : Option (Options × Command × Option String)
  options : Options
  awaiting : Option OptionName
deriving DecidableEq, Repr

namespace Progress

def start : Progress :=
  ⟨none, {}, none⟩

/-- Reads on from here. -/
def resume (p : Progress) (args : List String) : Reading :=
  match p.command with
  | none => readFrom args p.options p.awaiting
  | some (outer, command, path) => readCommand outer command args p.options p.awaiting path

end Progress

/-- What an argument before `--` does, if the line can still be a request. -/
inductive Takes : Progress → String → Progress → Prop
  | named {c : Option (Options × Command × Option String)} {o : Options} {name : OptionName}
    {arg : String} (h : Argument.ofString arg = .option name none) :
    Takes ⟨c, o, none⟩ arg ⟨c, o, some name⟩
  | attached {c : Option (Options × Command × Option String)} {o o' : Options} {name : OptionName}
    {arg value : String} (h : Argument.ofString arg = .option name (some value))
    (hset : o.set? name value = some o') : Takes ⟨c, o, none⟩ arg ⟨c, o', none⟩
  | value {c : Option (Options × Command × Option String)} {o o' : Options} {name : OptionName}
    {arg value : String} (h : Argument.ofString arg = .word value)
    (hset : o.set? name value = some o') : Takes ⟨c, o, some name⟩ arg ⟨c, o', none⟩
  | command {o : Options} {arg word : String} {command : Command}
    (h : Argument.ofString arg = .word word) (hcommand : Command.ofName? word = some command) :
    Takes ⟨none, o, none⟩ arg ⟨some (o, command, none), {}, none⟩
  | path {o outer : Options} {command : Command} {path : Option String} {arg word taken : String}
    (h : Argument.ofString arg = .word word) (htaken : takePath? command path word = some taken) :
    Takes ⟨some (outer, command, path), o, none⟩ arg ⟨some (outer, command, some taken), o, none⟩

variable {p p' : Progress} {arg : String} {args : List String} {r : Request}

theorem resume_of_takes (h : Takes p arg p') : p.resume (arg :: args) = p'.resume args := by
  cases h with
  | @named c _ _ _ h =>
    rcases c with _ | ⟨_, _, _⟩ <;> simp [Progress.resume, readFrom, readCommand, h]
  | @attached c _ _ _ _ _ h hset =>
    rcases c with _ | ⟨_, _, _⟩ <;> simp [Progress.resume, readFrom, readCommand, h, hset]
  | @value c _ _ _ _ _ h hset =>
    rcases c with _ | ⟨_, _, _⟩ <;> simp [Progress.resume, readFrom, readCommand, h, hset]
  | command h hcommand => simp [Progress.resume, readFrom, h, hcommand]
  | path h htaken => simp [Progress.resume, readCommand, h, htaken]

theorem readHelp_ne_request : ∀ {args : List String}, readHelp args ≠ .request r
  | [] => by simp [readHelp]
  | [topic] => by
    simp only [readHelp]
    split_ifs <;> simp
  | _ :: _ :: _ => by simp [readHelp]

theorem exists_takes (h : p.resume (arg :: args) = .request r)
    (harg : Argument.ofString arg ≠ .separator) : ∃ p', Takes p arg p' := by
  obtain ⟨command, o, awaiting | name⟩ := p
  · cases hkind : Argument.ofString arg with
    | separator => exact absurd hkind harg
    | help | version | unknown =>
      rcases command with _ | ⟨_, _, _⟩ <;>
        simp [Progress.resume, readFrom, readCommand, hkind] at h
    | option name attached =>
      rcases attached with _ | value
      · exact ⟨_, .named hkind⟩
      · rcases hset : o.set? name value with _ | o'
        · rcases command with _ | ⟨_, _, _⟩ <;>
            simp [Progress.resume, readFrom, readCommand, hkind, hset] at h
        · exact ⟨_, .attached hkind hset⟩
    | word word =>
      rcases command with _ | ⟨outer, command, path⟩
      · rcases hcommand : Command.ofName? word with _ | command
        · simp only [Progress.resume, readFrom, hkind, hcommand] at h
          split_ifs at h
          exact absurd h readHelp_ne_request
        · exact ⟨_, .command hkind hcommand⟩
      · rcases htaken : takePath? command path word with _ | taken
        · simp [Progress.resume, readCommand, hkind, htaken] at h
        · exact ⟨_, .path hkind htaken⟩
  · cases hkind : Argument.ofString arg with
    | word word =>
      rcases hset : o.set? name word with _ | o'
      · rcases command with _ | ⟨_, _, _⟩ <;>
          simp [Progress.resume, readFrom, readCommand, hkind, hset] at h
      · exact ⟨_, .value hkind hset⟩
    | _ =>
      rcases command with _ | ⟨_, _, _⟩ <;>
        simp [Progress.resume, readFrom, readCommand, hkind] at h

/-- All options given so far, on either side of the command. -/
def Progress.given (p : Progress) : Options :=
  p.options.or ((p.command.map (·.1)).getD {})

/-- The command with its path. -/
def Progress.order (p : Progress) : Option (Command × Option String) :=
  p.command.map (·.2)

theorem gives_of_takes {name : OptionName} (h : Takes p arg p') (hp : p.given.gives name = true) :
    p'.given.gives name = true := by
  cases h with
  | named => exact hp
  | attached _ hset | value _ hset =>
    obtain ⟨-, d, -, rfl⟩ := Options.set?_eq_some_iff.1 hset
    simp only [Progress.given, Options.gives_or, Bool.or_eq_true] at hp ⊢
    exact hp.imp_left .inl
  | command => simpa [Progress.given] using hp
  | path => exact hp

theorem request_eq_request {o : Options} {command : Command} {path : Option String}
    (h : request o command path = .request r) :
    r.options = o ∧ ∀ e, request e command path = .request ⟨e, r.task⟩ := by
  rcases command with mode | _
  · rcases path with _ | path
    · cases h
    · cases h
      exact ⟨rfl, fun _ => rfl⟩
  · cases h
    exact ⟨rfl, fun _ => rfl⟩

theorem readWords_eq_request {o : Options} {command : Command} {path : Option String} :
    ∀ {words : List String}, readWords o command path words = .request r →
      r.options = o ∧ ∀ e, readWords e command path words = .request ⟨e, r.task⟩
  | [], h => request_eq_request h
  | [word], h => by
    unfold readWords at h ⊢
    rcases htaken : takePath? command path word with _ | taken
    · simp [htaken] at h
    · simp only [htaken] at h ⊢
      exact request_eq_request h
  | _ :: _ :: _, h => by cases h

/-- What is read where no argument is left, or the separator and words. -/
def stop (order : Option (Command × Option String)) (args : List String) (o : Options) : Reading :=
  match order, args with
  | none, [] => .request ⟨o, none⟩
  | none, _ :: words =>
    .request ⟨o, if words.isEmpty then none else some (.evaluate (" ".intercalate words))⟩
  | some (command, path), [] => request o command path
  | some (command, path), _ :: words => readWords o command path words

theorem stop_eq_request {order : Option (Command × Option String)} {o : Options}
    (h : stop order args o = .request r) :
    r.options = o ∧ ∀ e, stop order args e = .request ⟨e, r.task⟩ := by
  rcases order with _ | ⟨command, path⟩
  · rcases args with _ | ⟨_, words⟩
    · cases h
      exact ⟨rfl, fun _ => rfl⟩
    · cases h
      exact ⟨rfl, fun _ => rfl⟩
  · rcases args with _ | ⟨_, words⟩
    · exact request_eq_request h
    · exact readWords_eq_request h

theorem resume_stop (hargs : ∀ arg ∈ args.head?, Argument.ofString arg = .separator) :
    p.resume args = if p.awaiting = none then stop p.order args p.given else .usageError := by
  obtain ⟨command, o, awaiting⟩ := p
  rcases args with _ | ⟨arg, words⟩
  · rcases command with _ | ⟨_, _, _⟩ <;> rcases awaiting with _ | name <;>
      simp [Progress.resume, Progress.order, Progress.given, stop, readFrom, readCommand,
        Options.or_empty]
  · have harg : Argument.ofString arg = .separator := hargs arg rfl
    rcases command with _ | ⟨_, _, _⟩ <;> rcases awaiting with _ | name <;>
      simp [Progress.resume, Progress.order, Progress.given, stop, readFrom, readCommand,
        Options.or_empty, harg]

/-- Reading a request: each argument is taken, up to the separator or the end. -/
theorem resume_induction {P : Progress → List String → Prop}
    (hstop : ∀ p args, p.awaiting = none →
      (∀ arg ∈ args.head?, Argument.ofString arg = .separator) →
      stop p.order args p.given = .request r → P p args)
    (htakes : ∀ p arg args p', Takes p arg p' → p'.resume args = .request r → P p' args →
      P p (arg :: args)) (h : p.resume args = .request r) : P p args := by
  have hend {p args} (hargs : ∀ arg ∈ args.head?, Argument.ofString arg = .separator)
      (h : p.resume args = .request r) : P p args := by
    rw [resume_stop hargs] at h
    split_ifs at h with hawaiting
    exact hstop p args hawaiting hargs h
  induction args generalizing p with
  | nil => exact hend (by simp) h
  | cons arg args ih =>
    by_cases harg : Argument.ofString arg = .separator
    · exact hend (by simpa using harg) h
    · obtain ⟨p', hp'⟩ := exists_takes h harg
      rw [resume_of_takes hp'] at h
      exact htakes p arg args p' hp' h (ih h)

theorem gives_of_resume (h : p.resume args = .request r) :
    ∀ name, p.given.gives name = true → r.options.gives name = true := by
  refine resume_induction (P := fun p _ => ∀ name, p.given.gives name = true →
    r.options.gives name = true) ?_ ?_ h
  · intro p args _ _ hr name hp
    rw [(stop_eq_request hr).1]
    exact hp
  · intro p arg args p' hp' _ ih name hp
    exact ih name (gives_of_takes hp' hp)

/-- The options `d` are added on this side of the command or before it. -/
inductive Adds (d : Options) : Progress → Progress → Prop
  | here {c : Option (Options × Command × Option String)} {o : Options}
    {awaiting : Option OptionName} : Adds d ⟨c, o, awaiting⟩ ⟨c, o.or d, awaiting⟩
  | before {outer o : Options} {command : Command} {path : Option String}
    {awaiting : Option OptionName} :
    Adds d ⟨some (outer, command, path), o, awaiting⟩
      ⟨some (outer.or d, command, path), o, awaiting⟩

variable {d : Options} {q : Progress}

theorem Adds.awaiting (h : Adds d p q) : q.awaiting = p.awaiting := by
  cases h <;> rfl

theorem Adds.order (h : Adds d p q) : q.order = p.order := by
  cases h <;> rfl

theorem Adds.given (h : Adds d p q) (hd : Options.Apart p.given d) :
    q.given = p.given.or d := by
  cases h with
  | here => exact (hd.mono fun name hname => by simp [Progress.given, hname]).symm.or_or_comm
  | before => simp [Progress.given, Options.or_assoc]

/-- Added options are carried along. -/
theorem Adds.takes (h : Adds d p q) (hp' : Takes p arg p') (hd : Options.Apart p'.given d) :
    ∃ q', Takes q arg q' ∧ Adds d p' q' := by
  have hoptions : Options.Apart p'.options d :=
    hd.mono fun name hname => by simp [Progress.given, hname]
  cases h with
  | here =>
    cases hp' with
    | named h => exact ⟨_, .named h, .here⟩
    | attached h hset => exact ⟨_, .attached h (Options.set?_or hset hoptions), .here⟩
    | value h hset => exact ⟨_, .value h (Options.set?_or hset hoptions), .here⟩
    | command h hcommand => exact ⟨_, .command h hcommand, .before⟩
    | path h htaken => exact ⟨_, .path h htaken, .here⟩
  | before =>
    cases hp' with
    | named h => exact ⟨_, .named h, .before⟩
    | attached h hset => exact ⟨_, .attached h hset, .before⟩
    | value h hset => exact ⟨_, .value h hset, .before⟩
    | path h htaken => exact ⟨_, .path h htaken, .before⟩

theorem resume_adds (h : p.resume args = .request r) (hd : Options.Apart r.options d) :
    ∀ q, Adds d p q → q.resume args = .request ⟨r.options.or d, r.task⟩ := by
  refine resume_induction (P := fun p args => ∀ q, Adds d p q →
    q.resume args = .request ⟨r.options.or d, r.task⟩) ?_ ?_ h
  · intro p args hawaiting hargs hr q hq
    obtain ⟨hoptions, hothers⟩ := stop_eq_request hr
    rw [hoptions] at hd ⊢
    rw [resume_stop hargs, hq.awaiting, if_pos hawaiting, hq.order, hq.given hd]
    exact hothers _
  · intro p arg args p' hp' hr ih q hq
    obtain ⟨q', hq', hadds⟩ := hq.takes hp' (hd.mono (gives_of_resume hr))
    rw [resume_of_takes hq']
    exact ih q' hadds

/-- Arguments that give one option and nothing else. -/
inductive Writes : List String → Options → Prop
  | attached {arg value : String} {name : OptionName} {d : Options}
    (h : Argument.ofString arg = .option name (some value))
    (hset : Options.set? {} name value = some d) : Writes [arg] d
  | following {arg word value : String} {name : OptionName} {d : Options}
    (h : Argument.ofString arg = .option name none) (hword : Argument.ofString word = .word value)
    (hset : Options.set? {} name value = some d) : Writes [arg, word] d

/-- Options may stand behind these arguments: they are not behind the separator, and none of them
waits for its value. -/
def Open (before : List String) : Prop :=
  "--" ∉ before ∧ ∀ arg ∈ before.getLast?, ∀ name, Argument.ofString arg ≠ .option name none

theorem resume_writes {c : Option (Options × Command × Option String)} {o : Options}
    {words : List String} (h : Writes words d) (hd : Options.Apart o d) :
    (⟨c, o, none⟩ : Progress).resume (words ++ args)
      = (⟨c, o.or d, none⟩ : Progress).resume args := by
  cases h with
  | attached h hset => exact resume_of_takes (.attached h (Options.set?_of_apart hset hd))
  | following h hword hset =>
    exact (resume_of_takes (.named h)).trans
      (resume_of_takes (.value hword (Options.set?_of_apart hset hd)))

theorem eq_separator_of_ofString (h : Argument.ofString arg = .separator) : arg = "--" := by
  unfold Argument.ofString at h
  split at h
  · rename_i htext
    exact String.toList_injective htext
  · unfold Argument.ofLong at h
    dsimp only at h
    split at h <;> cases h
  · unfold Argument.ofShort at h
    split at h
    · cases h
    · split_ifs at h
  · cases h

theorem Open.nil : Open [] :=
  ⟨by simp, by simp⟩

theorem Open.of_word {before : List String} {word : String} (hbefore : "--" ∉ before)
    (hlast : before.getLast? = some arg) (harg : Argument.ofString arg = .word word) :
    Open before := by
  refine ⟨hbefore, fun last hmem name => ?_⟩
  rw [hlast, Option.mem_some_iff] at hmem
  subst hmem
  rw [harg]
  exact Argument.noConfusion

theorem Open.of_cons {before : List String} (h : Open (arg :: before)) : Open before := by
  refine ⟨fun hmem => h.1 (List.mem_cons_of_mem _ hmem), ?_⟩
  rcases before with _ | ⟨next, before⟩
  · simp
  · simpa using h.2

theorem awaiting_of_takes (h : Takes p arg p')
    (harg : ∀ name, Argument.ofString arg ≠ .option name none) : p'.awaiting = none := by
  cases h with
  | named h => exact absurd h (harg _)
  | _ => rfl

theorem resume_insert {before after words : List String} (hbefore : Open before)
    (hp : before = [] → p.awaiting = none) (h : p.resume (before ++ after) = .request r)
    (hwords : Writes words d) (hd : Options.Apart r.options d) :
    p.resume (before ++ words ++ after) = .request ⟨r.options.or d, r.task⟩ := by
  induction before generalizing p with
  | nil =>
    obtain ⟨c, o, awaiting⟩ := p
    obtain rfl : awaiting = none := hp rfl
    have ho : Options.Apart o d := hd.mono fun name hname =>
      gives_of_resume h name (by simp [Progress.given, hname])
    rw [List.nil_append, resume_writes hwords ho]
    exact resume_adds h hd _ .here
  | cons arg before ih =>
    obtain ⟨p', hp'⟩ := exists_takes h fun hseparator =>
      hbefore.1 (eq_separator_of_ofString hseparator ▸ List.mem_cons_self)
    rw [List.cons_append, resume_of_takes hp'] at h
    rw [List.cons_append, List.cons_append, resume_of_takes hp']
    refine ih hbefore.of_cons (fun hnil => awaiting_of_takes hp' ?_) h
    exact hbefore.2 arg (by simp [hnil])

/-- An option may be written in wherever options may stand, if the line does not give it yet. -/
theorem read_insert {before after words : List String} (hbefore : Open before)
    (h : read (before ++ after) = .request r) (hwords : Writes words d)
    (hd : Options.Apart r.options d) :
    read (before ++ words ++ after) = .request ⟨r.options.or d, r.task⟩ :=
  resume_insert (p := .start) hbefore (fun _ => rfl) h hwords hd

end CommandLine

end Calculator

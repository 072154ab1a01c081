import Calculator.Proofs.Lines
import Calculator.Proofs.Sources
import Mathlib.Data.List.Perm.Basic
import Mathlib.Data.List.ReduceOption
import Mathlib.Data.Set.List

/-!
# Which settings files are accepted

Of the texts whose lines are blanks, comments and assignments, those are accepted in which each
assignment is one that a setting has (`SettingsFile.Allowed`) and no key is given twice. What is
accepted says for each setting the value under its key, and the default where the key is not given
(`SettingsFile.Gives`). So the order of the lines plays no part (`Settings.read?_lines`).
-/

namespace Calculator

namespace SettingsFile

variable {assignments : List (List Char × Value)}

theorem Assigns.cons {line rest : List Char} {given : Option (List Char × Value)}
    (hline : LineOf line given) (h : Assigns rest assignments) :
    Assigns (line ++ '\n' :: rest) (given.toList ++ assignments) := by
  have hempty : LineOf [] none := .filler (.spaces (by simp [Spaces]))
  obtain ⟨ls, hls, rfl, rfl⟩ := h
  have hgiven (ls : List (List Char × Option (List Char × Value))) :
      given.toList ++ ls.filterMap (·.2) = ((line, given) :: ls).filterMap (·.2) := by
    cases given <;> rfl
  rcases ls with _ | ⟨next, ls⟩
  · exact ⟨[(line, given), ([], none)], by simp [hline, hempty], by simp, hgiven [([], none)]⟩
  · refine ⟨(line, given) :: next :: ls, List.forall_mem_cons.2 ⟨hline, hls⟩, ?_, hgiven _⟩
    rw [List.map_cons, List.map_cons, List.map_cons, List.intercalate_cons_cons,
      List.append_assoc, List.singleton_append]

/-- A text assigns what its lines do, whether or not they end with carriage returns. -/
theorem assigns_of_linesOf {text : List Char} {ls : List (List Char)} (h : LinesOf text ls) :
    ∀ {given : List (Option (List Char × Value))}, List.Forall₂ LineOf ls given →
      isClean text = true ∧ Assigns (text.filter (· != '\r')) given.reduceOption := by
  have hfilter {line : List Char} {given : Option (List Char × Value)} (h : LineOf line given) :
      line.filter (· != '\r') = line :=
    filter_return_of_chars fun c hc => .inl (h.chars c hc)
  have hreduce (first : Option (List Char × Value)) (given : List (Option (List Char × Value))) :
      (first :: given).reduceOption = first.toList ++ given.reduceOption := by
    cases first <;> rfl
  induction h with
  | nil =>
    intro given hgiven
    rw [List.forall₂_nil_left_iff.1 hgiven]
    exact ⟨rfl, [], by simp, rfl, rfl⟩
  | last _ _ =>
    intro given hgiven
    obtain ⟨first, given, hline, hrest, rfl⟩ := List.forall₂_cons_left_iff.1 hgiven
    rw [List.forall₂_nil_left_iff.1 hrest, hfilter hline]
    exact ⟨isClean_of_chars fun c hc => .inl (hline.chars c hc), [(_, first)],
      List.forall_mem_singleton.2 hline, by simp, by cases first <;> rfl⟩
  -- A carriage return before the line feed is filtered out, so both breaks leave the same text.
  | feed _ _ _ ih | returnFeed _ _ ih =>
    intro given hgiven
    obtain ⟨first, given, hline, hrest, rfl⟩ := List.forall₂_cons_left_iff.1 hgiven
    obtain ⟨hclean, hassigns⟩ := ih hrest
    rw [isClean_append fun c hc => .inl (hline.chars c hc), List.filter_append, hfilter hline,
      hreduce]
    exact ⟨hclean, hassigns.cons hline⟩

theorem statements?_of_lines {text : List Char} {given : List (Option (List Char × Value))}
    (h : List.Forall₂ LineOf (lines text) given) :
    statements? text = some (given.reduceOption.map fun a => .assign ⟨a.1, none⟩ a.2) := by
  obtain ⟨hclean, hassigns⟩ := assigns_of_linesOf (linesOf_lines text) h
  exact statements?_of_withoutReturns hclean hassigns

/-- The assignments that a settings file may make. -/
inductive Allowed : List Char × Value → Prop
  | format {name : String} (h : name ∈ ["pretty", "json"]) :
    Allowed ("format".toList, .text name.toList)
  | emission {name : String} (h : name ∈ ["value", "tokens", "postfix"]) :
    Allowed ("emit".toList, .text name.toList)
  | colour {name : String} (h : name ∈ ["auto", "always", "never"]) :
    Allowed ("color".toList, .text name.toList)
  | places (n : Nat) : Allowed ("precision".toList, .integer n)

theorem allowed_iff {a : List Char × Value} :
    Allowed a ↔ ∃ x : Setting, a = (x.key, x.value) := by
  constructor
  · rintro (h | h | h | n)
    · simp only [List.mem_cons, List.not_mem_nil, or_false] at h
      rcases h with rfl | rfl
      · exact ⟨.format .pretty, rfl⟩
      · exact ⟨.format .json, rfl⟩
    · simp only [List.mem_cons, List.not_mem_nil, or_false] at h
      rcases h with rfl | rfl | rfl
      · exact ⟨.emission .value, rfl⟩
      · exact ⟨.emission .tokens, rfl⟩
      · exact ⟨.emission .postfixOrder, rfl⟩
    · simp only [List.mem_cons, List.not_mem_nil, or_false] at h
      rcases h with rfl | rfl | rfl
      · exact ⟨.colour .auto, rfl⟩
      · exact ⟨.colour .always, rfl⟩
      · exact ⟨.colour .never, rfl⟩
    · exact ⟨.places n, rfl⟩
  · rintro ⟨f | e | c | n, rfl⟩
    · exact .format (by cases f <;> decide)
    · exact .emission (by cases e <;> decide)
    · exact .colour (by cases c <;> decide)
    · exact .places n

/-- A value that a line can assign. -/
def IsPlain (value : Value) : Prop :=
  (∃ s, value = .text s) ∨ ∃ n, value = .integer n

theorem isPlain_of_lines {ls : List (List Char)} {given : List (Option (List Char × Value))}
    (h : List.Forall₂ LineOf ls given) : ∀ a ∈ given.reduceOption, IsPlain a.2 := by
  induction h with
  | nil => simp
  | @cons line given _ _ hline _ ih =>
    rcases given with _ | a
    · exact ih
    · rw [List.reduceOption_cons_of_some]
      refine List.forall_mem_cons.2 ⟨?_, ih⟩
      cases hline with
      | assignment _ _ _ _ _ hvalue =>
        cases hvalue with
        | text => exact .inl ⟨_, rfl⟩
        | natural => exact .inr ⟨_, rfl⟩
        | negative => exact .inr ⟨_, rfl⟩

theorem choice?_entry {value : Value} (h : IsPlain value) {name : String}
    (hname : value.entry.choice? = some name) : value = .text name.toList := by
  obtain ⟨s, rfl⟩ | ⟨n, rfl⟩ := h
  · obtain rfl : String.ofList s = name := Option.some_inj.1 hname
    rw [String.toList_ofList]
  · cases hname

theorem places?_entry {value : Value} (h : IsPlain value) {n : Nat}
    (hn : value.entry.places? = some n) : value = .integer n := by
  obtain ⟨s, rfl⟩ | ⟨m, rfl⟩ := h
  · cases hn
  · simp only [Value.entry, Entry.places?] at hn
    split_ifs at hn with hm
    rw [← Option.some_inj.1 hn, Int.toNat_of_nonneg hm.1]

/-- Only what is allowed sets anything. -/
theorem allowed_of_set? {s s' : Settings} {key : List Char} {value : Value}
    (hvalue : IsPlain value) (h : set? s (key, value.entry) = some s') : Allowed (key, value) := by
  have hkey {name : String} (h : String.ofList key = name) : key = name.toList := by
    rw [← h, String.toList_ofList]
  have hnamed {α : Type} {read? : String → Option α} {write : α → Settings}
      (h : (value.entry.choice?.bind read?).map write = some s') :
      ∃ name a, value = .text name.toList ∧ read? name = some a := by
    obtain ⟨a, ha, -⟩ := Option.map_eq_some_iff.1 h
    obtain ⟨name, hchoice, ha⟩ := Option.bind_eq_some_iff.1 ha
    exact ⟨name, a, choice?_entry hvalue hchoice, ha⟩
  unfold set? at h
  split at h
  · rename_i hname
    obtain ⟨name, f, rfl, hf⟩ := hnamed h
    have hf : f.name = name := by simpa using List.find?_some hf
    rw [hkey hname]
    exact .format (hf ▸ by cases f <;> decide)
  · rename_i hname
    obtain ⟨name, e, rfl, he⟩ := hnamed h
    have he : e.name = name := by simpa using List.find?_some he
    rw [hkey hname]
    exact .emission (he ▸ by cases e <;> decide)
  · rename_i hname
    obtain ⟨name, c, rfl, hc⟩ := hnamed h
    have hc : c.name = name := by simpa using List.find?_some hc
    rw [hkey hname]
    exact .colour (hc ▸ by cases c <;> decide)
  · rename_i hname
    obtain ⟨n, hn, -⟩ := Option.map_eq_some_iff.1 h
    rw [hkey hname, places?_entry hvalue hn]
    exact .places n
  · cases h

theorem forall_of_foldlM_set? : ∀ {entries : List (List Char × Entry)} {s s' : Settings},
    entries.foldlM set? s = some s' → ∀ e ∈ entries, ∃ t t', set? t e = some t'
  | [], _, _, _ => by simp
  | e :: entries, s, s', h => by
    obtain ⟨t, ht, hrest⟩ := Option.bind_eq_some_iff.1 h
    exact List.forall_mem_cons.2 ⟨⟨s, t, ht⟩, forall_of_foldlM_set? hrest⟩

theorem exists_settings (h : ∀ a ∈ assignments, Allowed a) :
    ∃ xs : List Setting, assignments = xs.map fun x => (x.key, x.value) := by
  have hrange : assignments ∈ Set.range (List.map fun x : Setting => (x.key, x.value)) := by
    rw [Set.range_list_map]
    intro a ha
    obtain ⟨x, hx⟩ := allowed_iff.1 (h a ha)
    exact ⟨x, hx.symm⟩
  obtain ⟨xs, hxs⟩ := hrange
  exact ⟨xs, hxs.symm⟩

/-- The whole numbers among the assigned values lie in the range of the numbers of places. -/
def InRange (assignments : List (List Char × Value)) : Prop :=
  ∀ key n, (key, .integer n) ∈ assignments → n.natAbs ≤ 65535

variable {text : String} {given : List (Option (List Char × Value))}

theorem coherent_of_keys {xs : List Setting}
    (hkeys : ((xs.map fun x => (x.key, x.value)).map (·.1)).Nodup)
    (hrange : InRange (xs.map fun x => (x.key, x.value))) : Setting.Coherent xs := by
  refine ⟨?_, fun x hx => ?_⟩
  · rw [List.map_map] at hkeys
    refine List.Nodup.of_map (fun name : OptionName => name.long.toList) ?_
    rw [List.map_map]
    exact hkeys
  · have hmem := List.mem_map_of_mem (f := fun x : Setting => (x.key, x.value)) hx
    cases x with
    | places n => exact hrange _ n hmem
    | _ => trivial

theorem isSome_read?_iff (hlines : List.Forall₂ LineOf (lines text.toList) given)
    (hrange : InRange given.reduceOption) :
    (∃ s, Settings.read? text = some s) ↔
      (given.reduceOption.map (·.1)).Nodup ∧ ∀ a ∈ given.reduceOption, Allowed a := by
  have hstatements := statements?_of_lines hlines
  have hplain := isPlain_of_lines hlines
  generalize given.reduceOption = assignments at hstatements hplain hrange ⊢
  constructor
  · rintro ⟨s, h⟩
    have hempty : ∀ a ∈ assignments, a.2 ≠ .empty := by
      rintro ⟨key, value⟩ ha rfl
      rcases hplain _ ha with ⟨_, h⟩ | ⟨_, h⟩ <;> cases h
    rw [Settings.read?, hstatements, Option.bind_eq_bind, Option.bind_some,
      entries?_eq hempty] at h
    split_ifs at h with hkeys
    · refine ⟨hkeys, fun a ha => ?_⟩
      have hentry : (a.1, a.2.entry) ∈ (assignments.map fun a => (a.1, a.2.entry)).reverse :=
        List.mem_reverse.2 (List.mem_map_of_mem ha)
      obtain ⟨t, t', hset⟩ := forall_of_foldlM_set? h _ hentry
      exact allowed_of_set? (hplain a ha) hset
    · cases h
  · rintro ⟨hkeys, hallowed⟩
    obtain ⟨xs, rfl⟩ := exists_settings hallowed
    exact ⟨_, Setting.read?_of_statements hstatements (coherent_of_keys hkeys hrange)⟩

/-- The key has this value, or it is not given and the value is its default. -/
def Holds (assignments : List (List Char × Value)) (key : String) (value default : Value) : Prop :=
  (key.toList, value) ∈ assignments ∨ value = default ∧ key.toList ∉ assignments.map (·.1)

/-- The settings are those assigned, and where none is they are the defaults. -/
structure Gives (assignments : List (List Char × Value)) (s : Settings) : Prop where
  format : ∀ f, s.format = f ↔ Holds assignments "format" (.text f.name.toList)
    (.text "pretty".toList)
  emission : ∀ e, s.emission = e ↔ Holds assignments "emit" (.text e.name.toList)
    (.text "value".toList)
  colour : ∀ c, s.colour = c ↔ Holds assignments "color" (.text c.name.toList)
    (.text "auto".toList)
  places : ∀ n : Nat, s.places = some n ↔ ("precision".toList, .integer n) ∈ assignments

theorem Gives.perm {assignments' : List (List Char × Value)} {s : Settings}
    (h : Gives assignments s) (hperm : assignments.Perm assignments') : Gives assignments' s := by
  have hholds (key value default) : Holds assignments key value default
      ↔ Holds assignments' key value default := by
    rw [Holds, Holds, hperm.mem_iff, (hperm.map _).mem_iff]
  exact ⟨fun f => (h.format f).trans (hholds ..), fun e => (h.emission e).trans (hholds ..),
    fun c => (h.colour c).trans (hholds ..), fun n => (h.places n).trans hperm.mem_iff⟩

theorem Gives.unique {s s' : Settings} (h : Gives assignments s) (h' : Gives assignments s') :
    s = s' := by
  have hformat : s'.format = s.format := (h'.format _).2 ((h.format _).1 rfl)
  have hemission : s'.emission = s.emission := (h'.emission _).2 ((h.emission _).1 rfl)
  have hcolour : s'.colour = s.colour := (h'.colour _).2 ((h.colour _).1 rfl)
  have hplaces : s'.places = s.places :=
    Option.ext fun n => (h'.places n).trans (h.places n).symm
  obtain ⟨f, e, c, p⟩ := s
  obtain ⟨f', e', c', p'⟩ := s'
  rw [Settings.mk.injEq]
  exact ⟨hformat.symm, hemission.symm, hcolour.symm, hplaces.symm⟩

end SettingsFile

namespace Setting

/-- The settings of one kind are those made from a value, which is read from them again. -/
structure Kind {α : Type} (n : OptionName) (get : Setting → Option α) (make : α → Setting) :
    Prop where
  get_iff : ∀ {x a}, get x = some a ↔ x = make a
  name_iff : ∀ {x}, x.name = n ↔ ∃ a, x = make a

theorem kind_format : Kind .format format? format := by
  constructor <;> rintro (_ | _ | _ | _) <;> simp [format?, name]

theorem kind_emission : Kind .emission emission? emission := by
  constructor <;> rintro (_ | _ | _ | _) <;> simp [emission?, name]

theorem kind_colour : Kind .colour colour? colour := by
  constructor <;> rintro (_ | _ | _ | _) <;> simp [colour?, name]

theorem kind_places : Kind .places places? places := by
  constructor <;> rintro (_ | _ | _ | _) <;> simp [places?, name]

theorem eq_of_key_value {x y : Setting} (hkey : x.key = y.key) (hvalue : x.value = y.value) :
    x = y := by
  have hname : x.name = y.name := key_eq_iff.1 hkey
  cases x with
  | format f =>
    cases y with
    | format g => cases f <;> cases g <;> first | rfl | exact absurd hvalue (by decide)
    | _ => cases hname
  | emission e =>
    cases y with
    | emission d => cases e <;> cases d <;> first | rfl | exact absurd hvalue (by decide)
    | _ => cases hname
  | colour c =>
    cases y with
    | colour d => cases c <;> cases d <;> first | rfl | exact absurd hvalue (by decide)
    | _ => cases hname
  | places n =>
    cases y with
    | places m =>
      exact congrArg places (Int.ofNat_inj.1 (SettingsFile.Value.integer.inj hvalue))
    | _ => cases hname

section Kind

variable {α : Type} {n : OptionName} {get : Setting → Option α} {make : α → Setting}
  {xs : List Setting}

theorem Kind.name_make (hkind : Kind n get make) (a : α) : (make a).name = n :=
  hkind.name_iff.2 ⟨a, rfl⟩

theorem Kind.get_make (hkind : Kind n get make) (a : α) : get (make a) = some a :=
  hkind.get_iff.2 rfl

theorem Kind.make_value_inj (hkind : Kind n get make) {a b : α}
    (h : (make a).value = (make b).value) : a = b := by
  have hkey : (make a).key = (make b).key := by
    rw [key_eq_iff, hkind.name_make, hkind.name_make]
  rw [← Option.some_inj, ← hkind.get_make, eq_of_key_value hkey h, hkind.get_make]

theorem Kind.findSome?_eq_none_iff (hkind : Kind n get make) :
    xs.findSome? get = none ↔ n ∉ xs.map name := by
  rw [List.findSome?_eq_none_iff, List.mem_map, not_exists]
  refine forall_congr' fun x => ?_
  rw [not_and, hkind.name_iff]
  refine imp_congr_right fun _ => ?_
  rw [Option.eq_none_iff_forall_ne_some, not_exists]
  exact forall_congr' fun a => not_congr hkind.get_iff

/-- The first setting of a kind is the only one. -/
theorem Kind.findSome?_eq_some_iff (hkind : Kind n get make) (h : (xs.map name).Nodup) {a : α} :
    xs.findSome? get = some a ↔ make a ∈ xs := by
  have hmem {a : α} (hfind : xs.findSome? get = some a) : make a ∈ xs := by
    obtain ⟨x, hx, hxa⟩ := List.exists_of_findSome?_eq_some hfind
    exact hkind.get_iff.1 hxa ▸ hx
  refine ⟨hmem, fun ha => ?_⟩
  have hsome : xs.findSome? get ≠ none := fun hnone =>
    hkind.findSome?_eq_none_iff.1 hnone (hkind.name_make a ▸ List.mem_map_of_mem ha)
  obtain ⟨b, hb⟩ := Option.ne_none_iff_exists'.1 hsome
  have hsame : make b = make a :=
    List.inj_on_of_nodup_map h (hmem hb) ha ((hkind.name_make b).trans (hkind.name_make a).symm)
  rw [hb, hkind.make_value_inj (congrArg value hsame)]

theorem mem_map_iff {x : Setting} :
    (x.key, x.value) ∈ xs.map (fun x => (x.key, x.value)) ↔ x ∈ xs :=
  List.mem_map_of_injective fun _ _ h =>
    eq_of_key_value (congrArg Prod.fst h) (congrArg Prod.snd h)

theorem key_mem_map_iff :
    n.long.toList ∈ (xs.map fun x => (x.key, x.value)).map (·.1) ↔ n ∈ xs.map name := by
  rw [List.map_map, List.mem_map, List.mem_map]
  refine exists_congr fun x => and_congr_right fun _ => ?_
  exact ⟨fun h => OptionName.long_injective (String.toList_inj.1 h), fun h => h ▸ rfl⟩

theorem Kind.getD_findSome?_eq_iff (hkind : Kind n get make) (h : (xs.map name).Nodup)
    (default a : α) : (xs.findSome? get).getD default = a ↔
      SettingsFile.Holds (xs.map fun x => (x.key, x.value)) n.long (make a).value
        (make default).value := by
  have hkey : n.long.toList = (make a).key := by rw [key, hkind.name_make]
  have hdefault : (make a).value = (make default).value ↔ a = default :=
    ⟨hkind.make_value_inj, fun h => h ▸ rfl⟩
  rw [SettingsFile.Holds, key_mem_map_iff, hkey, mem_map_iff, hdefault,
    ← hkind.findSome?_eq_none_iff, ← hkind.findSome?_eq_some_iff h]
  rcases xs.findSome? get with _ | b
  · simp [eq_comm]
  · simp

theorem gives_resolve (h : (xs.map name).Nodup) :
    SettingsFile.Gives (xs.map fun x => (x.key, x.value)) (resolve xs) where
  format := kind_format.getD_findSome?_eq_iff h .pretty
  emission := kind_emission.getD_findSome?_eq_iff h .value
  colour := kind_colour.getD_findSome?_eq_iff h .auto
  places m := (kind_places.findSome?_eq_some_iff h).trans (mem_map_iff (x := .places m)).symm

end Kind

end Setting

namespace SettingsFile

variable {text : String} {given : List (Option (List Char × Value))}

theorem gives_of_read? (hlines : List.Forall₂ LineOf (lines text.toList) given)
    (hrange : InRange given.reduceOption) {s : Settings} (h : Settings.read? text = some s) :
    Gives given.reduceOption s := by
  obtain ⟨hkeys, hallowed⟩ := (isSome_read?_iff hlines hrange).1 ⟨s, h⟩
  have hstatements := statements?_of_lines hlines
  obtain ⟨xs, hxs⟩ := exists_settings hallowed
  rw [hxs] at hstatements hkeys hrange ⊢
  have hcoherent : Setting.Coherent xs := coherent_of_keys hkeys hrange
  rw [Setting.read?_of_statements hstatements hcoherent, Option.some_inj] at h
  exact h ▸ Setting.gives_resolve hcoherent.kinds

end SettingsFile

/-- A text of blank lines, comments and assignments is a settings file exactly if no key is given
twice and each assignment is one that a setting has. It gives the settings that are assigned and the
defaults of the others, and it gives the same with its lines in any other order. -/
theorem Settings.read?_lines (text : String)
    (given : List (Option (List Char × SettingsFile.Value)))
    (hlines : List.Forall₂ SettingsFile.LineOf (lines text.toList) given)
    (hrange : SettingsFile.InRange given.reduceOption) :
    ((∃ s, Settings.read? text = some s) ↔ (given.reduceOption.map (·.1)).Nodup ∧
      ∀ a ∈ given.reduceOption, SettingsFile.Allowed a) ∧
    (∀ s, Settings.read? text = some s → SettingsFile.Gives given.reduceOption s) ∧
    ∀ text' : String, (lines text'.toList).Perm (lines text.toList) →
      Settings.read? text' = Settings.read? text := by
  have haccepted := SettingsFile.isSome_read?_iff hlines hrange
  refine ⟨haccepted, fun s h => SettingsFile.gives_of_read? hlines hrange h, ?_⟩
  intro text' hperm
  obtain ⟨given', hlines', hgiven⟩ := List.perm_comp_forall₂ hperm hlines
  have hassignments : given'.reduceOption.Perm given.reduceOption := hgiven.filterMap id
  have hrange' : SettingsFile.InRange given'.reduceOption :=
    fun key n hmem => hrange key n (hassignments.mem_iff.1 hmem)
  have haccepted' := SettingsFile.isSome_read?_iff hlines' hrange'
  have hboth : (∃ s, Settings.read? text' = some s) ↔ ∃ s, Settings.read? text = some s := by
    rw [haccepted, haccepted', (hassignments.map _).nodup_iff]
    exact and_congr_right fun _ => forall_congr' fun a => by rw [hassignments.mem_iff]
  rcases hread : Settings.read? text with _ | s
  · refine Option.eq_none_iff_forall_ne_some.2 fun s' hread' => ?_
    obtain ⟨s, hs⟩ := hboth.1 ⟨s', hread'⟩
    rw [hs] at hread
    cases hread
  · obtain ⟨s', hread'⟩ := hboth.2 ⟨s, hread⟩
    have hgives := (SettingsFile.gives_of_read? hlines' hrange' hread').perm hassignments
    rw [hread', hgives.unique (SettingsFile.gives_of_read? hlines hrange hread)]

/-- A comment, two settings and an empty line, with either kind of line break. -/
theorem Settings.read?_lines_reordered :
    let text := "# four\r\nprecision = 4\r\n\n\tformat=\"json\" # not pretty\n"
    let text' := "\tformat=\"json\" # not pretty\n# four\n\nprecision = 4"
    Settings.read? text = some { format := .json, places := some 4 } ∧
      Settings.read? text' = Settings.read? text := by
  intro text text'
  have hspaces : SettingsFile.Spaces [] ∧ SettingsFile.Spaces [' '] ∧
      SettingsFile.Spaces ['\t'] := by
    simp [SettingsFile.Spaces, SettingsFile.isSpace]
  obtain ⟨hnone, hspace, htab⟩ := hspaces
  have hcomment : SettingsFile.LineOf "# four".toList none :=
    .filler (@SettingsFile.Trailing.comment [] " four".toList hnone
      (List.all_eq_true.1 (by decide)))
  have hplaces : SettingsFile.LineOf "precision = 4".toList
      (some ("precision".toList, .integer 4)) :=
    @SettingsFile.LineOf.assignment [] "precision".toList [' '] [' '] ['4'] [] _ hnone (by decide)
      (List.all_eq_true.1 (by decide)) hspace hspace (.natural 4) (.spaces hnone)
  have hformat : SettingsFile.LineOf "\tformat=\"json\" # not pretty".toList
      (some ("format".toList, .text "json".toList)) :=
    @SettingsFile.LineOf.assignment ['\t'] "format".toList [] [] _ _ _ htab (by decide)
      (List.all_eq_true.1 (by decide)) hnone hnone
      (@SettingsFile.Writing.bare "json".toList (by decide))
      (@SettingsFile.Trailing.comment [' '] " not pretty".toList hspace
        (List.all_eq_true.1 (by decide)))
  have htext : lines text.toList = ["# four".toList, "precision = 4".toList, [],
      "\tformat=\"json\" # not pretty".toList] := by decide
  have hlines : List.Forall₂ SettingsFile.LineOf (lines text.toList)
      [none, some ("precision".toList, .integer 4), none,
        some ("format".toList, .text "json".toList)] :=
    htext ▸ .cons hcomment (.cons hplaces (.cons (.filler (.spaces hnone)) (.cons hformat .nil)))
  have hrange : SettingsFile.InRange [("precision".toList, .integer 4),
      ("format".toList, .text "json".toList)] := by
    intro key n hmem
    obtain ⟨-, rfl⟩ : key = "precision".toList ∧ n = 4 := by simpa using hmem
    decide
  obtain ⟨haccepted, hgives, horder⟩ := Settings.read?_lines text _ hlines hrange
  obtain ⟨⟨f, e, c, p⟩, hs⟩ := haccepted.2 ⟨by decide, List.forall_mem_cons.2 ⟨.places 4,
    List.forall_mem_singleton.2 (@SettingsFile.Allowed.format "json" (by decide))⟩⟩
  obtain ⟨hf, he, hc, hp⟩ := hgives _ hs
  obtain rfl : f = .json := (hf .json).2 (.inl (by decide))
  obtain rfl : e = .value := (he .value).2 (.inr ⟨rfl, by decide⟩)
  obtain rfl : c = .auto := (hc .auto).2 (.inr ⟨rfl, by decide⟩)
  obtain rfl : p = some 4 := (hp 4).2 (by decide)
  exact ⟨hs, horder text' (by decide)⟩

end Calculator

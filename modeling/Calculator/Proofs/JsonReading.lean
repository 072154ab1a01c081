import Calculator.Proofs.JsonText

/-!
# A JSON text has one value

Texts are read from the left, and a part of a text ends where what follows cannot belong to it: a
number before a character that no number has, a string at its quote, an element at a comma or at the
closing bracket. So a text is determined by any longer one that it begins, if it is stopped there
(`TextOf.determined`), and a text has one value only (`TextOf.unique`).
-/

namespace Calculator

namespace Json

/-- What follows does not go on with a number. -/
def Stops (r : List Char) : Prop :=
  ∀ c ∈ r.head?, isNumberChar c = false

theorem stops_nil : Stops [] := by
  simp [Stops]

theorem stops_cons {c : Char} {r : List Char} : Stops (c :: r) ↔ isNumberChar c = false := by
  simp [Stops]

theorem Numeric.eq_of_append : ∀ {cs ds r s : List Char}, Numeric cs → Numeric ds →
    cs ++ r = ds ++ s → Stops r → Stops s → cs = ds
  | [], [], _, _, _, _, _, _, _ => rfl
  | [], d :: ds, r, s, _, hd, h, hr, _ => by
    rw [List.nil_append, List.cons_append] at h
    rw [h, stops_cons, (numeric_cons.1 hd).1] at hr
    cases hr
  | c :: cs, [], r, s, hc, _, h, _, hs => by
    rw [List.nil_append, List.cons_append] at h
    rw [← h, stops_cons, (numeric_cons.1 hc).1] at hs
    cases hs
  | c :: cs, d :: ds, r, s, hc, hd, h, hr, hs => by
    rw [List.cons_append, List.cons_append, List.cons.injEq] at h
    rw [h.1, Numeric.eq_of_append (numeric_cons.1 hc).2 (numeric_cons.1 hd).2 h.2 hr hs]

theorem digitChar_injective {m n : Nat} (hm : m < 16) (hn : n < 16)
    (h : Nat.digitChar m = Nat.digitChar n) : m = n :=
  (by decide : ∀ m < 16, ∀ n < 16, Nat.digitChar m = Nat.digitChar n → m = n) m hm n hn h

theorem hexFour_injective {m n : Nat} (hm : m < 0x10000) (hn : n < 0x10000)
    (h : hexFour m = hexFour n) : m = n := by
  simp only [hexFour, List.map_cons, List.map_nil, List.cons.injEq] at h
  obtain ⟨h1, h2, h3, h4, -⟩ := h
  have := digitChar_injective (by omega) (by omega) h1
  have := digitChar_injective (by omega) (by omega) h2
  have := digitChar_injective (by omega) (by omega) h3
  have := digitChar_injective (by omega) (by omega) h4
  omega

theorem shortEscapes_injective {c d e : Char} (hc : (c, e) ∈ shortEscapes)
    (hd : (d, e) ∈ shortEscapes) : c = d :=
  (by decide : ∀ p ∈ shortEscapes, ∀ q ∈ shortEscapes, p.2 = q.2 → p.1 = q.1) _ hc _ hd rfl

theorem shortEscapes_ne_code {c : Char} : (c, 'u') ∉ shortEscapes := fun h =>
  (by decide : ∀ p ∈ shortEscapes, p.2 ≠ 'u') _ h rfl

theorem Escapes.eq_of_append {c d : Char} {e f r s : List Char} (hc : Escapes c e)
    (hd : Escapes d f) (h : e ++ r = f ++ s) : c = d ∧ e = f := by
  cases hc with
  | plain hlow hquote hback =>
    cases hd with
    | plain =>
      cases h
      exact ⟨rfl, rfl⟩
    | short => exact absurd (List.cons.inj h).1 hback
    | code => exact absurd (List.cons.inj h).1 hback
  | short hc =>
    cases hd with
    | plain hlow hquote hback => exact absurd (List.cons.inj h).1.symm hback
    | short hd =>
      cases h
      exact ⟨shortEscapes_injective hc hd, rfl⟩
    | code =>
      cases h
      exact absurd hc shortEscapes_ne_code
  | code hc =>
    cases hd with
    | plain hlow hquote hback => exact absurd (List.cons.inj h).1.symm hback
    | short hd =>
      cases h
      exact absurd hd shortEscapes_ne_code
    | code hd =>
      have hfour : hexFour c.toNat = hexFour d.toNat := by
        simpa using List.append_inj_left h rfl
      exact ⟨Char.toNat_inj.1 (hexFour_injective hc hd hfour), by rw [hfour]⟩

theorem Escapes.head_ne_quote {c : Char} {e : List Char} (h : Escapes c e) :
    ∃ d ds, e = d :: ds ∧ d ≠ '"' := by
  cases h with
  | plain hc hq hb => exact ⟨c, [], rfl, hq⟩
  | short h => exact ⟨'\\', _, rfl, by decide⟩
  | code h => exact ⟨'\\', _, rfl, by decide⟩

/-- What is spelled ends at the quote behind it. -/
theorem Spells.eq_of_append {t cs : List Char} (h : Spells t cs) : ∀ {u ds r s : List Char},
    Spells u ds → cs ++ '"' :: r = ds ++ '"' :: s → t = u ∧ cs = ds := by
  induction h with
  | nil =>
    rintro u ds r s (_ | ⟨hd, -⟩) heq
    · exact ⟨rfl, rfl⟩
    · obtain ⟨d, e, rfl, hne⟩ := hd.head_ne_quote
      simp only [List.nil_append, List.cons_append, List.cons.injEq] at heq
      exact absurd heq.1.symm hne
  | cons hc _ ih =>
    rintro u ds r s (_ | ⟨hd, hs⟩) heq
    · obtain ⟨d, e, rfl, hne⟩ := hc.head_ne_quote
      simp only [List.nil_append, List.cons_append, List.cons.injEq] at heq
      exact absurd heq.1 hne
    · rw [List.append_assoc, List.append_assoc] at heq
      obtain ⟨rfl, rfl⟩ := hc.eq_of_append hd heq
      obtain ⟨rfl, rfl⟩ := ih hs (List.append_cancel_left heq)
      exact ⟨rfl, rfl⟩

/-- Which kind of value a text is of can be seen from its first character. -/
def kindOf (c : Char) : Nat :=
  if c = 'n' then 0
  else if isNumberChar c then 1
  else if c = '"' then 2
  else if c = '[' then 3
  else if c = '\x7b' then 4
  else 5

def kind : Json → Nat
  | null => 0
  | number _ => 1
  | text _ => 2
  | array _ => 3
  | object _ => 4

theorem kind_lt_five (v : Json) : v.kind < 5 := by
  cases v <;> simp [kind]

theorem kindOf_of_isNumberChar {c : Char} (h : isNumberChar c = true) : kindOf c = 1 := by
  have hn : c ≠ 'n' := by
    rintro rfl
    cases h
  rw [kindOf, if_neg hn, if_pos h]

theorem TextOf.head {v : Json} {cs : List Char} (h : TextOf v cs) :
    ∃ c rest, cs = c :: rest ∧ kindOf c = v.kind := by
  cases h with
  | null => exact ⟨_, _, rfl, rfl⟩
  | number h =>
    obtain ⟨c, rest, hc⟩ := List.exists_cons_of_ne_nil h.ne_nil
    have hnumeric := h.numeric
    rw [hc, numeric_cons] at hnumeric
    exact ⟨c, rest, hc, kindOf_of_isNumberChar hnumeric.1⟩
  | text => exact ⟨_, _, rfl, rfl⟩
  | array => exact ⟨_, _, rfl, rfl⟩
  | object => exact ⟨_, _, rfl, rfl⟩

theorem TextOf.head_ne_close {v : Json} {cs : List Char} (h : TextOf v cs) :
    ∃ c rest, cs = c :: rest ∧ c ≠ ']' := by
  obtain ⟨c, rest, hc, hkind⟩ := h.head
  refine ⟨c, rest, hc, ?_⟩
  rintro rfl
  have hfive : kindOf ']' = 5 := by decide
  exact absurd v.kind_lt_five (by omega)

theorem kind_eq_of_append {v w : Json} {cs ds r s : List Char} (hv : TextOf v cs)
    (hw : TextOf w ds) (h : cs ++ r = ds ++ s) : v.kind = w.kind := by
  obtain ⟨c, cs, rfl, hc⟩ := hv.head
  obtain ⟨d, ds, rfl, hd⟩ := hw.head
  rw [List.cons_append, List.cons_append, List.cons.injEq] at h
  rw [← hc, ← hd, h.1]

section Elements

variable {α : Type} {T : α → List Char → Prop} {close : Char}

/-- The elements behind the first one, each with its comma. -/
def behindComma (texts : List (List Char)) : List Char :=
  texts.flatMap (',' :: ·)

theorem intercalate_cons_eq (t : List Char) (ts : List (List Char)) :
    [','].intercalate (t :: ts) = t ++ behindComma ts := by
  induction ts generalizing t with
  | nil => simp [behindComma]
  | cons u ts ih =>
    rw [List.intercalate_cons_cons, ih]
    simp [behindComma]

theorem stops_behindComma (hclose : isNumberChar close = false) (ts : List (List Char))
    (r : List Char) : Stops (behindComma ts ++ close :: r) := by
  rcases ts with _ | ⟨t, ts⟩
  · exact stops_cons.2 hclose
  · exact stops_cons.2 (by decide)

/-- Where the text `t` of `a` stands before something that stops it, no other text and no other
value can be read. -/
def Determined (T : α → List Char → Prop) (a : α) (t : List Char) : Prop :=
  ∀ {b : α} {u r s : List Char}, T b u → t ++ r = u ++ s → Stops r → Stops s → a = b ∧ t = u

theorem behindComma_eq_of_append (hclose : isNumberChar close = false) (hcomma : close ≠ ',') :
    ∀ {ps qs : List (α × List Char)} {r s : List Char}, (∀ e ∈ ps, Determined T e.1 e.2) →
      (∀ e ∈ qs, T e.1 e.2) →
      behindComma (ps.map (·.2)) ++ close :: r = behindComma (qs.map (·.2)) ++ close :: s → ps = qs
  | [], [], _, _, _, _, _ => rfl
  | [], q :: qs, r, s, _, _, h => absurd (List.cons.inj h).1 hcomma
  | p :: ps, [], r, s, _, _, h => absurd (List.cons.inj h).1.symm hcomma
  | p :: ps, q :: qs, r, s, hp, hq, h => by
    have hstep : p.2 ++ (behindComma (ps.map (·.2)) ++ close :: r)
        = q.2 ++ (behindComma (qs.map (·.2)) ++ close :: s) := by
      simpa [behindComma] using h
    obtain ⟨hvalue, htext⟩ := hp p (by simp) (hq q (by simp)) hstep
      (stops_behindComma hclose _ _) (stops_behindComma hclose _ _)
    rw [htext] at hstep
    rw [behindComma_eq_of_append hclose hcomma (fun e he => hp e (by simp [he]))
      (fun e he => hq e (by simp [he])) (List.append_cancel_left hstep), Prod.ext hvalue htext]

theorem elements_eq_of_append (hclose : isNumberChar close = false) (hcomma : close ≠ ',')
    (hhead : ∀ a t, T a t → ∃ c rest, t = c :: rest ∧ c ≠ close) {ps qs : List (α × List Char)}
    {r s : List Char} (hT : ∀ e ∈ ps, T e.1 e.2) (hp : ∀ e ∈ ps, Determined T e.1 e.2)
    (hq : ∀ e ∈ qs, T e.1 e.2)
    (h : [','].intercalate (ps.map (·.2)) ++ close :: r
      = [','].intercalate (qs.map (·.2)) ++ close :: s) : ps = qs := by
  rcases ps with _ | ⟨p, ps⟩
  · rcases qs with _ | ⟨q, qs⟩
    · rfl
    · obtain ⟨c, rest, hc, hne⟩ := hhead q.1 q.2 (hq q (by simp))
      rw [List.map_cons, intercalate_cons_eq, hc] at h
      exact absurd (List.cons.inj h).1.symm hne
  · rcases qs with _ | ⟨q, qs⟩
    · obtain ⟨c, rest, hc, hne⟩ := hhead p.1 p.2 (hT p (by simp))
      rw [List.map_cons, intercalate_cons_eq, hc] at h
      exact absurd (List.cons.inj h).1 hne
    · rw [List.map_cons, List.map_cons, intercalate_cons_eq, intercalate_cons_eq] at h
      -- with a comma in front the first element is as all others
      refine behindComma_eq_of_append hclose hcomma hp hq (r := r) (s := s) ?_
      simpa [behindComma] using h

end Elements

/-- The texts of a member, given by its key and its value. -/
def MemberText (f : String × Json) (cs : List Char) : Prop :=
  ∃ spelling us, Spells f.1.toList spelling ∧ TextOf f.2 us ∧
    cs = '"' :: spelling ++ '"' :: ':' :: us

theorem MemberText.head {f : String × Json} {cs : List Char} :
    MemberText f cs → ∃ c rest, cs = c :: rest ∧ c ≠ '\x7d' := by
  rintro ⟨spelling, us, -, -, rfl⟩
  exact ⟨_, _, rfl, by decide⟩

def Member.part (m : Member) : (String × Json) × List Char :=
  ((m.key, m.value), '"' :: m.spelling ++ '"' :: ':' :: m.text)

theorem memberText_part {m : Member} (hk : Spells m.key.toList m.spelling)
    (hv : TextOf m.value m.text) : MemberText m.part.1 m.part.2 :=
  ⟨m.spelling, m.text, hk, hv, rfl⟩

theorem determined_part {m : Member} (hk : Spells m.key.toList m.spelling)
    (hv : Determined TextOf m.value m.text) : Determined MemberText m.part.1 m.part.2 := by
  rintro ⟨l, w⟩ _ r s ⟨spelling, us, hl, hw, rfl⟩ h hr hs
  simp only [Member.part, List.append_assoc, List.cons_append, List.cons.injEq, true_and] at h
  obtain ⟨hkey, rfl⟩ := hk.eq_of_append hl h
  have hvalue := List.append_cancel_left h
  simp only [List.cons.injEq, true_and] at hvalue
  obtain ⟨rfl, rfl⟩ := hv hw hvalue hr hs
  exact ⟨Prod.ext (String.toList_inj.1 hkey) rfl, rfl⟩

theorem TextOf.determined {v : Json} {cs : List Char} (h : TextOf v cs) :
    Determined TextOf v cs := by
  induction h with
  | null =>
    intro w ds r s hw heq hr hs
    have hkind := kind_eq_of_append .null hw heq
    cases hw <;> cases hkind
    exact ⟨rfl, rfl⟩
  | number h =>
    intro w ds r s hw heq hr hs
    have hkind := kind_eq_of_append (.number h) hw heq
    cases hw <;> cases hkind
    rename_i h'
    have hliteral := h.numeric.eq_of_append h'.numeric heq hr hs
    rw [String.toList_inj.1 hliteral]
    exact ⟨rfl, rfl⟩
  | text h =>
    intro w ds r s hw heq hr hs
    have hkind := kind_eq_of_append (.text h) hw heq
    cases hw <;> cases hkind
    rename_i h'
    simp only [List.append_assoc, List.cons_append, List.nil_append, List.cons.injEq,
      true_and] at heq
    obtain ⟨htext, rfl⟩ := h.eq_of_append h' heq
    rw [String.toList_inj.1 htext]
    exact ⟨rfl, rfl⟩
  | @array parts h ih =>
    intro w ds r s hw heq hr hs
    have hkind := kind_eq_of_append (.array h) hw heq
    cases hw <;> cases hkind
    rename_i h'
    simp only [List.append_assoc, List.cons_append, List.nil_append, List.cons.injEq,
      true_and] at heq
    obtain rfl := elements_eq_of_append (by decide) (by decide) (fun _ _ => TextOf.head_ne_close)
      h ih h' heq
    exact ⟨rfl, rfl⟩
  | @object members hk hv ih =>
    intro w ds r s hw heq hr hs
    have hkind := kind_eq_of_append (.object hk hv) hw heq
    cases hw <;> cases hkind
    rename_i members' hk' hv'
    have hT : ∀ e ∈ members.map Member.part, MemberText e.1 e.2 :=
      List.forall_mem_map.2 fun m hm => memberText_part (hk m hm) (hv m hm)
    have hp : ∀ e ∈ members.map Member.part, Determined MemberText e.1 e.2 :=
      List.forall_mem_map.2 fun m hm => determined_part (hk m hm) (ih m hm)
    have hq : ∀ e ∈ members'.map Member.part, MemberText e.1 e.2 :=
      List.forall_mem_map.2 fun m hm => memberText_part (hk' m hm) (hv' m hm)
    simp only [List.append_assoc, List.cons_append, List.nil_append, List.cons.injEq,
      true_and] at heq
    have hparts : members.map Member.part = members'.map Member.part :=
      elements_eq_of_append (by decide) (by decide) (fun _ _ => MemberText.head) hT hp hq
        (by simpa [Member.part, Function.comp_def] using heq)
    have hfields := congrArg (List.map (·.1)) hparts
    have htexts := congrArg (List.map (·.2)) hparts
    simp only [List.map_map, Function.comp_def, Member.part] at hfields htexts
    exact ⟨by rw [hfields], by rw [htexts]⟩

/-- A text has one value. -/
theorem TextOf.unique {v w : Json} {cs : List Char} (hv : TextOf v cs) (hw : TextOf w cs) :
    v = w :=
  (hv.determined hw rfl stops_nil stops_nil).1

/-- The row is a text of this value, and of no other. -/
def Reads (row : String) (v : Json) : Prop :=
  ∀ w, TextOf w row.toList ↔ w = v

theorem Written.reads {v : Json} (h : Written v) : Reads v.write v := by
  refine fun w => ⟨fun hw => hw.unique h, ?_⟩
  rintro rfl
  exact h

end Json

end Calculator

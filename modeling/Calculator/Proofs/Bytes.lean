import Calculator.Session
import Mathlib.Data.List.Basic

/-!
# Lines in bytes

An input is cut into lines before its bytes are read as text. `PiecesOf` says what the pieces of a
sequence are, whatever its elements: each ends with the next mark, which only the last may lack.
Splitting an input gives its pieces at line feeds (`inputLines_eq_pieces`). A line feed is a byte of
its own in UTF-8, so the lines of a text in bytes are the bytes of its lines (`inputLines_toUTF8`).
-/

namespace Calculator

section Pieces

variable {α : Type}

inductive PiecesOf (mark : α) : List α → List (List α) → Prop
  | nil : PiecesOf mark [] []
  | last {l : List α} (hl : l ≠ []) (hm : mark ∉ l) : PiecesOf mark l [l]
  | ended {l rest : List α} {ls : List (List α)} (hm : mark ∉ l) (h : PiecesOf mark rest ls) :
    PiecesOf mark (l ++ mark :: rest) ((l ++ [mark]) :: ls)

/-- Puts an element in front of the first piece. -/
def extendFirst (a : α) : List (List α) → List (List α)
  | [] => [[a]]
  | l :: ls => (a :: l) :: ls

variable {mark : α}

theorem piecesOf_extendFirst {a : α} (ha : a ≠ mark) {rest : List α} {ls : List (List α)}
    (h : PiecesOf mark rest ls) : PiecesOf mark (a :: rest) (extendFirst a ls) := by
  cases h with
  | nil => exact .last (List.cons_ne_nil a []) (by simpa using Ne.symm ha)
  | last hl hm => exact .last (List.cons_ne_nil a _) (by simpa using ⟨Ne.symm ha, hm⟩)
  | ended hm h => exact .ended (l := a :: _) (by simpa using ⟨Ne.symm ha, hm⟩) h

variable [DecidableEq α]

def pieces (mark : α) : List α → List (List α)
  | [] => []
  | a :: rest => if a = mark then [a] :: pieces mark rest else extendFirst a (pieces mark rest)

theorem pieces_of_not_mem : ∀ {l : List α}, l ≠ [] → mark ∉ l → pieces mark l = [l]
  | [], hl, _ => absurd rfl hl
  | [a], _, hm => by
    have ha : a ≠ mark := fun h => hm (by simp [h])
    simp [pieces, ha, extendFirst]
  | a :: b :: l, _, hm => by
    rw [List.mem_cons, not_or] at hm
    rw [pieces, if_neg (Ne.symm hm.1), pieces_of_not_mem (List.cons_ne_nil b l) hm.2]
    rfl

theorem pieces_ended : ∀ {l : List α}, mark ∉ l → ∀ rest,
    pieces mark (l ++ mark :: rest) = (l ++ [mark]) :: pieces mark rest
  | [], _, rest => by simp [pieces]
  | a :: l, hm, rest => by
    rw [List.mem_cons, not_or] at hm
    rw [List.cons_append, pieces, if_neg (Ne.symm hm.1), pieces_ended hm.2]
    rfl

theorem piecesOf_pieces (mark : α) : ∀ l : List α, PiecesOf mark l (pieces mark l)
  | [] => .nil
  | a :: rest => by
    rw [pieces]
    split
    · rename_i ha
      subst ha
      exact .ended (l := []) List.not_mem_nil (piecesOf_pieces a rest)
    · rename_i ha
      exact piecesOf_extendFirst ha (piecesOf_pieces mark rest)

theorem PiecesOf.eq_pieces {l : List α} {ls : List (List α)} (h : PiecesOf mark l ls) :
    ls = pieces mark l := by
  induction h with
  | nil => rfl
  | last hl hm => rw [pieces_of_not_mem hl hm]
  | ended hm _ ih => rw [pieces_ended hm, ih]

theorem piecesOf_iff {l : List α} {ls : List (List α)} :
    PiecesOf mark l ls ↔ ls = pieces mark l :=
  ⟨PiecesOf.eq_pieces, fun h => h ▸ piecesOf_pieces mark l⟩

end Pieces

theorem toList_loop_eq (b : ByteArray) (i : Nat) (r : List UInt8) :
    ByteArray.toList.loop b i r = r.reverse ++ b.data.toList.drop i := by
  induction i, r using ByteArray.toList.loop.induct b with
  | case1 i r hi ih =>
    have hlt : i < b.data.toList.length := by simpa using hi
    have hdrop : b.data.toList.drop i = b.get! i :: b.data.toList.drop (i + 1) := by
      rw [List.drop_eq_getElem_cons hlt]
      simp [ByteArray.get!, hi]
    rw [ByteArray.toList.loop.eq_def, if_pos hi, ih, hdrop, List.reverse_cons, List.append_assoc,
      List.singleton_append]
  | case2 i r hi =>
    have hdrop : b.data.toList.drop i = [] := List.drop_eq_nil_of_le (by simpa using hi)
    rw [ByteArray.toList.loop.eq_def, if_neg hi, hdrop, List.append_nil]

theorem toList_eq_data (b : ByteArray) : b.toList = b.data.toList := by
  rw [ByteArray.toList, toList_loop_eq, List.reverse_nil, List.nil_append, List.drop_zero]

@[simp] theorem toByteArray_toList (b : ByteArray) : b.toList.toByteArray = b := by
  rw [toList_eq_data]
  refine ByteArray.ext ?_
  rw [List.data_toByteArray, Array.toArray_toList]

@[simp] theorem toList_toByteArray (l : List UInt8) : l.toByteArray.toList = l := by
  rw [toList_eq_data, List.toList_data_toByteArray]

namespace Session

theorem linesFrom_eq_pieces : ∀ (rest : List UInt8) {line : List UInt8} (found : List ByteArray),
    10 ∉ line → linesFrom rest line found
      = found.reverse ++ (pieces 10 (line.reverse ++ rest)).map List.toByteArray
  | [], [], found, _ => by simp [linesFrom, pieces]
  | [], b :: line, found, hline => by
    have hmem : (10 : UInt8) ∉ (b :: line).reverse := by rwa [List.mem_reverse]
    rw [List.append_nil, pieces_of_not_mem (by simp) hmem]
    simp [linesFrom]
  | b :: rest, line, found, hline => by
    rw [linesFrom]
    split
    · rename_i hb
      subst hb
      have hmem : (10 : UInt8) ∉ line.reverse := by rwa [List.mem_reverse]
      rw [linesFrom_eq_pieces rest _ List.not_mem_nil, pieces_ended hmem]
      simp
    · rename_i hb
      have hmem : (10 : UInt8) ∉ b :: line := by simp [Ne.symm hb, hline]
      rw [linesFrom_eq_pieces rest found hmem]
      simp

theorem inputLines_eq_pieces (input : ByteArray) :
    inputLines input = (pieces 10 input.toList).map List.toByteArray :=
  linesFrom_eq_pieces _ [] List.not_mem_nil

end Session

theorem fromUTF8?_toUTF8 (s : String) : String.fromUTF8? s.toUTF8 = some s := by
  rw [String.fromUTF8?, String.toUTF8_eq_toByteArray, dif_pos s.isValidUTF8]
  rfl

theorem toUTF8_of_fromUTF8? {b : ByteArray} {s : String} (h : String.fromUTF8? b = some s) :
    b = s.toUTF8 := by
  rw [String.fromUTF8?] at h
  split at h
  · cases h
    rfl
  · cases h

theorem toUTF8_ofList (cs : List Char) :
    (String.ofList cs).toUTF8 = (cs.flatMap String.utf8EncodeChar).toByteArray := by
  rw [String.toUTF8_eq_toByteArray, String.toByteArray_ofList]
  rfl

theorem toList_toUTF8 (s : String) :
    s.toUTF8.toList = s.toList.flatMap String.utf8EncodeChar := by
  have hs := toUTF8_ofList s.toList
  rw [String.ofList_toList] at hs
  rw [hs, toList_toByteArray]

/-- A byte below 128 is a character of its own. -/
theorem toNat_of_mem_utf8EncodeChar {c : Char} {b : UInt8} (h : b ∈ String.utf8EncodeChar c)
    (hb : b.toNat < 128) : c.toNat = b.toNat := by
  have hc : c.val.toNat = c.toNat := rfl
  simp only [String.utf8EncodeChar, hc] at h
  split_ifs at h with h1 h2 h3
  · rw [List.mem_singleton.1 h, UInt8.toNat_ofNat', Nat.mod_eq_of_lt (by omega)]
  all_goals
    -- all bytes have their highest bit set
    simp only [List.mem_cons, List.not_mem_nil, or_false, ← UInt8.toNat_inj,
      UInt8.toNat_ofNat'] at h
    omega

theorem not_mem_encode {l : List Char} (h : '\n' ∉ l) :
    (10 : UInt8) ∉ l.flatMap String.utf8EncodeChar := by
  rw [List.mem_flatMap]
  rintro ⟨c, hc, hb⟩
  have hfeed : c = '\n' := Char.toNat_inj.1 (toNat_of_mem_utf8EncodeChar hb (by decide))
  exact h (hfeed ▸ hc)

theorem PiecesOf.encode {cs : List Char} {ls : List (List Char)} (h : PiecesOf '\n' cs ls) :
    PiecesOf 10 (cs.flatMap String.utf8EncodeChar)
      (ls.map fun l => l.flatMap String.utf8EncodeChar) := by
  induction h with
  | nil => exact .nil
  | @last l hl hm =>
    obtain ⟨c, rest, rfl⟩ := List.exists_cons_of_ne_nil hl
    exact .last (by simp [String.utf8EncodeChar_ne_nil]) (not_mem_encode hm)
  | ended hm _ ih =>
    have hfeed : String.utf8EncodeChar '\n' = [10] := by decide
    simpa [hfeed] using PiecesOf.ended (not_mem_encode hm) ih

theorem Session.inputLines_toUTF8 (text : String) :
    inputLines text.toUTF8
      = ((pieces '\n' text.toList).map String.ofList).map String.toUTF8 := by
  rw [inputLines_eq_pieces, toList_toUTF8, ← (piecesOf_pieces '\n' text.toList).encode.eq_pieces,
    List.map_map, List.map_map]
  exact List.map_congr_left fun l _ => (toUTF8_ofList l).symm

end Calculator

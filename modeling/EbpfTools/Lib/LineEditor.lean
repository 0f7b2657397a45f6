import Mathlib.Data.List.InsertIdx
import EbpfTools.Lib.Buf

/-!
# Editing a line of text

A line is a text with a cursor at one of its positions. Typing inserts at the cursor up to a
capacity, backspace and delete erase the character before and behind it. A line of characters in an
array is kept as a C string; moving the rest of the string with its NUL by one byte erases a
character or makes room for one.
-/

namespace EbpfTools.Lib

/-! ## Lines -/

structure Line (α : Type) where
  text : List α
  cursor : Nat
  cursor_le : cursor ≤ text.length

namespace Line

variable {α : Type}

def empty : Line α := ⟨[], 0, Nat.le_refl 0⟩

def toEnd (l : Line α) : Line α := ⟨l.text, l.text.length, Nat.le_refl _⟩

def insert (capacity : Nat) (a : α) (l : Line α) : Line α :=
  if l.text.length < capacity then
    ⟨l.text.insertIdx l.cursor a, l.cursor + 1, by
      rw [List.length_insertIdx_of_le_length l.cursor_le]
      exact Nat.succ_le_succ l.cursor_le⟩
  else l

def backspace (l : Line α) : Line α :=
  ⟨if 0 < l.cursor then l.text.eraseIdx (l.cursor - 1) else l.text, l.cursor - 1, by
    have hle := l.cursor_le
    split
    · rw [List.length_eraseIdx_of_lt (by omega)]
      omega
    · omega⟩

def delete (l : Line α) : Line α :=
  ⟨l.text.eraseIdx l.cursor, l.cursor, by
    have hle := l.cursor_le
    rw [List.length_eraseIdx]
    split <;> omega⟩

def left (l : Line α) : Line α :=
  ⟨l.text, l.cursor - 1, Nat.le_trans (Nat.sub_le _ _) l.cursor_le⟩

def right (l : Line α) : Line α :=
  ⟨l.text, min (l.cursor + 1) l.text.length, Nat.min_le_right _ _⟩

end Line

theorem insertIdx_eq_take_append_drop {α : Type} {l : List α} {i : Nat} (h : i ≤ l.length)
    (a : α) : l.insertIdx i a = l.take i ++ a :: l.drop i := by
  induction l generalizing i with
  | nil =>
      obtain rfl : i = 0 := Nat.le_zero.mp h
      rfl
  | cons x l ih =>
      cases i with
      | zero => rfl
      | succ i =>
          rw [List.insertIdx_succ_cons, ih (Nat.le_of_succ_le_succ h)]
          rfl

/-! ## Lines in an array -/

variable {n : Nat}

/-- The array holds the text as a C string. -/
structure Buf.Holds (b : Buf n) (text : List UInt8) : Prop where
  not_mem : 0 ∉ text
  bytes_eq : ∃ rest, b.bytes = text ++ 0 :: rest

namespace Buf

variable {b : Buf n} {text : List UInt8}

theorem Holds.str_eq (h : b.Holds text) : b.str = text := by
  obtain ⟨rest, hbytes⟩ := h.bytes_eq
  rw [Buf.str, hbytes, cstr_append_zero, cstr_eq_self h.not_mem]

theorem Holds.length_lt (h : b.Holds text) : text.length < n := by
  obtain ⟨rest, hbytes⟩ := h.bytes_eq
  have hlen := b.size_eq
  rw [hbytes, List.length_append, List.length_cons] at hlen
  omega

theorem Holds.zero_mem (h : b.Holds text) : 0 ∈ b.bytes := by
  obtain ⟨rest, hbytes⟩ := h.bytes_eq
  rw [hbytes]
  exact List.mem_append_right text List.mem_cons_self

theorem holds_zero (h : 0 < n) : (zero n).Holds [] where
  not_mem := List.not_mem_nil
  bytes_eq := by
    obtain ⟨k, rfl⟩ := Nat.exists_eq_succ_of_ne_zero (Nat.ne_of_gt h)
    exact ⟨List.replicate k 0, rfl⟩

theorem holds_clear (h : 0 < n) : (b.store (0, 0)).Holds [] where
  not_mem := List.not_mem_nil
  bytes_eq := by
    have hset : (b.store (0, 0)).bytes = b.bytes.set 0 0 := rfl
    rw [hset]
    cases hb : b.bytes with
    | nil =>
        have hlen := b.size_eq
        rw [hb, List.length_nil] at hlen
        omega
    | cons x rest => exact ⟨rest, rfl⟩

/-- From `i` on the string is moved to the front by one byte. -/
theorem Holds.erase (h : b.Holds text) {i : Nat} (hi : i < text.length) :
    (b.memcpy i ((b.bytes.drop (i + 1)).take (text.length - i))).Holds (text.eraseIdx i) := by
  have hlt := h.length_lt
  obtain ⟨rest, hbytes⟩ := h.bytes_eq
  have hmoved : (b.bytes.drop (i + 1)).take (text.length - i) = text.drop (i + 1) ++ [0] := by
    rw [hbytes, List.drop_append_of_le_length hi, List.take_append, List.take_of_length_le,
      List.length_drop, show text.length - i - (text.length - (i + 1)) = 1 by omega]
    · rfl
    · rw [List.length_drop]
      omega
  have hlen : i + (text.drop (i + 1) ++ [0]).length ≤ n := by
    rw [List.length_append, List.length_drop, List.length_singleton]
    omega
  refine ⟨fun hm => h.not_mem (List.mem_of_mem_eraseIdx hm), ?_⟩
  rw [hmoved, memcpy_bytes b hlen, hbytes, List.take_append_of_le_length (Nat.le_of_lt hi),
    List.eraseIdx_eq_take_drop_succ]
  exact ⟨_, by simp only [List.append_assoc, List.singleton_append]; rfl⟩

/-- From `i` on the string is moved to the back by one byte, and `c` put where it was. -/
theorem Holds.insert (h : b.Holds text) {i : Nat} (hi : i ≤ text.length)
    (hroom : text.length + 1 < n) {c : UInt8} (hc : c ≠ 0) :
    ((b.memcpy (i + 1) ((b.bytes.drop i).take (text.length - i + 1))).store (i, c)).Holds
      (text.insertIdx i c) := by
  obtain ⟨rest, hbytes⟩ := h.bytes_eq
  have hmoved : (b.bytes.drop i).take (text.length - i + 1) = text.drop i ++ [0] := by
    rw [hbytes, List.drop_append_of_le_length hi, List.take_append, List.take_of_length_le,
      List.length_drop, Nat.add_sub_cancel_left]
    · rfl
    · rw [List.length_drop]
      omega
  have hlen : i + 1 + (text.drop i ++ [0]).length ≤ n := by
    rw [List.length_append, List.length_drop, List.length_singleton]
    omega
  have hsize := b.size_eq
  have hfront : (b.bytes.take (i + 1)).length = i + 1 := List.length_take_of_le (by omega)
  have hbytes' : (b.memcpy (i + 1) (text.drop i ++ [0])).bytes =
      b.bytes.take (i + 1) ++ (text.drop i ++ [0] ++ b.bytes.drop (text.length + 2)) := by
    rw [memcpy_bytes b hlen, List.append_assoc, List.length_append, List.length_drop,
      List.length_singleton, show i + 1 + (text.length - i + 1) = text.length + 2 by omega]
  have hset : ((b.memcpy (i + 1) (text.drop i ++ [0])).store (i, c)).bytes =
      (b.memcpy (i + 1) (text.drop i ++ [0])).bytes.set i c := rfl
  rw [hmoved]
  constructor
  · intro hm
    rcases List.eq_or_mem_of_mem_insertIdx hm with he | hm
    · exact hc he.symm
    · exact h.not_mem hm
  · refine ⟨b.bytes.drop (text.length + 2), ?_⟩
    rw [hset, hbytes', List.set_append_left _ _ (by omega), List.set_eq_take_append_cons_drop,
      if_pos (by omega), List.take_take, Nat.min_eq_left (Nat.le_succ i),
      List.drop_eq_nil_of_le (by omega), insertIdx_eq_take_append_drop hi]
    have htake : b.bytes.take i = text.take i := by
      rw [hbytes, List.take_append_of_le_length hi]
    rw [htake]
    simp only [List.append_assoc, List.cons_append, List.nil_append]

end Buf

end EbpfTools.Lib

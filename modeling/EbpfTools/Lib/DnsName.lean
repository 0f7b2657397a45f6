import Mathlib.Algebra.GroupWithZero.Nat
import Mathlib.Data.List.Basic

/-!
# Domain names in DNS messages

An uncompressed name is a chain of labels, each behind a byte with its length, that the root label
ends.
-/

namespace EbpfTools.Lib

structure DnsLabel where
  text : List UInt8
  length_pos : 1 ≤ text.length
  length_le : text.length ≤ 63

namespace DnsLabel

def encode (l : DnsLabel) : List UInt8 := UInt8.ofNat l.text.length :: l.text

theorem toNat_length (l : DnsLabel) : (UInt8.ofNat l.text.length).toNat = l.text.length := by
  have := l.length_le
  rw [UInt8.toNat_ofNat']
  omega

/-- The length byte of a label is not that of the root and not the start of a pointer. -/
theorem length_ne (l : DnsLabel) : UInt8.ofNat l.text.length ≠ 0 := by
  intro h
  have hnat := congrArg UInt8.toNat h
  rw [l.toNat_length] at hnat
  exact absurd hnat (Nat.ne_of_gt l.length_pos)

theorem not_pointer (l : DnsLabel) : ¬ UInt8.ofNat l.text.length &&& 0xC0 = 0xC0 := by
  have hall : ∀ n < 64, ¬ UInt8.ofNat n &&& 0xC0 = 0xC0 := by decide
  exact hall _ (Nat.lt_succ_of_le l.length_le)

end DnsLabel

def encodeLabels (ls : List DnsLabel) : List UInt8 := ls.flatMap DnsLabel.encode

def encodeName (ls : List DnsLabel) : List UInt8 := encodeLabels ls ++ [0]

/-- The labels joined by dots. -/
def dotted (ls : List (List UInt8)) : List UInt8 := [0x2E].intercalate ls

@[simp] theorem encodeLabels_nil : encodeLabels [] = [] := rfl

@[simp] theorem encodeLabels_cons (l : DnsLabel) (ls : List DnsLabel) :
    encodeLabels (l :: ls) = UInt8.ofNat l.text.length :: (l.text ++ encodeLabels ls) := by
  rw [encodeLabels, List.flatMap_cons, DnsLabel.encode, List.cons_append]
  rfl

theorem length_dotted (ls : List (List UInt8)) :
    (dotted ls).length = (ls.map List.length).sum + (ls.length - 1) := by
  induction ls with
  | nil => rfl
  | cons l ls ih =>
      cases ls with
      | nil => simp [dotted]
      | cons m ls =>
          rw [dotted, List.intercalate_cons_cons, List.length_append, List.length_append,
            List.length_singleton, ← dotted, ih]
          simp only [List.map_cons, List.sum_cons, List.length_cons]
          omega

/-- A byte other than the dot that no label holds is not in the name. -/
theorem not_mem_dotted {c : UInt8} (hc : c ≠ 0x2E) {ls : List (List UInt8)}
    (h : ∀ l ∈ ls, c ∉ l) : c ∉ dotted ls := by
  induction ls with
  | nil => exact List.not_mem_nil
  | cons l ls ih =>
      obtain ⟨hl, hls⟩ := List.forall_mem_cons.mp h
      cases ls with
      | nil => simpa [dotted] using hl
      | cons m ls =>
          rw [dotted, List.intercalate_cons_cons, ← dotted]
          simp only [List.mem_append, List.mem_singleton, not_or]
          exact ⟨⟨hl, hc⟩, ih hls⟩

theorem sum_length_take_le (k : Nat) (ls : List (List UInt8)) :
    ((ls.map (List.take k)).map List.length).sum ≤ (ls.map List.length).sum := by
  induction ls with
  | nil => exact Nat.le_refl _
  | cons l ls ih =>
      simp only [List.map_cons, List.sum_cons, List.length_take]
      omega

/-- Labels cut to `k` bytes make a name that is shorter exactly if one of them is longer. -/
theorem length_dotted_take_lt {ls : List (List UInt8)} {k : Nat} {l : List UInt8} (hl : l ∈ ls)
    (hk : k < l.length) : (dotted (ls.map (List.take k))).length < (dotted ls).length := by
  have hlt : ((ls.map (List.take k)).map List.length).sum < (ls.map List.length).sum := by
    obtain ⟨pre, post, rfl⟩ := List.append_of_mem hl
    have hpre := sum_length_take_le k pre
    have hpost := sum_length_take_le k post
    simp only [List.map_append, List.map_cons, List.sum_append, List.sum_cons, List.length_take]
      at hpre hpost ⊢
    omega
  rw [length_dotted, length_dotted, List.length_map]
  omega

end EbpfTools.Lib

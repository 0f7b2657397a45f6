import Mathlib.Data.Nat.Digits.Lemmas
import EbpfTools.Lib.Numeral

/-!
# Printed numerals

What `%u` prints, and that `atoi` reads it back.
-/

namespace EbpfTools.Lib

def printDecimal (n : Nat) : List UInt8 :=
  if n = 0 then [48] else ((Nat.digits 10 n).map fun d => UInt8.ofNat (48 + d)).reverse

theorem toNat_ofNat_digit {d : Nat} (h : d < 10) : (UInt8.ofNat (48 + d)).toNat = 48 + d := by
  rw [UInt8.toNat_ofNat']
  omega

theorem isDigit_of_mem_printDecimal {n : Nat} {c : UInt8} (h : c ∈ printDecimal n) :
    isDigit c := by
  unfold printDecimal at h
  split at h
  · rw [List.mem_singleton.mp h]
    rfl
  · obtain ⟨d, hd, rfl⟩ := List.mem_map.mp (List.mem_reverse.mp h)
    have hlt : d < 10 := Nat.digits_lt_base (by decide) hd
    simp only [isDigit, decide_eq_true_eq, UInt8.le_iff_toNat_le, toNat_ofNat_digit hlt]
    exact ⟨Nat.le_add_right 48 d, Nat.add_le_add_left (Nat.le_of_lt_succ hlt) 48⟩

theorem digitsValue_reverse {ds : List Nat} (h : ∀ d ∈ ds, d < 10) :
    digitsValue (ds.map fun d => UInt8.ofNat (48 + d)).reverse = Nat.ofDigits 10 ds := by
  induction ds with
  | nil => rfl
  | cons d ds ih =>
      obtain ⟨hd, hds⟩ := List.forall_mem_cons.mp h
      have hlast := ih hds
      unfold digitsValue at hlast ⊢
      rw [List.map_cons, List.reverse_cons, List.foldl_append, hlast, List.foldl_cons,
        List.foldl_nil, toNat_ofNat_digit hd, Nat.ofDigits_cons]
      show 10 * Nat.ofDigits 10 ds + (48 + d - 48) = d + 10 * Nat.ofDigits 10 ds
      omega

theorem digitsValue_printDecimal (n : Nat) : digitsValue (printDecimal n) = n := by
  unfold printDecimal
  split
  · rename_i hzero
    rw [hzero]
    rfl
  · rw [digitsValue_reverse fun d hd => Nat.digits_lt_base (by decide) hd, Nat.ofDigits_digits]

theorem length_printDecimal_le {n k : Nat} (hk : 1 ≤ k) (h : n < 10 ^ k) :
    (printDecimal n).length ≤ k := by
  unfold printDecimal
  split
  · exact hk
  · rw [List.length_reverse, List.length_map]
    exact (Nat.digits_length_le_iff (by decide) n).mpr h

theorem strtol_printDecimal {n : Nat} (h : n ≤ LONG_MAX) : strtol (printDecimal n) = n := by
  rw [strtol_of_digits fun _ hd => isDigit_of_mem_printDecimal hd, digitsValue_printDecimal]
  omega

/-- A 16-bit number is read back as it was printed. -/
theorem atoi_printDecimal (p : UInt16) :
    (atoi (printDecimal p.toNat)).toUInt32.toUInt16 = p := by
  have hlt : p.toNat < 65536 := p.toNat_lt
  have hmax : LONG_MAX = 9223372036854775807 := rfl
  rw [atoi, strtol_printDecimal (by omega)]
  exact UInt16.toNat_inj.mp ((toNat_toUInt16_ofInt p.toNat).trans (Nat.mod_eq_of_lt hlt))

end EbpfTools.Lib

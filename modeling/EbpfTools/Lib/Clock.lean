import Mathlib.Algebra.Group.Nat.Defs

/-!
# Clock readings

Differences of 64-bit clock readings, taken in order, against a window.
-/

namespace EbpfTools.Lib

variable {a b w : UInt64}

theorem toNat_elapsed (h : a.toNat ≤ b.toNat) : (b - a).toNat = b.toNat - a.toNat :=
  UInt64.toNat_sub_of_le _ _ (UInt64.le_iff_toNat_le.mpr h)

theorem elapsed_gt_iff (h : a.toNat ≤ b.toNat) : b - a > w ↔ a.toNat + w.toNat < b.toNat := by
  rw [gt_iff_lt, UInt64.lt_iff_toNat_lt, toNat_elapsed h]
  omega

theorem elapsed_le_iff (h : a.toNat ≤ b.toNat) : b - a ≤ w ↔ b.toNat ≤ a.toNat + w.toNat := by
  rw [UInt64.le_iff_toNat_le, toNat_elapsed h]
  omega

theorem elapsed_lt_iff (h : a.toNat ≤ b.toNat) : b - a < w ↔ b.toNat < a.toNat + w.toNat := by
  rw [UInt64.lt_iff_toNat_lt, toNat_elapsed h]
  omega

/-- A reading taken before `a` looks like one long after it. -/
theorem elapsed_gt_of_lt (hlt : b.toNat < a.toNat) (hnear : a.toNat ≤ b.toNat + w.toNat)
    (hw : w.toNat < 2 ^ 63) : b - a > w := by
  have ha := a.toNat_lt
  rw [gt_iff_lt, UInt64.lt_iff_toNat_lt, UInt64.toNat_sub]
  omega

end EbpfTools.Lib

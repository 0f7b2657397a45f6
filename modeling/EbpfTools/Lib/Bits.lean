import Mathlib.Algebra.Group.Nat.Defs
import Mathlib.Data.Nat.Bitwise

/-!
# Bits of machine words

Two 32-bit words in one of 64 bits, and masks with one bit.
-/

namespace EbpfTools.Lib

/-! ## Two words in one -/

/-- `(__u64)high << 32 | low` -/
def joinWords (high low : UInt32) : UInt64 := high.toUInt64 <<< 32 ||| low.toUInt64

theorem toNat_joinWords (high low : UInt32) :
    (joinWords high low).toNat = high.toNat <<< 32 ||| low.toNat := by
  have hlt := high.toNat_lt
  have hshift : (high.toUInt64 <<< 32).toNat = high.toNat <<< 32 := by
    rw [UInt64.toNat_shiftLeft, UInt32.toNat_toUInt64]
    refine Nat.mod_eq_of_lt ?_
    rw [show (32 : UInt64).toNat % 64 = 32 from rfl, Nat.shiftLeft_eq]
    omega
  rw [joinWords, UInt64.toNat_or, hshift, UInt32.toNat_toUInt64]

theorem high_joinWords (high low : UInt32) : (joinWords high low >>> 32).toUInt32 = high := by
  have hlow : low.toNat >>> 32 = 0 := by
    rw [Nat.shiftRight_eq_div_pow]
    exact Nat.div_eq_of_lt low.toNat_lt
  apply UInt32.toNat_inj.mp
  rw [UInt64.toNat_toUInt32, UInt64.toNat_shiftRight, toNat_joinWords,
    show (32 : UInt64).toNat % 64 = 32 from rfl, Nat.shiftRight_or_distrib, hlow, Nat.or_zero,
    Nat.shiftLeft_shiftRight]
  exact Nat.mod_eq_of_lt high.toNat_lt

theorem testBit_joinWords (high low : UInt32) (c : Nat) :
    (joinWords high low).toNat.testBit c =
      if c < 32 then low.toNat.testBit c else high.toNat.testBit (c - 32) := by
  rw [toNat_joinWords, Nat.testBit_or, Nat.testBit_shiftLeft]
  by_cases hc : c < 32
  · simp [hc, Nat.not_le_of_lt hc]
  · have hpow : 2 ^ 32 ≤ 2 ^ c := Nat.pow_le_pow_right (by decide) (Nat.le_of_not_lt hc)
    have hzero : low.toNat.testBit c = false :=
      Nat.testBit_lt_two_pow (Nat.lt_of_lt_of_le low.toNat_lt hpow)
    simp [hc, hzero, Nat.le_of_not_lt hc]

/-! ## Masks -/

theorem and_bit_ne_zero_iff (x : UInt64) {b : UInt64} (hb : b.toNat < 64) :
    x &&& ((1 : UInt64) <<< b) ≠ 0 ↔ x.toNat.testBit b.toNat := by
  have hbit : ((1 : UInt64) <<< b).toNat = 2 ^ b.toNat := by
    rw [UInt64.toNat_shiftLeft, Nat.mod_eq_of_lt hb, Nat.shiftLeft_eq]
    exact (Nat.mod_eq_of_lt (by simpa using Nat.pow_lt_pow_right (by decide) hb)).trans
      (Nat.one_mul _)
  rw [ne_eq, ← UInt64.toNat_inj, UInt64.toNat_and, hbit, UInt64.toNat_zero, Nat.and_two_pow]
  cases x.toNat.testBit b.toNat <;> simp

/-- The bits of `x` that `y` does not have. -/
theorem testBit_and_not (x y : UInt64) {b : Nat} (hb : b < 64) :
    (x &&& ~~~y).toNat.testBit b ↔ x.toNat.testBit b ∧ ¬ y.toNat.testBit b := by
  have hnot : (~~~y).toNat = 2 ^ 64 - (y.toNat + 1) := by
    rw [UInt64.toNat_not, UInt64.size]
    omega
  rw [UInt64.toNat_and, Nat.testBit_and, hnot, Nat.testBit_two_pow_sub_succ y.toNat_lt]
  simp [hb]

end EbpfTools.Lib

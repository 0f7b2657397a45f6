import Mathlib.Algebra.Group.Nat.Defs

/-!
# Integers as double-precision numbers

The conversion of an unsigned integer to `double` keeps its first 53 bits and rounds to the nearest
such number, on a tie to the one whose last bit is 0.
-/

namespace EbpfTools.Lib

/-- The number of bits of `n` behind the first 53. -/
def excessBits (n : Nat) : Nat := n.log2 - 52

/-- The value of `(double) n`. -/
def toDouble (n : Nat) : Nat :=
  let ulp := 2 ^ excessBits n
  let m := n / ulp
  let r := n % ulp
  if ulp < 2 * r ∨ 2 * r = ulp ∧ m % 2 = 1 then (m + 1) * ulp else m * ulp

/-- The integer has at most 53 bits up to a power of 2. -/
def IsDouble (n : Nat) : Prop := ∃ m e, m < 2 ^ 53 ∧ n = m * 2 ^ e

theorem div_excess_lt (n : Nat) : n / 2 ^ excessBits n < 2 ^ 53 := by
  rw [Nat.div_lt_iff_lt_mul (Nat.two_pow_pos _), ← Nat.pow_add]
  refine Nat.lt_of_lt_of_le Nat.lt_log2_self (Nat.pow_le_pow_right (by decide) ?_)
  unfold excessBits
  omega

/-- Only zeros stand behind the first 53 bits of such an integer. -/
theorem pow_excess_dvd {n : Nat} (h : IsDouble n) : 2 ^ excessBits n ∣ n := by
  obtain ⟨m, e, hm, rfl⟩ := h
  by_cases hzero : m * 2 ^ e = 0
  · rw [hzero]
    exact Nat.dvd_zero _
  · have hlt : m * 2 ^ e < 2 ^ (53 + e) := by
      rw [Nat.pow_add]
      exact Nat.mul_lt_mul_of_pos_right hm (Nat.two_pow_pos e)
    have hlog := (Nat.log2_lt hzero).mpr hlt
    have hle : excessBits (m * 2 ^ e) ≤ e := by
      unfold excessBits
      omega
    exact Nat.dvd_trans (Nat.pow_dvd_pow 2 hle) (Nat.dvd_mul_left _ m)

/-- The conversion rounds down or up to a multiple of the last bit that is kept. -/
theorem toDouble_eq (n : Nat) :
    ∃ up < 2, toDouble n = (n / 2 ^ excessBits n + up) * 2 ^ excessBits n := by
  simp only [toDouble]
  split
  · exact ⟨1, by decide, rfl⟩
  · exact ⟨0, by decide, rfl⟩

theorem toDouble_eq_self_iff {n : Nat} : toDouble n = n ↔ IsDouble n := by
  constructor
  · intro h
    obtain ⟨up, -, hround⟩ := toDouble_eq n
    have hdvd : 2 ^ excessBits n ∣ toDouble n := by
      rw [hround]
      exact Nat.dvd_mul_left _ _
    rw [h] at hdvd
    exact ⟨_, _, div_excess_lt n, (Nat.div_mul_cancel hdvd).symm⟩
  · intro h
    have hdvd := pow_excess_dvd h
    have hpos := Nat.two_pow_pos (excessBits n)
    have hrest : n % 2 ^ excessBits n = 0 := Nat.mod_eq_zero_of_dvd hdvd
    simp only [toDouble, hrest]
    rw [if_neg (by omega), Nat.div_mul_cancel hdvd]

theorem toDouble_le_two_pow {n k : Nat} (h : n < 2 ^ k) : toDouble n ≤ 2 ^ k := by
  obtain ⟨up, hup, hround⟩ := toDouble_eq n
  have hle : excessBits n ≤ k := by
    by_cases hzero : n = 0
    · rw [hzero]
      exact Nat.zero_le k
    · have hlog := (Nat.log2_lt hzero).mpr h
      unfold excessBits
      omega
  have hsplit : 2 ^ k = 2 ^ (k - excessBits n) * 2 ^ excessBits n := by
    rw [← Nat.pow_add, Nat.sub_add_cancel hle]
  have hlt : n / 2 ^ excessBits n < 2 ^ (k - excessBits n) := by
    rw [Nat.div_lt_iff_lt_mul (Nat.two_pow_pos _), ← hsplit]
    exact h
  rw [hround, hsplit]
  exact Nat.mul_le_mul_right _ (by omega)

/-- A counter of `k` bits shows its count after the conversion exactly if it did not overflow and
nothing is rounded. -/
theorem toDouble_mod_eq_self_iff {n k : Nat} :
    toDouble (n % 2 ^ k) = n ↔ n < 2 ^ k ∧ IsDouble n := by
  constructor
  · intro h
    have hle : n ≤ 2 ^ k := h ▸ toDouble_le_two_pow (Nat.mod_lt n (Nat.two_pow_pos k))
    have hne : n ≠ 2 ^ k := by
      rintro rfl
      rw [Nat.mod_self] at h
      exact absurd h.symm (Nat.ne_of_gt (Nat.two_pow_pos k))
    have hlt := Nat.lt_of_le_of_ne hle hne
    rw [Nat.mod_eq_of_lt hlt] at h
    exact ⟨hlt, toDouble_eq_self_iff.mp h⟩
  · rintro ⟨hlt, h⟩
    rw [Nat.mod_eq_of_lt hlt]
    exact toDouble_eq_self_iff.mpr h

/-- Rounding never halves a number. -/
theorem lt_two_mul_toDouble {n : Nat} (h : 0 < n) : n < 2 * toDouble n := by
  obtain ⟨up, -, hround⟩ := toDouble_eq n
  have hpos := Nat.two_pow_pos (excessBits n)
  have hle : 2 ^ excessBits n ≤ n :=
    Nat.le_trans (Nat.pow_le_pow_right (by decide) (Nat.sub_le _ 52))
      (Nat.log2_self_le (Nat.ne_of_gt h))
  -- the bits that are kept are worth more than those that are lost
  have hkept : 2 ^ excessBits n ≤ n / 2 ^ excessBits n * 2 ^ excessBits n :=
    Nat.le_mul_of_pos_left _ (Nat.div_pos hle hpos)
  have hlost := Nat.mod_lt n hpos
  have hsplit := Nat.div_add_mod' n (2 ^ excessBits n)
  rw [hround, Nat.add_mul]
  omega

/-- A whole multiple of the conversion is the number itself in no other way. -/
theorem toDouble_mul_eq_self_iff {n d : Nat} (h : 0 < n) :
    toDouble n * d = n ↔ d = 1 ∧ IsDouble n := by
  have hlt := lt_two_mul_toDouble h
  constructor
  · intro he
    have hle : d < 2 := by
      refine Nat.lt_of_not_le fun hd => ?_
      have := Nat.mul_le_mul_left (toDouble n) hd
      omega
    have hne : d ≠ 0 := by
      rintro rfl
      omega
    obtain rfl : d = 1 := by omega
    rw [Nat.mul_one] at he
    exact ⟨rfl, toDouble_eq_self_iff.mp he⟩
  · rintro ⟨rfl, hd⟩
    rw [Nat.mul_one]
    exact toDouble_eq_self_iff.mpr hd

end EbpfTools.Lib

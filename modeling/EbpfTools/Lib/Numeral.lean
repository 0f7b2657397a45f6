import Mathlib.Data.List.TakeWhile

/-!
# Numerals of the C library

`strtol` in base 10 and `atoi`, with 64 bits in a `long`: leading white space and a sign are read,
then digits, and a value that does not fit is the nearest one that does. `atoi` is the `int` that
this `long` is converted to.
-/

namespace EbpfTools.Lib

def isSpace (c : UInt8) : Bool := c = 32 ∨ (9 ≤ c ∧ c ≤ 13)

def isDigit (c : UInt8) : Bool := 48 ≤ c ∧ c ≤ 57

/-- The number that a list of digits stands for. -/
def digitsValue (ds : List UInt8) : Nat := ds.foldl (fun n d => 10 * n + (d.toNat - 48)) 0

def LONG_MAX : Nat := 9223372036854775807

def strtol (s : List UInt8) : Int :=
  match s.dropWhile isSpace with
  | 45 :: rest => max (-(digitsValue (rest.takeWhile isDigit) : Int)) (-LONG_MAX - 1)
  | 43 :: rest => min (digitsValue (rest.takeWhile isDigit)) LONG_MAX
  | rest => min (digitsValue (rest.takeWhile isDigit)) LONG_MAX

def atoi (s : List UInt8) : Int32 := Int32.ofInt (strtol s)

theorem isDigit_bounds {c : UInt8} (h : isDigit c) : 48 ≤ c.toNat ∧ c.toNat ≤ 57 := by
  simp only [isDigit, decide_eq_true_eq, UInt8.le_iff_toNat_le] at h
  exact h

theorem not_isSpace_of_isDigit {c : UInt8} (h : isDigit c) : isSpace c = false := by
  have hc := isDigit_bounds h
  simp only [isSpace, decide_eq_false_iff_not, UInt8.le_iff_toNat_le]
  rintro (rfl | ⟨-, hle⟩)
  · simp at hc
  · change c.toNat ≤ 13 at hle
    omega

/-- A numeral without white space and sign is read as the number it stands for. -/
theorem strtol_of_digits {ds : List UInt8} (h : ∀ d ∈ ds, isDigit d) :
    strtol ds = min (digitsValue ds) LONG_MAX := by
  have htake : ds.takeWhile isDigit = ds := List.takeWhile_eq_self_iff.mpr h
  cases ds with
  | nil => rfl
  | cons d ds =>
      have hd := isDigit_bounds (h d List.mem_cons_self)
      have hspace : (d :: ds).dropWhile isSpace = d :: ds := by
        rw [List.dropWhile_cons, not_isSpace_of_isDigit (h d List.mem_cons_self)]
        rfl
      have hminus : d ≠ 45 := by
        rintro rfl
        simp at hd
      have hplus : d ≠ 43 := by
        rintro rfl
        simp at hd
      rw [strtol, hspace]
      split
      · rename_i he
        exact absurd (List.cons.inj he).1 hminus
      · rename_i he
        exact absurd (List.cons.inj he).1 hplus
      · rw [htake]
        omega

/-- The low 16 bits of an `int` that a nonnegative `long` is converted to. -/
theorem toNat_toUInt16_ofInt (n : Nat) :
    (Int32.ofInt n).toUInt32.toUInt16.toNat = n % 65536 := by
  have hbits : (BitVec.ofInt 32 n).toNat = n % 4294967296 := by
    rw [BitVec.ofInt_natCast, BitVec.toNat_ofNat]
  have hword : (Int32.ofInt n).toUInt32.toNat = n % 4294967296 := hbits
  rw [UInt32.toNat_toUInt16, hword]
  omega

end EbpfTools.Lib

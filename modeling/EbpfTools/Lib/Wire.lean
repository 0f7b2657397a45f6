import Mathlib.Data.Nat.Digits.Defs

/-!
# Integers and sequences in byte formats

Fixed-width integers in either byte order, and sequences of items that are read one after the
other until no byte is left.
-/

namespace EbpfTools.Lib

variable {α β : Type}

/-! ## Fixed-width integers -/

/-- The `w` low bytes of `n`, least significant first. -/
def leBytes : Nat → Nat → List UInt8
  | 0, _ => []
  | w + 1, n => UInt8.ofNat n :: leBytes w (n / 256)

def leNat (bs : List UInt8) : Nat := Nat.ofDigits 256 (bs.map UInt8.toNat)

def beBytes (w n : Nat) : List UInt8 := (leBytes w n).reverse

/-- The big-endian 16-bit integer at `i`. -/
def be16 (bs : List UInt8) (i : Nat) : Nat :=
  (bs.getD i 0).toNat * 256 + (bs.getD (i + 1) 0).toNat

@[simp] theorem length_leBytes (w n : Nat) : (leBytes w n).length = w := by
  induction w generalizing n with
  | zero => rfl
  | succ w ih => rw [leBytes, List.length_cons, ih]

@[simp] theorem length_beBytes (w n : Nat) : (beBytes w n).length = w := by
  rw [beBytes, List.length_reverse, length_leBytes]

theorem leNat_leBytes (w n : Nat) : leNat (leBytes w n) = n % 256 ^ w := by
  induction w generalizing n with
  | zero => simp [leNat, leBytes, Nat.mod_one]
  | succ w ih =>
      have hd : leNat (UInt8.ofNat n :: leBytes w (n / 256)) =
          n % 256 + 256 * leNat (leBytes w (n / 256)) := by
        simp [leNat, Nat.ofDigits_cons]
      rw [leBytes, hd, ih, Nat.pow_succ, Nat.mul_comm (256 ^ w) 256, Nat.mod_mul]

theorem be16_lt (bs : List UInt8) (i : Nat) : be16 bs i < 65536 := by
  have hhigh := (bs.getD i 0).toNat_lt
  have hlow := (bs.getD (i + 1) 0).toNat_lt
  unfold be16
  omega

theorem be16_beBytes {n : Nat} (h : n < 2 ^ 16) (rest : List UInt8) :
    be16 (beBytes 2 n ++ rest) 0 = n := by
  simp only [be16, beBytes, leBytes, List.reverse_cons, List.reverse_nil, List.nil_append,
    List.cons_append, List.getD_cons_zero, List.getD_cons_succ, UInt8.toNat_ofNat']
  omega

theorem be16_beBytes_self {n : Nat} (h : n < 2 ^ 16) : be16 (beBytes 2 n) 0 = n := by
  simpa using be16_beBytes h []

theorem toNat_ofNat_of_lt {n : Nat} (h : n < 2 ^ 8) : (UInt8.ofNat n).toNat = n := by
  rw [UInt8.toNat_ofNat']
  exact Nat.mod_eq_of_lt h

/-! ## Reading from the front -/

theorem guard_bind {p : Prop} [Decidable p] (hp : p) (f : Unit → Option α) :
    (guard p >>= f) = f () := by
  rw [guard, if_pos hp]
  rfl

theorem some_bind (a : α) (f : α → Option β) : (some a >>= f) = f a := rfl

/-- The first `n` bytes and the rest. -/
def takeBytes (n : Nat) (bs : List UInt8) : Option (List UInt8 × List UInt8) :=
  if n ≤ bs.length then some (bs.take n, bs.drop n) else none

def readLe (w : Nat) (bs : List UInt8) : Option (Nat × List UInt8) :=
  (takeBytes w bs).map fun p => (leNat p.1, p.2)

theorem takeBytes_append {n : Nat} {front : List UInt8} (h : front.length = n)
    (rest : List UInt8) : takeBytes n (front ++ rest) = some (front, rest) := by
  subst h
  simp [takeBytes]

theorem readLe_append (w n : Nat) (rest : List UInt8) :
    readLe w (leBytes w n ++ rest) = some (n % 256 ^ w, rest) := by
  rw [readLe, takeBytes_append (length_leBytes w n)]
  simp [leNat_leBytes]

/-! ## Sequences -/

/-- Items read until no byte is left, at most `fuel` of them. -/
def readAll (item : List UInt8 → Option (α × List UInt8)) : Nat → List UInt8 → Option (List α)
  | _, [] => some []
  | 0, _ :: _ => none
  | fuel + 1, bs => do
      let (a, rest) ← item bs
      let as ← readAll item fuel rest
      pure (a :: as)

/-- Items written one after the other are read back, when each is read back from the front of
whatever follows it and none of them is empty. -/
theorem readAll_flatMap {item : List UInt8 → Option (α × List UInt8)}
    {enc : β → List UInt8} {val : β → α} {xs : List β}
    (hitem : ∀ x ∈ xs, ∀ rest, item (enc x ++ rest) = some (val x, rest))
    (hne : ∀ x ∈ xs, enc x ≠ []) {fuel : Nat} (hfuel : xs.length ≤ fuel) :
    readAll item fuel (xs.flatMap enc) = some (xs.map val) := by
  induction xs generalizing fuel with
  | nil => cases fuel <;> rfl
  | cons x xs ih =>
      obtain ⟨fuel, rfl⟩ : ∃ f, fuel = f + 1 := ⟨fuel - 1, by simp at hfuel; omega⟩
      obtain ⟨b, bs, hb⟩ := List.exists_cons_of_ne_nil (hne x List.mem_cons_self)
      have hhead := hitem x List.mem_cons_self (xs.flatMap enc)
      have htail : readAll item fuel (xs.flatMap enc) = some (xs.map val) :=
        ih (fun y hy => hitem y (List.mem_cons_of_mem x hy))
          (fun y hy => hne y (List.mem_cons_of_mem x hy)) (by simpa using hfuel)
      rw [hb, List.cons_append] at hhead
      rw [List.flatMap_cons, hb, List.cons_append]
      simp [readAll, hhead, htail]

theorem length_le_length_flatMap {enc : β → List UInt8} {xs : List β}
    (hne : ∀ x ∈ xs, enc x ≠ []) : xs.length ≤ (xs.flatMap enc).length := by
  induction xs with
  | nil => exact le_refl _
  | cons x xs ih =>
      have hx := List.length_pos_iff.mpr (hne x List.mem_cons_self)
      have := ih fun y hy => hne y (List.mem_cons_of_mem x hy)
      rw [List.flatMap_cons, List.length_append, List.length_cons]
      omega

end EbpfTools.Lib

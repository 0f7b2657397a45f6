import Mathlib.Data.List.DropRight
import Mathlib.Logic.Function.Basic

/-!
# Circular buffers

An array with the index of the next write and the number of filled slots, both C `int`s. After any
number of writes the filled slots, read from the oldest on, are the last `cap` values written.
-/

namespace EbpfTools.Lib

structure RingBuf (α : Type) where
  slots : Int → α
  head : Int
  count : Int

namespace RingBuf

variable {α : Type} {cap : Nat} {r : RingBuf α} {xs : List α}

def push (cap : Nat) (r : RingBuf α) (x : α) : RingBuf α where
  slots := Function.update r.slots r.head x
  head := (r.head + 1).tmod cap
  count := if r.count < cap then r.count + 1 else r.count

/-- Where the `i`-th oldest value is. -/
def index (cap : Nat) (r : RingBuf α) (i : Int) : Int := (r.head - r.count + i + cap).tmod cap

/-- The filled slots from the oldest on. -/
def toList (cap : Nat) (r : RingBuf α) : List α :=
  (List.range r.count.toNat).map fun i : Nat => r.slots (r.index cap i)

/-- The buffer after `xs` was written: each of the last `cap` values is at its number modulo
`cap`. -/
structure Holds (cap : Nat) (r : RingBuf α) (xs : List α) : Prop where
  head_eq : r.head = (xs.length % cap : Nat)
  count_eq : r.count = (min xs.length cap : Nat)
  slot_eq : ∀ j, (hj : j < xs.length) → xs.length - cap ≤ j → r.slots (j % cap : Nat) = xs[j]

theorem holds_empty (slots : Int → α) : Holds cap ⟨slots, 0, 0⟩ [] where
  head_eq := by simp
  count_eq := by simp
  slot_eq j hj := absurd hj (Nat.not_lt_zero j)

theorem mod_ne_of_lt {n j : Nat} (hlt : j < n) (hcap : n < j + cap) : j % cap ≠ n % cap := by
  intro h
  have hz : (n - j) % cap = 0 := Nat.sub_mod_eq_zero_of_mod_eq h.symm
  rw [Nat.mod_eq_of_lt (by omega)] at hz
  omega

/-- Writing value number `xs.length` to its slot leaves the last `cap - 1` values before it. -/
theorem slots_concat {slots : Int → α}
    (h : ∀ j, (hj : j < xs.length) → xs.length - cap ≤ j → slots (j % cap : Nat) = xs[j]) (x : α)
    (j : Nat) (hj : j < (xs ++ [x]).length) (hge : (xs ++ [x]).length - cap ≤ j) :
    Function.update slots (xs.length % cap : Nat) x (j % cap : Nat) = (xs ++ [x])[j] := by
  simp only [List.length_append, List.length_singleton] at hj hge
  by_cases hn : j = xs.length
  · subst hn
    simp
  · have hlt : j < xs.length := by omega
    have hne : (j % cap : Nat) ≠ xs.length % cap := mod_ne_of_lt hlt (by omega)
    rw [Function.update_of_ne (by exact_mod_cast hne), h j hlt (by omega),
      List.getElem_append_left hlt]

theorem Holds.push (h : Holds cap r xs) (x : α) :
    Holds cap (r.push cap x) (xs ++ [x]) where
  head_eq := by
    have hnat : (xs.length % cap + 1) % cap = (xs.length + 1) % cap := Nat.mod_add_mod _ _ _
    rw [RingBuf.push, h.head_eq, Int.tmod_eq_emod_of_nonneg (by omega), List.length_append,
      List.length_singleton, ← hnat]
    push_cast
    rfl
  count_eq := by
    rw [RingBuf.push, h.count_eq, List.length_append, List.length_singleton]
    simp only
    split <;> omega
  slot_eq := by
    rw [RingBuf.push, h.head_eq]
    exact slots_concat h.slot_eq x

theorem Holds.foldl (h : Holds cap r xs) (ys : List α) :
    Holds cap (ys.foldl (RingBuf.push cap) r) (xs ++ ys) := by
  induction ys generalizing r xs with
  | nil => simpa using h
  | cons y ys ih =>
      have := ih (h.push y)
      simpa using this

/-- The value number `i` from the oldest is the value number `n - count + i` of all. -/
theorem Holds.index_eq (h : Holds cap r xs) (hcap : 0 < cap) (i : Nat) :
    r.index cap i = ((xs.length - cap + i) % cap : Nat) := by
  have hmod : xs.length % cap < cap := Nat.mod_lt _ hcap
  have hnat : (xs.length % cap + cap - min xs.length cap + i) % cap =
      (xs.length - cap + i) % cap := by
    by_cases hlt : xs.length < cap
    · rw [Nat.mod_eq_of_lt hlt, Nat.min_eq_left (by omega),
        show xs.length + cap - xs.length + i = i + cap by omega,
        show xs.length - cap + i = i by omega, Nat.add_mod_right]
    · have hsub : xs.length % cap = (xs.length - cap) % cap := Nat.mod_eq_sub_mod (by omega)
      rw [Nat.min_eq_right (by omega), Nat.add_sub_cancel, hsub, Nat.mod_add_mod]
  have hint : r.head - r.count + i + cap =
      ((xs.length % cap + cap - min xs.length cap + i : Nat) : Int) := by
    rw [h.head_eq, h.count_eq]
    omega
  rw [index, hint, Int.tmod_eq_emod_of_nonneg (by omega), ← hnat]
  rfl

theorem Holds.slots_index (h : Holds cap r xs) (hcap : 0 < cap) {i : Nat}
    (hi : i < min xs.length cap) :
    r.slots (r.index cap i) = xs.get ⟨xs.length - cap + i, by omega⟩ := by
  rw [h.index_eq hcap i]
  exact h.slot_eq _ _ (by omega)

/-- The buffer is a faithful copy of the last `cap` values, in the order they were written. -/
theorem Holds.toList_eq (h : Holds cap r xs) (hcap : 0 < cap) : r.toList cap = xs.rtake cap := by
  apply List.ext_getElem
  · simp only [toList, List.length_map, List.length_range, h.count_eq, List.rtake,
      List.length_drop]
    omega
  · intro i h₁ h₂
    simp only [toList, List.length_map, List.length_range, h.count_eq] at h₁
    simp only [toList, List.getElem_map, List.getElem_range, List.rtake, List.getElem_drop]
    exact h.slots_index hcap (by omega)

theorem Holds.head_bounds (h : Holds cap r xs) (hcap : 0 < cap) : 0 ≤ r.head ∧ r.head < cap := by
  rw [h.head_eq]
  have := Nat.mod_lt xs.length hcap
  omega

/-- No slot is read twice. -/
theorem Holds.index_inj (h : Holds cap r xs) (hcap : 0 < cap) {i j : Nat}
    (hi : i < min xs.length cap) (hj : j < min xs.length cap)
    (he : r.index cap i = r.index cap j) : i = j := by
  rw [h.index_eq hcap i, h.index_eq hcap j, Int.natCast_inj] at he
  by_contra hne
  rcases Nat.lt_or_gt_of_ne hne with hlt | hlt
  · exact mod_ne_of_lt (n := xs.length - cap + j) (by omega) (by omega) he
  · exact mod_ne_of_lt (n := xs.length - cap + i) (by omega) (by omega) he.symm

end RingBuf

end EbpfTools.Lib

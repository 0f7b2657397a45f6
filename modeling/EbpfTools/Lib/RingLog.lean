import EbpfTools.Lib.Latest
import EbpfTools.Lib.RingBuf

/-!
# Logs that keep their last entries

An array with the number of entries written so far, a C `int` that is never reduced: entry `i` is in
slot `i % cap` until entry `i + cap` overwrites it. A search from the newest entry on sees the last
`cap` entries.
-/

namespace EbpfTools.Lib

structure RingLog (α : Type) where
  slots : Int → α
  pos : Int

namespace RingLog

variable {α : Type} {cap : Nat} {r : RingLog α} {xs : List α}

def push (cap : Nat) (r : RingLog α) (x : α) : RingLog α where
  slots := Function.update r.slots (r.pos.tmod cap) x
  pos := r.pos + 1

/-- The first entry that satisfies `p`, from the one `i` places behind the newest on, among `left`
entries. -/
def search (cap : Nat) (r : RingLog α) (p : α → Bool) : (left i : Nat) → Option α
  | 0, _ => none
  | left + 1, i =>
      if r.pos - 1 - i < 0 then none
      else if p (r.slots ((r.pos - 1 - i).tmod cap)) then some (r.slots ((r.pos - 1 - i).tmod cap))
      else search cap r p left (i + 1)

/-- The log after `xs` was written. -/
structure Holds (cap : Nat) (r : RingLog α) (xs : List α) : Prop where
  pos_eq : r.pos = xs.length
  slot_eq : ∀ j, (hj : j < xs.length) → xs.length - cap ≤ j → r.slots (j % cap : Nat) = xs[j]

theorem holds_empty (slots : Int → α) : Holds cap ⟨slots, 0⟩ [] where
  pos_eq := rfl
  slot_eq j hj := absurd hj (Nat.not_lt_zero j)

theorem Holds.push (h : Holds cap r xs) (x : α) : Holds cap (r.push cap x) (xs ++ [x]) where
  pos_eq := by
    rw [RingLog.push, h.pos_eq, List.length_append, List.length_singleton]
    push_cast
    rfl
  slot_eq := by
    have hpos : r.pos.tmod cap = (xs.length % cap : Nat) := by
      rw [h.pos_eq, Int.tmod_eq_emod_of_nonneg (by omega)]
      rfl
    rw [RingLog.push, hpos]
    exact RingBuf.slots_concat h.slot_eq x

/-- The slot the search reads `i` places behind the newest entry. -/
theorem Holds.slot_behind (h : Holds cap r xs) {i : Nat} (hi : i < xs.length) (hcap : i < cap) :
    r.slots ((r.pos - 1 - i).tmod cap) = xs.get ⟨xs.length - 1 - i, by omega⟩ := by
  have hidx : r.pos - 1 - i = (xs.length - 1 - i : Nat) := by
    rw [h.pos_eq]
    omega
  rw [hidx, Int.tmod_eq_emod_of_nonneg (by omega)]
  exact h.slot_eq (xs.length - 1 - i) (by omega) (by omega)

theorem Holds.search_eq_latest (h : Holds cap r xs) (p : α → Bool) {left i : Nat}
    (hle : left + i ≤ cap) :
    r.search cap p left i = latest p ((xs.take (xs.length - i)).rtake left) := by
  induction left generalizing i with
  | zero => simp [search]
  | succ left ih =>
      rw [search]
      by_cases hi : i < xs.length
      · have hlast : xs.take (xs.length - i) =
            xs.take (xs.length - (i + 1)) ++ [xs.get ⟨xs.length - 1 - i, by omega⟩] := by
          rw [show xs.length - i = xs.length - (i + 1) + 1 by omega,
            List.take_succ_eq_append_getElem (by omega)]
          simp only [List.get_eq_getElem, Nat.sub_sub, Nat.add_comm]
        rw [if_neg (by rw [h.pos_eq]; omega), h.slot_behind hi (by omega), hlast,
          List.rtake_concat_succ]
        split
        · rename_i hp
          rw [latest_concat_of_pos _ hp]
        · rename_i hp
          rw [latest_concat_of_neg _ hp, ih (by omega)]
      · rw [if_pos (by rw [h.pos_eq]; omega), Nat.sub_eq_zero_of_le (by omega),
          List.take_zero, List.rtake_nil, latest_nil]

/-- A search through the whole log finds the latest of the last `cap` entries that satisfies `p`. -/
theorem Holds.search_eq (h : Holds cap r xs) (p : α → Bool) :
    r.search cap p cap 0 = latest p (xs.rtake cap) := by
  rw [h.search_eq_latest p (Nat.le_refl _), Nat.sub_zero, List.take_length]

theorem Holds.search_eq_none_iff (h : Holds cap r xs) (p : α → Bool) :
    r.search cap p cap 0 = none ↔ ∀ b ∈ xs.rtake cap, ¬ p b := by
  rw [h.search_eq, latest_eq_none_iff]

/-- It finds an entry with fewer than `cap` entries behind it, none of which satisfies `p`. -/
theorem Holds.search_eq_some_iff (h : Holds cap r xs) (p : α → Bool) {a : α} :
    r.search cap p cap 0 = some a ↔
      ∃ pre post, xs = pre ++ a :: post ∧ post.length < cap ∧ p a ∧ ∀ b ∈ post, ¬ p b := by
  rw [h.search_eq, latest_eq_some_iff]
  constructor
  · rintro ⟨pre, post, hsplit, hp, hnot⟩
    have hlen := congrArg List.length hsplit
    rw [List.rtake, List.length_drop, List.length_append, List.length_cons] at hlen
    refine ⟨xs.take (xs.length - cap) ++ pre, post, ?_, by omega, hp, hnot⟩
    rw [List.append_assoc, ← hsplit, List.rtake, List.take_append_drop]
  · rintro ⟨pre, post, rfl, hlen, hp, hnot⟩
    refine ⟨pre.drop ((pre ++ a :: post).length - cap), post, ?_, hp, hnot⟩
    rw [List.rtake, List.drop_append_of_le_length]
    rw [List.length_append, List.length_cons]
    omega

end RingLog

end EbpfTools.Lib

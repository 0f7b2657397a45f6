import EbpfTools.Pksniff.Lemmas.Talkers

/-!
# The slots that the selection finds

Whatever the 256 slots hold, the selection finds the ones with the most bytes, and among slots with
as many bytes the earlier ones.
-/

namespace EbpfTools.Pksniff
open EbpfTools.Lib

variable {talkers : Nat → Talker}

/-- The slot is in use and has counted bytes. -/
def Occupied (talkers : Nat → Talker) (i : Nat) : Prop :=
  (talkers i).ip ≠ 0 ∧ (talkers i).bytes ≠ 0

instance (talkers : Nat → Talker) (i : Nat) : Decidable (Occupied talkers i) :=
  inferInstanceAs (Decidable (_ ∧ _))

def occupiedSlots (talkers : Nat → Talker) : List Nat :=
  (List.range 256).filter fun i => Occupied talkers i

/-- Slot `i` has more bytes than slot `j`, or as many and is the earlier one. -/
def Outranks (talkers : Nat → Talker) (i j : Nat) : Prop :=
  (talkers j).bytes < (talkers i).bytes ∨ (talkers j).bytes = (talkers i).bytes ∧ i < j

/-- The slots `is` are the first five, or all, of the occupied ones in their ranking. -/
structure TopSlots (talkers : Nat → Talker) (is : List Nat) : Prop where
  ranked : is.Pairwise (Outranks talkers)
  nodup : is.Nodup
  occupied : ∀ i ∈ is, i ∈ occupiedSlots talkers
  length : is.length = min MAX_TALKERS (occupiedSlots talkers).length
  rest : ∀ j ∈ occupiedSlots talkers, j ∉ is → ∀ i ∈ is, Outranks talkers i j

theorem outranks_of_before {i j : Nat}
    (h : Before (fun i => (talkers i).weight) (· < ·) i j) : Outranks talkers i j := by
  rcases h with hlt | ⟨he, hij⟩
  · exact Or.inl (UInt64.lt_iff_toNat_lt.mpr hlt)
  · exact Or.inr ⟨UInt64.toNat_inj.mp he, hij⟩

/-- The ranking of the occupied slots. -/
def ranking (talkers : Nat → Talker) : List Nat :=
  sortDesc (fun i => (talkers i).weight) (occupiedSlots talkers)

theorem topSlots_ranking (talkers : Nat → Talker) :
    TopSlots talkers ((ranking talkers).take MAX_TALKERS) := by
  have hperm : (ranking talkers).Perm (occupiedSlots talkers) := perm_sortDesc _
  have hincreasing : (occupiedSlots talkers).Pairwise (· < ·) :=
    List.pairwise_lt_range.filter _
  have hranked : (ranking talkers).Pairwise (Outranks talkers) :=
    (pairwise_sortDesc hincreasing).imp outranks_of_before
  have hnodup : (ranking talkers).Nodup :=
    hperm.nodup_iff.mpr (hincreasing.imp Nat.ne_of_lt)
  have hsub := List.take_sublist MAX_TALKERS (ranking talkers)
  refine ⟨hranked.sublist hsub, hnodup.sublist hsub, ?_, ?_, ?_⟩
  · exact fun i hi => hperm.mem_iff.mp (List.mem_of_mem_take hi)
  · rw [List.length_take, hperm.length_eq]
  · intro j hj hnot i hi
    rw [← hperm.mem_iff, ← List.take_append_drop MAX_TALKERS (ranking talkers),
      List.mem_append] at hj
    rw [← List.take_append_drop MAX_TALKERS (ranking talkers), List.pairwise_append] at hranked
    exact hranked.2.2 i hi j (hj.resolve_left hnot)

theorem weight_zero_lt_iff (t : Talker) : Talker.zero.weight < t.weight ↔ t.bytes ≠ 0 := by
  rw [show Talker.zero.weight = 0 from rfl, Nat.pos_iff_ne_zero, Talker.weight, ne_eq,
    ← UInt64.toNat_zero, UInt64.toNat_inj]

/-- The candidates with bytes are the talkers in the occupied slots. -/
theorem filter_candidates (talkers : Nat → Talker) :
    ((candidates talkers).filter fun t => Talker.zero.weight < t.weight) =
      (occupiedSlots talkers).map talkers := by
  rw [candidates, List.filter_filter, List.filter_map, occupiedSlots]
  congr 1
  refine List.filter_congr fun i _ => ?_
  simp only [Function.comp_apply, weight_zero_lt_iff, ← Bool.decide_and]
  exact decide_eq_decide.mpr and_comm

/-- The loops leave the talkers of these slots in `g_top`, and zeros behind them. -/
theorem findTop_eq_ranking (talkers : Nat → Talker) :
    findTop talkers = ((ranking talkers).take MAX_TALKERS).map talkers ++
      List.replicate (MAX_TALKERS - (occupiedSlots talkers).length) .zero := by
  have hzero : ∀ t : Talker, Talker.zero.weight ≤ t.weight := fun t => Nat.zero_le t.weight
  have hheavy : ∀ t ∈ (occupiedSlots talkers).map talkers, Talker.zero.weight < t.weight := by
    rw [← filter_candidates]
    exact fun t ht => of_decide_eq_true (List.mem_filter.mp ht).2
  rw [findTop_eq, foldl_take_filter hzero _ List.length_replicate, filter_candidates,
    selection_eq_sortDesc hheavy, sortDesc_map, List.length_map, List.map_take, ranking]

end EbpfTools.Pksniff

import Mathlib.Data.List.Nodup
import EbpfTools.Lib.RingBuf

/-!
# Views of a circular buffer

The slots whose values satisfy a predicate, from the oldest on. Writing to the buffer takes a front
part of this list away and adds an end to it (`Holds.view_split`), so a position in the list stays
with its slot exactly if nothing is taken away, or the position is the last one and nothing is
added (`getElem?_clamp_iff`).
-/

namespace EbpfTools.Lib

variable {α : Type}

/-! ## Positions -/

/-- A position in a list that loses its front part and gains an end, moved back into the list if
it is behind it. -/
theorem getElem?_clamp_iff {gone kept new : List α} {x : α} {s : Nat} (hold : (gone ++ kept).Nodup)
    (hnew : (kept ++ new).Nodup) (hs : (gone ++ kept)[s]? = some x) (hx : x ∈ kept) :
    (kept ++ new)[min s ((kept ++ new).length - 1)]? = some x ↔
      gone = [] ∨ (gone ++ kept).getLast? = some x ∧ new = [] := by
  obtain ⟨k, hk, rfl⟩ := List.getElem_of_mem hx
  have hlt : s < (gone ++ kept).length := (List.getElem?_eq_some_iff.mp hs).1
  have hpos : (gone ++ kept)[gone.length + k]? = some kept[k] := by
    rw [List.getElem?_append_right (by omega), Nat.add_sub_cancel_left, List.getElem?_eq_getElem hk]
  have hseq : s = gone.length + k := (List.getElem?_inj hlt hold).mp (hs.trans hpos.symm)
  have hafter : (kept ++ new)[k]? = some kept[k] := by
    rw [List.getElem?_append_left hk, List.getElem?_eq_getElem hk]
  have hclamp : (kept ++ new)[min s ((kept ++ new).length - 1)]? = some kept[k] ↔
      min s ((kept ++ new).length - 1) = k := by
    rw [← hafter, List.getElem?_inj _ hnew]
    rw [List.length_append]
    omega
  have hlast : (gone ++ kept).getLast? = some kept[k] ↔ s = (gone ++ kept).length - 1 := by
    rw [List.getLast?_eq_getElem?, ← hs, List.getElem?_inj _ hold, eq_comm]
    omega
  rw [hclamp, hlast, hseq, ← List.length_eq_zero_iff, ← List.length_eq_zero_iff]
  simp only [List.length_append]
  omega

namespace RingBuf

variable {cap : Nat} {r r' : RingBuf α} {xs ys : List α}

/-- The filled slots whose values satisfy `p`. -/
def view (cap : Nat) (p : α → Bool) (r : RingBuf α) : List Int :=
  ((List.range r.count.toNat).map fun i : Nat => r.index cap i).filter fun idx => p (r.slots idx)

/-- The slots that the next `m` values are written to. -/
def overwritten (cap : Nat) (r : RingBuf α) (m : Nat) : List Int :=
  (List.range m).map fun i : Nat => (r.head + i).tmod cap

theorem Holds.nodup_view (h : Holds cap r xs) (hcap : 0 < cap) (p : α → Bool) :
    (r.view cap p).Nodup := by
  refine List.Nodup.filter _ (List.Nodup.map_on (fun i hi j hj he => ?_) List.nodup_range)
  rw [List.mem_range, h.count_eq, Int.toNat_natCast] at hi hj
  exact h.index_inj hcap hi hj he

-- whether value number `j` satisfies `p`
def satAt (p : α → Bool) (xs : List α) (j : Nat) : Bool := (xs[j]?).any p

def slotOf (cap j : Nat) : Int := (j % cap : Nat)

/-- The slots of the numbers in `js` whose values satisfy `p`. -/
def slotsAt (cap : Nat) (p : α → Bool) (xs : List α) (js : List Nat) : List Int :=
  (js.filter (satAt p xs)).map (slotOf cap)

theorem satAt_append_left (p : α → Bool) {j : Nat} (h : j < xs.length) :
    satAt p (xs ++ ys) j = satAt p xs j := by
  rw [satAt, satAt, List.getElem?_append_left h]

theorem satAt_append_right (p : α → Bool) (j : Nat) :
    satAt p (xs ++ ys) (xs.length + j) = satAt p ys j := by
  rw [satAt, satAt, List.getElem?_append_right (by omega), Nat.add_sub_cancel_left]

theorem slotsAt_append (p : α → Bool) (js ks : List Nat) :
    slotsAt cap p xs (js ++ ks) = slotsAt cap p xs js ++ slotsAt cap p xs ks := by
  simp only [slotsAt, List.filter_append, List.map_append]

theorem exists_of_mem_slotsAt {p : α → Bool} {s m : Nat} {idx : Int}
    (h : idx ∈ slotsAt cap p xs (List.range' s m)) : ∃ j, s ≤ j ∧ j < s + m ∧ slotOf cap j = idx := by
  obtain ⟨j, hj, he⟩ := List.mem_map.mp h
  obtain ⟨hge, hlt⟩ := List.mem_range'_1.mp (List.mem_of_mem_filter hj)
  exact ⟨j, hge, hlt, he⟩

/-- The numbers of the last `cap` of `n` values. -/
def window (cap n : Nat) : List Nat := List.range' (n - cap) (min n cap)

/-- With `m` more values, the window loses its front part and gains the new numbers. -/
theorem window_split {n m : Nat} (h : m ≤ cap) :
    window cap n = List.range' (n - cap) (n + m - cap - (n - cap)) ++
        List.range' (n + m - cap) (n - (n + m - cap)) ∧
      window cap (n + m) = List.range' (n + m - cap) (n - (n + m - cap)) ++ List.range' n m := by
  constructor
  · have hlo : n + m - cap = n - cap + (n + m - cap - (n - cap)) := by omega
    have hlen : n + m - cap - (n - cap) + (n - (n + m - cap)) = min n cap := by omega
    rw [window, ← hlen, ← List.range'_append_1, ← hlo]
  · have hn : n = n + m - cap + (n - (n + m - cap)) := by omega
    have hlen : n - (n + m - cap) + m = min (n + m) cap := by omega
    rw [window, ← hlen, ← List.range'_append_1, ← hn]

/-- The view lists the slots of the values that satisfy `p` among the last `cap` ones. -/
theorem Holds.view_eq (h : Holds cap r xs) (hcap : 0 < cap) (p : α → Bool) :
    r.view cap p = slotsAt cap p xs (window cap xs.length) := by
  have hindex : ((List.range r.count.toNat).map fun i : Nat => r.index cap i) =
      (window cap xs.length).map (slotOf cap) := by
    rw [h.count_eq, Int.toNat_natCast, window, List.range'_eq_map_range, List.map_map]
    exact List.map_congr_left fun i _ => h.index_eq hcap i
  rw [view, hindex, List.filter_map, slotsAt]
  refine congrArg _ (List.filter_congr fun j hj => ?_)
  rw [window, List.mem_range'_1] at hj
  have hlt : j < xs.length := by omega
  rw [Function.comp_apply, satAt, List.getElem?_eq_getElem hlt, Option.any_some, slotOf,
    h.slot_eq j hlt hj.1]

theorem Holds.mem_overwritten (h : Holds cap r xs) {m : Nat} {idx : Int} :
    idx ∈ r.overwritten cap m ↔ ∃ k, xs.length ≤ k ∧ k < xs.length + m ∧ idx = slotOf cap k := by
  have hslot : ∀ i : Nat, (r.head + i).tmod cap = slotOf cap (xs.length + i) := by
    intro i
    rw [h.head_eq, Int.tmod_eq_emod_of_nonneg (by omega), slotOf, ← Nat.mod_add_mod]
    push_cast
    rfl
  rw [overwritten, List.mem_map]
  constructor
  · rintro ⟨i, hi, rfl⟩
    exact ⟨xs.length + i, by omega, by simpa using hi, hslot i⟩
  · rintro ⟨k, hle, hlt, rfl⟩
    refine ⟨k - xs.length, by simp; omega, ?_⟩
    rw [hslot, Nat.add_sub_cancel' hle]

/-- Of the values that a slot can still hold, the ones before the new window are overwritten. -/
theorem Holds.overwritten_iff (h : Holds cap r xs) {m j : Nat} (hge : xs.length - cap ≤ j)
    (hlt : j < xs.length) : slotOf cap j ∈ r.overwritten cap m ↔ j < xs.length + m - cap := by
  rw [h.mem_overwritten]
  constructor
  · rintro ⟨k, hk, hkm, he⟩
    by_contra hno
    have hmod : j % cap = k % cap := Int.natCast_inj.mp he
    exact mod_ne_of_lt (by omega) (by omega) hmod
  · intro hj
    refine ⟨j + cap, by omega, by omega, ?_⟩
    rw [slotOf, slotOf, Nat.add_mod_right]

/-- With `cap` new values every slot is overwritten. -/
theorem Holds.mem_overwritten_of_le (h : Holds cap r xs) (hcap : 0 < cap) {p : α → Bool} {m : Nat}
    (hm : cap ≤ m) {idx : Int} (hidx : idx ∈ r.view cap p) : idx ∈ r.overwritten cap m := by
  rw [h.view_eq hcap, window] at hidx
  obtain ⟨j, hge, hlt, rfl⟩ := exists_of_mem_slotsAt hidx
  rw [h.overwritten_iff hge (by omega)]
  omega

/-- A slot of the window before and after keeps its value. -/
theorem Holds.slots_kept (h : Holds cap r xs) (h' : Holds cap r' (xs ++ ys)) {j : Nat}
    (hge : xs.length + ys.length - cap ≤ j) (hlt : j < xs.length) :
    r'.slots (slotOf cap j) = r.slots (slotOf cap j) := by
  have hlt' : j < (xs ++ ys).length := by
    rw [List.length_append]
    omega
  have hge' : (xs ++ ys).length - cap ≤ j := by
    rwa [List.length_append]
  rw [slotOf, h'.slot_eq j hlt' hge', h.slot_eq j hlt (by omega), List.getElem_append_left hlt]

theorem slotsAt_new_eq_nil (p : α → Bool) :
    slotsAt cap p (xs ++ ys) (List.range' xs.length ys.length) = [] ↔ ∀ y ∈ ys, p y = false := by
  rw [slotsAt, List.map_eq_nil_iff, List.filter_eq_nil_iff]
  constructor
  · intro hnone y hy
    obtain ⟨j, hj, rfl⟩ := List.getElem_of_mem hy
    have hj' := hnone (xs.length + j) (by simp [hj])
    rwa [satAt_append_right, satAt, List.getElem?_eq_getElem hj, Option.any_some,
      Bool.not_eq_true] at hj'
  · intro hall j hj
    rw [List.mem_range'_1] at hj
    obtain ⟨i, rfl⟩ := Nat.exists_eq_add_of_le hj.1
    have hi : i < ys.length := by omega
    rw [satAt_append_right, satAt, List.getElem?_eq_getElem hi, Option.any_some,
      hall _ (List.getElem_mem hi)]
    exact Bool.false_ne_true

/-- The slots that are overwritten leave the view at its front, the new values join it at its end,
and the slots between hold what they held. -/
theorem Holds.view_split (h : Holds cap r xs) (h' : Holds cap r' (xs ++ ys)) (hcap : 0 < cap)
    (hlen : ys.length ≤ cap) (p : α → Bool) :
    ∃ gone kept new, r.view cap p = gone ++ kept ∧ r'.view cap p = kept ++ new ∧
      (∀ idx ∈ gone, idx ∈ r.overwritten cap ys.length) ∧
      (∀ idx ∈ kept, idx ∉ r.overwritten cap ys.length ∧ r'.slots idx = r.slots idx) ∧
      (new = [] ↔ ∀ y ∈ ys, p y = false) := by
  obtain ⟨hbefore, hafter⟩ := @window_split cap xs.length ys.length hlen
  have hold : r.view cap p = slotsAt cap p (xs ++ ys) (window cap xs.length) := by
    rw [h.view_eq hcap, slotsAt, slotsAt]
    refine congrArg _ (List.filter_congr fun j hj => ?_)
    rw [window, List.mem_range'_1] at hj
    exact (satAt_append_left p (by omega)).symm
  have hnew : r'.view cap p = slotsAt cap p (xs ++ ys) (window cap (xs.length + ys.length)) := by
    rw [h'.view_eq hcap, List.length_append]
  rw [hbefore, slotsAt_append] at hold
  rw [hafter, slotsAt_append] at hnew
  refine ⟨_, _, _, hold, hnew, ?_, ?_, slotsAt_new_eq_nil p⟩
  · intro idx hidx
    obtain ⟨j, hge, hlt, rfl⟩ := exists_of_mem_slotsAt hidx
    rw [h.overwritten_iff hge (by omega)]
    omega
  · intro idx hidx
    obtain ⟨j, hge, hlt, rfl⟩ := exists_of_mem_slotsAt hidx
    refine ⟨?_, h.slots_kept h' hge (by omega)⟩
    rw [h.overwritten_iff (by omega) (by omega)]
    omega

end RingBuf

end EbpfTools.Lib

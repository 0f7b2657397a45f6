import Mathlib.Data.Finset.Card
import Mathlib.Data.List.TakeWhile
import EbpfTools.Lib.BoundedMap
import EbpfTools.Lib.Run

/-!
# Which keys a full map knows

A map of bounded size that gives every key an entry at its first input and never deletes one admits
the first `cap` keys and no other. An admitted key is treated as if it were alone; a key that is not
admitted never has an entry.
-/

namespace EbpfTools.Lib

variable {κ ν ι ο : Type} {cap : Nat} [DecidableEq κ]

/-- Fewer than `cap` other keys come before the first `k`. -/
def Admitted (cap : Nat) (ks : List κ) (k : κ) : Prop := (ks.takeWhile (· ≠ k)).toFinset.card < cap

instance (cap : Nat) (ks : List κ) (k : κ) : Decidable (Admitted cap ks k) :=
  inferInstanceAs (Decidable (_ < _))

/-! ## The first keys -/

theorem takeWhile_ne_append_of_mem {ks : List κ} {k : κ} (h : k ∈ ks) (ls : List κ) :
    (ks ++ ls).takeWhile (· ≠ k) = ks.takeWhile (· ≠ k) := by
  induction ks with
  | nil => cases h
  | cons a ks ih =>
      by_cases ha : a = k
      · simp [ha]
      · have hmem : k ∈ ks := (List.mem_cons.mp h).resolve_left fun he => ha he.symm
        simpa [ha] using ih hmem

theorem admitted_append_of_mem {ks : List κ} {k : κ} (h : k ∈ ks) (ls : List κ) :
    Admitted cap (ks ++ ls) k ↔ Admitted cap ks k := by
  rw [Admitted, takeWhile_ne_append_of_mem h, Admitted]

theorem admitted_concat_self {ks : List κ} {k : κ} (h : k ∉ ks) :
    Admitted cap (ks ++ [k]) k ↔ ks.toFinset.card < cap := by
  have ht : (ks ++ [k]).takeWhile (· ≠ k) = ks := by
    rw [List.takeWhile_append_of_pos]
    · simp
    · intro a ha
      simpa using ne_of_mem_of_not_mem ha h
  rw [Admitted, ht]

theorem card_takeWhile_le (ks : List κ) (p : κ → Bool) :
    (ks.takeWhile p).toFinset.card ≤ ks.toFinset.card :=
  Finset.card_le_card fun _ ha =>
    List.mem_toFinset.mpr ((List.takeWhile_sublist p).subset (List.mem_toFinset.mp ha))

/-- Every key is admitted while all of them fit. -/
theorem admitted_of_card_le {ks : List κ} {k : κ} (hk : k ∈ ks) (h : ks.toFinset.card ≤ cap) :
    Admitted cap ks k := by
  have hsub : insert k (ks.takeWhile (· ≠ k)).toFinset ⊆ ks.toFinset := by
    intro a ha
    rcases Finset.mem_insert.mp ha with rfl | ha
    · exact List.mem_toFinset.mpr hk
    · exact List.mem_toFinset.mpr
        ((List.takeWhile_sublist _).subset (List.mem_toFinset.mp ha))
  have hn : k ∉ (ks.takeWhile (· ≠ k)).toFinset := by
    intro hm
    simpa using List.mem_takeWhile_imp (List.mem_toFinset.mp hm)
  have hc := Finset.card_le_card hsub
  rw [Finset.card_insert_of_notMem hn] at hc
  exact lt_of_lt_of_le (Nat.lt_of_succ_le hc) h

/-- A key that comes after `cap` others is not admitted. -/
theorem not_admitted_of_crowd {ks : List κ} {k : κ} (hk : k ∉ ks) (hnodup : ks.Nodup)
    (hlen : cap ≤ ks.length) (ls : List κ) : ¬ Admitted cap (ks ++ k :: ls) k := by
  have hsplit : ks ++ k :: ls = (ks ++ [k]) ++ ls := by simp
  have hmem : k ∈ ks ++ [k] := by simp
  rw [hsplit, admitted_append_of_mem hmem, admitted_concat_self hk,
    List.toFinset_card_of_nodup hnodup]
  exact Nat.not_lt.mpr hlen

/-! ## One input -/

/-- One input replaces the value of its own key, if there is room for it, and no other. -/
structure Tracks (key : ι → κ) (f : Option ν → ι → ν) (m : BoundedMap κ ν cap) (x : ι)
    (m' : BoundedMap κ ν cap) : Prop where
  own : m'.lookup (key x) = if m.Room (key x) then some (f (m.lookup (key x)) x) else none
  other : ∀ k, k ≠ key x → m'.lookup k = m.lookup k

namespace BoundedMap

theorem tracks_track (key : ι → κ) (f : Option ν → ι → ν) (m : BoundedMap κ ν cap) (x : ι) :
    Tracks key f m x (m.track key f x) where
  own := by
    by_cases h : m.Room (key x)
    · rw [if_pos h, track, lookup_update_self _ h]
    · rw [if_neg h, track, update_of_not_room _ h, lookup_eq_none]
      exact fun hm => h (Or.inl hm)
  other k hk := m.lookup_update_ne _ hk

def keySet (m : BoundedMap κ ν cap) : Finset κ := m.toAList.keys.toFinset

@[simp] theorem mem_keySet {m : BoundedMap κ ν cap} {k : κ} : k ∈ m.keySet ↔ k ∈ m := by
  rw [keySet, List.mem_toFinset, ← AList.mem_keys, mem_toAList]

theorem card_keySet (m : BoundedMap κ ν cap) : m.keySet.card = m.size := by
  rw [keySet, List.toFinset_card_of_nodup m.toAList.keys_nodup]
  simp [AList.keys, List.keys, size]

theorem isSome_lookup {m : BoundedMap κ ν cap} {k : κ} : m.lookup k ≠ none ↔ k ∈ m := by
  rw [ne_eq, lookup_eq_none, not_not]

end BoundedMap

open BoundedMap

theorem Tracks.mem_iff {key : ι → κ} {f : Option ν → ι → ν} {m m' : BoundedMap κ ν cap} {x : ι}
    (h : Tracks key f m x m') (k : κ) : k ∈ m' ↔ k ∈ m ∨ k = key x ∧ m.Room (key x) := by
  by_cases hk : k = key x
  · subst hk
    rw [← isSome_lookup, h.own]
    by_cases hr : m.Room (key x)
    · simp [hr]
    · simpa [hr] using fun hm => hr (Or.inl hm)
  · rw [← isSome_lookup, h.other k hk, isSome_lookup]
    simp [hk]

theorem Tracks.keySet_eq {key : ι → κ} {f : Option ν → ι → ν} {m m' : BoundedMap κ ν cap} {x : ι}
    (h : Tracks key f m x m') :
    m'.keySet = if m.Room (key x) then insert (key x) m.keySet else m.keySet := by
  ext k
  rw [mem_keySet, h.mem_iff]
  split <;> rename_i hr <;> simp [hr, or_comm]

/-! ## All inputs -/

/-- The keys of a map against all keys so far, in order. -/
structure FirstCome (ks : List κ) (m : BoundedMap κ ν cap) : Prop where
  mem_iff : ∀ k, k ∈ m ↔ k ∈ ks ∧ Admitted cap ks k
  size_eq : m.size = min cap ks.toFinset.card

theorem firstCome_empty : FirstCome [] (empty : BoundedMap κ ν cap) where
  mem_iff k := by simp [← isSome_lookup]
  size_eq := by simp [size, empty]

/-- There is room for a key that is admitted now or was before, and for no other. -/
theorem FirstCome.room_iff {ks : List κ} {m : BoundedMap κ ν cap} (h : FirstCome ks m) (k : κ) :
    m.Room k ↔ Admitted cap (ks ++ [k]) k := by
  by_cases hk : k ∈ ks
  · rw [admitted_append_of_mem hk, Room, h.mem_iff, h.size_eq]
    constructor
    · rintro (⟨-, ha⟩ | hlt)
      · exact ha
      · exact lt_of_le_of_lt (card_takeWhile_le ks _) (by omega)
    · exact fun ha => Or.inl ⟨hk, ha⟩
  · rw [admitted_concat_self hk, Room, h.mem_iff, h.size_eq]
    constructor
    · rintro (⟨hm, -⟩ | hlt)
      · exact absurd hm hk
      · omega
    · exact fun hlt => Or.inr (by omega)

theorem FirstCome.step {key : ι → κ} {f : Option ν → ι → ν} {m m' : BoundedMap κ ν cap} {x : ι}
    {ks : List κ} (h : FirstCome ks m) (ht : Tracks key f m x m') :
    FirstCome (ks ++ [key x]) m' where
  mem_iff k := by
    rw [ht.mem_iff, h.room_iff, h.mem_iff]
    by_cases hk : k = key x
    · subst hk
      by_cases hmem : key x ∈ ks
      · simp [hmem, admitted_append_of_mem hmem]
      · simp [hmem]
    · by_cases hmem : k ∈ ks
      · simp [hk, hmem, admitted_append_of_mem hmem]
      · simp [hk, hmem]
  size_eq := by
    have hks : (ks ++ [key x]).toFinset = insert (key x) ks.toFinset := by
      ext k
      simp
    rw [← card_keySet, ht.keySet_eq, hks]
    by_cases hmem : key x ∈ ks
    · rw [Finset.insert_eq_of_mem (List.mem_toFinset.mpr hmem), ← h.size_eq, ← card_keySet]
      by_cases hm : key x ∈ m
      · rw [Finset.insert_eq_of_mem (mem_keySet.mpr hm), ite_self]
      · have hr : ¬ m.Room (key x) := by
          rw [h.room_iff, admitted_append_of_mem hmem]
          exact fun ha => hm ((h.mem_iff _).mpr ⟨hmem, ha⟩)
        rw [if_neg hr]
    · have hm : key x ∉ m := fun hm => hmem ((h.mem_iff _).mp hm).1
      rw [Finset.card_insert_of_notMem (fun he => hmem (List.mem_toFinset.mp he))]
      by_cases hr : m.Room (key x)
      · have hlt : ks.toFinset.card < cap := by
          rwa [h.room_iff, admitted_concat_self hmem] at hr
        rw [if_pos hr, Finset.card_insert_of_notMem (fun he => hm (mem_keySet.mp he)),
          card_keySet, h.size_eq]
        omega
      · have hge : ¬ ks.toFinset.card < cap := by
          rwa [h.room_iff, admitted_concat_self hmem] at hr
        rw [if_neg hr, card_keySet, h.size_eq]
        omega

theorem filter_key_of_not_mem {key : ι → κ} {xs : List ι} {k : κ} (h : k ∉ xs.map key) :
    xs.filter (fun x => key x = k) = [] := by
  rw [List.filter_eq_nil_iff]
  intro x hx
  have hne : key x ≠ k := fun he => h (List.mem_map.mpr ⟨x, hx, he⟩)
  simpa using hne

section Run
variable {σ : Type} {key : ι → κ} {f : Option ν → ι → ν} {step : σ → ι → σ × List ο} {s : σ}

/-- Every step of a run tracks its input in the map `proj` of the state. -/
def TracksRun (proj : σ → BoundedMap κ ν cap) (key : ι → κ) (f : Option ν → ι → ν)
    (step : σ → ι → σ × List ο) (s : σ) (xs : List ι) : Prop :=
  ∀ pre x post, xs = pre ++ x :: post →
    Tracks key f (proj (runState step s pre)) x (proj (step (runState step s pre) x).1)

theorem TracksRun.of_concat {proj : σ → BoundedMap κ ν cap} {xs : List ι} {x : ι}
    (h : TracksRun proj key f step s (xs ++ [x])) : TracksRun proj key f step s xs :=
  fun pre y post he => h pre y (post ++ [x]) (by simp [he])

theorem firstCome_run (proj : σ → BoundedMap κ ν cap) {xs : List ι} (h₀ : proj s = empty)
    (h : TracksRun proj key f step s xs) : FirstCome (xs.map key) (proj (runState step s xs)) := by
  induction xs using List.reverseRecOn with
  | nil =>
      rw [runState_nil, h₀]
      exact firstCome_empty
  | append_singleton xs x ih =>
      rw [runState_concat, List.map_append]
      exact (ih h.of_concat).step (h xs x [] rfl)

/-- After a run an admitted key has the value of its own inputs, and another key has none. -/
theorem lookup_run (proj : σ → BoundedMap κ ν cap) {xs : List ι} (h₀ : proj s = empty)
    (h : TracksRun proj key f step s xs) (k : κ) :
    (proj (runState step s xs)).lookup k =
      if Admitted cap (xs.map key) k then
        (xs.filter fun x => key x = k).foldl (fun o x => some (f o x)) none
      else none := by
  induction xs using List.reverseRecOn with
  | nil => simp [runState_nil, h₀]
  | append_singleton xs x ih =>
      have hroom := (firstCome_run proj h₀ h.of_concat).room_iff (key x)
      have ht := h xs x [] rfl
      replace ih := ih h.of_concat
      rw [runState_concat, List.map_append, List.map_singleton, List.filter_append,
        List.foldl_append]
      by_cases hk : key x = k
      · subst hk
        rw [ht.own]
        by_cases ha : Admitted cap (xs.map key ++ [key x]) (key x)
        · have hprev : (proj (runState step s xs)).lookup (key x) =
              (xs.filter fun y => key y = key x).foldl (fun o x => some (f o x)) none := by
            rw [ih]
            by_cases hmem : key x ∈ xs.map key
            · rw [if_pos ((admitted_append_of_mem hmem _).mp ha)]
            · rw [filter_key_of_not_mem hmem]
              exact ite_self none
          rw [if_pos (hroom.mpr ha), if_pos ha, hprev]
          simp
        · rw [if_neg (fun hr => ha (hroom.mp hr)), if_neg ha]
      · have hnil : [x].filter (fun y => key y = k) = [] := by simp [hk]
        rw [ht.other k fun he => hk he.symm, ih, hnil, List.foldl_nil]
        by_cases hmem : k ∈ xs.map key
        · simp only [admitted_append_of_mem hmem]
        · rw [filter_key_of_not_mem hmem, List.foldl_nil, ite_self, ite_self]

end Run

end EbpfTools.Lib

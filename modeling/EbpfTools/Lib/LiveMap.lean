import EbpfTools.Lib.Admission

/-!
# Maps whose entries come and go

A map of bounded size under updates and deletes holds the live keys with their latest values as long
as all live keys fit, and that is also exactly when it refuses no update.
-/

namespace EbpfTools.Lib

variable {κ ν : Type} {cap : Nat} [DecidableEq κ]

/-- One use of a map. -/
inductive MapOp (κ ν : Type)
  | update (k : κ) (v : ν)
  | delete (k : κ)
  | skip

namespace MapOp

def act (m : BoundedMap κ ν cap) : MapOp κ ν → BoundedMap κ ν cap
  | .update k v => m.update k v
  | .delete k => m.delete k
  | .skip => m

def applyAll (ops : List (MapOp κ ν)) : BoundedMap κ ν cap := ops.foldl act .empty

/-! ## Without a bound -/

def liveStep (f : κ → Option ν) : MapOp κ ν → κ → Option ν
  | .update k v => Function.update f k (some v)
  | .delete k => Function.update f k none
  | .skip => f

/-- The latest value of a key that was not deleted since. -/
def live (ops : List (MapOp κ ν)) : κ → Option ν := ops.foldl liveStep fun _ => none

def keysStep (ks : Finset κ) : MapOp κ ν → Finset κ
  | .update k _ => insert k ks
  | .delete k => ks.erase k
  | .skip => ks

/-- The keys that have a value. -/
def liveKeys (ops : List (MapOp κ ν)) : Finset κ := ops.foldl keysStep ∅

/-- At each update of the run all live keys fit. -/
def Fits (cap : Nat) (ops : List (MapOp κ ν)) : Prop :=
  ∀ pre k v post, ops = pre ++ .update k v :: post → (insert k (liveKeys pre)).card ≤ cap

/-- No update of the run is refused. -/
def NoneRefused (cap : Nat) (ops : List (MapOp κ ν)) : Prop :=
  ∀ pre k v post, ops = pre ++ .update k v :: post →
    (applyAll pre : BoundedMap κ ν cap).Room k

variable {ops : List (MapOp κ ν)} {op : MapOp κ ν}

theorem applyAll_concat (ops : List (MapOp κ ν)) (op : MapOp κ ν) :
    (applyAll (ops ++ [op]) : BoundedMap κ ν cap) = act (applyAll ops) op := by
  rw [applyAll, List.foldl_append]
  rfl

theorem live_concat (ops : List (MapOp κ ν)) (op : MapOp κ ν) :
    live (ops ++ [op]) = liveStep (live ops) op := by
  rw [live, List.foldl_append]
  rfl

theorem liveKeys_concat (ops : List (MapOp κ ν)) (op : MapOp κ ν) :
    liveKeys (ops ++ [op]) = keysStep (liveKeys ops) op := by
  rw [liveKeys, List.foldl_append]
  rfl

theorem mem_liveKeys (k : κ) : k ∈ liveKeys ops ↔ live ops k ≠ none := by
  induction ops using List.reverseRecOn with
  | nil => simp [liveKeys, live]
  | append_singleton ops op ih =>
      rw [liveKeys_concat, live_concat]
      cases op with
      | update j v =>
          rw [keysStep, liveStep, Finset.mem_insert, ih]
          by_cases hk : k = j
          · simp [hk]
          · simp [hk]
      | delete j =>
          rw [keysStep, liveStep, Finset.mem_erase, ih]
          by_cases hk : k = j
          · simp [hk]
          · simp [hk]
      | skip => exact ih

theorem Fits.of_concat (h : Fits cap (ops ++ [op])) : Fits cap ops :=
  fun pre k v post he => h pre k v (post ++ [op]) (by simp [he])

theorem NoneRefused.of_concat (h : NoneRefused cap (ops ++ [op])) : NoneRefused cap ops :=
  fun pre k v post he => h pre k v (post ++ [op]) (by simp [he])

end MapOp

/-! ## Room and keys -/

namespace BoundedMap

/-- There is room for a key if all keys with it fit. -/
theorem room_iff_card (m : BoundedMap κ ν cap) (k : κ) :
    m.Room k ↔ (insert k m.keySet).card ≤ cap := by
  by_cases hk : k ∈ m
  · rw [Finset.insert_eq_of_mem (mem_keySet.mpr hk), card_keySet]
    exact iff_of_true (Or.inl hk) m.size_le
  · rw [Finset.card_insert_of_notMem fun h => hk (mem_keySet.mp h), card_keySet, Room,
      or_iff_right hk]
    omega

theorem keySet_congr {a b : BoundedMap κ ν cap} (h : ∀ k, a.lookup k = b.lookup k) :
    a.keySet = b.keySet := by
  ext k
  rw [mem_keySet, mem_keySet, ← isSome_lookup, ← isSome_lookup, h]

end BoundedMap

/-! ## With a bound -/

namespace MapOp

open BoundedMap

variable {ops : List (MapOp κ ν)}

theorem lookup_act_of_room {m : BoundedMap κ ν cap} {op : MapOp κ ν} {f : κ → Option ν}
    (hroom : ∀ k v, op = .update k v → m.Room k) (hm : ∀ k, m.lookup k = f k) (k : κ) :
    (act m op).lookup k = liveStep f op k := by
  cases op with
  | update j v =>
      rw [act, liveStep]
      by_cases hk : k = j
      · subst hk
        rw [lookup_update_self v (hroom k v rfl), Function.update_self]
      · rw [lookup_update_ne m v hk, Function.update_of_ne hk, hm]
  | delete j =>
      rw [act, liveStep]
      by_cases hk : k = j
      · subst hk
        rw [lookup_delete_self, Function.update_self]
      · rw [lookup_delete_ne m hk, Function.update_of_ne hk, hm]
  | skip => exact hm k

/-- Maps that look the same look the same after an operation. -/
theorem lookup_act_congr {a b : BoundedMap κ ν cap} (h : ∀ k, a.lookup k = b.lookup k)
    (op : MapOp κ ν) (k : κ) : (act a op).lookup k = (act b op).lookup k := by
  have hroom : ∀ j, a.Room j ↔ b.Room j := by
    intro j
    rw [room_iff_card, room_iff_card, keySet_congr h]
  cases op with
  | update j v =>
      rw [act, act]
      by_cases hj : a.Room j
      · by_cases hk : k = j
        · rw [hk, lookup_update_self v hj, lookup_update_self v ((hroom j).mp hj)]
        · rw [lookup_update_ne a v hk, lookup_update_ne b v hk, h]
      · rw [update_of_not_room v hj, update_of_not_room v fun hb => hj ((hroom j).mpr hb), h]
  | delete j =>
      rw [act, act]
      by_cases hk : k = j
      · rw [hk, lookup_delete_self, lookup_delete_self]
      · rw [lookup_delete_ne a hk, lookup_delete_ne b hk, h]
  | skip => exact h k

/-- The map holds what is live while it refuses nothing. -/
theorem lookup_of_noneRefused (h : NoneRefused cap ops) (k : κ) :
    (applyAll ops : BoundedMap κ ν cap).lookup k = live ops k := by
  induction ops using List.reverseRecOn generalizing k with
  | nil => rfl
  | append_singleton ops op ih =>
      rw [applyAll_concat, live_concat]
      refine lookup_act_of_room (fun j v hop => ?_) (ih h.of_concat) k
      exact h ops j v [] (by rw [hop])

theorem keySet_of_noneRefused (h : NoneRefused cap ops) :
    (applyAll ops : BoundedMap κ ν cap).keySet = liveKeys ops := by
  ext k
  rw [mem_keySet, ← isSome_lookup, lookup_of_noneRefused h, mem_liveKeys]

/-- The map refuses nothing exactly when the live keys fit at each update. -/
theorem noneRefused_iff_fits : NoneRefused cap ops ↔ Fits cap ops := by
  induction ops using List.reverseRecOn with
  | nil => exact iff_of_true (fun _ _ _ _ he => by simp at he) fun _ _ _ _ he => by simp at he
  | append_singleton ops op ih =>
      have hlast : NoneRefused cap ops →
          ∀ k, ((applyAll ops : BoundedMap κ ν cap).Room k ↔
            (insert k (liveKeys ops)).card ≤ cap) := by
        intro hnone k
        rw [room_iff_card, keySet_of_noneRefused hnone]
      constructor
      · intro h pre k v post he
        rcases concat_eq_append_cons he with ⟨rfl, hop⟩ | ⟨post, hpost⟩
        · exact (hlast h.of_concat k).mp (h ops k v [] (by rw [hop]))
        · exact ih.mp h.of_concat pre k v post hpost
      · intro h pre k v post he
        have hnone := ih.mpr h.of_concat
        rcases concat_eq_append_cons he with ⟨rfl, hop⟩ | ⟨post, hpost⟩
        · exact (hlast hnone k).mpr (h ops k v [] (by rw [hop]))
        · exact hnone pre k v post hpost

end MapOp

end EbpfTools.Lib

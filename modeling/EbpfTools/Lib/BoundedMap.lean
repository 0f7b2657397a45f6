import Mathlib.Data.List.AList

/-!
# Hash maps of bounded size

A map with at most `cap` entries and the three operations of a BPF hash map. An update of a key
that has an entry always succeeds, an update of a new key fails on a full map, and a failed update
leaves the map as it was. No operation evicts an entry.
-/

namespace EbpfTools.Lib

variable {κ ν ι : Type} {cap : Nat}

structure BoundedMap (κ ν : Type) (cap : Nat) where
  toAList : AList (fun _ : κ => ν)
  size_le : toAList.entries.length ≤ cap

namespace BoundedMap

def empty : BoundedMap κ ν cap := ⟨∅, Nat.zero_le _⟩

def size (m : BoundedMap κ ν cap) : Nat := m.toAList.entries.length

instance : Membership κ (BoundedMap κ ν cap) := ⟨fun m k => k ∈ m.toAList⟩

theorem mem_toAList {m : BoundedMap κ ν cap} {k : κ} : k ∈ m.toAList ↔ k ∈ m := Iff.rfl

variable [DecidableEq κ]

instance (k : κ) (m : BoundedMap κ ν cap) : Decidable (k ∈ m) :=
  inferInstanceAs (Decidable (k ∈ m.toAList))

def lookup (m : BoundedMap κ ν cap) (k : κ) : Option ν := m.toAList.lookup k

/-- An update of `k` succeeds: `k` has an entry already, or there is room for a new one. -/
def Room (m : BoundedMap κ ν cap) (k : κ) : Prop := k ∈ m ∨ m.size < cap

instance (m : BoundedMap κ ν cap) (k : κ) : Decidable (m.Room k) :=
  inferInstanceAs (Decidable (_ ∨ _))

theorem size_insert_le (m : BoundedMap κ ν cap) (k : κ) (v : ν) (h : m.Room k) :
    (m.toAList.insert k v).entries.length ≤ cap := by
  have hk : (m.toAList.insert k v).keys.length ≤ cap := by
    rw [AList.keys_insert, List.length_cons]
    have hl : m.toAList.keys.length = m.size := by simp [AList.keys, List.keys, size]
    by_cases hm : k ∈ m.toAList
    · rw [List.length_erase_of_mem (AList.mem_keys.mp hm)]
      have := List.length_pos_of_mem (AList.mem_keys.mp hm)
      have := m.size_le
      simp only [size] at hl
      omega
    · rw [List.erase_of_not_mem (fun hn => hm (AList.mem_keys.mpr hn))]
      have := h.resolve_left hm
      omega
  simpa [AList.keys, List.keys] using hk

def update (m : BoundedMap κ ν cap) (k : κ) (v : ν) : BoundedMap κ ν cap :=
  if h : m.Room k then ⟨m.toAList.insert k v, m.size_insert_le k v h⟩ else m

def delete (m : BoundedMap κ ν cap) (k : κ) : BoundedMap κ ν cap :=
  ⟨m.toAList.erase k, by
    have h : (m.toAList.erase k).keys.length ≤ m.toAList.keys.length := by
      rw [AList.keys_erase]; exact List.length_erase_le
    exact le_trans (by simpa [AList.keys, List.keys] using h) m.size_le⟩

theorem size_update_of_not_mem {m : BoundedMap κ ν cap} {k : κ} (v : ν) (hk : k ∉ m)
    (h : m.size < cap) : (m.update k v).size = m.size + 1 := by
  have hu : (m.update k v).toAList = m.toAList.insert k v := by
    simp [update, show m.Room k from Or.inr h]
  rw [size, hu, AList.entries_insert_of_notMem hk]
  rfl

/-! ## Lookups after each operation -/

@[simp] theorem lookup_empty (k : κ) : (empty : BoundedMap κ ν cap).lookup k = none := rfl

theorem lookup_eq_none {m : BoundedMap κ ν cap} {k : κ} : m.lookup k = none ↔ k ∉ m :=
  AList.lookup_eq_none

theorem update_of_room {m : BoundedMap κ ν cap} {k : κ} (v : ν) (h : m.Room k) :
    (m.update k v).toAList = m.toAList.insert k v := by
  simp [update, h]

theorem update_of_not_room {m : BoundedMap κ ν cap} {k : κ} (v : ν) (h : ¬ m.Room k) :
    m.update k v = m := by
  simp [update, h]

theorem lookup_update_self {m : BoundedMap κ ν cap} {k : κ} (v : ν) (h : m.Room k) :
    (m.update k v).lookup k = some v := by
  simp [lookup, update_of_room v h]

theorem lookup_update_ne (m : BoundedMap κ ν cap) {k k' : κ} (v : ν) (h : k' ≠ k) :
    (m.update k v).lookup k' = m.lookup k' := by
  by_cases hr : m.Room k
  · simp [lookup, update_of_room v hr, AList.lookup_insert_ne h]
  · rw [update_of_not_room v hr]

theorem mem_of_mem_update {m : BoundedMap κ ν cap} {k k' : κ} {v : ν} (h : k' ∈ m.update k v) :
    k' = k ∨ k' ∈ m := by
  by_cases hr : m.Room k
  · exact (AList.mem_insert _).mp (update_of_room v hr ▸ h : k' ∈ m.toAList.insert k v)
  · rw [update_of_not_room v hr] at h
    exact Or.inr h

theorem lookup_delete_ne (m : BoundedMap κ ν cap) {k k' : κ} (h : k' ≠ k) :
    (m.delete k).lookup k' = m.lookup k' :=
  AList.lookup_erase_ne h

theorem lookup_delete_self (m : BoundedMap κ ν cap) (k : κ) : (m.delete k).lookup k = none :=
  AList.lookup_erase k m.toAList

/-! ## A map that counts per key -/

-- one input of a map that keeps a value per key: the entry of the input's key is replaced
def track (key : ι → κ) (f : Option ν → ι → ν) (m : BoundedMap κ ν cap) (x : ι) :
    BoundedMap κ ν cap :=
  m.update (key x) (f (m.lookup (key x)) x)

end BoundedMap

end EbpfTools.Lib

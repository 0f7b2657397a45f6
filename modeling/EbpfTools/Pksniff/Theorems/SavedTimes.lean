import EbpfTools.Pksniff.Lemmas.Readers

/-!
# The times in a saved file
-/

namespace EbpfTools.Pksniff
open EbpfTools.Lib

/-! ## Clock readings and record times -/

def Timeval.us (tv : Timeval) : Nat := tv.tvSec.toNat * 1000000 + tv.tvUsec.toNat

/-- Successive readings of a clock that is not set back, in seconds of 32 bits. -/
structure Readings (tvs : Nat → Timeval) : Prop where
  sec_lt (k : Nat) : (tvs k).tvSec.toNat < 2 ^ 32
  usec_lt (k : Nat) : (tvs k).tvUsec.toNat < 1000000
  mono (k : Nat) : (tvs k).us ≤ (tvs (k + 1)).us

/-- The time in the header of a record. -/
def recordUs (record : List UInt8) : Nat :=
  leNat (record.take 4) * 1000000 + leNat ((record.drop 4).take 4)

theorem recordUs_pcapRecord (tv : Timeval) (e : Event) :
    recordUs (pcapRecord tv e) =
      tv.tvSec.toUInt32.toNat * 1000000 + tv.tvUsec.toUInt32.toNat := by
  have hsec : (pcapRecord tv e).take 4 = leBytes 4 tv.tvSec.toUInt32.toNat := by
    simp [pcapRecord]
  have husec : ((pcapRecord tv e).drop 4).take 4 = leBytes 4 tv.tvUsec.toUInt32.toNat := by
    simp [pcapRecord]
  have hmod : ∀ n : UInt32, n.toNat % 256 ^ 4 = n.toNat := fun n => Nat.mod_eq_of_lt n.toNat_lt
  rw [recordUs, hsec, husec, leNat_leBytes, leNat_leBytes, hmod, hmod]

/-! ## The records of a selection -/

section Selection
variable (f : Filter) (r : RingBuf Event)

def selection : List Event := (r.toList MAX_PACKETS).filter (eventMatches f)

/-- The selected events with the records that are written of them. -/
def savedRecords (tvs : Nat → Timeval) : List (Event × List UInt8) :=
  (selection f r).zipIdx.map fun p => (p.1, pcapRecord (tvs p.2) p.1)

theorem saveFilteredPcap_records (tvs : Nat → Timeval) :
    saveFilteredPcap f r tvs = pcapGlobalHeader ++ (savedRecords f r tvs).flatMap Prod.snd := by
  rw [saveFilteredPcap, saveLoop_eq, scanned_all, savedRecords, List.flatMap_map, selection]

/-- Any two records are as far apart as their events, up to less than a microsecond. -/
def KeepsTimes : Prop :=
  ∀ tvs, Readings tvs → ∀ a ∈ savedRecords f r tvs, ∀ b ∈ savedRecords f r tvs,
    (1000 * ((recordUs b.2 : Int) - recordUs a.2) -
      ((b.1.ktimeNs.toNat : Int) - a.1.ktimeNs.toNat)).natAbs < 1000

/-- A later save of the same selection leaves the same file. -/
def Repeatable : Prop :=
  ∀ tvs tvs', Readings tvs → Readings tvs' → (∀ i j, (tvs i).us ≤ (tvs' j).us) →
    saveFilteredPcap f r tvs' = saveFilteredPcap f r tvs

end Selection

section Clocks
variable {f : Filter} {r : RingBuf Event}

-- a clock that stands at second `s`, and one that goes on to second `s` after the first reading
def standing (s : UInt64) (_ : Nat) : Timeval := ⟨s, 0⟩

def advancing (s : UInt64) (k : Nat) : Timeval := if k = 0 then ⟨0, 0⟩ else ⟨s, 0⟩

theorem readings_standing {s : UInt64} (h : s.toNat < 2 ^ 32) : Readings (standing s) where
  sec_lt _ := h
  usec_lt _ := by simp [standing]
  mono _ := le_refl _

theorem readings_advancing {s : UInt64} (h : s.toNat < 2 ^ 32) : Readings (advancing s) where
  sec_lt k := by
    rw [advancing]
    split
    · exact Nat.two_pow_pos 32
    · exact h
  usec_lt k := by
    rw [advancing]
    split <;> simp
  mono k := by
    simp only [advancing, Timeval.us]
    split <;> simp

theorem savedRecords_cons_cons {a b : Event} {es : List Event} (h : selection f r = a :: b :: es)
    (tvs : Nat → Timeval) :
    (a, pcapRecord (tvs 0) a) ∈ savedRecords f r tvs ∧
      (b, pcapRecord (tvs 1) b) ∈ savedRecords f r tvs := by
  rw [savedRecords, h]
  simp

/-- The times of two events do not tell when their records will be written. -/
theorem keepsTimes_iff : KeepsTimes f r ↔ (selection f r).length ≤ 1 := by
  constructor
  · intro h
    cases hsel : selection f r with
    | nil => exact Nat.zero_le 1
    | cons a es =>
        cases es with
        | nil => exact le_refl 1
        | cons b es =>
            -- the first two records are written at the same time, or a second apart
            have hstand := savedRecords_cons_cons hsel (standing 0)
            have hadv := savedRecords_cons_cons hsel (advancing 1)
            have hsame := h _ (readings_standing (by decide)) _ hstand.1 _ hstand.2
            have hapart := h _ (readings_advancing (by decide)) _ hadv.1 _ hadv.2
            have hzero : ∀ e, recordUs (pcapRecord ⟨0, 0⟩ e) = 0 := recordUs_pcapRecord _
            have hone : ∀ e, recordUs (pcapRecord ⟨1, 0⟩ e) = 1000000 := recordUs_pcapRecord _
            simp only [standing, hzero] at hsame
            simp only [advancing, one_ne_zero, if_true, if_false, hzero, hone] at hapart
            omega
  · intro h tvs _ a ha b hb
    have hone : (savedRecords f r tvs).length ≤ 1 := by
      rwa [savedRecords, List.length_map, List.length_zipIdx]
    have hab : a = b := by
      obtain ⟨i, hi, rfl⟩ := List.getElem_of_mem ha
      obtain ⟨j, hj, rfl⟩ := List.getElem_of_mem hb
      have hij : i = j := by omega
      subst hij
      rfl
    subst hab
    simp

theorem repeatable_iff : Repeatable f r ↔ selection f r = [] := by
  constructor
  · intro h
    cases hsel : selection f r with
    | nil => rfl
    | cons a es =>
        have hlater : ∀ i j, (standing 0 i).us ≤ (standing 1 j).us := fun _ _ => by
          simp [standing, Timeval.us]
        have hfile := h _ _ (readings_standing (by decide)) (readings_standing (by decide)) hlater
        rw [saveFilteredPcap_records, saveFilteredPcap_records, savedRecords, savedRecords, hsel,
          List.append_cancel_left_eq] at hfile
        have hhead := congrArg (List.take 4) hfile
        simp [standing, pcapRecord, leBytes] at hhead
  · intro h tvs tvs' _ _ _
    rw [saveFilteredPcap_records, saveFilteredPcap_records, savedRecords, savedRecords, h]
    rfl

end Clocks

/-! ## Saved times -/

/-- A ring of two packets that are ten seconds apart. -/
def tenSecondsApart : RingBuf Event :=
  ((RingBuf.mk (fun _ => .zero) 0 0).push MAX_PACKETS { Event.zero with ktimeNs := 1000000000 }).push
    MAX_PACKETS { Event.zero with ktimeNs := 11000000000 }

end EbpfTools.Pksniff

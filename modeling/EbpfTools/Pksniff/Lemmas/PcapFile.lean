import Mathlib.Data.List.Forall2
import EbpfTools.Lib.Pcap
import EbpfTools.Lib.Run
import EbpfTools.Pksniff.Lemmas.Capture
import EbpfTools.Pksniff.Lemmas.Readers

/-!
# Reading back a written pcap file
-/

namespace EbpfTools.Pksniff
open EbpfTools.Lib EbpfTools.Bpf

/-! ## Packets on several CPUs -/

/-- One call on one CPU, with the scratch event of each CPU. The output keeps the call that a
record was submitted for. -/
def processOn (scratch : Nat → Event) (x : Nat × Call) : (Nat → Event) × List (Call × Event) :=
  let r := processPacket (scratch x.1) x.2
  (Function.update scratch x.1 r.1, r.2.map fun e => (x.2, e))

/-- The calls that submit an event, with their events, in the order of submission. -/
def captured (xs : List (Nat × Call)) : List (Call × Event) :=
  runOut processOn (fun _ => .zero) xs

theorem mem_captured {xs : List (Nat × Call)} {p : Call × Event} (h : p ∈ captured xs) :
    ∃ s, p.2 ∈ (processPacket s p.1).2 := by
  obtain ⟨pre, x, post, -, hp⟩ := mem_runOut.mp h
  obtain ⟨e, he, rfl⟩ := List.mem_map.mp hp
  exact ⟨_, he⟩

/-! ## Files -/

/-- The record that is read back for an event. -/
def pcapRecordOf (tv : Timeval) (e : Event) : PcapRecord :=
  ⟨tv.tvSec.toUInt32.toNat, tv.tvUsec.toUInt32.toNat, e.packetLen.toNat,
    e.packet.bytes.take e.capLen.toNat⟩

def fileHeader : PcapHeader := ⟨2, 4, 0, 0, MAX_CAPTURE_BYTES, 1⟩

theorem readPcapHeader_globalHeader (rest : List UInt8) :
    readPcapHeader (pcapGlobalHeader ++ rest) = some (fileHeader, rest) :=
  readPcapHeader_append 2 4 0 0 MAX_CAPTURE_BYTES 1 rest

theorem readPcapRecord_pcapRecord {e : Event} (h : e.capLen.toNat ≤ MAX_CAPTURE_BYTES)
    (tv : Timeval) (rest : List UInt8) :
    readPcapRecord (pcapRecord tv e ++ rest) = some (pcapRecordOf tv e, rest) := by
  have hlen : (e.packet.bytes.take e.capLen.toNat).length = e.capLen.toNat := by
    rw [List.length_take, e.packet.size_eq]
    omega
  have hlt : (e.packet.bytes.take e.capLen.toNat).length < 256 ^ 4 :=
    lt_of_le_of_lt (hlen.le.trans h) (by decide)
  have hmod : ∀ n : UInt32, n.toNat % 256 ^ 4 = n.toNat := fun n => Nat.mod_eq_of_lt n.toNat_lt
  have hread := @readPcapRecord_append tv.tvSec.toUInt32.toNat tv.tvUsec.toUInt32.toNat
    e.packetLen.toNat _ hlt rest
  rw [hlen, hmod, hmod, hmod] at hread
  exact hread

theorem pcapRecord_ne_nil (tv : Timeval) (e : Event) : pcapRecord tv e ≠ [] := by
  simp [pcapRecord, leBytes]

theorem handleEvents_pcap {s : State} {file : List UInt8} (hp : s.paused = false)
    (hf : s.pcap = some file) (xs : List (Event × Now)) :
    (handleEvents s xs).pcap = some (file ++ xs.flatMap fun x => pcapRecord x.2.tv x.1) := by
  induction xs generalizing s file with
  | nil => simp [handleEvents, hf]
  | cons x xs ih =>
      have hfile : (handleEvent s x.1 x.2).pcap = some (file ++ pcapRecord x.2.tv x.1) := by
        rw [handleEvent_unpaused hp, hf]
        rfl
      rw [handleEvents_cons, ih (handleEvent_paused hp x.1 x.2) hfile, List.flatMap_cons,
        List.append_assoc]

/-! ## Records and frames -/

/-- A record of the frame of a call: its length, and as much of its bytes as the record holds. -/
def Records (h : PcapHeader) (p : Call × Event) (r : PcapRecord) : Prop :=
  r.origLen = p.1.skb.len ∧ r.data.length ≤ min r.origLen h.snaplen ∧
    r.data = p.1.skb.bytes.take r.data.length

theorem records_pcapRecordOf {s : Event} {c : Call} {e : Event} (h : e ∈ (processPacket s c).2)
    (tv : Timeval) : Records fileHeader (c, e) (pcapRecordOf tv e) := by
  obtain ⟨hlen, hcap, hbytes⟩ := of_mem_processPacket h
  obtain ⟨hle, hmax⟩ := roundedCapLen_le c.skb
  have hdata : (e.packet.bytes.take e.capLen.toNat).length = roundedCapLen c.skb := by
    rw [List.length_take, e.packet.size_eq, hcap]
    omega
  refine ⟨hlen, ?_, ?_⟩
  · simp only [pcapRecordOf, hdata, hlen]
    exact Nat.le_min.mpr ⟨hle, hmax⟩
  · simp only [pcapRecordOf, hdata]
    rw [hcap, hbytes]

theorem capLen_le_of_mem {s : Event} {c : Call} {e : Event} (h : e ∈ (processPacket s c).2) :
    e.capLen.toNat ≤ MAX_CAPTURE_BYTES := by
  rw [(of_mem_processPacket h).2.1]
  exact (roundedCapLen_le c.skb).2

/-- A file of records of captured events is read back as one record of each frame. -/
theorem readPcap_captured {ps : List (Call × Event)}
    (hps : ∀ p ∈ ps, ∃ s, p.2 ∈ (processPacket s p.1).2) (tvs : Nat → Timeval) :
    ∃ rs, readPcap (pcapGlobalHeader ++ ps.zipIdx.flatMap fun p => pcapRecord (tvs p.2) p.1.2) =
        some (fileHeader, rs) ∧
      List.Forall₂ (Records fileHeader) ps rs := by
  have hmem : ∀ p ∈ ps.zipIdx, ∃ s, p.1.2 ∈ (processPacket s p.1.1).2 :=
    fun p hp => hps p.1 (List.fst_mem_of_mem_zipIdx hp)
  refine ⟨ps.zipIdx.map fun p => pcapRecordOf (tvs p.2) p.1.2, ?_, ?_⟩
  · refine readPcap_append readPcapHeader_globalHeader (fun p hp rest => ?_)
      fun p _ => pcapRecord_ne_nil (tvs p.2) p.1.2
    obtain ⟨s, hs⟩ := hmem p hp
    exact readPcapRecord_pcapRecord (capLen_le_of_mem hs) (tvs p.2) rest
  · have hrecords : List.Forall₂ (Records fileHeader) (ps.zipIdx.map Prod.fst)
        (ps.zipIdx.map fun p => pcapRecordOf (tvs p.2) p.1.2) := by
      rw [List.forall₂_map_left_iff, List.forall₂_map_right_iff, List.forall₂_same]
      intro p hp
      obtain ⟨s, hs⟩ := hmem p hp
      exact records_pcapRecordOf hs (tvs p.2)
    rwa [List.zipIdx_map_fst] at hrecords

end EbpfTools.Pksniff

import EbpfTools.Pktrace.Lemmas.Output

/-!
# The frames in the files of pktrace
-/

namespace EbpfTools.Pktrace
open EbpfTools.Lib EbpfTools.Bpf
open EbpfTools.Pksniff (Timeval)

/-- The records of a run: `x.1` is a frame and `x.2` what the ring buffer reserves for it. -/
def events (xs : List (Skb × Option Event)) : List Event := xs.filterMap fun x => pktraceFn x.1 x.2

-- with the clock readings when they are handled
def delivered (es : List Event) (tvs : Nat → Timeval) : List (Event × Timeval) :=
  es.zipIdx.map fun p => (p.1, tvs p.2)

/-- The frame and its L4 header, if a record is submitted of it. -/
def tracedFrame (x : Skb × Option Event) : Option (Skb × L4) :=
  if x.2.isSome ∧ MAX_CAPTURE_BYTES ≤ x.1.len then (headers x.1).map fun p => (x.1, p.2) else none

theorem tracedFrame_eq (x : Skb × Option Event) :
    (∃ e p, pktraceFn x.1 x.2 = some e ∧ RecordOf x.1 p e ∧ tracedFrame x = some (x.1, p.2)) ∨
      pktraceFn x.1 x.2 = none ∧ tracedFrame x = none := by
  rw [tracedFrame]
  rcases pktraceFn_eq x.1 x.2 with ⟨e, he, p, hp, hslot, hlen, hrec⟩ | ⟨hnone, hwhy⟩
  · exact Or.inl ⟨e, p, he, hrec, by rw [if_pos ⟨hslot, hlen⟩, hp]; rfl⟩
  · refine Or.inr ⟨hnone, ?_⟩
    split
    · rename_i hc
      obtain ⟨hslot, hlen⟩ := hc
      rcases hwhy with hh | hnoslot | hshort
      · rw [hh]
        rfl
      · rw [hnoslot] at hslot
        cases hslot
      · omega
    · rfl

/-- The records, one by one, are those of the traced frames. -/
theorem exists_records (xs : List (Skb × Option Event)) :
    ∃ qs : List ((Skb × L4) × Event), events xs = qs.map Prod.snd ∧
      xs.filterMap tracedFrame = qs.map Prod.fst ∧
      ∀ q ∈ qs, ∃ l4Off, RecordOf q.1.1 (l4Off, q.1.2) q.2 := by
  induction xs with
  | nil => exact ⟨[], rfl, rfl, fun q hq => by cases hq⟩
  | cons x xs ih =>
      obtain ⟨qs, hevents, hframes, hrec⟩ := ih
      rw [events] at hevents ⊢
      rw [List.filterMap_cons, List.filterMap_cons]
      rcases tracedFrame_eq x with ⟨e, p, he, hp, hframe⟩ | ⟨hnone, hframe⟩
      · refine ⟨((x.1, p.2), e) :: qs, by rw [he, hevents]; rfl, by rw [hframe, hframes]; rfl, ?_⟩
        exact List.forall_mem_cons.mpr ⟨⟨p.1, hp⟩, hrec⟩
      · exact ⟨qs, by rw [hnone, hevents], by rw [hframe, hframes], hrec⟩

/-! ## The log -/

theorem handleEvents_stdout (out : Output) (xs : List (Event × Timeval)) :
    (handleEvents out xs).stdout =
      out.stdout ++ xs.flatMap fun x => eventLine x.1 out.payloadPreview := by
  induction xs generalizing out with
  | nil => simp [handleEvents]
  | cons x xs ih =>
      have hstep : handleEvents out (x :: xs) = handleEvents (handleEvent out x.1 x.2) xs := rfl
      rw [hstep, ih, handleEvent, List.flatMap_cons, List.append_assoc]

theorem handleEvents_logf {out : Output} {log : List UInt8} (h : out.logf = some log)
    (xs : List (Event × Timeval)) :
    (handleEvents out xs).logf =
      some (log ++ xs.flatMap fun x => eventLine x.1 out.payloadPreview) := by
  induction xs generalizing out log with
  | nil => simp [handleEvents, h]
  | cons x xs ih =>
      have hstep : handleEvents out (x :: xs) = handleEvents (handleEvent out x.1 x.2) xs := rfl
      have hlog : (handleEvent out x.1 x.2).logf =
          some (log ++ eventLine x.1 out.payloadPreview) := by
        rw [handleEvent, h]
        rfl
      rw [hstep, ih hlog, handleEvent, List.flatMap_cons, List.append_assoc]

theorem handleEvents_pcapf {out : Output} {file : List UInt8} (h : out.pcapf = some file)
    (xs : List (Event × Timeval)) :
    (handleEvents out xs).pcapf = some (file ++ xs.flatMap fun x => pcapRecord x.2 x.1) := by
  induction xs generalizing out file with
  | nil => simp [handleEvents, h]
  | cons x xs ih =>
      have hstep : handleEvents out (x :: xs) = handleEvents (handleEvent out x.1 x.2) xs := rfl
      have hfile : (handleEvent out x.1 x.2).pcapf = some (file ++ pcapRecord x.2 x.1) := by
        rw [handleEvent, h]
        rfl
      rw [hstep, ih hfile, List.flatMap_cons, List.append_assoc]

theorem eventLine_ne_nil (e : Event) (preview : Nat) : eventLine e preview ≠ [] := by
  simp [eventLine, ascii]

theorem delivered_map {α : Type} (qs : List (α × Event)) (tvs : Nat → Timeval) :
    delivered (qs.map Prod.snd) tvs = qs.zipIdx.map fun p => (p.1.2, tvs p.2) := by
  rw [delivered, List.zipIdx_map, List.map_map]
  rfl

/-- Whatever frames arrive, whatever the reserved records hold and whatever preview is asked for,
the terminal shows the start-up lines and then what the log says, and the log is read back as one
entry for each traced frame, in order, with the bytes of the frame behind its headers. -/
theorem log_reads_back (xs : List (Skb × Option Event)) (ifname : List UInt8) (pcap : Bool)
    (preview : Nat) (tvs : Nat → Timeval) :
    let out := handleEvents (.start ifname true pcap preview) (delivered (events xs) tvs)
    ∃ text, out.logf = some text ∧ out.stdout = startLines ifname ++ text ∧
      readLog text = some ((xs.filterMap tracedFrame).map fun f => entryOf preview f.1 f.2) := by
  intro out
  obtain ⟨qs, hevents, hframes, hrec⟩ := exists_records xs
  have htext : (delivered (events xs) tvs).flatMap (fun x => eventLine x.1 preview) =
      qs.flatMap fun q => eventLine q.2 preview := by
    calc (delivered (events xs) tvs).flatMap (fun x => eventLine x.1 preview)
        = (qs.zipIdx.map Prod.fst).flatMap fun q => eventLine q.2 preview := by
          rw [hevents, delivered_map, List.flatMap_map, List.flatMap_map]
      _ = qs.flatMap fun q => eventLine q.2 preview := by rw [List.zipIdx_map_fst]
  refine ⟨qs.flatMap fun q => eventLine q.2 preview, ?_, ?_, ?_⟩
  · rw [← htext, ← List.nil_append (List.flatMap _ _)]
    exact handleEvents_logf rfl _
  · rw [← htext]
    exact handleEvents_stdout _ _
  · have hne : ∀ q ∈ qs, eventLine q.2 preview ≠ [] := fun q _ => eventLine_ne_nil q.2 preview
    have hread : ∀ q ∈ qs, ∀ rest, readLine (eventLine q.2 preview ++ rest) =
        some (entryOf preview q.1.1 q.1.2, rest) := by
      intro q hq rest
      obtain ⟨l4Off, hq⟩ := hrec q hq
      exact readLine_eventLine hq preview rest
    rw [readLog, readAll_flatMap hread hne (length_le_length_flatMap hne), hframes, List.map_map]
    rfl

/-! ## The pcap file -/

/-- The record that is read back for a frame. -/
def pcapRecordOf (tv : Timeval) (skb : Skb) : PcapRecord :=
  ⟨tv.tvSec.toUInt32.toNat, tv.tvUsec.toUInt32.toNat, skb.len, skb.bytes.take MAX_CAPTURE_BYTES⟩

theorem readPcapRecord_pcapRecord {skb : Skb} {p : Nat × L4} {e : Event} (h : RecordOf skb p e)
    (tv : Timeval) (rest : List UInt8) :
    readPcapRecord (pcapRecord tv e ++ rest) = some (pcapRecordOf tv skb, rest) := by
  have hdata : e.packet.bytes.take e.capLen.toNat = skb.bytes.take MAX_CAPTURE_BYTES := by
    rw [h.capLen, h.packet, List.take_take, Nat.min_self]
  have hlen : (skb.bytes.take MAX_CAPTURE_BYTES).length = e.capLen.toNat := by
    rw [← h.packet, e.packet.size_eq, h.capLen]
  have hlt : (skb.bytes.take MAX_CAPTURE_BYTES).length < 256 ^ 4 := by
    rw [hlen]
    exact e.capLen.toNat_lt
  have hmod : ∀ n : UInt32, n.toNat % 256 ^ 4 = n.toNat := fun n => Nat.mod_eq_of_lt n.toNat_lt
  have hread := @readPcapRecord_append tv.tvSec.toUInt32.toNat tv.tvUsec.toUInt32.toNat
    e.packetLen.toNat _ hlt rest
  rw [hlen, hmod, hmod, hmod, h.packetLen] at hread
  rw [pcapRecord, hdata, h.packetLen]
  exact hread

/-- Whatever frames arrive, the pcap file is read back as one record for each traced frame, in
order, with the length and the first 64 bytes of the frame and the clock when it was handled. -/
theorem pcap_reads_back (xs : List (Skb × Option Event)) (ifname : List UInt8) (log : Bool)
    (preview : Nat) (tvs : Nat → Timeval) :
    let out := handleEvents (.start ifname log true preview) (delivered (events xs) tvs)
    ∃ file, out.pcapf = some file ∧
      readPcap file = some (⟨2, 4, 0, 0, MAX_CAPTURE_BYTES, 1⟩,
        (xs.filterMap tracedFrame).zipIdx.map fun p => pcapRecordOf (tvs p.2) p.1.1) := by
  intro out
  obtain ⟨qs, hevents, hframes, hrec⟩ := exists_records xs
  refine ⟨_, handleEvents_pcapf rfl _, ?_⟩
  have hread : ∀ p ∈ qs.zipIdx, ∀ rest, readPcapRecord (pcapRecord (tvs p.2) p.1.2 ++ rest) =
      some (pcapRecordOf (tvs p.2) p.1.1.1, rest) := by
    intro p hp rest
    obtain ⟨l4Off, hq⟩ := hrec p.1 (List.fst_mem_of_mem_zipIdx hp)
    exact readPcapRecord_pcapRecord hq (tvs p.2) rest
  rw [hevents, delivered_map, List.flatMap_map, hframes, List.zipIdx_map, List.map_map]
  exact readPcap_append (readPcapHeader_append 2 4 0 0 MAX_CAPTURE_BYTES 1) hread
    fun p _ => by simp [pcapRecord, leBytes]

end EbpfTools.Pktrace

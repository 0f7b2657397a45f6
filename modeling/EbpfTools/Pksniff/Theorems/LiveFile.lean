import EbpfTools.Pksniff.Lemmas.PcapFile
import EbpfTools.Pksniff.Lemmas.UiRun

/-!
# Capture files
-/

namespace EbpfTools.Pksniff
open EbpfTools.Lib EbpfTools.Bpf

/-! ## The captured frames -/

-- the events of `ps` with the clock readings when they are handled
def delivered (ps : List (Call × Event)) (nows : Nat → Now) : List (Event × Now) :=
  ps.zipIdx.map fun p => (p.1.2, nows p.2)

/-- Whatever packets are handled on whatever CPUs, the file written meanwhile and the file saved
afterwards are pcap files with one record for each captured frame, in order, that matches. -/
theorem pcap_records (xs : List (Nat × Call)) (nows : Nat → Now) (f : Filter)
    (tvs : Nat → Timeval) :
    let ps := captured xs
    let s := handleEvents (.init true) (delivered ps nows)
    (∃ file rs, s.pcap = some file ∧ readPcap file = some (fileHeader, rs) ∧
      List.Forall₂ (Records fileHeader) ps rs) ∧
    ∃ rs, readPcap (saveFilteredPcap f s.pktRing tvs) = some (fileHeader, rs) ∧
      List.Forall₂ (Records fileHeader)
        ((ps.rtake MAX_PACKETS).filter fun p => eventMatches f p.2) rs := by
  intro ps s
  have hps : ∀ p ∈ ps, ∃ s, p.2 ∈ (processPacket s p.1).2 := fun p hp => mem_captured hp
  constructor
  · obtain ⟨rs, hread, hrs⟩ := readPcap_captured hps fun k => (nows k).tv
    refine ⟨_, rs, handleEvents_pcap rfl rfl _, ?_, hrs⟩
    rw [← hread, delivered, List.flatMap_map]
  · have hevents : (delivered ps nows).map Prod.fst = ps.map Prod.snd := by
      have hfst : (ps.zipIdx.map Prod.fst).map Prod.snd = ps.map Prod.snd := by
        rw [List.zipIdx_map_fst]
      rw [List.map_map] at hfst
      rw [delivered, List.map_map]
      exact hfst
    have hkept : ((ps.map Prod.snd).rtake MAX_PACKETS).filter (eventMatches f) =
        ((ps.rtake MAX_PACKETS).filter fun p => eventMatches f p.2).map Prod.snd := by
      rw [List.rtake, List.rtake, List.length_map, ← List.map_drop, List.filter_map]
      rfl
    have hmem : ∀ p ∈ (ps.rtake MAX_PACKETS).filter (fun p => eventMatches f p.2),
        ∃ s, p.2 ∈ (processPacket s p.1).2 :=
      fun p hp => hps p (List.mem_of_mem_drop (List.mem_of_mem_filter hp))
    obtain ⟨rs, hread, hrs⟩ := readPcap_captured hmem tvs
    refine ⟨rs, ?_, hrs⟩
    rw [saveFilteredPcap_eq f (handleEvents_holds true _), hevents, hkept, ← hread,
      List.zipIdx_map, List.flatMap_map]
    rfl

/-! ## What a run writes -/

def recordOf (x : Event × Now) : List UInt8 := pcapRecord x.2.tv x.1

/-- A turn with the events that are written to the file in it. -/
def written (ui : Ui) (t : Turn) : Ui × List (Event × Now) :=
  ((turn ui t).1, if ui.paused then [] else (turn ui t).2)

theorem handleEvents_file {s : State} {file : List UInt8} (h : s.pcap = some file)
    (xs : List (Event × Now)) :
    (handleEvents s xs).pcap =
      some (file ++ (if s.paused then [] else xs).flatMap recordOf) := by
  cases hp : s.paused with
  | true =>
      rw [handleEvents_of_paused hp, h]
      simp
  | false => exact handleEvents_pcap hp h xs

theorem turn_file {ui : Ui} {file : List UInt8} (h : ui.pcap = some file) (t : Turn) :
    (turn ui t).1.pcap = some (file ++ (written ui t).2.flatMap recordOf) := by
  cases hr : ui.running with
  | true =>
      rw [written, turn_of_running hr, redrawAll_pcap, input_pcap]
      exact handleEvents_file h t.events
  | false =>
      rw [written, turn_of_not_running hr, h]
      simp

theorem runState_file {ui : Ui} {file : List UInt8} (h : ui.pcap = some file)
    (turns : List Turn) :
    (runState turn ui turns).pcap = some (file ++ (runOut written ui turns).flatMap recordOf) := by
  induction turns generalizing ui file with
  | nil => simpa using h
  | cons t turns ih =>
      have hfile := turn_file h t
      rw [runState_cons, ih hfile, runOut_cons, List.flatMap_append, List.append_assoc]
      rfl

/-! ## The length of the file -/

-- the length of the record of an event, whenever it is written
def recordLen (x : Event × Now) : Nat := 16 + min x.1.capLen.toNat MAX_CAPTURE_BYTES

theorem length_pcapRecord (tv : Timeval) (x : Event × Now) :
    (pcapRecord tv x.1).length = recordLen x := by
  simp only [pcapRecord, recordLen, List.length_append, length_leBytes, List.length_take,
    x.1.packet.size_eq]

theorem length_records {tvs : List Timeval} {xs : List (Event × Now)}
    (h : tvs.length = xs.length) :
    (List.zipWith (fun tv x => pcapRecord tv x.1) tvs xs).flatten.length =
      weight recordLen xs := by
  induction tvs generalizing xs with
  | nil =>
      cases xs with
      | nil => rfl
      | cons x xs => cases h
  | cons tv tvs ih =>
      cases xs with
      | nil => cases h
      | cons x xs =>
          rw [List.zipWith_cons_cons, List.flatten_cons, List.length_append, length_pcapRecord,
            ih (Nat.succ.inj h)]
          simp [weight]

theorem length_flatMap_recordOf (xs : List (Event × Now)) :
    (xs.flatMap recordOf).length = weight recordLen xs := by
  rw [List.length_flatMap, weight]
  exact congrArg _ (List.map_congr_left fun x _ => length_pcapRecord x.2.tv x)

theorem flatMap_recordOf (xs : List (Event × Now)) :
    xs.flatMap recordOf =
      (List.zipWith (fun tv x => pcapRecord tv x.1) (xs.map fun x => x.2.tv) xs).flatten := by
  rw [List.zipWith_map_left, List.zipWith_self, List.flatMap]
  rfl

theorem weight_eq_zero_iff {xs : List (Event × Now)} : 0 = weight recordLen xs ↔ xs = [] := by
  cases xs with
  | nil => simp [weight]
  | cons x xs =>
      simp only [weight, recordLen, List.map_cons, List.sum_cons, reduceCtorEq, iff_false]
      omega

/-- A turn writes all events that are delivered in it, unless it starts paused. -/
theorem written_eq_turn {ui : Ui} {t : Turn}
    (h : ui.running = true → ui.paused = true → t.events = []) :
    (written ui t).2 = (turn ui t).2 := by
  rw [written]
  cases hp : ui.paused with
  | false => rfl
  | true =>
      cases hr : ui.running with
      | true =>
          rw [turn_of_running hr, h hr hp]
          rfl
      | false =>
          rw [turn_of_not_running hr]
          rfl

theorem events_eq_nil {ui : Ui} {t : Turn}
    (h : weight recordLen (written ui t).2 = weight recordLen (turn ui t).2)
    (hr : ui.running = true) (hp : ui.paused = true) : t.events = [] := by
  rw [written, turn_of_running hr, hp] at h
  exact weight_eq_zero_iff.mp h

theorem weight_written_le (ui : Ui) (t : Turn) :
    weight recordLen (written ui t).2 ≤ weight recordLen (turn ui t).2 := by
  rw [written]
  cases ui.paused with
  | true => exact Nat.zero_le _
  | false => exact le_refl _

/-! ## Completeness -/

/-- `file` consists of one record for each event of `xs`, in order, with any times. -/
def ConsistsOf (file : List UInt8) (xs : List (Event × Now)) : Prop :=
  ∃ tvs : List Timeval, tvs.length = xs.length ∧
    file = pcapGlobalHeader ++ (List.zipWith (fun tv x => pcapRecord tv x.1) tvs xs).flatten

/-- The file has one record for each delivered event, in the order of delivery, exactly if no event
is delivered while the display is paused. -/
theorem file_complete_iff (rows : Int) (turns : List Turn) :
    (∃ file, (runState turn (start true rows) turns).pcap = some file ∧
      ConsistsOf file (runOut turn (start true rows) turns)) ↔
    ∀ pre t post, turns = pre ++ t :: post →
      (runState turn (start true rows) pre).running = true →
      (runState turn (start true rows) pre).paused = true → t.events = [] := by
  have hfile := runState_file (show (start true rows).pcap = some pcapGlobalHeader from rfl) turns
  have hnext : ∀ (ui : Ui) (t : Turn), (written ui t).1 = (turn ui t).1 := fun _ _ => rfl
  constructor
  · rintro ⟨file, hpcap, tvs, hlen, hrecords⟩
    rw [hfile] at hpcap
    obtain rfl := Option.some.inj hpcap
    rw [List.append_cancel_left_eq] at hrecords
    have hweight : weight recordLen (runOut written (start true rows) turns) =
        weight recordLen (runOut turn (start true rows) turns) := by
      rw [← length_flatMap_recordOf, hrecords, length_records hlen]
    intro pre t post hsplit
    exact events_eq_nil
      ((weight_runOut_eq_iff recordLen hnext weight_written_le turns).2.mp hweight pre t post hsplit)
  · intro h
    have hall : runOut written (start true rows) turns = runOut turn (start true rows) turns :=
      runOut_congr hnext fun pre t post hsplit => written_eq_turn (h pre t post hsplit)
    refine ⟨_, hfile, (runOut turn (start true rows) turns).map fun x => x.2.tv, ?_, ?_⟩
    · rw [List.length_map]
    · rw [hall, flatMap_recordOf]

/-- A packet that arrives while the display is paused is missing from the file. -/
theorem pausedPacket_missing :
    ¬ ∀ (rows : Int) (turns : List Turn),
      ∃ file, (runState turn (start true rows) turns).pcap = some file ∧
        ConsistsOf file (runOut turn (start true rows) turns) := by
  intro h
  let turns : List Turn :=
    [⟨[], none, some (chr 'p'), 24⟩, ⟨[(.zero, ⟨⟨0, 0⟩, 0⟩)], none, none, 24⟩]
  obtain ⟨file, hpcap, tvs, hlen, rfl⟩ := h 24 turns
  have hheader : (runState turn (start true 24) turns).pcap = some pcapGlobalHeader := rfl
  have hone : runOut turn (start true 24) turns = [(.zero, ⟨⟨0, 0⟩, 0⟩)] := rfl
  have hlong := congrArg List.length (Option.some.inj (hheader.symm.trans hpcap))
  rw [List.length_append, length_records hlen, hone] at hlong
  simp [weight, recordLen] at hlong

end EbpfTools.Pksniff

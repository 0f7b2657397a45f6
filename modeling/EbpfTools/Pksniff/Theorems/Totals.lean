import EbpfTools.Pksniff.Lemmas.FilterAddress
import EbpfTools.Pksniff.Lemmas.SharedSlots
import EbpfTools.Pksniff.Theorems.LiveFile
import EbpfTools.Pksniff.Theorems.Stats

/-!
# What is counted
-/

namespace EbpfTools.Pksniff
open EbpfTools.Lib

/-! ## Shared slots -/

theorem length_talkerText_le (t : Talker) : (talkerText t).length ≤ 67 := by
  have hip := length_ipStr_le t.ip
  have hpkts := @length_printDecimal_le t.pkts.toNat 20 (by decide)
    (lt_trans t.pkts.toNat_lt (by decide))
  have hbytes := @length_printDecimal_le t.bytes.toNat 20 (by decide)
    (lt_trans t.bytes.toNat_lt (by decide))
  have htexts : (ascii "  ").length = 2 ∧ (ascii " pkts  ").length = 7 ∧ (ascii " B").length = 2 :=
    ⟨rfl, rfl, rfl⟩
  simp only [talkerText, padRight, padLeft, List.length_append, List.length_replicate, htexts]
  omega

/-- The panel shows the first four of the entries, one in each row from row 4 on. -/
theorem drawStats_eq {w : Window} (hrows : w.rows = STATS_H) (hcols : 71 ≤ w.cols)
    (top : List Talker) :
    (∀ k t, k < 4 → (drawStatsTop top)[k]? = some t →
        (drawStats w top).textAt (4 + k) 4 (talkerText t).length = talkerText t) ∧
      ∀ i j, i < 4 ∨ 4 + (drawStatsTop top).length ≤ i ∨ 8 ≤ i ∨ j < 4 ∨ 71 ≤ j →
        (drawStats w top).cell i j = w.cell i j := by
  rw [drawStats]
  generalize drawStatsTop top = ts
  have hline : ∀ l ∈ ts.zipIdx.map fun p => ((4 + p.2 : Int), talkerText p.1),
      ∃ k, k < ts.length ∧ l.1 = 4 + k ∧ l.2.length ≤ 67 := by
    intro l hl
    obtain ⟨p, hp, rfl⟩ := List.mem_map.mp hl
    exact ⟨p.2, List.snd_lt_of_mem_zipIdx hp, rfl, length_talkerText_le p.1⟩
  have hfits : w.Fits 4 (ts.zipIdx.map fun p => ((4 + p.2 : Int), talkerText p.1)) := by
    intro l hl
    obtain ⟨k, -, hrow, hlen⟩ := hline l hl
    exact ⟨by omega, by omega⟩
  constructor
  · intro k t hk ht
    have hpair : (ts.zipIdx.map fun p => ((4 + p.2 : Int), talkerText p.1)).Pairwise
        fun k l => k.1 ≠ l.1 := by
      have hindex : ts.zipIdx.Pairwise fun p q => p.2 < q.2 := by
        rw [← List.pairwise_map, List.zipIdx_map_snd]
        exact List.pairwise_lt_range'
      refine List.pairwise_map.mpr (hindex.imp fun hlt => ?_)
      omega
    have hmem : ((4 + k : Int), talkerText t) ∈
        ts.zipIdx.map fun p => ((4 + p.2 : Int), talkerText p.1) := by
      exact List.mem_map.mpr ⟨(t, k), List.mk_mem_zipIdx_iff_getElem?.mpr ht, rfl⟩
    have hin : (4 + k : Int) < w.rows := by
      have hsize : w.rows = 8 := hrows
      omega
    have hshown := Window.textAt_addLines hfits hpair hmem hin
    have hrow : (4 + k : Int).toNat = 4 + k := by omega
    rw [hrow] at hshown
    exact hshown
  · intro i j hout
    refine Window.cell_addLines hfits fun l hl => ?_
    obtain ⟨k, hk, hrow, hlen⟩ := hline l hl
    have hsize : w.rows = 8 := hrows
    omega

/-- From a refresh until the next one the panel, if it is wide enough, shows in its rows 4 to 7 the
slots with the most bytes, whatever packets were counted before: a slot shows the first source with
its first octet, with the packets of this source and the ones without a source before it. A fifth
one is not shown, and nothing else is changed. -/
theorem shown_talkers {pre post : List (Event × Int)} {x : Event × Int} (h : Refreshes pre x)
    (hpost : ∀ p y q, post = p ++ y :: q → ¬ Refreshes (pre ++ x :: p) y) {w : Window}
    (hrows : w.rows = STATS_H) (hcols : 71 ≤ w.cols) :
    let slots := slotTalker ((pre ++ [x]).map Prod.fst)
    let w' := drawStats w (runStats (pre ++ x :: post)).top
    ∃ is, TopSlots slots is ∧
      (∀ k i, k < 4 → is[k]? = some i →
        w'.textAt (4 + k) 4 (talkerText (slots i)).length = talkerText (slots i)) ∧
      ∀ i j, i < 4 ∨ 4 + is.length ≤ i ∨ 8 ≤ i ∨ j < 4 ∨ 71 ≤ j → w'.cell i j = w.cell i j := by
  intro slots w'
  have htop : drawStatsTop (runStats (pre ++ x :: post)).top =
      ((ranking slots).take MAX_TALKERS).map slots := by
    rw [top_since_refresh h hpost, drawStatsTop_findTop]
  obtain ⟨hshown, hother⟩ := drawStats_eq hrows hcols (runStats (pre ++ x :: post)).top
  rw [htop] at hshown hother
  refine ⟨_, topSlots_ranking slots, fun k i hk hi => hshown k (slots i) hk ?_, ?_⟩
  · rw [List.getElem?_map, hi]
    rfl
  · rw [List.length_map] at hother
    exact hother

theorem shown_talkers_neighbours :
    let pre := [(eventOf smallFrame, (1000 : Int))]
    let x := (eventOf largeFrame, (1001 : Int))
    let w : Window := ⟨8, 80, fun _ _ => 32⟩
    let slots := slotTalker ((pre ++ [x]).map Prod.fst)
    let w' := drawStats w (runStats (pre ++ x :: [])).top
    ∃ is, TopSlots slots is ∧
      (∀ k i, k < 4 → is[k]? = some i →
        w'.textAt (4 + k) 4 (talkerText (slots i)).length = talkerText (slots i)) ∧
      ∀ i j, i < 4 ∨ 4 + is.length ≤ i ∨ 8 ≤ i ∨ j < 4 ∨ 71 ≤ j → w'.cell i j = w.cell i j := by
  intro pre x w
  have h : Refreshes pre x := by decide +kernel
  have hpost : ∀ p y q, ([] : List (Event × Int)) = p ++ y :: q →
      ¬ Refreshes (pre ++ x :: p) y := fun p y q he => absurd he (by simp)
  have hcols : 71 ≤ w.cols := by decide
  exact shown_talkers h hpost rfl hcols

/-! ## One list of packets -/

/-- The ring, the file and the statistics after the events `xs`. -/
structure Accounts (pcap : Bool) (s : State) (xs : List (Event × Now)) : Prop where
  ring : s.pktRing.Holds MAX_PACKETS (xs.map Prod.fst)
  file : s.pcap = if pcap then some (pcapGlobalHeader ++ xs.flatMap recordOf) else none
  stats : s.stats = runStats (xs.map fun x => (x.1, x.2.time))

theorem accounts_init (pcap : Bool) : Accounts pcap (.init pcap) [] where
  ring := RingBuf.holds_empty _
  file := by simp [State.init]
  stats := rfl

theorem accounts_handleEvent {pcap : Bool} {s : State} {xs : List (Event × Now)}
    (h : Accounts pcap s xs) (hp : s.paused = false) (x : Event × Now) :
    Accounts pcap (handleEvent s x.1 x.2) (xs ++ [x]) := by
  rw [handleEvent_unpaused hp]
  refine ⟨?_, ?_, ?_⟩
  · rw [List.map_append]
    exact h.ring.push x.1
  · rw [h.file, List.flatMap_append]
    cases pcap <;> simp [recordOf]
  · rw [List.map_append, List.map_singleton, runStats_concat, ← h.stats]

theorem accounts_handleEvents {pcap : Bool} {s : State} {xs : List (Event × Now)}
    (h : Accounts pcap s xs) (ys : List (Event × Now)) :
    Accounts pcap (handleEvents s ys) (xs ++ if s.paused then [] else ys) := by
  cases hp : s.paused with
  | true =>
      rw [handleEvents_of_paused hp, if_pos rfl, List.append_nil]
      exact h
  | false =>
      rw [if_neg Bool.false_ne_true]
      induction ys generalizing s xs with
      | nil =>
          rw [List.append_nil]
          exact h
      | cons y ys ih =>
          have hstep := ih (accounts_handleEvent h hp y) (handleEvent_paused hp y.1 y.2)
          rwa [List.append_assoc] at hstep

theorem accounts_turn {pcap : Bool} {ui : Ui} {xs : List (Event × Now)}
    (h : Accounts pcap ui.toState xs) (t : Turn) :
    Accounts pcap (turn ui t).1.toState (xs ++ (written ui t).2) := by
  cases hr : ui.running with
  | true =>
      have hall := accounts_handleEvents h t.events
      rw [written, turn_of_running hr, redrawAll_eq]
      change Accounts pcap (input ui t).toState _
      rw [input_toState]
      exact ⟨hall.ring, hall.file, hall.stats⟩
  | false =>
      rw [written, turn_of_not_running hr]
      simpa using h

/-- Over every run of the event loop there is one list of packets, those delivered while the display
was not paused, that the list, the file and the statistics account for: the ring holds its last 8192
packets, the file one record for each, and the statistics are those of it. -/
theorem accounts_run (pcap : Bool) (rows : Int) (turns : List Turn) :
    Accounts pcap (runState turn (start pcap rows) turns).toState
      (runOut written (start pcap rows) turns) := by
  let accounts (pre : List Turn) (ui : Ui) : Prop :=
    Accounts pcap ui.toState (runOut written (start pcap rows) pre)
  have hstart : accounts [] (start pcap rows) := by
    obtain ⟨hring, hfile, hstats⟩ := accounts_init pcap
    exact ⟨hring, hfile, hstats⟩
  refine run_invariant hstart ?_
  rintro pre t post - hpre
  have hsame : runState written (start pcap rows) pre = runState turn (start pcap rows) pre := rfl
  change Accounts pcap _ (runOut written (start pcap rows) (pre ++ [t]))
  rw [runOut_concat, hsame]
  exact accounts_turn hpre t

end EbpfTools.Pksniff

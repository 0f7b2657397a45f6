import EbpfTools.Pksniff.Lemmas.Rates
import EbpfTools.Pksniff.Lemmas.TopSlots

/-!
# The statistics panel
-/

namespace EbpfTools.Pksniff
open EbpfTools.Lib EbpfTools.Bpf

/-- In a run in which the slot of each source is free or its own, every refresh finds the top
talkers: there is one slot for all addresses with the same first octet, and the packets of a second
such address are not counted. -/
theorem topTalkers_of_slotFree {xs : List (Event × Int)} (hcap : ∀ x ∈ xs, Captured x.1)
    (hfree : ∀ pre x post, xs = pre ++ x :: post → SlotFree (runStats pre).talkers x.1) :
    ∀ pre x post, xs = pre ++ x :: post →
      x.2 - (runStats pre).lastStatsTs ≥ STATS_INTERVAL →
      TopTalkers ((pre ++ [x]).map Prod.fst) (drawStatsTop (runStats (pre ++ [x])).top) := by
  intro pre x post he hrefresh
  have he' : xs = (pre ++ [x]) ++ post := by simp [he]
  have hcap' : ∀ y ∈ pre ++ [x], Captured y.1 := fun y hy =>
    hcap y (he' ▸ List.mem_append_left post hy)
  have hi := talkersInv_run hcap' fun pre' y post' hy =>
    hfree pre' y (post' ++ post) (by rw [he', hy]; simp)
  rw [runStats_concat, updateStats_talkers] at hi
  rw [runStats_concat, updateStats_top hrefresh]
  refine topTalkers_findTop hi fun e hm => ?_
  obtain ⟨y, hy, rfl⟩ := List.mem_map.mp hm
  exact hcap' y hy

-- Ethernet, IPv4 and UDP headers of a datagram from the address `src`
def udpHeaders (src : List UInt8) : List UInt8 :=
  List.replicate 12 0 ++ [0x08, 0x00] ++ [0x45] ++ List.replicate 8 0 ++ [17] ++ [0, 0] ++ src ++
    [10, 0, 0, 9] ++ List.replicate 8 0

def eventOf (skb : Skb) : Event :=
  ((processPacket .zero ⟨skb, DIR_INGRESS, 0, some .zero⟩).2).headD .zero

theorem captured_eventOf {skb : Skb}
    (h : (processPacket .zero ⟨skb, DIR_INGRESS, 0, some .zero⟩).2 ≠ []) :
    Captured (eventOf skb) := by
  obtain ⟨e, es, he⟩ := List.exists_cons_of_ne_nil h
  refine ⟨.zero, ⟨skb, DIR_INGRESS, 0, some .zero⟩, ?_⟩
  rw [eventOf, he]
  exact List.mem_cons_self

theorem captured_pair {a b : Skb} (t u : Int)
    (ha : (processPacket .zero ⟨a, DIR_INGRESS, 0, some .zero⟩).2 ≠ [])
    (hb : (processPacket .zero ⟨b, DIR_INGRESS, 0, some .zero⟩).2 ≠ []) :
    ∀ x ∈ [(eventOf a, t), (eventOf b, u)], Captured x.1 := by
  intro x hx
  rcases List.mem_cons.mp hx with rfl | hx
  · exact captured_eventOf ha
  · obtain rfl := List.mem_singleton.mp hx
    exact captured_eventOf hb

def smallFrame : Skb := ⟨udpHeaders [10, 0, 0, 1], 42, by decide, by decide⟩

def largeFrame : Skb :=
  ⟨udpHeaders [10, 0, 0, 2] ++ List.replicate 100 0, 42, by decide +kernel, by decide +kernel⟩

/-- A small packet from 10.0.0.1, then a large one from 10.0.0.2. -/
def neighbours : List (Event × Int) := [(eventOf smallFrame, 1000), (eventOf largeFrame, 1001)]

/-- The statistics refreshed by the second packet list 10.0.0.1 only. -/
theorem neighbours_hidden :
    (∀ x ∈ neighbours, Captured x.1) ∧
      (1001 : Int) - (runStats [(eventOf smallFrame, 1000)]).lastStatsTs ≥ STATS_INTERVAL ∧
      (drawStatsTop (runStats neighbours).top).map (fun t => (t.ip, t.bytes)) =
        [(0x0100000A, 42)] ∧
      ¬ TopTalkers (neighbours.map Prod.fst) (drawStatsTop (runStats neighbours).top) := by
  refine ⟨?_, by decide +kernel, by decide +kernel, fun h => ?_⟩
  · exact @captured_pair smallFrame largeFrame 1000 1001 (by decide +kernel) (by decide +kernel)
  · exact absurd h.length (by decide +kernel)

def otherFrame : Skb := ⟨udpHeaders [192, 168, 0, 2], 42, by decide, by decide⟩

theorem topTalkers_of_slotFree_other :
    TopTalkers [eventOf smallFrame, eventOf otherFrame]
      (drawStatsTop (runStats [(eventOf smallFrame, 1000), (eventOf otherFrame, 1001)]).top) := by
  have hfree : ∀ pre x post,
      [(eventOf smallFrame, (1000 : Int)), (eventOf otherFrame, 1001)] = pre ++ x :: post →
        SlotFree (runStats pre).talkers x.1 :=
    forall_split_cons.mpr ⟨by decide +kernel, forall_split_singleton.mpr (by decide +kernel)⟩
  exact topTalkers_of_slotFree (captured_pair 1000 1001 (by decide +kernel) (by decide +kernel))
    hfree [(eventOf smallFrame, 1000)] (eventOf otherFrame, 1001) [] rfl (by decide +kernel)

/-! ## The rates -/

/-- Between two refreshes that follow each other, the rates shown are rates exactly if one second
has passed: the counts are never divided by the elapsed time. -/
theorem ratesShown_of_nextRefresh {pre mid : List (Event × Int)} {r x : Event × Int}
    (h : NextRefresh pre r mid x) :
    (x.2 - r.2 = 1 → ShownExactly (mid ++ [x]).length → ShownExactly (packetBytes (mid ++ [x])) →
      RatesShown pre r mid x) ∧
    (RatesShown pre r mid x → (mid ++ [x]).length < 2 ^ 64 →
      x.2 - r.2 = 1 ∧ ShownExactly (mid ++ [x]).length ∧
        ShownExactly (packetBytes (mid ++ [x]))) :=
  ⟨ratesShown_of_elapsed_one h, elapsed_one_of_ratesShown h⟩

-- two packets in one second and one in the next
theorem ratesShown_of_nextRefresh_steady :
    RatesShown [] (eventOf smallFrame, 1000) [(eventOf otherFrame, 1000)]
      (eventOf largeFrame, 1001) := by
  have hnext : NextRefresh [] (eventOf smallFrame, 1000) [(eventOf otherFrame, 1000)]
      (eventOf largeFrame, 1001) :=
    ⟨by decide +kernel, forall_split_singleton.mpr (by decide +kernel), by decide +kernel⟩
  have hpkts : ShownExactly 2 := ⟨by decide, 2, 0, by decide, rfl⟩
  have hbytes : ShownExactly 184 := ⟨by decide, 184, 0, by decide, rfl⟩
  have hsum : packetBytes [(eventOf otherFrame, 1000), (eventOf largeFrame, 1001)] = 184 := by
    decide +kernel
  exact (ratesShown_of_nextRefresh hnext).1 rfl hpkts (hsum.symm ▸ hbytes)

/-- Two packets that are ten seconds apart. -/
def sparse : List (Event × Int) := [(eventOf smallFrame, 1000), (eventOf otherFrame, 1010)]

/-- One packet in ten seconds is shown as one packet per second. -/
theorem sparse_not_rates :
    (∀ y ∈ sparse, Captured y.1) ∧ sparse.Pairwise (fun a b => a.2 ≤ b.2) ∧
      NextRefresh [] (eventOf smallFrame, 1000) [] (eventOf otherFrame, 1010) ∧
      drawStatsRate (runStats sparse) = (1, 42) ∧
      ¬ RatesShown [] (eventOf smallFrame, 1000) [] (eventOf otherFrame, 1010) := by
  refine ⟨?_, by decide +kernel, ⟨by decide +kernel, fun p y q he => ?_, by decide +kernel⟩,
    by decide +kernel, fun h => ?_⟩
  · exact @captured_pair smallFrame otherFrame 1000 1010 (by decide +kernel) (by decide +kernel)
  · simp at he
  · exact absurd h.1 (by decide +kernel)

/-! ## The selection -/

/-- For any contents of the slots, the selection leaves the five with the most bytes, an earlier one
before a later one with as many, and zeros if there are fewer. -/
theorem findTop_topSlots (talkers : Nat → Talker) :
    ∃ is, TopSlots talkers is ∧
      findTop talkers = is.map talkers ++ List.replicate (MAX_TALKERS - is.length) .zero := by
  have htop := topSlots_ranking talkers
  refine ⟨(ranking talkers).take MAX_TALKERS, htop, ?_⟩
  rw [findTop_eq_ranking, htop.length]
  congr 2
  omega

-- two slots with as many bytes, one in use without bytes, and one with bytes that is not in use
def tiedTalkers : Nat → Talker
  | 3 => ⟨0x03, 60, 1⟩
  | 7 => ⟨0x07, 90, 2⟩
  | 8 => ⟨0x08, 0, 0⟩
  | 9 => ⟨0, 70, 1⟩
  | 200 => ⟨0xC8, 60, 1⟩
  | _ => .zero

example : (findTop tiedTalkers).map Talker.ip = [0x07, 0x03, 0xC8, 0, 0] := by decide +kernel

end EbpfTools.Pksniff

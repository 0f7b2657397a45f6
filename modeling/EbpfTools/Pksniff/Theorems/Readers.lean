import Mathlib.Data.List.Nodup
import EbpfTools.Pksniff.Lemmas.Readers

/-!
# One view of the captured packets
-/

namespace EbpfTools.Pksniff
open EbpfTools.Lib

/-- After any run the ring holds the last 8192 events in the order they arrived, and the list, the
key handler, the detail panel and the saved file all see those that match the filter. -/
theorem readers_agree (pcap : Bool) (xs : List (Event × Now)) (f : Filter) :
    let r := (handleEvents (.init pcap) xs).pktRing
    let kept := (xs.map Prod.fst).rtake MAX_PACKETS
    let n := min xs.length MAX_PACKETS
    (0 ≤ r.head ∧ r.head < MAX_PACKETS) ∧ r.count = n ∧
    ((List.range n).map fun i => r.slots (ringIdx r i)) = kept ∧
    ((List.range n).map (ringIdx r)).Nodup ∧
    (drawPacketListVisible f r).map r.slots = kept.filter (eventMatches f) ∧
    handleInputNormalVcount f r = (kept.filter (eventMatches f)).length ∧
    (∀ selected : Nat, (drawDetailSelIdx f r selected).map r.slots =
      (kept.filter (eventMatches f))[selected]?) ∧
    ∀ tvs, saveFilteredPcap f r tvs = pcapGlobalHeader ++
      (kept.filter (eventMatches f)).zipIdx.flatMap fun p => pcapRecord (tvs p.2) p.1 := by
  intro r kept n
  have hcap : 0 < MAX_PACKETS := by decide
  have hr : r.Holds MAX_PACKETS (xs.map Prod.fst) := handleEvents_holds pcap xs
  have hcount : r.count = n := by
    rw [hr.count_eq, List.length_map]
  have hscan : scanned r 0 r.count.toNat = kept := scanned_of_holds hr
  have hle : 0 + r.count.toNat ≤ MAX_PACKETS := by omega
  refine ⟨hr.head_bounds hcap, hcount, ?_, ?_, ?_, ?_, ?_, saveFilteredPcap_eq f hr⟩
  · rw [← hscan, hcount, scanned, Int.toNat_natCast, List.range_eq_range']
  · refine List.Nodup.map_on (fun i hi j hj he => ?_) List.nodup_range
    rw [List.mem_range] at hi hj
    exact hr.index_inj hcap (by rwa [List.length_map]) (by rwa [List.length_map]) he
  · rw [drawPacketListVisible, visibleLoop_map f r hle, hscan]
  · rw [handleInputNormalVcount, vcountLoop_eq, hscan, Nat.zero_add]
  · intro selected
    rw [drawDetailSelIdx, selIdxLoop_map f r (Nat.zero_le selected), hscan, Nat.sub_zero]

end EbpfTools.Pksniff

import EbpfTools.Pksniff.HandleEvent

/-!
# What the readers of the ring see
-/

namespace EbpfTools.Pksniff
open EbpfTools.Lib

/-! ## Runs of unpaused events -/

theorem handleEvent_unpaused {s : State} (h : s.paused = false) (e : Event) (now : Now) :
    handleEvent s e now =
      { s with
        pcap := s.pcap.map (· ++ pcapRecord now.tv e)
        pktRing := s.pktRing.push MAX_PACKETS e
        stats := updateStats s.stats e now.time } := by
  rw [handleEvent, h]
  rfl

theorem handleEvent_paused {s : State} (h : s.paused = false) (e : Event) (now : Now) :
    (handleEvent s e now).paused = false := by
  rw [handleEvent_unpaused h]
  exact h

theorem handleEvents_cons (s : State) (x : Event × Now) (xs : List (Event × Now)) :
    handleEvents s (x :: xs) = handleEvents (handleEvent s x.1 x.2) xs := rfl

theorem handleEvents_pktRing {s : State} (h : s.paused = false) (xs : List (Event × Now)) :
    (handleEvents s xs).pktRing =
      (xs.map Prod.fst).foldl (RingBuf.push MAX_PACKETS) s.pktRing := by
  induction xs generalizing s with
  | nil => rfl
  | cons x xs ih =>
      rw [handleEvents_cons, ih (handleEvent_paused h x.1 x.2), handleEvent_unpaused h]
      rfl

/-- The ring holds the events handled since the start. -/
theorem handleEvents_holds (pcap : Bool) (xs : List (Event × Now)) :
    RingBuf.Holds MAX_PACKETS (handleEvents (.init pcap) xs).pktRing (xs.map Prod.fst) := by
  rw [handleEvents_pktRing rfl]
  exact (RingBuf.holds_empty _).foldl _

/-! ## The four loops -/

-- the events that a loop over `left` iterations from `i` on looks at
def scanned (r : RingBuf Event) (i left : Nat) : List Event :=
  (List.range' i left).map fun j => r.slots (ringIdx r j)

theorem scanned_succ (r : RingBuf Event) (i left : Nat) :
    scanned r i (left + 1) = r.slots (ringIdx r i) :: scanned r (i + 1) left := rfl

theorem scanned_all (r : RingBuf Event) :
    scanned r 0 r.count.toNat = r.toList MAX_PACKETS := by
  rw [scanned, RingBuf.toList, List.range_eq_range']
  rfl

theorem scanned_of_holds {r : RingBuf Event} {es : List Event} (h : r.Holds MAX_PACKETS es) :
    scanned r 0 r.count.toNat = es.rtake MAX_PACKETS := by
  rw [scanned_all, h.toList_eq (by decide)]

variable (f : Filter) (r : RingBuf Event)

/-- The slots of the events that match, in the order of the loops. -/
def matching (i left : Nat) : List Int :=
  ((List.range' i left).map fun j : Nat => ringIdx r j).filter fun idx => eventMatches f (r.slots idx)

theorem matching_succ (i left : Nat) :
    matching f r i (left + 1) =
      if eventMatches f (r.slots (ringIdx r i)) then ringIdx r i :: matching f r (i + 1) left
      else matching f r (i + 1) left := by
  rw [matching, List.range'_succ, List.map_cons, List.filter_cons]
  rfl

theorem matching_map (i left : Nat) :
    (matching f r i left).map r.slots = (scanned r i left).filter (eventMatches f) := by
  have hscanned : scanned r i left =
      ((List.range' i left).map fun j : Nat => ringIdx r j).map r.slots := by
    rw [List.map_map]
    rfl
  rw [hscanned, List.filter_map]
  rfl

theorem visibleLoop_eq {left i vcount : Nat} (h : vcount + left ≤ MAX_PACKETS) :
    visibleLoop f r left i vcount = matching f r i left := by
  induction left generalizing i vcount with
  | zero => rfl
  | succ left ih => rw [visibleLoop, if_pos (by omega), matching_succ, ih (by omega), ih (by omega)]

theorem visibleLoop_map {left i vcount : Nat} (h : vcount + left ≤ MAX_PACKETS) :
    (visibleLoop f r left i vcount).map r.slots = (scanned r i left).filter (eventMatches f) := by
  rw [visibleLoop_eq f r h, matching_map]

theorem vcountLoop_eq (left i vcount : Nat) :
    vcountLoop f r left i vcount =
      vcount + ((scanned r i left).filter (eventMatches f)).length := by
  induction left generalizing i vcount with
  | zero => rfl
  | succ left ih =>
      rw [vcountLoop, ih, scanned_succ]
      cases hm : eventMatches f (r.slots (ringIdx r i)) with
      | true =>
          rw [if_pos rfl, List.filter_cons_of_pos hm, List.length_cons]
          omega
      | false =>
          rw [if_neg (by simp), List.filter_cons_of_neg (by simp [hm])]

/-- `draw_detail` counts to the entry at the position of the selection. -/
theorem selIdxLoop_eq {selected left i vcount : Nat} (h : vcount ≤ selected) :
    selIdxLoop f r selected left i vcount = (matching f r i left)[selected - vcount]? := by
  induction left generalizing i vcount with
  | zero => rfl
  | succ left ih =>
      rw [selIdxLoop, matching_succ]
      cases hm : eventMatches f (r.slots (ringIdx r i)) with
      | true =>
          rw [if_pos rfl, if_pos rfl]
          by_cases he : vcount = selected
          · rw [if_pos (by exact_mod_cast he), he, Nat.sub_self]
            rfl
          · rw [if_neg (by exact_mod_cast he), ih (by omega),
              show selected - vcount = selected - (vcount + 1) + 1 by omega]
            rfl
      | false => rw [if_neg Bool.false_ne_true, if_neg Bool.false_ne_true, ih h]

theorem selIdxLoop_map {selected left i vcount : Nat} (h : vcount ≤ selected) :
    (selIdxLoop f r selected left i vcount).map r.slots =
      ((scanned r i left).filter (eventMatches f))[selected - vcount]? := by
  rw [selIdxLoop_eq f r h, ← List.getElem?_map, matching_map]

theorem saveLoop_eq (tvs : Nat → Timeval) (left i written : Nat) :
    saveLoop f r tvs left i written =
      (((scanned r i left).filter (eventMatches f)).zipIdx written).flatMap
        fun p => pcapRecord (tvs p.2) p.1 := by
  induction left generalizing i written with
  | zero => rfl
  | succ left ih =>
      rw [saveLoop, scanned_succ]
      cases hm : eventMatches f (r.slots (ringIdx r i)) with
      | true =>
          rw [if_pos rfl, ih, List.filter_cons_of_pos hm, List.zipIdx_cons, List.flatMap_cons]
      | false =>
          rw [if_neg (by simp), ih, List.filter_cons_of_neg (by simp [hm])]

theorem saveFilteredPcap_eq {r : RingBuf Event} {es : List Event} (h : r.Holds MAX_PACKETS es)
    (tvs : Nat → Timeval) :
    saveFilteredPcap f r tvs = pcapGlobalHeader ++
      ((es.rtake MAX_PACKETS).filter (eventMatches f)).zipIdx.flatMap
        fun p => pcapRecord (tvs p.2) p.1 := by
  rw [saveFilteredPcap, saveLoop_eq, scanned_of_holds h]

end EbpfTools.Pksniff

import EbpfTools.Lib.Admission
import EbpfTools.Execguard.Lemmas.Window

/-!
# One key among others

The counts reported for a key are those of its own execs while the key has an entry. A key that
finds the map full never gets one, and each of its execs is reported as the first.
-/

namespace EbpfTools.Execguard
open EbpfTools.Lib

/-! ## The entry of a key -/

theorem tracks_handleExec {x : Exec} (h : x.slot.isSome) (m : Stats) :
    Tracks Exec.key (fun o x => nextStat o x.now) m x (handleExec m x).1 := by
  obtain ⟨slot, hs⟩ := Option.isSome_iff_exists.mp h
  rw [handleExec_some hs]
  exact BoundedMap.tracks_track Exec.key _ m x

theorem lookup_stats {xs : List Exec} (hslot : ∀ x ∈ xs, x.slot.isSome) (k : ExecKey) :
    (runState handleExec .empty xs).lookup k =
      if Admitted 8192 (xs.map Exec.key) k then statAfter none (keyTimes k xs) else none := by
  have htracks : TracksRun (fun m => m) Exec.key (fun o x => nextStat o x.now) handleExec .empty xs :=
    fun pre x post he => tracks_handleExec (hslot x (by simp [he])) _
  have hlookup := lookup_run (fun m => m) rfl htracks k
  rw [statAfter, keyTimes, List.foldl_map]
  exact hlookup

theorem lookup_stats_of_fits {xs : List Exec} (hslot : ∀ x ∈ xs, x.slot.isSome)
    (hkeys : (xs.map Exec.key).toFinset.card ≤ 8192) (k : ExecKey) :
    (runState handleExec .empty xs).lookup k = statAfter none (keyTimes k xs) := by
  rw [lookup_stats hslot]
  by_cases hmem : k ∈ xs.map Exec.key
  · rw [if_pos (admitted_of_card_le hmem hkeys)]
  · rw [keyTimes, filter_key_of_not_mem hmem]
    exact ite_self none

/-! ## The reported counts -/

def keyEvents (k : ExecKey) (xs : List Exec) : List Event :=
  (runOut handleExec BoundedMap.empty xs).filter fun e => e.key = k

-- the times and the counts in the events of a key
def keyCounts (k : ExecKey) (xs : List Exec) : List (UInt64 × UInt32) :=
  (keyEvents k xs).map fun e => (e.timestampNs, e.execCount)

theorem exists_event {x : Exec} (h : x.slot.isSome) (m : Stats) :
    ∃ e, (handleExec m x).2 = [e] ∧ e.key = x.key ∧ e.timestampNs = x.now ∧
      e.execCount = (nextStat (m.lookup x.key) x.now).count := by
  obtain ⟨slot, hs⟩ := Option.isSome_iff_exists.mp h
  rw [handleExec_some hs]
  exact ⟨_, rfl, rfl, rfl, rfl⟩

theorem keyCounts_concat (k : ExecKey) (xs : List Exec) {x : Exec} (h : x.slot.isSome) :
    keyCounts k (xs ++ [x]) = keyCounts k xs ++
      if x.key = k then
        [(x.now, (nextStat ((runState handleExec .empty xs).lookup k) x.now).count)]
      else [] := by
  obtain ⟨e, hout, hkey, htime, hcount⟩ := exists_event h (runState handleExec .empty xs)
  rw [keyCounts, keyEvents, runOut_concat, List.filter_append, List.map_append, hout]
  congr 1
  by_cases hk : x.key = k
  · subst hk
    simp [hkey, htime, hcount]
  · simp [hkey, hk]

theorem keyTimes_concat (k : ExecKey) (xs : List Exec) (x : Exec) :
    keyTimes k (xs ++ [x]) = keyTimes k xs ++ if x.key = k then [x.now] else [] := by
  rw [keyTimes, List.filter_append, List.map_append, keyTimes]
  by_cases hk : x.key = k <;> simp [hk]

/-- The events of a key with an entry carry the counts of its own execs, and all 1 without one. -/
theorem keyCounts_eq {xs : List Exec} (hslot : ∀ x ∈ xs, x.slot.isSome) (k : ExecKey) :
    keyCounts k xs =
      if Admitted 8192 (xs.map Exec.key) k then countRun none (keyTimes k xs)
      else (keyTimes k xs).map fun t => (t, 1) := by
  induction xs using List.reverseRecOn with
  | nil => simp [keyCounts, keyEvents, keyTimes, countRun]
  | append_singleton xs x ih =>
      have hxs : ∀ y ∈ xs, y.slot.isSome := fun y hy => hslot y (List.mem_append_left _ hy)
      rw [keyCounts_concat k xs (hslot x (by simp)), ih hxs, lookup_stats hxs, keyTimes_concat,
        List.map_append, List.map_singleton]
      by_cases hmem : k ∈ xs.map Exec.key
      · simp only [admitted_append_of_mem hmem]
        by_cases hk : x.key = k
        · rw [if_pos hk, if_pos hk]
          split
          · rw [countRun_append, countRun, countRun]
          · simp [nextStat]
        · simp [hk]
      · have hnil : keyTimes k xs = [] := by
          rw [keyTimes, filter_key_of_not_mem hmem, List.map_nil]
        by_cases hk : x.key = k <;> simp [hk, hnil, countRun, statAfter, nextStat]

theorem execCounts_eq {xs : List Exec} (hslot : ∀ x ∈ xs, x.slot.isSome) (k : ExecKey) :
    (keyEvents k xs).map Event.execCount =
      if Admitted 8192 (xs.map Exec.key) k then (countRun none (keyTimes k xs)).map Prod.snd
      else (keyTimes k xs).map fun _ => 1 := by
  have hcounts : (keyEvents k xs).map Event.execCount = (keyCounts k xs).map Prod.snd := by
    rw [keyCounts, List.map_map]
    rfl
  rw [hcounts, keyCounts_eq hslot, apply_ite (List.map Prod.snd), List.map_map]
  rfl

theorem keyCounts_of_fits {xs : List Exec} (hslot : ∀ x ∈ xs, x.slot.isSome)
    (hkeys : (xs.map Exec.key).toFinset.card ≤ 8192) (k : ExecKey) :
    keyCounts k xs = countRun none (keyTimes k xs) := by
  rw [keyCounts_eq hslot]
  by_cases hmem : k ∈ xs.map Exec.key
  · rw [if_pos (admitted_of_card_le hmem hkeys)]
  · rw [keyTimes, filter_key_of_not_mem hmem]
    exact ite_self []

/-! ## A key alone -/

theorem keyTimes_filter_self (k : ExecKey) (xs : List Exec) :
    keyTimes k (xs.filter fun x => x.key = k) = keyTimes k xs := by
  simp [keyTimes]

theorem admitted_alone (k : ExecKey) (xs : List Exec) :
    Admitted 8192 ((xs.filter fun x => x.key = k).map Exec.key) k := by
  have hnil : ((xs.filter fun x => x.key = k).map Exec.key).takeWhile (· ≠ k) = [] := by
    cases hf : xs.filter fun x => x.key = k with
    | nil => rfl
    | cons y ys =>
        have hy : y ∈ xs.filter fun x => x.key = k := hf ▸ List.mem_cons_self
        have hk : y.key = k := of_decide_eq_true (List.mem_filter.mp hy).2
        simp [hk]
  rw [Admitted, hnil]
  decide

/-- All counts are 1 exactly when each exec comes more than 60 s after the one before: a count that
goes up goes from 1 to 2 first. -/
theorem counts_eq_one_iff (t : UInt64) (ts : List UInt64) :
    (countRun (some ⟨t, 1⟩) ts).map Prod.snd = ts.map (fun _ => (1 : UInt32)) ↔
      (t :: ts).IsChain fun a b => b - a > WINDOW_NS := by
  induction ts generalizing t with
  | nil => simp [countRun]
  | cons u us ih =>
      rw [List.isChain_cons_cons]
      by_cases hu : u - t > WINDOW_NS
      · have hnext : nextStat (some ⟨t, 1⟩) u = ⟨u, 1⟩ := if_pos hu
        rw [countRun, hnext, List.map_cons, List.map_cons, List.cons.injEq, ih u]
        simp [hu]
      · have hnext : nextStat (some ⟨t, 1⟩) u = ⟨t, 2⟩ := if_neg hu
        rw [countRun, hnext, List.map_cons, List.map_cons, List.cons.injEq]
        simp [hu]

theorem countRun_eq_one_iff (ts : List UInt64) :
    (countRun none ts).map Prod.snd = ts.map (fun _ => (1 : UInt32)) ↔
      ts.IsChain fun a b => b - a > WINDOW_NS := by
  cases ts with
  | nil => simp [countRun]
  | cons t ts => simpa [countRun, nextStat] using counts_eq_one_iff t ts

end EbpfTools.Execguard

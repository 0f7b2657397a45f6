import EbpfTools.Execguard.Lemmas.Burst
import EbpfTools.Execguard.Lemmas.Counts
import EbpfTools.Execguard.Lemmas.Loss
import EbpfTools.Execguard.Lemmas.Signals

/-!
# Theorems about execguard
-/

namespace EbpfTools.Execguard
open EbpfTools.Lib

/-! ## Bursts and the 60 s window -/

/-- A burst of 20 execs of one name within 60 s is reported as an alert exactly when 20 of them
are counted in one window: the window is not a sliding one, so a burst may straddle a reset. -/
theorem burstReported_iff {xs : List Exec} {uid : UInt32} {comm : Buf TASK_COMM_LEN} {t : Nat}
    (hmono : xs.Pairwise fun x y => x.now ≤ y.now) (hslot : ∀ x ∈ xs, x.slot.isSome)
    (hkeys : (xs.map Exec.key).toFinset.card ≤ 8192)
    (hname : isShellish (basenameOf comm.str) = false) :
    BurstReported xs uid comm t ↔
      FillsWindow
        ((runState handleExec .empty (xs.filter fun x => x.now.toNat < t)).lookup
          ⟨uid, commPath comm⟩)
        ((xs.filter (InBurst uid comm t)).map Exec.now) := by
  let k : ExecKey := ⟨uid, commPath comm⟩
  have hsorted : (keyTimes k xs).Pairwise fun a b => a.toNat ≤ b.toNat := by
    rw [keyTimes, List.pairwise_map]
    exact (hmono.sublist List.filter_sublist).imp UInt64.le_iff_toNat_le.mp
  have hbefore : (runState handleExec .empty (xs.filter fun x => x.now.toNat < t)).lookup k =
      statAfter none ((keyTimes k xs).filter fun u => u.toNat < t) := by
    have hfits : ((xs.filter fun x => x.now.toNat < t).map Exec.key).toFinset.card ≤ 8192 :=
      (Finset.card_le_card fun k hk => List.mem_toFinset.mpr
        ((List.filter_sublist.map _).subset (List.mem_toFinset.mp hk))).trans hkeys
    rw [keyTimes_filter]
    exact lookup_stats_of_fits (fun x hx => hslot x (List.mem_of_mem_filter hx)) hfits k
  have hburst : (xs.filter (InBurst uid comm t)).map Exec.now = (keyTimes k xs).filter fun u =>
      t ≤ u.toNat ∧ u.toNat ≤ t + WINDOW_NS.toNat := by
    rw [keyTimes_filter, keyTimes, List.filter_filter]
    congr 1
    apply List.filter_congr
    intro x _
    have hx : InBurst uid comm t x ↔
        x.key = k ∧ t ≤ x.now.toNat ∧ x.now.toNat ≤ t + WINDOW_NS.toNat := by
      simp only [InBurst, k, key_eq_iff, and_assoc]
    simp only [← Bool.decide_and, hx, k]
  rw [burstReported_iff_count hslot hkeys hname, hbefore, hburst,
    exists_count_interval_iff t hsorted]

def exec (now : UInt64) (uid : UInt32) (comm : Buf TASK_COMM_LEN) : Exec :=
  { now, uid, comm, pid := 0, ppid := 0, nsInum := 0,
    slot := some ⟨0, 0, 0, 0, 0, 0, .zero _, .zero _, .zero _, .zero _, 0⟩ }

def appComm : Buf TASK_COMM_LEN := (Buf.zero TASK_COMM_LEN).memcpy 0 (ascii "app")

/-- One exec opens a window at 0 s, ten follow at 59 s and ten more at 61 s. -/
def straddlingRun : List Exec :=
  exec 0 10001 appComm :: (List.replicate 10 (exec 59000000000 10001 appComm) ++
    List.replicate 10 (exec 61000000000 10001 appComm))

/-- Twenty execs within two seconds, and no event counts more than eleven. -/
theorem straddlingRun_not_reported :
    (straddlingRun.Pairwise fun x y => x.now ≤ y.now) ∧ (∀ x ∈ straddlingRun, x.slot.isSome) ∧
      (straddlingRun.map Exec.key).toFinset.card ≤ 8192 ∧
      isShellish (basenameOf appComm.str) = false ∧
      20 ≤ (straddlingRun.filter (InBurst 10001 appComm 59000000000)).length ∧
      ¬ BurstReported straddlingRun 10001 appComm 59000000000 := by
  refine ⟨by decide, by decide, ?_, by decide, by decide, by decide +kernel⟩
  exact le_trans (List.toFinset_card_le _) (by decide)

def freshRun : List Exec := List.replicate 20 (exec 0 10001 appComm)

theorem burstReported_iff_freshRun :
    BurstReported freshRun 10001 appComm 0 ↔
      FillsWindow
        ((runState handleExec .empty (freshRun.filter fun x => x.now.toNat < 0)).lookup
          ⟨10001, commPath appComm⟩)
        ((freshRun.filter (InBurst 10001 appComm 0)).map Exec.now) :=
  burstReported_iff (by decide) (by decide)
    (le_trans (List.toFinset_card_le _) (by decide)) (by decide)

/-! ## False alarms -/

/-- No event counts more execs than its user and name really had in the 60 s up to it, whatever
other keys execute and whichever events are lost. -/
theorem execCount_le_window {xs : List Exec} (hmono : xs.Pairwise fun x y => x.now ≤ y.now)
    {e : Event} (he : e ∈ runOut handleExec .empty xs) :
    e.execCount.toNat ≤ (xs.filter fun x => InWindow e x).length := by
  obtain ⟨pre, x, post, rfl, hout⟩ := mem_runOut.mp he
  have hsplit : pre ++ x :: post = (pre ++ [x]) ++ post := by simp
  rw [hsplit, List.pairwise_append] at hmono
  obtain ⟨hpre, -, -⟩ := hmono
  have hinv := countInv_run (hpre.sublist (List.sublist_append_left pre [x]))
  have hlast : ∀ y ∈ pre, y.now ≤ x.now := fun y hy =>
    (List.pairwise_append.mp hpre).2.2 y hy x (List.mem_singleton.mpr rfl)
  have hnow : ∀ y ∈ pre ++ [x], y.now ≤ x.now := by
    intro y hy
    rcases List.mem_append.mp hy with hy | hy
    · exact hlast y hy
    · rw [List.mem_singleton.mp hy]
      exact UInt64.le_refl x.now
  cases hs : x.slot with
  | none => simp [handleExec_none hs] at hout
  | some slot =>
      obtain ⟨-, hstart, hcount⟩ := nextStat_bounds hinv hlast
      rw [handleExec_some hs, List.mem_singleton] at hout
      have hfields : e.uid = x.uid ∧ e.comm = x.comm ∧ e.timestampNs = x.now := by
        rw [hout]
        exact ⟨rfl, rfl, rfl⟩
      obtain ⟨huid, hcomm, htime⟩ := hfields
      have hwin := countSince_le_window huid hcomm htime hstart hnow
      have hall : ((pre ++ [x]).filter fun y => InWindow e y).length ≤
          ((pre ++ x :: post).filter fun y => InWindow e y).length := by
        rw [hsplit]
        exact ((List.sublist_append_left (pre ++ [x]) post).filter _).length_le
      refine le_trans ?_ (le_trans hwin hall)
      rw [hout]
      exact hcount

def blankEvent : Event := ⟨0, 0, 0, 0, 0, 0, .zero _, .zero _, .zero _, .zero _, 0⟩

def lostExec (now : UInt64) : Exec := { exec now 10001 appComm with slot := none }

/-- The second of three execs finds no slot, so the third is the second one counted. -/
def lossyRun : List Exec := [exec 5 10001 appComm, lostExec 6, exec 7 10001 appComm]

def lossyEvent : Event := { fillEvent (exec 7 10001 appComm) blankEvent with execCount := 2 }

theorem execCount_le_window_lossyRun :
    (2 : UInt32).toNat ≤ (lossyRun.filter fun x => InWindow lossyEvent x).length :=
  @execCount_le_window lossyRun (by decide) lossyEvent (by decide +kernel)

/-! ## Lost events -/

/-- Harmless losses change no emitted count, and no other losses go unnoticed while the clock does
not run backwards and no count can wrap around. -/
theorem lossFree_iff_harmless (e : Event) (xs : List Exec) :
    (HarmlessRun xs → LossFree e xs) ∧
      ((xs.Pairwise fun x y => x.now ≤ y.now) → xs.length < 4294967296 →
        (LossFree e xs ↔ HarmlessRun xs)) :=
  ⟨lossFree_of_harmless,
    fun hmono hlen => ⟨harmless_of_lossFree hmono hlen, lossFree_of_harmless⟩⟩

/-- The second of two execs within 1 s is reported as the first when the first is lost. -/
theorem lostExec_not_counted :
    ¬ LossFree blankEvent [lostExec 0, exec 1000000000 10001 appComm] := by
  intro h
  have hcounts := h [lostExec 0] (exec 1000000000 10001 appComm) [] rfl rfl
  revert hcounts
  decide +kernel

/-- An exec 61 s after a lost one is the first of its window with and without it. -/
theorem lossFree_iff_harmless_lateExec :
    LossFree blankEvent [lostExec 0, exec 61000000000 10001 appComm] := by
  refine (lossFree_iff_harmless blankEvent _).1 ?_
  refine forall_split_cons.mpr ⟨fun hx => ?_, forall_split_singleton.mpr fun _ => Or.inl ?_⟩
  · cases hx
  · refine ⟨fun _ s hs => ?_, fun _ s hs => ?_⟩
    · cases hs
      decide
    · cases hs

/-! ## Execs of other keys -/

/-- The counts of a key are those it has without the execs of other keys exactly when it comes
among the first 8192 keys, or none of its execs is within 60 s of the one before: a key that finds
the map full is counted from 1 at each exec. -/
theorem keyCounts_alone_iff {xs : List Exec} (hslot : ∀ x ∈ xs, x.slot.isSome) (k : ExecKey) :
    (keyEvents k xs).map Event.execCount =
        (keyEvents k (xs.filter fun x => x.key = k)).map Event.execCount ↔
      Admitted 8192 (xs.map Exec.key) k ∨
        (keyTimes k xs).IsChain fun a b => b - a > WINDOW_NS := by
  have hown : ∀ x ∈ xs.filter fun x => x.key = k, x.slot.isSome :=
    fun x hx => hslot x (List.mem_of_mem_filter hx)
  rw [execCounts_eq hslot, execCounts_eq hown, if_pos (admitted_alone k xs), keyTimes_filter_self,
    ← countRun_eq_one_iff]
  by_cases ha : Admitted 8192 (xs.map Exec.key) k
  · rw [if_pos ha]
    exact iff_of_true rfl (Or.inl ha)
  · rw [if_neg ha]
    constructor
    · exact fun h => Or.inr h.symm
    · rintro (h | h)
      · exact absurd h ha
      · exact h.symm

def crowd : List Exec := (List.range 8192).map fun i => exec 0 (UInt32.ofNat i) appComm

/-- 8192 users execute one name each, then the user 10001 executes it twice. -/
def crowdedRun : List Exec :=
  crowd ++ [exec 1000000000 10001 appComm] ++ [exec 1000000000 10001 appComm]

def crowdedKey : ExecKey := ⟨10001, commPath appComm⟩

theorem crowd_keys : crowd.map Exec.key =
    (List.range 8192).map fun i => ⟨UInt32.ofNat i, commPath appComm⟩ := by
  rw [crowd, List.map_map]
  rfl

theorem crowdedKey_not_mem : crowdedKey ∉ crowd.map Exec.key := by
  rw [crowd_keys, List.mem_map]
  rintro ⟨i, hi, he⟩
  have hlt : i < 8192 := List.mem_range.mp hi
  have hnat := congrArg (fun k => k.uid.toNat) he
  simp only [crowdedKey, UInt32.toNat_ofNat'] at hnat
  have h10001 : (10001 : UInt32).toNat = 10001 := rfl
  omega

theorem crowd_nodup : (crowd.map Exec.key).Nodup := by
  rw [crowd_keys]
  refine List.Nodup.map_on (fun i hi j hj he => ?_) List.nodup_range
  have hi' : i < 8192 := List.mem_range.mp hi
  have hj' : j < 8192 := List.mem_range.mp hj
  have hnat := congrArg (fun k => k.uid.toNat) he
  simp only [UInt32.toNat_ofNat'] at hnat
  omega

theorem crowdedKey_not_admitted : ¬ Admitted 8192 (crowdedRun.map Exec.key) crowdedKey := by
  have hrun : crowdedRun.map Exec.key = crowd.map Exec.key ++ crowdedKey :: [crowdedKey] := by
    rw [crowdedRun, List.append_assoc, List.map_append]
    rfl
  rw [hrun]
  refine not_admitted_of_crowd crowdedKey_not_mem crowd_nodup ?_ _
  rw [crowd_keys, List.length_map, List.length_range]

/-- Alone the second exec is reported as the second, after the others as a first one. -/
theorem crowdedRun_forgotten :
    (∀ x ∈ crowdedRun, x.slot.isSome) ∧
      (keyEvents crowdedKey crowdedRun).map Event.execCount = [1, 1] ∧
      (keyEvents crowdedKey (crowdedRun.filter fun x => x.key = crowdedKey)).map
        Event.execCount = [1, 2] := by
  have hslot : ∀ x ∈ crowdedRun, x.slot.isSome := by
    intro x hx
    simp only [crowdedRun, crowd, List.mem_append, List.mem_map, List.mem_singleton] at hx
    rcases hx with (⟨i, -, rfl⟩ | rfl) | rfl <;> rfl
  have htimes : keyTimes crowdedKey crowdedRun = [1000000000, 1000000000] := by
    rw [crowdedRun, keyTimes_concat, keyTimes_concat, keyTimes,
      filter_key_of_not_mem crowdedKey_not_mem]
    rfl
  refine ⟨hslot, ?_, ?_⟩
  · rw [execCounts_eq hslot, if_neg crowdedKey_not_admitted, htimes]
    rfl
  · rw [execCounts_eq fun x hx => hslot x (List.mem_of_mem_filter hx),
      if_pos (admitted_alone crowdedKey crowdedRun), keyTimes_filter_self, htimes]
    rfl

/-- Three users execute one name in turn. -/
def sharedRun : List Exec :=
  [exec 0 10002 appComm, exec 1000000000 10001 appComm, exec 2000000000 10003 appComm,
    exec 3000000000 10001 appComm, exec 4000000000 10001 appComm]

theorem keyCounts_alone_iff_sharedRun :
    (keyEvents crowdedKey sharedRun).map Event.execCount = [1, 2, 3] ∧
      ((keyEvents crowdedKey sharedRun).map Event.execCount =
          (keyEvents crowdedKey (sharedRun.filter fun x => x.key = crowdedKey)).map
            Event.execCount ↔
        Admitted 8192 (sharedRun.map Exec.key) crowdedKey ∨
          (keyTimes crowdedKey sharedRun).IsChain fun a b => b - a > WINDOW_NS) :=
  ⟨by decide +kernel, keyCounts_alone_iff (by decide) crowdedKey⟩

/-! ## The two signals -/

/-- The two signals are combined exactly unless a heavy rate meets a name that is only a warning. -/
theorem combines_iff (e : Event) :
    Combines e ↔
      (isShellish (judgedName e) = true → 20 ≤ e.execCount →
        judgedName e ∈ alertNames ∧ e.uid ≠ 0) := by
  constructor
  · intro h hs hcount
    by_contra hno
    have hsev : severityFor e = .warn := by
      rw [severityFor_eq, if_pos hs, nameSeverity_of_shellish hs, if_neg hno]
    have halert : countSeverity e.execCount = .alert := if_pos hcount
    have hle := h.count
    rw [hsev, halert] at hle
    exact absurd hle (by decide)
  · refine fun h => combines_of_count_le ?_
    cases hs : isShellish (judgedName e) with
    | false => exact (severityFor_of_not_shellish hs).ge
    | true =>
        rw [severityFor_eq, if_pos hs, nameSeverity_of_shellish hs]
        by_cases hcount : 20 ≤ e.execCount
        · rw [if_pos (h hs hcount)]
          exact Severity.le_alert _
        · refine le_trans (countSeverity_le_warn hcount) ?_
          split <;> decide

def heavyCurl : Event :=
  { blankEvent with
    uid := 2000, execCount := 25
    comm := (Buf.zero _).memcpy 0 (ascii "curl")
    binaryPath := (Buf.zero _).memcpy 0 (ascii "curl") }

/-- The 25th execution of `curl` within a minute is a warning, that of a binary which is not in the
table an alert. -/
theorem heavyCurl_lowered :
    severityFor heavyCurl = .warn ∧ severityFor (unnamed heavyCurl) = .alert ∧
      ¬ ∀ e, Combines e := by
  refine ⟨by decide +kernel, by decide +kernel, fun h => ?_⟩
  have hle := (h heavyCurl).count
  revert hle
  decide +kernel

/-! ## Readings out of order -/

/-- The executions of a key, in the order in which they reach the map and with clock readings that
lie within 60 s, are counted 1, 2, 3, ... exactly if no reading is before the first one and the
32-bit count does not wrap. -/
theorem counts_consecutive_iff {xs : List Exec} (hslot : ∀ x ∈ xs, x.slot.isSome)
    (hkeys : (xs.map Exec.key).toFinset.card ≤ 8192) (k : ExecKey)
    (hspan : ∀ t ∈ keyTimes k xs, ∀ u ∈ keyTimes k xs, u.toNat ≤ t.toNat + WINDOW_NS.toNat) :
    (keyEvents k xs).map (fun e => e.execCount.toNat) =
        List.range' 1 (keyTimes k xs).length ↔
      (∀ t ∈ (keyTimes k xs).head?, ∀ u ∈ keyTimes k xs, t ≤ u) ∧
        (keyTimes k xs).length < 2 ^ 32 := by
  have hcounts : (keyEvents k xs).map (fun e => e.execCount.toNat) =
      (countRun none (keyTimes k xs)).map fun p => p.2.toNat := by
    rw [← keyCounts_of_fits hslot hkeys, keyCounts, List.map_map]
    rfl
  rw [hcounts]
  cases hts : keyTimes k xs with
  | nil => simp [countRun]
  | cons t ts =>
      rw [hts] at hspan
      have hnear : ∀ u ∈ ts, u.toNat ≤ t.toNat + WINDOW_NS.toNat ∧
          t.toNat ≤ u.toNat + WINDOW_NS.toNat := fun u hu =>
        ⟨hspan t List.mem_cons_self u (List.mem_cons_of_mem t hu),
          hspan u (List.mem_cons_of_mem t hu) t List.mem_cons_self⟩
      have hone : (1 : UInt32).toNat = 1 := rfl
      have hrest := @countRun_consecutive_iff t ts 1 hnear (by decide)
      rw [hone] at hrest
      rw [countRun, nextStat, List.map_cons, List.length_cons, List.range'_succ, hone,
        List.cons.injEq, hrest]
      simp only [true_and, List.head?_cons, Option.mem_def, Option.some.injEq, forall_eq',
        List.forall_mem_cons, UInt64.le_refl, Nat.add_comm 1 ts.length]

/-- Two executions reach the map in the other order than they read the clock in. -/
def swappedRun : List Exec := [exec 1000000001 10001 appComm, exec 1000000000 10001 appComm]

theorem swappedRun_reset :
    (∀ x ∈ swappedRun, x.slot.isSome) ∧ (∀ x ∈ swappedRun, x.key = ⟨10001, commPath appComm⟩) ∧
      (keyEvents ⟨10001, commPath appComm⟩ swappedRun).map (fun e => e.execCount.toNat) = [1, 1] ∧
      ¬ ∀ (xs : List Exec) (k : ExecKey), (∀ x ∈ xs, x.slot.isSome) → (∀ x ∈ xs, x.key = k) →
        (∀ x ∈ xs, ∀ y ∈ xs, y.now.toNat ≤ x.now.toNat + WINDOW_NS.toNat) →
        (keyEvents k xs).map (fun e => e.execCount.toNat) = List.range' 1 xs.length := by
  have hkey : ∀ x ∈ swappedRun, x.key = ⟨10001, commPath appComm⟩ := by
    decide +kernel
  have hcounts : (keyEvents ⟨10001, commPath appComm⟩ swappedRun).map
      (fun e => e.execCount.toNat) = [1, 1] := by decide +kernel
  refine ⟨by decide, hkey, hcounts, fun h => ?_⟩
  have hrun := h swappedRun _ (by decide) hkey (by decide +kernel)
  rw [hcounts] at hrun
  exact absurd hrun (by decide)

/-- The first of three executions has the earliest reading, the other two are swapped. -/
theorem counts_consecutive_iff_earliestFirst :
    (keyEvents ⟨10001, commPath appComm⟩
        [exec 5 10001 appComm, exec 9 10001 appComm, exec 7 10001 appComm]).map
      (fun e => e.execCount.toNat) = [1, 2, 3] := by
  have htimes : keyTimes ⟨10001, commPath appComm⟩
      [exec 5 10001 appComm, exec 9 10001 appComm, exec 7 10001 appComm] = [5, 9, 7] := by
    decide +kernel
  have hcounts := @counts_consecutive_iff
    [exec 5 10001 appComm, exec 9 10001 appComm, exec 7 10001 appComm] (by decide)
    (le_trans (List.toFinset_card_le _) (by decide)) ⟨10001, commPath appComm⟩
    (by rw [htimes]; simp [WINDOW_NS])
  rw [htimes] at hcounts
  exact hcounts.mpr (by simp)

end EbpfTools.Execguard

import Mathlib.Data.List.Pairwise
import EbpfTools.Lib.Clock
import EbpfTools.Lib.Run
import EbpfTools.Execguard.Print

/-!
# The counting window of one key

`handleExec` moves each key's entry by `nextStat`; `countRun` is what the exec times of one key are
counted as.
-/

namespace EbpfTools.Execguard
open EbpfTools.Lib

/-! ## One step -/

def nextStat (o : Option ExecStat) (now : UInt64) : ExecStat :=
  match o with
  | none => { windowStartNs := now, count := 1 }
  | some st => bumpStat st now

theorem handleExec_none {stats : Stats} {x : Exec} (h : x.slot = none) :
    handleExec stats x = (stats, []) := by
  simp [handleExec, h]

theorem handleExec_some {stats : Stats} {x : Exec} {slot : Event} (h : x.slot = some slot) :
    handleExec stats x =
      (BoundedMap.track Exec.key (fun o x => nextStat o x.now) stats x,
        [{ fillEvent x slot with execCount := (nextStat (stats.lookup x.key) x.now).count }]) := by
  simp only [handleExec, h, BoundedMap.track]
  change (match stats.lookup x.key with | none => _ | some st => _) = _
  cases stats.lookup x.key <;> rfl

def Event.key (e : Event) : ExecKey := ⟨e.uid, e.binaryPath⟩

theorem bumpStat_inside {st : ExecStat} {now : UInt64} (h₁ : st.windowStartNs.toNat ≤ now.toNat)
    (h₂ : now.toNat ≤ st.windowStartNs.toNat + WINDOW_NS.toNat) :
    bumpStat st now = { st with count := st.count + 1 } := by
  rw [bumpStat, if_neg]
  rw [elapsed_gt_iff h₁]
  omega

theorem bumpStat_outside {st : ExecStat} {now : UInt64}
    (h : st.windowStartNs.toNat + WINDOW_NS.toNat < now.toNat) :
    bumpStat st now = { windowStartNs := now, count := 1 } := by
  rw [bumpStat, if_pos ((elapsed_gt_iff (by omega)).mpr h)]

/-- A reading before the start of the window looks like one long after it. -/
theorem bumpStat_before {st : ExecStat} {now : UInt64} (h : now.toNat < st.windowStartNs.toNat)
    (hnear : st.windowStartNs.toNat ≤ now.toNat + WINDOW_NS.toNat) :
    bumpStat st now = { windowStartNs := now, count := 1 } := by
  rw [bumpStat, if_pos (elapsed_gt_of_lt h hnear (by decide))]

/-! ## The path of a name -/

theorem commPath_bytes (comm : Buf TASK_COMM_LEN) :
    (commPath comm).bytes = comm.bytes ++ List.replicate (PATH_LEN - TASK_COMM_LEN) 0 := by
  have hl := comm.size_eq
  rw [commPath, Buf.memcpy, Buf.stores_storesAt _ _ _ (by rw [hl]; decide), hl]
  simp

theorem commPath_injective {a b : Buf TASK_COMM_LEN} (h : commPath a = commPath b) : a = b := by
  have hb := congrArg Buf.bytes h
  rw [commPath_bytes, commPath_bytes] at hb
  exact Buf.ext (List.append_inj_left' hb rfl)

theorem key_eq_iff {x : Exec} {uid : UInt32} {comm : Buf TASK_COMM_LEN} :
    x.key = ⟨uid, commPath comm⟩ ↔ x.uid = uid ∧ x.comm = comm := by
  simp only [Exec.key, ExecKey.mk.injEq]
  exact and_congr_right fun _ => ⟨commPath_injective, congrArg commPath⟩

theorem commPath_str (comm : Buf TASK_COMM_LEN) : (commPath comm).str = comm.str := by
  rw [Buf.str, commPath_bytes, cstr_append_replicate, Buf.str]

/-! ## All steps of one key -/

def statAfter (o : Option ExecStat) (ts : List UInt64) : Option ExecStat :=
  ts.foldl (fun o t => some (nextStat o t)) o

/-- The times `ts` of a key's execs with the counts reported for them. -/
def countRun : Option ExecStat → List UInt64 → List (UInt64 × UInt32)
  | _, [] => []
  | o, t :: ts => (t, (nextStat o t).count) :: countRun (some (nextStat o t)) ts

theorem countRun_append (o : Option ExecStat) (as bs : List UInt64) :
    countRun o (as ++ bs) = countRun o as ++ countRun (statAfter o as) bs := by
  induction as generalizing o with
  | nil => rfl
  | cons a as ih => simp [countRun, statAfter, ih]

theorem fst_mem_of_mem_countRun {o : Option ExecStat} {ts : List UInt64} {p : UInt64 × UInt32}
    (h : p ∈ countRun o ts) : p.1 ∈ ts := by
  induction ts generalizing o with
  | nil => cases h
  | cons t ts ih =>
      rcases List.mem_cons.mp h with rfl | h
      · simp
      · exact List.mem_cons_of_mem _ (ih h)

theorem statAfter_start_mem {ts : List UInt64} {st : ExecStat} (h : statAfter none ts = some st) :
    st.windowStartNs ∈ ts := by
  induction ts using List.reverseRecOn generalizing st with
  | nil => cases h
  | append_singleton ts t ih =>
      simp only [statAfter, List.foldl_append, List.foldl_cons, List.foldl_nil] at h
      cases ho : List.foldl (fun o t => some (nextStat o t)) none ts with
      | none =>
          simp only [ho, Option.some.injEq] at h
          subst h
          simp [nextStat]
      | some st₀ =>
          simp only [ho, Option.some.injEq] at h
          subst h
          by_cases hb : t - st₀.windowStartNs > WINDOW_NS
          · simp [nextStat, bumpStat, hb]
          · simpa [nextStat, bumpStat, hb] using Or.inl (ih ho)

/-- Readings within one window length of its start are counted without a gap exactly if none of
them is before the start and the count does not wrap. -/
theorem countRun_consecutive_iff {t : UInt64} {ts : List UInt64} {c : UInt32}
    (hspan : ∀ u ∈ ts, u.toNat ≤ t.toNat + WINDOW_NS.toNat ∧ t.toNat ≤ u.toNat + WINDOW_NS.toNat)
    (hc : 1 ≤ c.toNat) :
    (countRun (some ⟨t, c⟩) ts).map (fun p => p.2.toNat) = List.range' (c.toNat + 1) ts.length ↔
      (∀ u ∈ ts, t ≤ u) ∧ c.toNat + ts.length < 2 ^ 32 := by
  induction ts generalizing c with
  | nil =>
      have := c.toNat_lt
      simp [countRun]
      omega
  | cons u ts ih =>
      obtain ⟨hlate, hearly⟩ := hspan u List.mem_cons_self
      have hrest : ∀ v ∈ ts, _ := fun v hv => hspan v (List.mem_cons_of_mem u hv)
      rw [countRun, nextStat, List.map_cons, List.length_cons, List.range'_succ, List.cons.injEq,
        List.forall_mem_cons]
      by_cases hu : t.toNat ≤ u.toNat
      · rw [bumpStat_inside hu hlate]
        have hadd : (c + 1).toNat = (c.toNat + 1) % 2 ^ 32 := UInt32.toNat_add c 1
        have htu : t ≤ u := UInt64.le_iff_toNat_le.mpr hu
        by_cases hwrap : c.toNat + 1 < 2 ^ 32
        · rw [Nat.mod_eq_of_lt hwrap] at hadd
          have hnext := @ih (c + 1) hrest (by omega)
          rw [hadd] at hnext
          simp only [hadd, hnext, htu, true_and]
          rw [Nat.add_assoc, Nat.add_comm 1 ts.length]
        · have hlt := c.toNat_lt
          have hne : (c + 1).toNat ≠ c.toNat + 1 := by omega
          exact iff_of_false (fun h => hne h.1) (fun h => by omega)
      · have hlt : u.toNat < t.toNat := by omega
        rw [@bumpStat_before ⟨t, c⟩ u hlt hearly]
        have hne : ¬ t ≤ u := fun h => hu (UInt64.le_iff_toNat_le.mp h)
        have hone : (1 : UInt32).toNat ≠ c.toNat + 1 := by
          rw [show (1 : UInt32).toNat = 1 from rfl]
          omega
        exact iff_of_false (fun h => hone h.1) (fun h => hne h.1.1)

def keyTimes (k : ExecKey) (xs : List Exec) : List UInt64 :=
  (xs.filter (fun x => x.key = k)).map Exec.now

end EbpfTools.Execguard

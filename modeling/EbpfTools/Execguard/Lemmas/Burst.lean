import EbpfTools.Lib.Sorted
import EbpfTools.Execguard.Lemmas.Keys

/-!
# Bursts and the counting window

How high the counts of a burst of execs get, by where the burst lies relative to the window that
is open when it begins.
-/

namespace EbpfTools.Execguard
open EbpfTools.Lib

/-- Whether 20 of the exec times `ts` are counted in one window, given the key's entry before the
first of them. The times up to the end of the open window continue its count, which is a `__u32`;
the others are counted from 1. -/
def FillsWindow (o : Option ExecStat) (ts : List UInt64) : Prop :=
  match o with
  | none => 20 ≤ ts.length
  | some st =>
      let inside := ts.filter (fun t => t.toNat ≤ st.windowStartNs.toNat + WINDOW_NS.toNat)
      let outside := ts.filter (fun t => st.windowStartNs.toNat + WINDOW_NS.toNat < t.toNat)
      (inside ≠ [] ∧ 20 ≤ (st.count + 1).toNat + (inside.length - 1)) ∨ 20 ≤ outside.length

/-- Inside one window the counts go up by one, so the last is the largest unless they wrap. -/
theorem exists_count_inside {st : ExecStat} {ts : List UInt64}
    (h : ∀ t ∈ ts, st.windowStartNs.toNat ≤ t.toNat ∧
      t.toNat ≤ st.windowStartNs.toNat + WINDOW_NS.toNat) :
    (∃ p ∈ countRun (some st) ts, 20 ≤ p.2) ↔
      ts ≠ [] ∧ 20 ≤ (st.count + 1).toNat + (ts.length - 1) := by
  induction ts generalizing st with
  | nil => simp [countRun]
  | cons t ts ih =>
      have ht := h t (by simp)
      have hb : nextStat (some st) t = { st with count := st.count + 1 } :=
        bumpStat_inside ht.1 ht.2
      have hi := @ih { st with count := st.count + 1 } fun u hu => h u (by simp [hu])
      simp only [countRun, hb, List.mem_cons, exists_eq_or_imp, hi, List.length_cons]
      have hlt := (st.count + 1).toNat_lt
      have hadd : (st.count + 1 + 1).toNat = ((st.count + 1).toNat + 1) % 2 ^ 32 := by
        rw [UInt32.toNat_add (st.count + 1) 1]; rfl
      have h20 : (20 : UInt32) ≤ st.count + 1 ↔ 20 ≤ (st.count + 1).toNat :=
        UInt32.le_iff_toNat_le
      rw [h20]
      rcases ts with _ | ⟨u, us⟩
      · simp
      · simp only [ne_eq, reduceCtorEq, not_false_eq_true, true_and, List.length_cons]
        omega

/-- Times that each start a window, close enough to each other for one window, are counted
from 1. -/
theorem exists_count_fresh {o : Option ExecStat} {ts : List UInt64} {t : Nat}
    (hmono : ts.Pairwise (fun a b => a.toNat ≤ b.toNat))
    (hin : ∀ u ∈ ts, t ≤ u.toNat ∧ u.toNat ≤ t + WINDOW_NS.toNat)
    (ho : ∀ u ∈ ts, nextStat o u = { windowStartNs := u, count := 1 }) :
    (∃ p ∈ countRun o ts, 20 ≤ p.2) ↔ 20 ≤ ts.length := by
  cases ts with
  | nil => simp [countRun]
  | cons u us =>
      rw [List.pairwise_cons] at hmono
      have hi := @exists_count_inside { windowStartNs := u, count := 1 } us (by
        intro v hv
        refine ⟨hmono.1 v hv, ?_⟩
        have := hin u (by simp)
        have := hin v (by simp [hv])
        dsimp only
        omega)
      have h1 : ¬ (20 : UInt32) ≤ 1 := by decide
      have h2 : ((1 : UInt32) + 1).toNat = 2 := rfl
      simp only [countRun, ho u (by simp), List.mem_cons, exists_eq_or_imp, hi, List.length_cons,
        h1, false_or, h2]
      rcases us with _ | ⟨v, vs⟩
      · simp
      · simp only [ne_eq, reduceCtorEq, not_false_eq_true, true_and, List.length_cons]
        omega

theorem statAfter_inside {st : ExecStat} {ts : List UInt64}
    (h : ∀ t ∈ ts, st.windowStartNs.toNat ≤ t.toNat ∧
      t.toNat ≤ st.windowStartNs.toNat + WINDOW_NS.toNat) :
    ∃ st', statAfter (some st) ts = some st' ∧ st'.windowStartNs = st.windowStartNs := by
  induction ts generalizing st with
  | nil => exact ⟨st, rfl, rfl⟩
  | cons t ts ih =>
      have ht := h t (by simp)
      have hb : nextStat (some st) t = { st with count := st.count + 1 } :=
        bumpStat_inside ht.1 ht.2
      obtain ⟨st', h₁, h₂⟩ := @ih { st with count := st.count + 1 } fun u hu => h u (by simp [hu])
      refine ⟨st', ?_, h₂⟩
      rw [← h₁, ← hb]
      rfl

/-- Which bursts inside an interval of one window length reach 20. -/
theorem exists_count_iff {o : Option ExecStat} {ts : List UInt64} {t : Nat}
    (hmono : ts.Pairwise (fun a b => a.toNat ≤ b.toNat))
    (hin : ∀ u ∈ ts, t ≤ u.toNat ∧ u.toNat ≤ t + WINDOW_NS.toNat)
    (ho : ∀ st, o = some st → ∀ u ∈ ts, st.windowStartNs.toNat ≤ u.toNat) :
    (∃ p ∈ countRun o ts, 20 ≤ p.2) ↔ FillsWindow o ts := by
  cases o with
  | none => exact exists_count_fresh hmono hin fun u _ => rfl
  | some st =>
      let p : UInt64 → Bool := fun u => u.toNat ≤ st.windowStartNs.toNat + WINDOW_NS.toNat
      let q : UInt64 → Bool := fun u => st.windowStartNs.toNat + WINDOW_NS.toNat < u.toNat
      have hq : ts.filter (fun u => !p u) = ts.filter q := by
        apply List.filter_congr
        intro u _
        simp only [p, q, ← decide_not, Nat.not_le]
      have hsplit : ts.filter p ++ ts.filter q = ts := by
        rw [← hq]
        refine filter_append_filter_not hmono fun a b hab hb => ?_
        simp only [p, decide_eq_true_eq] at hb ⊢
        omega
      have hinside : ∀ u ∈ ts.filter p, st.windowStartNs.toNat ≤ u.toNat ∧
          u.toNat ≤ st.windowStartNs.toNat + WINDOW_NS.toNat := by
        intro u hu
        rw [List.mem_filter] at hu
        exact ⟨ho st rfl u hu.1, by simpa [p] using hu.2⟩
      obtain ⟨st', hst, hstart⟩ := statAfter_inside hinside
      have houter : (∃ c ∈ countRun (some st') (ts.filter q), 20 ≤ c.2) ↔
          20 ≤ (ts.filter q).length := by
        refine exists_count_fresh (hmono.sublist List.filter_sublist)
          (fun u hu => hin u (List.mem_of_mem_filter hu)) fun u hu => ?_
        rw [List.mem_filter] at hu
        exact bumpStat_outside (by rw [hstart]; simpa [q] using hu.2)
      have hcount : countRun (some st) ts =
          countRun (some st) (ts.filter p) ++ countRun (some st') (ts.filter q) := by
        rw [← hst, ← countRun_append, hsplit]
      simp only [hcount, List.mem_append, or_and_right, exists_or, FillsWindow]
      rw [exists_count_inside hinside, houter]

/-- The same for the times of a whole run: the count that is open when the interval begins is what
the earlier times left. -/
theorem exists_count_interval_iff {ts : List UInt64} (t : Nat)
    (hmono : ts.Pairwise (fun a b => a.toNat ≤ b.toNat)) :
    (∃ p ∈ countRun none ts,
        (t ≤ p.1.toNat ∧ p.1.toNat ≤ t + WINDOW_NS.toNat) ∧ 20 ≤ p.2) ↔
      FillsWindow (statAfter none (ts.filter fun u => u.toNat < t))
        (ts.filter fun u => t ≤ u.toNat ∧ u.toNat ≤ t + WINDOW_NS.toNat) := by
  have hiff := exists_count_iff (o := statAfter none (ts.filter fun u => u.toNat < t)) (t := t)
    (hmono.sublist (List.filter_sublist (p := fun u =>
      decide (t ≤ u.toNat ∧ u.toNat ≤ t + WINDOW_NS.toNat))))
    (fun u hu => by simpa using (List.mem_filter.mp hu).2) (by
      intro st hst u hu
      have h₁ : st.windowStartNs.toNat < t := by
        simpa using (List.mem_filter.mp (statAfter_start_mem hst)).2
      have h₂ : t ≤ u.toNat ∧ u.toNat ≤ t + WINDOW_NS.toNat := by
        simpa using (List.mem_filter.mp hu).2
      omega)
  rw [← hiff]
  have hsplit := filter_interval hmono (Nat.le_add_right t WINDOW_NS.toNat)
  constructor
  · rintro ⟨p, hp, hin, hc⟩
    rw [← hsplit, countRun_append, countRun_append, List.mem_append, List.mem_append] at hp
    rcases hp with hp | hp | hp
    · have hlt : p.1.toNat < t := by
        simpa using (List.mem_filter.mp (fst_mem_of_mem_countRun hp)).2
      omega
    · exact ⟨p, hp, hc⟩
    · have hlt : t + WINDOW_NS.toNat < p.1.toNat := by
        simpa using (List.mem_filter.mp (fst_mem_of_mem_countRun hp)).2
      omega
  · rintro ⟨p, hp, hc⟩
    refine ⟨p, ?_, by simpa using (List.mem_filter.mp (fst_mem_of_mem_countRun hp)).2, hc⟩
    rw [← hsplit, countRun_append, countRun_append]
    exact List.mem_append_right _ (List.mem_append_left _ hp)

/-! ## Bursts in a run -/

def InBurst (uid : UInt32) (comm : Buf TASK_COMM_LEN) (t : Nat) (x : Exec) : Prop :=
  x.uid = uid ∧ x.comm = comm ∧ t ≤ x.now.toNat ∧ x.now.toNat ≤ t + WINDOW_NS.toNat

instance (uid : UInt32) (comm : Buf TASK_COMM_LEN) (t : Nat) (x : Exec) :
    Decidable (InBurst uid comm t x) :=
  inferInstanceAs (Decidable (_ ∧ _))

/-- The run emits an event for `comm` by `uid` in the 60 s from `t` on whose count reaches 20 and
which is shown as an alert. -/
def BurstReported (xs : List Exec) (uid : UInt32) (comm : Buf TASK_COMM_LEN) (t : Nat) : Prop :=
  ∃ e ∈ runOut handleExec BoundedMap.empty xs, (e.uid = uid ∧ e.comm = comm) ∧
    (t ≤ e.timestampNs.toNat ∧ e.timestampNs.toNat ≤ t + WINDOW_NS.toNat) ∧
    20 ≤ e.execCount ∧ severityFor e = .alert

instance (xs : List Exec) (uid : UInt32) (comm : Buf TASK_COMM_LEN) (t : Nat) :
    Decidable (BurstReported xs uid comm t) :=
  inferInstanceAs (Decidable (∃ e ∈ _, _))

theorem binaryPath_of_mem {xs : List Exec} {m : Stats} {e : Event}
    (h : e ∈ runOut handleExec m xs) : e.binaryPath = commPath e.comm := by
  obtain ⟨pre, x, post, -, he⟩ := mem_runOut.mp h
  cases hs : x.slot with
  | none => simp [handleExec_none hs] at he
  | some slot =>
      rw [handleExec_some hs, List.mem_singleton] at he
      subst he
      rfl

theorem severityFor_of_count {e : Event} (hp : e.binaryPath = commPath e.comm)
    (hn : isShellish (basenameOf e.comm.str) = false) (hc : 20 ≤ e.execCount) :
    severityFor e = .alert := by
  have hj : judgedName e = basenameOf e.comm.str := by
    simp only [judgedName, hp, commPath_str, ite_self]
  simp [severityFor, hj, hn, hc]

theorem burstReported_iff_count {xs : List Exec} {uid : UInt32} {comm : Buf TASK_COMM_LEN}
    {t : Nat} (hslot : ∀ x ∈ xs, x.slot.isSome) (hkeys : (xs.map Exec.key).toFinset.card ≤ 8192)
    (hname : isShellish (basenameOf comm.str) = false) :
    BurstReported xs uid comm t ↔
      ∃ p ∈ countRun none (keyTimes ⟨uid, commPath comm⟩ xs),
        (t ≤ p.1.toNat ∧ p.1.toNat ≤ t + WINDOW_NS.toNat) ∧ 20 ≤ p.2 := by
  rw [← keyCounts_of_fits hslot hkeys, keyCounts, keyEvents]
  constructor
  · rintro ⟨e, he, ⟨rfl, rfl⟩, hin, hc, -⟩
    refine ⟨(e.timestampNs, e.execCount), List.mem_map.mpr ⟨e, ?_, rfl⟩, hin, hc⟩
    rw [List.mem_filter]
    exact ⟨he, by simp [Event.key, binaryPath_of_mem he]⟩
  · rintro ⟨p, hp, hin, hc⟩
    obtain ⟨e, he, rfl⟩ := List.mem_map.mp hp
    rw [List.mem_filter] at he
    have hb := binaryPath_of_mem he.1
    have hkey : e.uid = uid ∧ commPath e.comm = commPath comm := by
      simpa [Event.key, hb] using he.2
    have hcomm := commPath_injective hkey.2
    refine ⟨e, he.1, ⟨hkey.1, hcomm⟩, hin, hc, ?_⟩
    exact severityFor_of_count hb (by rw [hcomm]; exact hname) hc

theorem keyTimes_filter (uid : UInt32) (comm : Buf TASK_COMM_LEN) (p : UInt64 → Bool)
    (xs : List Exec) :
    (keyTimes ⟨uid, commPath comm⟩ xs).filter p =
      keyTimes ⟨uid, commPath comm⟩ (xs.filter fun x => p x.now) := by
  simp only [keyTimes, List.filter_map, List.filter_filter, Function.comp_def, Bool.and_comm]

end EbpfTools.Execguard

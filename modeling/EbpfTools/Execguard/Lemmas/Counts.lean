import EbpfTools.Execguard.Lemmas.Window

/-!
# Counts and true numbers of execs

Every entry counts at most the execs of its key since its window began, whatever was lost.
-/

namespace EbpfTools.Execguard
open EbpfTools.Lib

def countSince (k : ExecKey) (t : UInt64) (xs : List Exec) : Nat :=
  (xs.filter fun x => x.key = k ∧ t ≤ x.now).length

theorem countSince_append (k : ExecKey) (t : UInt64) (xs ys : List Exec) :
    countSince k t (xs ++ ys) = countSince k t xs + countSince k t ys := by
  rw [countSince, List.filter_append, List.length_append]
  rfl

theorem countSince_singleton {k : ExecKey} {t : UInt64} {x : Exec} (hk : x.key = k)
    (ht : t ≤ x.now) : countSince k t [x] = 1 := by
  simp [countSince, hk, ht]

/-- The entries against the execs so far. -/
structure CountInv (xs : List Exec) (m : Stats) : Prop where
  started : ∀ k st, m.lookup k = some st → ∃ x ∈ xs, x.now = st.windowStartNs
  count_le : ∀ k st, m.lookup k = some st → st.count.toNat ≤ countSince k st.windowStartNs xs

theorem countInv_empty : CountInv [] .empty where
  started k st h := by cases h
  count_le k st h := by cases h

/-- What the next exec of a key leaves in its entry: a window that is at most 60 s old, and a count
of execs in it. -/
theorem nextStat_bounds {xs : List Exec} {m : Stats} {x : Exec} (hi : CountInv xs m)
    (hnow : ∀ y ∈ xs, y.now ≤ x.now) :
    (∃ y ∈ xs ++ [x], y.now = (nextStat (m.lookup x.key) x.now).windowStartNs) ∧
      x.now.toNat ≤ (nextStat (m.lookup x.key) x.now).windowStartNs.toNat + WINDOW_NS.toNat ∧
      (nextStat (m.lookup x.key) x.now).count.toNat ≤
        countSince x.key (nextStat (m.lookup x.key) x.now).windowStartNs (xs ++ [x]) := by
  have hfresh : (1 : UInt32).toNat ≤ countSince x.key x.now (xs ++ [x]) := by
    rw [countSince_append, countSince_singleton rfl (UInt64.le_refl x.now)]
    exact Nat.le_add_left 1 _
  cases ho : m.lookup x.key with
  | none =>
      exact ⟨⟨x, by simp, rfl⟩, Nat.le_add_right _ _, hfresh⟩
  | some st =>
      obtain ⟨y, hy, hstart⟩ := hi.started _ _ ho
      have hle : st.windowStartNs ≤ x.now := hstart ▸ hnow y hy
      have hcount := hi.count_le _ _ ho
      simp only [nextStat, bumpStat]
      by_cases hold : x.now - st.windowStartNs > WINDOW_NS
      · rw [if_pos hold]
        exact ⟨⟨x, by simp, rfl⟩, Nat.le_add_right _ _, hfresh⟩
      · rw [if_neg hold]
        rw [elapsed_gt_iff (UInt64.le_iff_toNat_le.mp hle), not_lt] at hold
        refine ⟨⟨y, List.mem_append_left _ hy, hstart⟩, hold, ?_⟩
        have hadd : (st.count + 1).toNat ≤ st.count.toNat + 1 := by
          rw [UInt32.toNat_add]
          exact Nat.mod_le _ _
        rw [countSince_append, countSince_singleton rfl hle]
        exact le_trans hadd (Nat.add_le_add_right hcount 1)

theorem countInv_mono {xs : List Exec} {m : Stats} (hi : CountInv xs m) (ys : List Exec) :
    CountInv (xs ++ ys) m where
  started k st h := by
    obtain ⟨x, hx, hs⟩ := hi.started k st h
    exact ⟨x, List.mem_append_left _ hx, hs⟩
  count_le k st h := by
    rw [countSince_append]
    exact le_trans (hi.count_le k st h) (Nat.le_add_right _ _)

theorem countInv_step {xs : List Exec} {m : Stats} {x : Exec} (hi : CountInv xs m)
    (hnow : ∀ y ∈ xs, y.now ≤ x.now) : CountInv (xs ++ [x]) (handleExec m x).1 := by
  have hold := countInv_mono hi [x]
  cases hs : x.slot with
  | none =>
      rw [handleExec_none hs]
      exact hold
  | some slot =>
      obtain ⟨hstart, -, hcount⟩ := nextStat_bounds hi hnow
      rw [handleExec_some hs]
      have hnew : ∀ k st, (m.track Exec.key (fun o x => nextStat o x.now) x).lookup k = some st →
          m.lookup k = some st ∨ k = x.key ∧ st = nextStat (m.lookup x.key) x.now := by
        intro k st h
        by_cases hk : k = x.key
        · subst hk
          by_cases hr : m.Room x.key
          · rw [BoundedMap.track, BoundedMap.lookup_update_self _ hr] at h
            exact Or.inr ⟨rfl, (Option.some.inj h).symm⟩
          · rw [BoundedMap.track, BoundedMap.update_of_not_room _ hr] at h
            exact Or.inl h
        · rw [BoundedMap.track, m.lookup_update_ne _ hk] at h
          exact Or.inl h
      refine ⟨fun k st h => ?_, fun k st h => ?_⟩
      · rcases hnew k st h with h | ⟨rfl, rfl⟩
        · exact hold.started k st h
        · exact hstart
      · rcases hnew k st h with h | ⟨rfl, rfl⟩
        · exact hold.count_le k st h
        · exact hcount

theorem countInv_run {xs : List Exec} (hmono : xs.Pairwise fun x y => x.now ≤ y.now) :
    CountInv xs (runState handleExec .empty xs) := by
  refine @run_invariant _ _ _ _ _ CountInv _ countInv_empty fun pre x post he hi => ?_
  rw [he, List.pairwise_append] at hmono
  exact countInv_step hi fun y hy => hmono.2.2 y hy x List.mem_cons_self

/-! ## The window of an event -/

/-- An exec of the same user and name in the 60 s up to the event. -/
def InWindow (e : Event) (x : Exec) : Prop :=
  x.uid = e.uid ∧ x.comm = e.comm ∧ e.timestampNs.toNat ≤ x.now.toNat + WINDOW_NS.toNat ∧
    x.now ≤ e.timestampNs

instance (e : Event) (x : Exec) : Decidable (InWindow e x) :=
  inferInstanceAs (Decidable (_ ∧ _))

theorem countSince_le_window {xs : List Exec} {x : Exec} {e : Event} {t : UInt64}
    (huid : e.uid = x.uid) (hcomm : e.comm = x.comm) (htime : e.timestampNs = x.now)
    (ht : x.now.toNat ≤ t.toNat + WINDOW_NS.toNat) (hnow : ∀ y ∈ xs, y.now ≤ x.now) :
    countSince x.key t xs ≤ (xs.filter fun y => InWindow e y).length := by
  rw [countSince, ← List.countP_eq_length_filter, ← List.countP_eq_length_filter]
  refine List.countP_mono_left fun y hy h => ?_
  obtain ⟨hkey, hty⟩ := of_decide_eq_true h
  obtain ⟨hu, hc⟩ := key_eq_iff.mp (hkey : y.key = ⟨x.uid, commPath x.comm⟩)
  have hle := UInt64.le_iff_toNat_le.mp hty
  refine decide_eq_true ⟨hu.trans huid.symm, hc.trans hcomm.symm, ?_, htime ▸ hnow y hy⟩
  rw [htime]
  omega

end EbpfTools.Execguard

import EbpfTools.Lib.Bits
import EbpfTools.Procwatch.Tasks

/-!
# The events of a process
-/

namespace EbpfTools.Procwatch
open EbpfTools.Lib

/-! ## What an event says -/

theorem toUInt32_pidTgid (t : Thread) : (pidTgid t >>> 32).toUInt32 = t.tgid :=
  high_joinWords t.tgid t.tid

/-- Type, `pid` and `ppid` of the event of a step. -/
def reports (k : Kernel) (x : Step) : UInt8 × UInt32 × UInt32 :=
  match x.action with
  | .fork child => (EVENT_FORK, child, x.thread.tid)
  | .clone child => (EVENT_FORK, child, x.thread.tid)
  | .exec _ => (EVENT_EXEC, x.thread.tgid, k.parent x.thread.tgid)
  | .exit _ => (EVENT_EXIT, x.thread.tgid, k.parent x.thread.tgid)

theorem exists_fires (k : Kernel) (x : Step) :
    ∃ e, fires k x = some e ∧ (e.type, e.pid, e.ppid) = reports k x := by
  cases h : x.action with
  | fork child => exact ⟨_, by simp only [fires, h]; rfl, by simp [reports, h]⟩
  | clone child => exact ⟨_, by simp only [fires, h]; rfl, by simp [reports, h]⟩
  | exec ctx =>
      refine ⟨_, by simp only [fires, h]; rfl, ?_⟩
      simp [reports, h, current, toUInt32_pidTgid, getPpid]
  | exit reaper =>
      refine ⟨_, by simp only [fires, h]; rfl, ?_⟩
      simp [reports, h, current, toUInt32_pidTgid, getPpid]

theorem step_of_possible {k : Kernel} {x : Step} (h : k.Possible x) :
    ∃ e, step k x = (k.next x, [e]) ∧ (e.type, e.pid, e.ppid) = reports k x := by
  obtain ⟨e, he, hrep⟩ := exists_fires k x
  exact ⟨e, by simp [step, h, he], hrep⟩

theorem step_of_not_possible {k : Kernel} {x : Step} (h : ¬ k.Possible x) :
    step k x = (k, []) := by
  simp [step, h]

/-- The step does not give the id away. -/
def Step.Keeps (x : Step) (p : UInt32) : Prop := x.action ≠ .fork p ∧ x.action ≠ .clone p

/-- The step is the end of a thread of `p`. -/
def Step.Exits (x : Step) (p : UInt32) : Prop := x.thread.tgid = p ∧ ∃ r, x.action = .exit r

/-! ## Which processes are alive -/

section Next
variable {k : Kernel} {x : Step} {p : UInt32}

/-- A step that is not the end of a thread of `p` leaves `p` a thread. -/
theorem alive_next (h : k.Alive p) (hx : ¬ x.Exits p) : (k.next x).Alive p := by
  obtain ⟨t, ht, rfl⟩ := h
  cases ha : x.action with
  | fork child => exact ⟨t, by simp [Kernel.next, ha, ht], rfl⟩
  | clone child => exact ⟨t, by simp [Kernel.next, ha, ht], rfl⟩
  | exec ctx =>
      simp only [Kernel.next, ha]
      by_cases he : t = x.thread
      · exact ⟨⟨x.thread.tgid, x.thread.tgid⟩, by simp, by rw [he]⟩
      · exact ⟨t, by simp [he, ht], rfl⟩
  | exit reaper =>
      have hne : t ≠ x.thread := fun he => hx ⟨by rw [he], reaper, ha⟩
      have hmem : t ∈ k.threads.erase x.thread := Finset.mem_erase.mpr ⟨hne, ht⟩
      simp only [Kernel.next, ha]
      split
      · exact ⟨t, hmem, rfl⟩
      · exact ⟨t, hmem, rfl⟩

/-- The threads left when a thread ends. -/
theorem threads_next_exit {r : UInt32} (ha : x.action = .exit r) :
    (k.next x).threads = k.threads.erase x.thread := by
  simp only [Kernel.next, ha]
  split <;> rfl

theorem alive_next_exit (hx : x.Exits p) : (k.next x).Alive p ↔ ¬ k.Alone x.thread := by
  obtain ⟨rfl, r, ha⟩ := hx
  simp only [Kernel.Alive, Kernel.Alone, threads_next_exit ha, Finset.mem_erase]
  constructor
  · rintro ⟨t, ⟨hne, ht⟩, htgid⟩ h
    exact hne (h t ht htgid)
  · intro h
    simp only [not_forall] at h
    obtain ⟨t, ht, htgid, hne⟩ := h
    exact ⟨t, ⟨hne, ht⟩, htgid⟩

/-- A process that is not alive comes back only under a new id. -/
theorem not_alive_next (hk : k.Possible x) (hkeeps : x.Keeps p) (h : ¬ k.Alive p) :
    ¬ (k.next x).Alive p := by
  rintro ⟨t, ht, htgid⟩
  have hno : ∀ u ∈ k.threads, u.tgid ≠ p := fun u hu he => h ⟨u, hu, he⟩
  cases ha : x.action with
  | fork child =>
      simp only [Kernel.next, ha, Finset.mem_insert] at ht
      rcases ht with rfl | ht
      · exact hkeeps.1 (by rw [ha, ← htgid])
      · exact hno t ht htgid
  | clone child =>
      simp only [Kernel.next, ha, Finset.mem_insert] at ht
      rcases ht with rfl | ht
      · exact hno x.thread hk.1 htgid
      · exact hno t ht htgid
  | exec ctx =>
      simp only [Kernel.next, ha, Finset.mem_insert, Finset.mem_erase] at ht
      rcases ht with rfl | ht
      · exact hno x.thread hk.1 htgid
      · exact hno t ht.2 htgid
  | exit reaper =>
      rw [threads_next_exit ha, Finset.mem_erase] at ht
      exact hno t ht.2 htgid

/-- The parent of `p` changes only when it ends. -/
theorem parent_next (hkeeps : x.Keeps p) :
    (k.next x).parent p = k.parent p ∨ ¬ (k.next x).Alive (k.parent p) := by
  cases ha : x.action with
  | fork child =>
      have hne : p ≠ child := fun he => hkeeps.1 (by rw [ha, he])
      exact Or.inl (by simp [Kernel.next, ha, Function.update_of_ne hne])
  | clone child => exact Or.inl (by simp [Kernel.next, ha])
  | exec ctx => exact Or.inl (by simp [Kernel.next, ha])
  | exit reaper =>
      simp only [Kernel.next, ha]
      split
      · exact Or.inl rfl
      · rename_i hdead
        by_cases hp : k.parent p = x.thread.tgid
        · exact Or.inr (by rw [hp]; exact hdead)
        · exact Or.inl (by simp [hp])

end Next

/-! ## The events of a step -/

def eventsOf (type : UInt8) (p : UInt32) (es : List Event) : List Event :=
  es.filter fun e => e.type = type ∧ e.pid = p

theorem eventsOf_append (type : UInt8) (p : UInt32) (es fs : List Event) :
    eventsOf type p (es ++ fs) = eventsOf type p es ++ eventsOf type p fs :=
  List.filter_append es fs

section Events
variable {k : Kernel} {x : Step} {p : UInt32}

theorem eventsOf_step (hk : k.Possible x) (type : UInt8) (p : UInt32) :
    (eventsOf type p (step k x).2).map Event.ppid =
      if (reports k x).1 = type ∧ (reports k x).2.1 = p then [(reports k x).2.2] else [] := by
  obtain ⟨e, he, hrep⟩ := step_of_possible hk
  rw [he, ← hrep]
  simp only [eventsOf, List.filter_cons, List.filter_nil, decide_eq_true_eq]
  split <;> rfl

theorem reports_exit_iff : (reports k x).1 = EVENT_EXIT ∧ (reports k x).2.1 = p ↔ x.Exits p := by
  rw [Step.Exits]
  cases ha : x.action with
  | fork child => simp [reports, ha, EVENT_FORK, EVENT_EXIT]
  | clone child => simp [reports, ha, EVENT_FORK, EVENT_EXIT]
  | exec ctx => simp [reports, ha, EVENT_EXEC, EVENT_EXIT]
  | exit reaper => simp [reports, ha]

theorem not_reports_fork (h : x.Keeps p) :
    ¬ ((reports k x).1 = EVENT_FORK ∧ (reports k x).2.1 = p) := by
  cases ha : x.action with
  | fork child =>
      rintro ⟨-, hp⟩
      simp only [reports, ha] at hp
      exact h.1 (by rw [ha, hp])
  | clone child =>
      rintro ⟨-, hp⟩
      simp only [reports, ha] at hp
      exact h.2 (by rw [ha, hp])
  | exec ctx => simp [reports, ha, EVENT_FORK, EVENT_EXEC]
  | exit reaper => simp [reports, ha, EVENT_FORK, EVENT_EXIT]

theorem eventsOf_fork_step (h : x.Keeps p) : eventsOf EVENT_FORK p (step k x).2 = [] := by
  by_cases hk : k.Possible x
  · have hmap := eventsOf_step hk EVENT_FORK p
    rw [if_neg (not_reports_fork h)] at hmap
    exact List.map_eq_nil_iff.mp hmap
  · rw [step_of_not_possible hk]
    rfl

theorem length_eventsOf_exit_step (hk : k.Possible x) (hx : x.Exits p) :
    (eventsOf EVENT_EXIT p (step k x).2).length = 1 := by
  have hmap := congrArg List.length (eventsOf_step hk EVENT_EXIT p)
  rw [if_pos (reports_exit_iff.mpr hx), List.length_map] at hmap
  exact hmap

theorem eventsOf_exit_step (hx : ¬ x.Exits p) : eventsOf EVENT_EXIT p (step k x).2 = [] := by
  by_cases hk : k.Possible x
  · have hmap := eventsOf_step hk EVENT_EXIT p
    rw [if_neg fun h => hx (reports_exit_iff.mp h)] at hmap
    exact List.map_eq_nil_iff.mp hmap
  · rw [step_of_not_possible hk]
    rfl

/-- Exec and exit events carry the parent of the process. -/
theorem ppid_of_mem_step {e : Event} (he : e ∈ (step k x).2)
    (ht : e.type = EVENT_EXEC ∨ e.type = EVENT_EXIT) : e.ppid = k.parent e.pid := by
  by_cases hk : k.Possible x
  · obtain ⟨f, hf, hrep⟩ := step_of_possible hk
    rw [hf, List.mem_singleton] at he
    rw [← he] at hrep
    cases ha : x.action with
    | fork child =>
        simp only [reports, ha, Prod.mk.injEq] at hrep
        simp [hrep.1, EVENT_FORK, EVENT_EXEC, EVENT_EXIT] at ht
    | clone child =>
        simp only [reports, ha, Prod.mk.injEq] at hrep
        simp [hrep.1, EVENT_FORK, EVENT_EXEC, EVENT_EXIT] at ht
    | exec ctx =>
        simp only [reports, ha, Prod.mk.injEq] at hrep
        rw [hrep.2.1, hrep.2.2]
    | exit reaper =>
        simp only [reports, ha, Prod.mk.injEq] at hrep
        rw [hrep.2.1, hrep.2.2]
  · rw [step_of_not_possible hk] at he
    cases he

end Events

/-! ## The events of a run -/

section Run
variable {k : Kernel} {p : UInt32} {xs : List Step}

theorem eventsOf_fork_run (h : ∀ x ∈ xs, x.Keeps p) : eventsOf EVENT_FORK p (runOut step k xs) = [] := by
  induction xs generalizing k with
  | nil => rfl
  | cons x xs ih =>
      rw [runOut_cons, eventsOf_append, eventsOf_fork_step (h x List.mem_cons_self),
        ih fun y hy => h y (List.mem_cons_of_mem x hy)]
      rfl

/-- The threads of `p` end only when no other one is left. -/
def EndsOnce (k : Kernel) (p : UInt32) (xs : List Step) : Prop :=
  ∀ pre x post, xs = pre ++ x :: post → (runState step k pre).Possible x → x.Exits p →
    (runState step k pre).Alone x.thread

theorem EndsOnce.append {ys : List Step} (h : EndsOnce k p (xs ++ ys)) : EndsOnce k p xs := by
  rintro pre x post rfl hk hx
  exact h pre x (post ++ ys) (by simp) hk hx

/-- One exit event from the moment on in which the process has no thread left. -/
theorem exitEvents_of_endsOnce (hkeeps : ∀ x ∈ xs, x.Keeps p) (halive : k.Alive p)
    (h : EndsOnce k p xs) :
    (eventsOf EVENT_EXIT p (runOut step k xs)).length =
      if (runState step k xs).Alive p then 0 else 1 := by
  induction xs using List.reverseRecOn with
  | nil => simp [eventsOf, halive]
  | append_singleton xs x ih =>
      have hx : x.Keeps p := hkeeps x (by simp)
      have ih := ih (fun y hy => hkeeps y (List.mem_append_left [x] hy)) h.append
      rw [runOut_concat, eventsOf_append, List.length_append, ih, runState_concat]
      by_cases hk : (runState step k xs).Possible x
      · obtain ⟨e, he, -⟩ := step_of_possible hk
        by_cases hex : x.Exits p
        · have hwas : (runState step k xs).Alive p := ⟨x.thread, hk.1, hex.1⟩
          have hnow : ¬ ((runState step k xs).next x).Alive p := by
            rw [alive_next_exit hex, not_not]
            exact h xs x [] rfl hk hex
          rw [length_eventsOf_exit_step hk hex, he, if_pos hwas, if_neg hnow]
        · have hsame : ((runState step k xs).next x).Alive p ↔ (runState step k xs).Alive p := by
            refine ⟨fun hn => ?_, fun ha => alive_next ha hex⟩
            by_contra hdead
            exact not_alive_next hk hx hdead hn
          rw [eventsOf_exit_step hex, he]
          simp [hsame]
      · rw [step_of_not_possible hk]
        simp [eventsOf]

/-- As long as the parent of a process is alive, it stays its parent. -/
theorem parent_run {q : UInt32} (hkeeps : ∀ x ∈ xs, x.Keeps p) (hq : k.parent p = q)
    (halive : ∀ pre, pre <+: xs → (runState step k pre).Alive q) :
    (runState step k xs).parent p = q := by
  induction xs using List.reverseRecOn with
  | nil => exact hq
  | append_singleton xs x ih =>
      have ih := ih (fun y hy => hkeeps y (List.mem_append_left [x] hy))
        fun pre hpre => halive pre (hpre.trans (List.prefix_append xs [x]))
      have hlast := halive (xs ++ [x]) (List.prefix_refl _)
      rw [runState_concat] at hlast ⊢
      by_cases hk : (runState step k xs).Possible x
      · obtain ⟨e, he, -⟩ := step_of_possible hk
        rw [he] at hlast ⊢
        rcases parent_next (k := runState step k xs) (hkeeps x (by simp)) with hp | hdead
        · exact hp.trans ih
        · rw [ih] at hdead
          exact absurd hlast hdead
      · rw [step_of_not_possible hk]
        exact ih

end Run

/-! ## The life of a process -/

/-- What the events must say of the process `p` that `x` creates in the state `k`, where `xs` are
the steps after `x` up to the next task with the id `p`. -/
structure Reconstructed (k : Kernel) (x : Step) (p : UInt32) (xs : List Step) : Prop where
  fork : (eventsOf EVENT_FORK p (runOut step k (x :: xs))).map Event.ppid = [x.thread.tgid]
  exit : ∀ pre, pre <+: xs → (eventsOf EVENT_EXIT p (runOut step k (x :: pre))).length =
    if (runState step k (x :: pre)).Alive p then 0 else 1
  ppid : ∀ pre y post, xs = pre ++ y :: post →
    (∀ pre', pre' <+: pre → (runState step k (x :: pre')).Alive x.thread.tgid) →
    ∀ e ∈ (step (runState step k (x :: pre)) y).2, e.pid = p →
      e.type = EVENT_EXEC ∨ e.type = EVENT_EXIT →
      ∀ f ∈ eventsOf EVENT_FORK p (runOut step k (x :: xs)), e.ppid = f.ppid

section Life
variable {k : Kernel} {x : Step} {p : UInt32} {xs : List Step}

theorem alive_created (hx : x.action = .fork p) : (k.next x).Alive p := by
  simp [Kernel.Alive, Kernel.next, hx]

theorem parent_created (hx : x.action = .fork p) : (k.next x).parent p = x.thread.tgid := by
  simp [Kernel.next, hx]

theorem forkEvents_created (hx : x.action = .fork p) (hk : k.Possible x)
    (hkeeps : ∀ y ∈ xs, y.Keeps p) :
    (eventsOf EVENT_FORK p (runOut step k (x :: xs))).map Event.ppid = [x.thread.tid] := by
  have hrep : reports k x = (EVENT_FORK, p, x.thread.tid) := by simp [reports, hx]
  have hfirst := eventsOf_step hk EVENT_FORK p
  rw [hrep, if_pos ⟨rfl, rfl⟩] at hfirst
  rw [runOut_cons, eventsOf_append, eventsOf_fork_run hkeeps, List.append_nil, hfirst]

theorem exitEvents_created (hx : x.action = .fork p) :
    eventsOf EVENT_EXIT p (step k x).2 = [] := by
  refine eventsOf_exit_step ?_
  rintro ⟨-, r, hr⟩
  rw [hx] at hr
  cases hr

/-- A thread that ends before the last one leaves an exit event of a process that is alive. -/
theorem endsOnce_of_reconstructed (hk : k.Possible x)
    (h : Reconstructed k x p xs) : EndsOnce (k.next x) p xs := by
  rintro pre y post rfl hy hex
  by_contra halone
  obtain ⟨e, he, -⟩ := step_of_possible hk
  obtain ⟨f, hf, -⟩ := step_of_possible hy
  have hprefix : pre ++ [y] <+: pre ++ y :: post := ⟨post, by simp⟩
  have hcount := h.exit (pre ++ [y]) hprefix
  have halive : ((runState step (k.next x) pre).next y).Alive p := (alive_next_exit hex).mpr halone
  rw [runState_cons, he, runState_concat, hf, if_pos halive, runOut_cons, he, runOut_concat,
    eventsOf_append, eventsOf_append, List.length_append, List.length_append,
    length_eventsOf_exit_step hy hex] at hcount
  omega

theorem reconstructed_of_endsOnce (hx : x.action = .fork p) (hk : k.Possible x)
    (hkeeps : ∀ y ∈ xs, y.Keeps p) (hfirst : x.thread.tid = x.thread.tgid)
    (h : EndsOnce (k.next x) p xs) : Reconstructed k x p xs where
  fork := by rw [forkEvents_created hx hk hkeeps, hfirst]
  exit := by
    rintro pre ⟨post, rfl⟩
    obtain ⟨e, he, -⟩ := step_of_possible hk
    have hpre : ∀ y ∈ pre, y.Keeps p := fun y hy => hkeeps y (List.mem_append_left post hy)
    rw [runOut_cons, eventsOf_append, exitEvents_created hx, List.nil_append, runState_cons, he]
    exact exitEvents_of_endsOnce hpre (alive_created hx) h.append
  ppid := by
    rintro pre y post rfl halive e he hpid ht f hf
    obtain ⟨e', he', -⟩ := step_of_possible hk
    have hpre : ∀ z ∈ pre, z.Keeps p := fun z hz => hkeeps z (List.mem_append_left _ hz)
    have hf : f.ppid ∈ [x.thread.tgid] := by
      rw [← hfirst, ← forkEvents_created hx hk hkeeps]
      exact List.mem_map_of_mem hf
    rw [ppid_of_mem_step he ht, hpid, List.mem_singleton.mp hf, runState_cons, he']
    refine parent_run hpre (parent_created hx) fun pre' hpre' => ?_
    have := halive pre' hpre'
    rwa [runState_cons, he'] at this

end Life

end EbpfTools.Procwatch

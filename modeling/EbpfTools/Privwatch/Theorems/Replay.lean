import EbpfTools.Lib.Journal
import EbpfTools.Privwatch.Print

/-!
# privwatch: what the lines tell about a process

Tasks get new credentials one after the other, and every change that is reported is printed.
-/

namespace EbpfTools.Privwatch
open EbpfTools.Lib

/-! ## The system -/

/-- One call of `commit_creds` with what the helpers return in it and what follows the record of its
event in memory. -/
structure Commit where
  ktime : UInt64
  pidTgid : UInt64
  comm : Buf TASK_COMM_LEN
  realParent : UInt32
  nsInum : UInt32
  newCred : Cred
  slot : Option Event
  behind : List UInt8

def Commit.current (x : Commit) (cred : Cred) : Current :=
  ⟨x.ktime, x.pidTgid, x.comm, cred, x.realParent, x.nsInum⟩

def pidOf (pidTgid : UInt64) : UInt32 := (pidTgid >>> 32).toUInt32

/-- The credentials of all tasks, and one of them commits new ones. -/
def step (creds : UInt64 → Cred) (x : Commit) : (UInt64 → Cred) × List Line :=
  (Function.update creds x.pidTgid x.newCred,
    (traceCommitCreds (x.current (creds x.pidTgid)) x.newCred x.slot).toList.map fun e =>
      handleEvent e x.behind)

/-! ## Replay -/

/-- What the tool watches of the credentials. -/
structure View where
  uid : UInt32
  gid : UInt32
  caps : UInt64
  deriving DecidableEq

def viewOf (cred : Cred) : View := ⟨cred.uid, cred.gid, readCaps cred⟩

/-- A line read as an update: a field that is not printed stays. -/
def applyLine (v : View) (l : Line) : View where
  uid := (l.uid.map Prod.snd).getD v.uid
  gid := (l.gid.map Prod.snd).getD v.gid
  caps := (l.caps.map fun c => c.2.1).getD v.caps

/-- What the lines printed for a process say about its credentials, from `v` on. -/
def replay (pid : UInt32) (v : View) (ls : List Line) : View :=
  (ls.filter fun l => l.pid = pid).foldl applyLine v

/-- The old values in a line. -/
structure Starts (v : View) (l : Line) : Prop where
  uid : ∀ p, l.uid = some p → p.1 = v.uid
  gid : ∀ p, l.gid = some p → p.1 = v.gid
  caps : ∀ c, l.caps = some c → c.1 = v.caps

/-! ## One commit -/

variable {creds : UInt64 → Cred} {x : Commit} {t : UInt64}

theorem of_traceCommitCreds {cur : Current} {newCred : Cred} {slot : Option Event} {e : Event}
    (h : traceCommitCreds cur newCred slot = some e) :
    e.pid = pidOf cur.pidTgid ∧ e.oldUid = cur.cred.uid ∧ e.newUid = newCred.uid ∧
      e.oldGid = cur.cred.gid ∧ e.newGid = newCred.gid ∧ e.oldCapsEff = readCaps cur.cred ∧
      e.newCapsEff = readCaps newCred := by
  rw [traceCommitCreds] at h
  split at h
  · cases h
  · obtain ⟨e₀, -, rfl⟩ := Option.map_eq_some_iff.mp h
    exact ⟨rfl, rfl, rfl, rfl, rfl, rfl, rfl⟩

theorem of_mem_step {l : Line} (h : l ∈ (step creds x).2) :
    l.pid = pidOf x.pidTgid ∧ Starts (viewOf (creds x.pidTgid)) l ∧
      applyLine (viewOf (creds x.pidTgid)) l = viewOf x.newCred := by
  obtain ⟨e, he, rfl⟩ := List.mem_map.mp h
  obtain ⟨hpid, hold, hnew, hold', hnew', holdCaps, hnewCaps⟩ :=
    of_traceCommitCreds (Option.mem_toList.mp he)
  refine ⟨hpid, ⟨?_, ?_, ?_⟩, ?_⟩
  · intro p hp
    obtain ⟨-, hp⟩ := Option.ite_none_right_eq_some.mp hp
    rw [← Option.some.inj hp]
    exact hold
  · intro p hp
    obtain ⟨-, hp⟩ := Option.ite_none_right_eq_some.mp hp
    rw [← Option.some.inj hp]
    exact hold'
  · intro c hc
    obtain ⟨-, hc⟩ := Option.ite_none_left_eq_some.mp hc
    rw [← Option.some.inj hc]
    exact holdCaps
  · simp only [applyLine, handleEvent, printCaps, hold, hnew, hold', hnew', holdCaps, hnewCaps,
      Commit.current, viewOf, View.mk.injEq]
    refine ⟨?_, ?_, ?_⟩
    · split
      · rfl
      · rename_i heq
        exact not_ne_iff.mp heq
    · split
      · rfl
      · rename_i heq
        exact not_ne_iff.mp heq
    · split
      · rename_i heq
        exact heq
      · rfl

theorem replay_step_self (hslot : viewOf (creds x.pidTgid) ≠ viewOf x.newCred → x.slot ≠ none) :
    replay (pidOf x.pidTgid) (viewOf (creds x.pidTgid)) (step creds x).2 = viewOf x.newCred := by
  have hall : (step creds x).2.filter (fun l => l.pid = pidOf x.pidTgid) = (step creds x).2 := by
    rw [List.filter_eq_self]
    exact fun l hl => decide_eq_true (of_mem_step hl).1
  rw [replay, hall]
  cases he : traceCommitCreds (x.current (creds x.pidTgid)) x.newCred x.slot with
  | some e =>
      have hout : (step creds x).2 = [handleEvent e x.behind] := by
        rw [step, he]
        rfl
      rw [hout, List.foldl_cons, List.foldl_nil]
      exact (of_mem_step (hout ▸ List.mem_singleton_self _)).2.2
  | none =>
      have hout : (step creds x).2 = [] := by
        rw [step, he]
        rfl
      rw [hout, List.foldl_nil]
      by_contra hne
      obtain ⟨e₀, he₀⟩ := Option.ne_none_iff_exists'.mp (hslot hne)
      rw [traceCommitCreds, he₀] at he
      split at he
      · rename_i heq
        exact hne (View.mk.injEq .. ▸ heq)
      · cases he

theorem replay_step_of_ne {pid : UInt32} (h : pidOf x.pidTgid ≠ pid) (v : View) :
    replay pid v (step creds x).2 = v := by
  have hnone : (step creds x).2.filter (fun l => l.pid = pid) = [] := by
    rw [List.filter_eq_nil_iff]
    intro l hl
    rw [(of_mem_step hl).1]
    simpa using h
  rw [replay, hnone, List.foldl_nil]

/-! ## Runs -/

/-- In the run all commits of the process of `t` are made by the task `t`, and a commit that changes
what is watched finds room for its event. -/
def Reported (creds : UInt64 → Cred) (t : UInt64) (xs : List Commit) : Prop :=
  ∀ pre x post, xs = pre ++ x :: post → pidOf x.pidTgid = pidOf t →
    x.pidTgid = t ∧ (viewOf (runState step creds pre t) ≠ viewOf x.newCred → x.slot ≠ none)

variable {xs : List Commit}

theorem Reported.prefix {pre post : List Commit} (h : Reported creds t (pre ++ post)) :
    Reported creds t pre :=
  fun p x q he => h p x (q ++ post) (by simp [he])

theorem replay_run (h : Reported creds t xs) :
    replay (pidOf t) (viewOf (creds t)) (runOut step creds xs) =
      viewOf (runState step creds xs t) := by
  refine @foldl_filter_runOut _ _ _ _ step creds applyLine (fun creds => viewOf (creds t)) _ xs ?_
  intro pre x post he
  by_cases hpid : pidOf x.pidTgid = pidOf t
  · obtain ⟨rfl, hslot⟩ := h pre x post he hpid
    have hnew : (step (runState step creds pre) x).1 x.pidTgid = x.newCred :=
      Function.update_self ..
    rw [hnew]
    exact replay_step_self hslot
  · have hne : t ≠ x.pidTgid := fun heq => hpid (by rw [heq])
    have hold : (step (runState step creds pre) x).1 t = runState step creds pre t :=
      Function.update_of_ne hne ..
    rw [hold]
    exact replay_step_of_ne hpid _

/-- The lines printed for a process replay to its credentials after every run, and every line of it
starts from the credentials that the lines before it tell. -/
theorem lines_replay (h : Reported creds t xs) :
    replay (pidOf t) (viewOf (creds t)) (runOut step creds xs) =
        viewOf (runState step creds xs t) ∧
      ∀ pre x post, xs = pre ++ x :: post → pidOf x.pidTgid = pidOf t →
        ∀ l ∈ (step (runState step creds pre) x).2,
          Starts (replay (pidOf t) (viewOf (creds t)) (runOut step creds pre)) l := by
  refine ⟨replay_run h, fun pre x post he hpid l hl => ?_⟩
  obtain ⟨rfl, -⟩ := h pre x post he hpid
  rw [he] at h
  rw [replay_run h.prefix]
  exact (of_mem_step hl).2.1

/-- The task 100 of process 100 becomes root, and the task 200 of another process loses its
capabilities without room for the event. -/
def twoCommits : List Commit :=
  [⟨1000000000, 0x6400000064, .zero _, 1, 0, ⟨0, 2000, 0, 2000, ⟨0, 0⟩⟩,
      some ⟨0, 0, 0, 0, 0, 0, 0, 0, 0, 0, .zero _⟩, []⟩,
    ⟨2000000000, 0xC8000000C8, .zero _, 1, 0, ⟨2000, 2000, 2000, 2000, ⟨0, 0⟩⟩, none, []⟩]

def shells (_ : UInt64) : Cred := ⟨2000, 2000, 2000, 2000, ⟨0, 1⟩⟩

theorem reported_twoCommits : Reported shells 0x6400000064 twoCommits := by
  refine forall_split_cons.mpr ⟨fun _ => ⟨rfl, fun _ => Option.some_ne_none _⟩, ?_⟩
  refine forall_split_singleton.mpr fun hpid => ?_
  exact absurd hpid (by decide)

theorem lines_replay_twoCommits :
    replay (pidOf 0x6400000064) (viewOf (shells 0x6400000064)) (runOut step shells twoCommits) =
        viewOf (runState step shells twoCommits 0x6400000064) ∧
      ∀ pre x post, twoCommits = pre ++ x :: post → pidOf x.pidTgid = pidOf 0x6400000064 →
        ∀ l ∈ (step (runState step shells pre) x).2,
          Starts (replay (pidOf 0x6400000064) (viewOf (shells 0x6400000064))
            (runOut step shells pre)) l :=
  lines_replay reported_twoCommits

end EbpfTools.Privwatch

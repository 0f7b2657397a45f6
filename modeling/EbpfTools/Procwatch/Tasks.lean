import Mathlib.Data.Finset.Basic
import Mathlib.Logic.Function.Basic
import EbpfTools.Lib.Run
import EbpfTools.Procwatch.Kernel

/-!
# procwatch: the tasks of a system

The kernel that fires the tracepoints: processes of one or more threads, each a task with its own
id. `sched_process_fork` fires for each new task, `sched_process_exit` for each task that ends.
-/

namespace EbpfTools.Procwatch
open EbpfTools.Lib

/-- A task: its id and that of its process, which is the id of the first thread. -/
structure Thread where
  tid : UInt32
  tgid : UInt32
  deriving DecidableEq

/-- The tasks that have not ended, and for each process the process of its `real_parent`. -/
structure Kernel where
  threads : Finset Thread
  parent : UInt32 → UInt32

/-- What a task does. `reaper` gets the children of a process that has ended. -/
inductive Action
  | fork (child : UInt32)
  | clone (child : UInt32)
  | exec (ctx : ExecCtx)
  | exit (reaper : UInt32)

/-- The task and what it does, with the rest of what the programs read. Every reservation succeeds:
`slot` is what the record held before. -/
structure Step where
  thread : Thread
  action : Action
  ktime : UInt64
  uidGid : UInt64
  comm : Buf TASK_COMM_LEN
  nsInum : UInt32
  exitCode : Int32
  mm : Option Mm
  slot : Event

namespace Kernel

/-- The id belongs to no task and to no process. -/
def Unused (k : Kernel) (id : UInt32) : Prop := ∀ t ∈ k.threads, t.tid ≠ id ∧ t.tgid ≠ id

def Alive (k : Kernel) (p : UInt32) : Prop := ∃ t ∈ k.threads, t.tgid = p

instance (k : Kernel) (id : UInt32) : Decidable (k.Unused id) :=
  inferInstanceAs (Decidable (∀ t ∈ k.threads, t.tid ≠ id ∧ t.tgid ≠ id))

instance (k : Kernel) (p : UInt32) : Decidable (k.Alive p) :=
  inferInstanceAs (Decidable (∃ t ∈ k.threads, t.tgid = p))

/-- No other thread of the process is left. -/
def Alone (k : Kernel) (t : Thread) : Prop := ∀ u ∈ k.threads, u.tgid = t.tgid → u = t

instance (k : Kernel) (t : Thread) : Decidable (k.Alone t) :=
  inferInstanceAs (Decidable (∀ u ∈ k.threads, u.tgid = t.tgid → u = t))

/-- The task exists, a new id is unused, and an exec has ended the other threads before. -/
def Possible (k : Kernel) (x : Step) : Prop :=
  x.thread ∈ k.threads ∧
    match x.action with
    | .fork child => k.Unused child
    | .clone child => k.Unused child
    | .exec _ => k.Alone x.thread
    | .exit _ => True

instance (k : Kernel) (x : Step) : Decidable (k.Possible x) := by
  unfold Possible
  cases x.action <;> infer_instance

/-- The tasks after a step. A thread that is not the first takes over the id of its process when
it executes a file, and the children of a process are given away when its last thread ends. -/
def next (k : Kernel) (x : Step) : Kernel :=
  match x.action with
  | .fork child =>
      ⟨insert ⟨child, child⟩ k.threads, Function.update k.parent child x.thread.tgid⟩
  | .clone child => ⟨insert ⟨child, x.thread.tgid⟩ k.threads, k.parent⟩
  | .exec _ => ⟨insert ⟨x.thread.tgid, x.thread.tgid⟩ (k.threads.erase x.thread), k.parent⟩
  | .exit reaper =>
      let rest : Kernel := ⟨k.threads.erase x.thread, k.parent⟩
      if rest.Alive x.thread.tgid then rest
      else { rest with
        parent := fun p => if k.parent p = x.thread.tgid then reaper else k.parent p }

end Kernel

def pidTgid (t : Thread) : UInt64 := t.tgid.toUInt64 <<< 32 ||| t.tid.toUInt64

/-- What the helpers return when the task `t` takes the step. -/
def current (k : Kernel) (t : Thread) (x : Step) : Current :=
  { ktime := x.ktime
    pidTgid := pidTgid t
    uidGid := x.uidGid
    comm := x.comm
    task := ⟨k.parent t.tgid, x.nsInum, x.exitCode, x.mm⟩ }

/-- The event of a step. -/
def fires (k : Kernel) (x : Step) : Option Event :=
  match x.action with
  | .fork child => handleFork ⟨x.comm, x.thread.tid, child⟩ (current k x.thread x) (some x.slot)
  | .clone child => handleFork ⟨x.comm, x.thread.tid, child⟩ (current k x.thread x) (some x.slot)
  | .exec ctx =>
      handleExec ctx (current k ⟨x.thread.tgid, x.thread.tgid⟩ x) (some x.slot)
  | .exit _ => handleExit (current k x.thread x) (some x.slot)

/-- A step with the event it leaves; a step that is not possible is none. -/
def step (k : Kernel) (x : Step) : Kernel × List Event :=
  if k.Possible x then (k.next x, (fires k x).toList) else (k, [])

end EbpfTools.Procwatch

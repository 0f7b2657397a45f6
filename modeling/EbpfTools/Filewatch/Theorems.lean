import EbpfTools.Filewatch.Kernel
import EbpfTools.Lib.Feedback
import EbpfTools.Procwatch.Lemmas.Args

/-!
# filewatch: which lines are printed

The tool prints to a file that it may watch itself, or to a process that writes the lines on.
-/

namespace EbpfTools.Filewatch
open EbpfTools.Lib EbpfTools.Lib.Monitor
open EbpfTools.Procwatch (probeReadStr cstr_probeReadStr length_probeReadStr_le)

variable {ignorePid : UInt32} {x : Firing} {behind : List UInt8}

/-! ## One operation -/

/-- The name shown for a file: at most 63 bytes of it, and a dash if it has none. -/
def shownName (name : Option (List UInt8)) : List UInt8 :=
  if (name.map cstr).getD [] = [] then ascii "-"
  else ((name.map cstr).getD []).take (NAME_LEN - 1)

/-- The line that is printed for an operation, from the operation alone. -/
def Firing.line (ignorePid : UInt32) (x : Firing) : Option Line :=
  match x.dentry with
  | none => none
  | some de =>
      match de.inode with
      | none => none
      | some inode =>
          if x.task.pid ≠ ignorePid ∧ inode.mode &&& S_IFMT = S_IFREG ∧ x.task.slot.isSome then
            some ⟨opName x.op, x.task.pid, x.task.uid, inode.ino, inode.dev, shownName de.name⟩
          else none

theorem headD_probeReadStr (n : Nat) (name : List UInt8) (hn : 2 ≤ n) :
    (probeReadStr n name).headD 0 = 0 ↔ cstr name = [] := by
  rw [probeReadStr]
  cases hname : cstr name with
  | nil => simp
  | cons c cs =>
      obtain ⟨k, rfl⟩ : ∃ k, n = k + 2 := ⟨n - 2, by omega⟩
      have hc : c ≠ 0 := by
        have hmem : c ∈ cstr name := hname ▸ List.mem_cons_self
        simpa using List.mem_takeWhile_imp hmem
      simpa using hc

/-- The name printed does not depend on what the reserved memory held. -/
theorem file_fillEvent (task : Task) (de : Dentry) (op : UInt32) (e : Event) :
    (handleEvent behind (fillEvent task de op [0] e)).file = shownName de.name := by
  rw [handleEvent, fillEvent, shownName]
  cases de.name with
  | none => rw [Option.map_none, Option.getD_none, headD_memcpy _ (by decide) (by simp)]; rfl
  | some name =>
      have hlen : (probeReadStr NAME_LEN name).length ≤ NAME_LEN :=
        length_probeReadStr_le (by decide) name
      have hne : probeReadStr NAME_LEN name ≠ [] := by simp [probeReadStr]
      have hzero : 0 ∈ probeReadStr NAME_LEN name := by simp [probeReadStr]
      simp only [Option.map_some, Option.getD_some, headD_memcpy _ hlen hne,
        headD_probeReadStr NAME_LEN name (by decide), cstr_memcpy _ hlen hzero]
      have hshown := cstr_probeReadStr NAME_LEN name []
      rw [List.append_nil] at hshown
      rw [hshown]

theorem map_trace (behind : List UInt8) (ignorePid : UInt32) (x : Firing) :
    (trace ignorePid x).map (handleEvent behind) = x.line ignorePid := by
  rw [trace, Firing.line]
  cases x.dentry with
  | none => rfl
  | some de =>
      rw [submitEvent]
      cases hinode : de.inode with
      | none => simp [isRegularFile, hinode]
      | some inode =>
          simp only [shouldIgnoreSelf, isRegularFile, hinode]
          by_cases hpid : x.task.pid = ignorePid
          · simp [hpid]
          · by_cases hmode : inode.mode &&& S_IFMT = S_IFREG
            · cases hslot : x.task.slot with
              | none => simp [hpid, hmode]
              | some e =>
                  have hfile := @file_fillEvent behind x.task de x.op e
                  simp [hpid, hmode, handleEvent, fillEvent, hinode] at hfile ⊢
                  exact hfile
            · simp [hpid, hmode]

/-! ## Runs -/

/-- However the reader is scheduled, the lines printed and pending are those of the operations on
regular files by other processes, each once and in order, whether or not printing caused them: what
the tool itself does is never reported. -/
theorem lines_of_operations (ignorePid : UInt32) (behind : List UInt8) (acts : List (Act Firing)) :
    lines (handleEvent behind) (init.run (trace ignorePid) (handleEvent behind) acts) =
      (history (trace ignorePid) (handleEvent behind) init acts).filterMap
        (Firing.line ignorePid) := by
  rw [lines_run, List.map_filterMap]
  simp only [map_trace]
  rfl

/-- Printing makes another process write to some file, and the event of that finds room. -/
def RelayEcho (ignorePid : UInt32) (acts : List (Act Firing)) : Prop :=
  ∀ echo, .read echo ∈ acts → ∃ x ∈ echo,
    x.task.pid ≠ ignorePid ∧ x.dentry.isSome ∧ x.task.slot.isSome

theorem echoes_of_relayEcho {acts : List (Act Firing)} (h : RelayEcho ignorePid acts) :
    Echoes (traceBroad ignorePid) acts := by
  intro echo he
  obtain ⟨x, hx, hpid, hde, hslot⟩ := h echo he
  refine ⟨x, hx, ?_⟩
  obtain ⟨de, hde⟩ := Option.isSome_iff_exists.mp hde
  obtain ⟨e, he⟩ := Option.isSome_iff_exists.mp hslot
  rw [traceBroad, hde, submitEventBroad, he]
  simp [shouldIgnoreSelf, hpid]

/-- The broad tool never comes to rest behind a process that writes its lines on: once an event is
pending, one always is, and every call of the reader prints a line. -/
theorem broad_never_rests {acts : List (Act Firing)} (h : RelayEcho ignorePid acts)
    (behind : List UInt8) {m : Monitor Event Line} (hm : m.queue ≠ []) :
    (m.run (traceBroad ignorePid) (handleEventBroad behind) acts).queue ≠ [] ∧
      (m.run (traceBroad ignorePid) (handleEventBroad behind) acts).printed.length =
        m.printed.length + reads acts :=
  run_of_echoes (echoes_of_relayEcho h) hm

def blankEvent : Event := ⟨0, 0, 0, 0, 0, .zero _⟩

def logFile : Dentry := ⟨some ⟨42, 0o100644, 8⟩, some (ascii "log" ++ [0])⟩

def terminal : Dentry := ⟨some ⟨7, 0o020620, 5⟩, some (ascii "pts0" ++ [0])⟩

def write (pid : UInt64) (de : Dentry) : Firing :=
  .vfsWrite ⟨pid <<< 32, 0, some blankEvent⟩ (some de)

/-- Process 400 writes what the tool, process 200, prints to a terminal, and process 300 to a log. -/
def relayedRun : List (Act Firing) :=
  [.read [write 200 terminal, write 400 terminal], .input (write 300 logFile),
    .read [write 400 terminal], .read [write 400 terminal]]

theorem broad_never_rests_relayedRun :
    let m := (⟨[blankEvent], []⟩ : Monitor Event Line).run (traceBroad 200) (handleEventBroad [])
      relayedRun
    m.queue ≠ [] ∧ m.printed.length = 0 + 3 := by
  have h : RelayEcho 200 relayedRun := by
    intro echo he
    refine ⟨write 400 terminal, ?_, by decide, rfl, rfl⟩
    simp only [relayedRun, List.mem_cons, reduceCtorEq, Act.read.injEq, false_or, List.not_mem_nil,
      or_false] at he
    rcases he with rfl | rfl | rfl <;> simp
  exact broad_never_rests h [] (List.cons_ne_nil _ _)

end EbpfTools.Filewatch

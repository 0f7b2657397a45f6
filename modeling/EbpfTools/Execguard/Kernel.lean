import EbpfTools.Lib.BoundedMap
import EbpfTools.Lib.Buf

/-!
# execguard: the `sched_process_exec` program

`execguard.bpf.c`: every exec is counted in a 60 s window of its (uid, comm) key and reported with
the count.
-/

namespace EbpfTools.Execguard
open EbpfTools.Lib

abbrev TASK_COMM_LEN : Nat := 16
abbrev PATH_LEN : Nat := 128
def WINDOW_NS : UInt64 := 60000000000

structure Event where
  pid : UInt32
  ppid : UInt32
  uid : UInt32
  nsInum : UInt32
  timestampNs : UInt64
  execCount : UInt32
  comm : Buf TASK_COMM_LEN
  parentComm : Buf TASK_COMM_LEN
  binaryPath : Buf PATH_LEN
  cmdline : Buf 256
  cmdlineLen : UInt32
  deriving DecidableEq

structure ExecKey where
  uid : UInt32
  binaryPath : Buf PATH_LEN
  deriving DecidableEq

structure ExecStat where
  windowStartNs : UInt64
  count : UInt32
  deriving DecidableEq

abbrev Stats := BoundedMap ExecKey ExecStat 8192

/-- One firing of the tracepoint: what the helpers return in it. `slot` is the result of
`bpf_ringbuf_reserve`, on success with the bytes the slot held before. -/
structure Exec where
  now : UInt64
  pid : UInt32
  ppid : UInt32
  uid : UInt32
  nsInum : UInt32
  comm : Buf TASK_COMM_LEN
  slot : Option Event

/-- `binary_path`: the `comm` in a zeroed path buffer. -/
def commPath (comm : Buf TASK_COMM_LEN) : Buf PATH_LEN := (Buf.zero PATH_LEN).memcpy 0 comm.bytes

def Exec.key (x : Exec) : ExecKey := ⟨x.uid, commPath x.comm⟩

def fillEvent (x : Exec) (e : Event) : Event :=
  { e with
    timestampNs := x.now
    pid := x.pid
    ppid := x.ppid
    uid := x.uid
    nsInum := x.nsInum
    comm := x.comm
    -- `BPF_CORE_READ_STR_INTO` reads `sizeof(*dst)` bytes of the parent's name, which is one byte for
    -- an array: the NUL
    parentComm := e.parentComm.store (0, 0)
    binaryPath := commPath x.comm
    cmdline := e.cmdline.store (0, 0)
    cmdlineLen := 0 }

/-- The window of an entry that exists: reset when it is more than `WINDOW_NS` old. -/
def bumpStat (st : ExecStat) (now : UInt64) : ExecStat :=
  if now - st.windowStartNs > WINDOW_NS then { windowStartNs := now, count := 1 }
  else { st with count := st.count + 1 }

/-- `handle_exec`: the map afterwards and the events submitted. -/
def handleExec (stats : Stats) (x : Exec) : Stats × List Event :=
  match x.slot with
  | none => (stats, [])
  | some slot =>
      let e := fillEvent x slot
      let key : ExecKey := { uid := x.uid, binaryPath := e.binaryPath }
      match stats.lookup key with
      | none =>
          (stats.update key { windowStartNs := x.now, count := 1 }, [{ e with execCount := 1 }])
      | some st =>
          -- the entry is changed through the pointer, which is an update of an existing key
          let st := bumpStat st x.now
          (stats.update key st, [{ e with execCount := st.count }])

end EbpfTools.Execguard

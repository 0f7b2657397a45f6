import EbpfTools.Lib.Buf

/-!
# procwatch: the scheduler tracepoints

`procwatch.bpf.c`: each exec, fork and exit leaves an event in the ring buffer.
-/

namespace EbpfTools.Procwatch
open EbpfTools.Lib

abbrev TASK_COMM_LEN : Nat := 16
abbrev MAX_FILENAME_LEN : Nat := 256
abbrev MAX_ARGS_LEN : Nat := 256

def EVENT_EXEC : UInt8 := 1
def EVENT_FORK : UInt8 := 2
def EVENT_EXIT : UInt8 := 3

/-- `struct event`, with the bytes that the compiler adds behind `args` to reach 568. -/
structure Event where
  pid : UInt32
  ppid : UInt32
  uid : UInt32
  gid : UInt32
  inum : UInt32
  exitCode : Int32
  timestamp : UInt64
  type : UInt8
  comm : Buf TASK_COMM_LEN
  filename : Buf MAX_FILENAME_LEN
  args : Buf MAX_ARGS_LEN
  padding : Buf 7
  deriving DecidableEq

/-- A process's memory, with `none` at an address that cannot be read. -/
structure Mm where
  argStart : UInt64
  argEnd : UInt64
  user : UInt64 → Option UInt8

/-- What the programs read of a `task_struct`; `realParent` is the `tgid` of `real_parent`. -/
structure Task where
  realParent : UInt32
  nsInum : UInt32
  exitCode : Int32
  mm : Option Mm

-- what the helpers return
structure Current where
  ktime : UInt64
  pidTgid : UInt64
  uidGid : UInt64
  comm : Buf TASK_COMM_LEN
  task : Task

structure ExecCtx where
  dataLocFilename : UInt32
  record : List UInt8

structure ForkCtx where
  parentComm : Buf TASK_COMM_LEN
  parentPid : UInt32
  childPid : UInt32

def getPpid (task : Task) : UInt32 := task.realParent

def getNsInum (task : Task) : UInt32 := task.nsInum

/-- What `bpf_probe_read_str` writes to an array of `n` bytes. -/
def probeReadStr (n : Nat) (src : List UInt8) : List UInt8 := (cstr src).take (n - 1) ++ [0]

/-- What `bpf_probe_read_user` writes: zeros if one of the bytes cannot be read. -/
def probeReadUser (mm : Mm) (len : Nat) (addr : UInt64) : List UInt8 :=
  let bytes := (List.range len).map fun i => mm.user (addr + UInt64.ofNat i)
  if bytes.all Option.isSome then bytes.map (Option.getD · 0) else List.replicate len 0

/-- The bytes that `handle_exec` copies to the start of `args`. -/
def argBytes (mm : Option Mm) : List UInt8 :=
  match mm with
  | none => []
  | some mm =>
      let len : Int := (mm.argEnd - mm.argStart).toInt64.toInt
      let len : Int := if len > MAX_ARGS_LEN then MAX_ARGS_LEN else len
      if len > 0 then probeReadUser mm len.toNat mm.argStart else []

/-! ## The programs

`slot` is the result of `bpf_ringbuf_reserve`, on success with what the slot held before. -/

def handleExec (ctx : ExecCtx) (cur : Current) (slot : Option Event) : Option Event :=
  slot.map fun e =>
    { e with
      type := EVENT_EXEC
      timestamp := cur.ktime
      pid := (cur.pidTgid >>> 32).toUInt32
      ppid := getPpid cur.task
      uid := cur.uidGid.toUInt32
      gid := (cur.uidGid >>> 32).toUInt32
      inum := getNsInum cur.task
      comm := e.comm.memcpy 0 cur.comm.bytes
      filename := e.filename.memcpy 0
        (probeReadStr MAX_FILENAME_LEN (ctx.record.drop (ctx.dataLocFilename &&& 0xFFFF).toNat))
      args := e.args.memcpy 0 (argBytes cur.task.mm) }

def handleFork (ctx : ForkCtx) (cur : Current) (slot : Option Event) : Option Event :=
  slot.map fun e =>
    { e with
      type := EVENT_FORK
      timestamp := cur.ktime
      pid := ctx.childPid
      ppid := ctx.parentPid
      uid := cur.uidGid.toUInt32
      gid := (cur.uidGid >>> 32).toUInt32
      inum := 0
      exitCode := 0
      comm := e.comm.memcpy 0 (probeReadStr TASK_COMM_LEN ctx.parentComm.bytes) }

def handleExit (cur : Current) (slot : Option Event) : Option Event :=
  slot.map fun e =>
    { e with
      type := EVENT_EXIT
      timestamp := cur.ktime
      pid := (cur.pidTgid >>> 32).toUInt32
      ppid := getPpid cur.task
      uid := cur.uidGid.toUInt32
      gid := (cur.uidGid >>> 32).toUInt32
      inum := getNsInum cur.task
      exitCode := (cur.task.exitCode >>> 8) &&& 0xff
      comm := e.comm.memcpy 0 cur.comm.bytes }

end EbpfTools.Procwatch

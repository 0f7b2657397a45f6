import EbpfTools.Procwatch.Kernel

/-!
# filewatch: opens, writes, deletes and renames

`filewatch.bpf.c` of `filewatch` and of `filewatch_broad`: four probes of the same form, on regular
files only in the first tool and on all files in the second.
-/

namespace EbpfTools.Filewatch
open EbpfTools.Lib
open EbpfTools.Procwatch (probeReadStr)

abbrev NAME_LEN : Nat := 64

def OP_OPEN : UInt32 := 1
def OP_WRITE : UInt32 := 2
def OP_DELETE : UInt32 := 3
def OP_RENAME : UInt32 := 4

def S_IFMT : UInt16 := 0o170000
def S_IFREG : UInt16 := 0o100000

structure Event where
  pid : UInt32
  uid : UInt32
  op : UInt32
  inode : UInt64
  dev : UInt32
  filename : Buf NAME_LEN
  deriving DecidableEq

structure Inode where
  ino : UInt64
  mode : UInt16
  dev : UInt32

/-- A directory entry; the name is what its pointer points to. -/
structure Dentry where
  inode : Option Inode
  name : Option (List UInt8)

-- what the helpers return in one firing; `slot` is the memory of the reserved event
structure Task where
  pidTgid : UInt64
  uidGid : UInt64
  slot : Option Event

def Task.pid (task : Task) : UInt32 := (task.pidTgid >>> 32).toUInt32

def Task.uid (task : Task) : UInt32 := (task.uidGid &&& 0xffffffff).toUInt32

def shouldIgnoreSelf (ignorePid : UInt32) (task : Task) : Bool := task.pid = ignorePid

def isRegularFile (de : Dentry) : Bool :=
  match de.inode with
  | none => false
  | some inode => inode.mode &&& S_IFMT = S_IFREG

-- the stores to the reserved event; `unnamed` is what the tool stores without a name
def fillEvent (task : Task) (de : Dentry) (op : UInt32) (unnamed : List UInt8) (e : Event) :
    Event :=
  { pid := task.pid
    uid := task.uid
    op
    inode := (de.inode.map Inode.ino).getD 0
    dev := (de.inode.map Inode.dev).getD 0
    filename := e.filename.memcpy 0 ((de.name.map (probeReadStr NAME_LEN)).getD unnamed) }

def submitEvent (ignorePid : UInt32) (task : Task) (de : Option Dentry) (op : UInt32) :
    Option Event :=
  match de with
  | none => none
  | some de =>
      if shouldIgnoreSelf ignorePid task then none
      else if !isRegularFile de then none
      else task.slot.map (fillEvent task de op [0])

/-- `submit_event` of `filewatch_broad`. -/
def submitEventBroad (ignorePid : UInt32) (task : Task) (de : Option Dentry) (op : UInt32) :
    Option Event :=
  match de with
  | none => none
  | some de =>
      if shouldIgnoreSelf ignorePid task then none
      else task.slot.map (fillEvent task de op (ascii "unknown" ++ [0]))

/-- One firing of a probe. -/
inductive Firing
  | vfsOpen (task : Task) (de : Option Dentry)
  | vfsWrite (task : Task) (de : Option Dentry)
  | vfsUnlink (task : Task) (de : Option Dentry)
  | vfsRename (task : Task) (oldDe : Option Dentry)

def Firing.task : Firing → Task
  | .vfsOpen task _ | .vfsWrite task _ | .vfsUnlink task _ | .vfsRename task _ => task

def Firing.dentry : Firing → Option Dentry
  | .vfsOpen _ de | .vfsWrite _ de | .vfsUnlink _ de | .vfsRename _ de => de

def Firing.op : Firing → UInt32
  | .vfsOpen _ _ => OP_OPEN
  | .vfsWrite _ _ => OP_WRITE
  | .vfsUnlink _ _ => OP_DELETE
  | .vfsRename _ _ => OP_RENAME

/-- `trace_open`, `trace_write`, `trace_unlink` and `trace_rename`. -/
def trace (ignorePid : UInt32) (x : Firing) : Option Event :=
  submitEvent ignorePid x.task x.dentry x.op

def traceBroad (ignorePid : UInt32) (x : Firing) : Option Event :=
  submitEventBroad ignorePid x.task x.dentry x.op

/-! ## The handler -/

def opName (op : UInt32) : String :=
  if op = 1 then "OPEN"
  else if op = 2 then "WRITE"
  else if op = 3 then "DELETE"
  else if op = 4 then "RENAME"
  else "UNKNOWN"

-- the values in a line
structure Line where
  op : String
  pid : UInt32
  uid : UInt32
  inode : UInt64
  dev : UInt32
  file : List UInt8
  deriving DecidableEq

/-- `handle_event`; `behind` is what follows the name in memory. -/
def handleEvent (behind : List UInt8) (e : Event) : Line where
  op := opName e.op
  pid := e.pid
  uid := e.uid
  inode := e.inode
  dev := e.dev
  file := if e.filename.bytes.headD 0 = 0 then ascii "-" else cstr (e.filename.bytes ++ behind)

/-- `handle_event` of `filewatch_broad`. -/
def handleEventBroad (behind : List UInt8) (e : Event) : Line :=
  { handleEvent behind e with file := cstr (e.filename.bytes ++ behind) }

end EbpfTools.Filewatch

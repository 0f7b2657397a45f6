import EbpfTools.Lib.Buf

/-!
# privwatch: the `commit_creds` probe

`privwatch.bpf.c`: a task gets new credentials.
-/

namespace EbpfTools.Privwatch
open EbpfTools.Lib

abbrev TASK_COMM_LEN : Nat := 16

structure Event where
  pid : UInt32
  ppid : UInt32
  timestamp : UInt64
  oldUid : UInt32
  newUid : UInt32
  oldGid : UInt32
  newGid : UInt32
  oldCapsEff : UInt64
  newCapsEff : UInt64
  nsInum : UInt32
  comm : Buf TASK_COMM_LEN
  deriving DecidableEq

-- `struct cap_words`
structure CapWords where
  val0 : UInt32
  val1 : UInt32

/-- The credentials of a task, with the ids that the program does not read. -/
structure Cred where
  uid : UInt32
  gid : UInt32
  euid : UInt32
  egid : UInt32
  capEffective : CapWords

/-- What the program reads of the current task and what the helpers return. -/
structure Current where
  ktime : UInt64
  pidTgid : UInt64
  comm : Buf TASK_COMM_LEN
  cred : Cred
  realParent : UInt32
  nsInum : UInt32

def readCaps (cred : Cred) : UInt64 :=
  cred.capEffective.val1.toUInt64 <<< 32 ||| cred.capEffective.val0.toUInt64

/-- `trace_commit_creds`; `slot` is the result of `bpf_ringbuf_reserve`. -/
def traceCommitCreds (cur : Current) (newCred : Cred) (slot : Option Event) : Option Event :=
  let oldCaps := readCaps cur.cred
  let newCaps := readCaps newCred
  if cur.cred.uid = newCred.uid ∧ cur.cred.gid = newCred.gid ∧ oldCaps = newCaps then none
  else
    slot.map fun e =>
      { e with
        timestamp := cur.ktime
        pid := (cur.pidTgid >>> 32).toUInt32
        ppid := cur.realParent
        oldUid := cur.cred.uid
        newUid := newCred.uid
        oldGid := cur.cred.gid
        newGid := newCred.gid
        oldCapsEff := oldCaps
        newCapsEff := newCaps
        nsInum := cur.nsInum
        comm := e.comm.memcpy 0 cur.comm.bytes }

end EbpfTools.Privwatch

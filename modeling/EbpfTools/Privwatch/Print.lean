import EbpfTools.Privwatch.Kernel

/-!
# privwatch: the lines printed

`privwatch.c`.
-/

namespace EbpfTools.Privwatch
open EbpfTools.Lib

inductive Severity
  | info
  | warn
  | alert
  deriving DecidableEq

-- the bits and labels that `print_caps` looks at, in its order
def capLabels : List (UInt64 × String) :=
  [(0, "CAP_CHOWN"), (1, "CAP_DAC_OVERRIDE"), (3, "CAP_FOWNER"), (6, "CAP_SETUID"),
    (7, "CAP_SETGID"), (21, "CAP_SYS_ADMIN"), (27, "CAP_SYS_PTRACE")]

/-- `print_caps`: the two masks and the labels, or nothing. -/
def printCaps (oldC newC : UInt64) : Option (UInt64 × UInt64 × List String) :=
  if oldC = newC then none
  else
    let gained := newC &&& ~~~oldC
    some (oldC, newC, (capLabels.filter fun l => gained &&& ((1 : UInt64) <<< l.1) ≠ 0).map Prod.snd)

-- the values in a line; `sec` is printed as a local time
structure Line where
  sec : UInt64
  severity : Severity
  pid : UInt32
  ppid : UInt32
  comm : List UInt8
  nsInum : UInt32
  uid : Option (UInt32 × UInt32)
  gid : Option (UInt32 × UInt32)
  caps : Option (UInt64 × UInt64 × List String)
  deriving DecidableEq

def severityOf (e : Event) : Severity :=
  let severity : Severity := if e.newUid = 0 ∧ e.oldUid ≠ 0 then .warn else .info
  if e.newUid = 0 ∧ e.oldUid > 10000 then .alert else severity

/-- `handle_event`; `behind` is what follows the record in memory. -/
def handleEvent (e : Event) (behind : List UInt8) : Line where
  sec := e.timestamp / 1000000000
  severity := severityOf e
  pid := e.pid
  ppid := e.ppid
  comm := cstr (e.comm.bytes ++ behind)
  nsInum := e.nsInum
  uid := if e.oldUid ≠ e.newUid then some (e.oldUid, e.newUid) else none
  gid := if e.oldGid ≠ e.newGid then some (e.oldGid, e.newGid) else none
  caps := printCaps e.oldCapsEff e.newCapsEff

end EbpfTools.Privwatch

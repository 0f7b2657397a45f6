import Mathlib.Data.List.DropRight
import EbpfTools.Execguard.Kernel

/-!
# execguard: the lines printed

`basename_of`, `is_shellish`, `normalize_cmdline`, `severity_for` and `handle_event` of
`execguard.c`.
-/

namespace EbpfTools.Execguard
open EbpfTools.Lib

/-! ## The severity of an event -/

/-- The texts `"INFO"`, `"WARN"` and `"ALERT"`. -/
inductive Severity
  | info
  | warn
  | alert
  deriving DecidableEq

/-- `basename_of`: the part after the last slash. -/
def basenameOf (path : List UInt8) : List UInt8 :=
  go path path
where
  go : List UInt8 → List UInt8 → List UInt8
    | [], base => base
    | c :: rest, base => go rest (if c = 47 then rest else base)

/-- The table `bad` of `is_shellish`. -/
def bad : List (List UInt8) :=
  ["sh", "bash", "dash", "zsh", "su", "toybox", "busybox", "nc", "netcat", "ncat", "curl", "wget",
    "python", "python3", "perl", "php", "node"].map ascii

def isShellish (name : List UInt8) : Bool := bad.contains name

/-- The name `severity_for` judges: the base name of the path, or of `comm` when that is empty. -/
def judgedName (e : Event) : List UInt8 :=
  let base := basenameOf e.binaryPath.str
  if base = [] then basenameOf e.comm.str else base

def severityFor (e : Event) : Severity :=
  let base := judgedName e
  if isShellish base then
    if base = ascii "su" ∧ e.uid ≠ 0 then .alert
    else if (base = ascii "sh" ∨ base = ascii "bash" ∨ base = ascii "toybox" ∨
        base = ascii "busybox") ∧ e.uid ≠ 0 then .alert
    else .warn
  else if e.execCount ≥ 20 then .alert
  else if e.execCount ≥ 12 then .warn
  else .info

/-! ## The command line -/

abbrev CMDLINE_LEN : Nat := 256

def iscntrl (c : UInt8) : Bool := c < 32 ∨ c = 127

/-- What is stored for a byte of the command line. -/
def normalizeByte (c : UInt8) : UInt8 :=
  let c := if c = 0 then 32 else c
  if iscntrl c ∧ c ≠ 32 then 32 else c

/-- The bytes that the first loop of `normalize_cmdline` stores from index `j` on. -/
def normalizeLoop (dstSz : Nat) : List UInt8 → (j : Nat) → List UInt8
  | [], _ => []
  | c :: src, j =>
      if j + 1 < dstSz then normalizeByte c :: normalizeLoop dstSz src (j + 1) else []

/-- The second loop: `j` without the blanks before it. -/
def trimLoop (dst : List UInt8) : (j : Nat) → Nat
  | 0 => 0
  | j + 1 => if dst.getD j 0 = 32 then trimLoop dst j else j + 1

def normalizeCmdline {n : Nat} (dst : Buf n) (src : List UInt8) (srcLen : UInt32) : Buf n :=
  if n = 0 then dst
  else
    let dst := dst.store (0, 0)
    if srcLen = 0 then dst
    else
      let out := normalizeLoop n (src.take srcLen.toNat) 0
      let dst := dst.stores (storesAt 0 out)
      dst.store (trimLoop dst.bytes out.length, 0)

-- the values in the lines of one event; `sec` is printed as a local time
structure Lines where
  sec : UInt64
  severity : Severity
  pid : UInt32
  ppid : UInt32
  uid : UInt32
  count : UInt32
  nsInum : UInt32
  comm : List UInt8
  parent : List UInt8
  bin : List UInt8
  cmd : List UInt8
  deriving DecidableEq

/-- `handle_event`; `cmdline` is the local array before, `behind` what follows the command line of
the record in memory. -/
def handleEvent (cmdline : Buf CMDLINE_LEN) (behind : List UInt8) (e : Event) : Lines :=
  let cmdline := normalizeCmdline cmdline (e.cmdline.bytes ++ behind) e.cmdlineLen
  let binaryPath := e.binaryPath.bytes ++ (e.cmdline.bytes ++ behind)
  let parentComm := e.parentComm.bytes ++ binaryPath
  { sec := e.timestampNs / 1000000000
    severity := severityFor e
    pid := e.pid
    ppid := e.ppid
    uid := e.uid
    count := e.execCount
    nsInum := e.nsInum
    comm := cstr (e.comm.bytes ++ parentComm)
    parent := cstr parentComm
    bin := if e.binaryPath.bytes.headD 0 ≠ 0 then cstr binaryPath else ascii "(unknown)"
    cmd := if cmdline.bytes.headD 0 ≠ 0 then cmdline.str else ascii "(empty)" }

end EbpfTools.Execguard

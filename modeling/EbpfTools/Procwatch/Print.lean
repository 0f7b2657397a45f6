import EbpfTools.Procwatch.Kernel

/-!
# procwatch: the lines printed

`procwatch.c`.
-/

namespace EbpfTools.Procwatch
open EbpfTools.Lib

def eventStr (t : UInt8) : String :=
  if t = EVENT_EXEC then "EXEC"
  else if t = EVENT_FORK then "FORK"
  else if t = EVENT_EXIT then "EXIT"
  else "????"

/-- The loop of `sanitize_args` at `i` with `left` iterations to go. -/
def sanitizeLoop {n : Nat} : (left i : Nat) → Buf n → Buf n
  | 0, _, args => args
  | left + 1, i, args =>
      if args.bytes.getD i 0 = 0 ∧ args.bytes.getD (i + 1) 0 ≠ 0 then
        sanitizeLoop left (i + 1) (args.store (i, 32))
      else sanitizeLoop left (i + 1) args

def sanitizeArgs {n : Nat} (args : Buf n) (len : Nat) : Buf n := sanitizeLoop (len - 1) 0 args

/-- The stores of the loop of `sanitize_args`, the only ones of `handle_event` into a record. -/
def sanitizeStores {n : Nat} : (left i : Nat) → Buf n → Stores
  | 0, _, _ => []
  | left + 1, i, args =>
      if args.bytes.getD i 0 = 0 ∧ args.bytes.getD (i + 1) 0 ≠ 0 then
        (i, 32) :: sanitizeStores left (i + 1) (args.store (i, 32))
      else sanitizeStores left (i + 1) args

-- what every line starts with; `sec` is printed as a local time
structure Head where
  sec : UInt64
  type : String
  pid : UInt32
  ppid : UInt32
  uid : UInt32
  gid : UInt32
  inum : UInt32
  deriving DecidableEq

-- the lines, with the values in them
inductive Line
  | exec (head : Head) (bin args : List UInt8)
  | fork (head : Head) (parentComm : List UInt8)
  | exit (head : Head) (comm : List UInt8) (exitCode : Int32)
  | other (head : Head)
  deriving DecidableEq

def lineHead (e : Event) : Head :=
  ⟨e.timestamp / 1000000000, eventStr e.type, e.pid, e.ppid, e.uid, e.gid, e.inum⟩

/-- `handle_event`: the record it leaves and the line it prints. A string that is not ended in its
field goes on in memory: with the fields that follow, the padding and the bytes `behind` the
record. -/
def handleEvent (e : Event) (behind : List UInt8) : Event × Line :=
  let e := { e with args := sanitizeArgs e.args MAX_ARGS_LEN }
  let fromArgs := e.args.bytes ++ e.padding.bytes ++ behind
  let fromFilename := e.filename.bytes ++ fromArgs
  let fromComm := e.comm.bytes ++ fromFilename
  (e,
    if e.type = EVENT_EXEC then .exec (lineHead e) (cstr fromFilename) (cstr fromArgs)
    else if e.type = EVENT_FORK then .fork (lineHead e) (cstr fromComm)
    else if e.type = EVENT_EXIT then .exit (lineHead e) (cstr fromComm) e.exitCode
    else .other (lineHead e))

/-- The stores of `handle_event` into the record, by their index in `args`. -/
def handleEventStores (e : Event) : Stores := sanitizeStores (MAX_ARGS_LEN - 1) 0 e.args

end EbpfTools.Procwatch

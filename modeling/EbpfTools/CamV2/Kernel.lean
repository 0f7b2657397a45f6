import EbpfTools.Lib.BoundedMap
import EbpfTools.Lib.Buf

/-!
# cam_v2: the binder and camera tracepoints

`cam_identity.bpf.c` of `cam_v2`: binder transactions to cameraserver are remembered, and a
`cam_context_state` firing is attributed to the last remembered caller.
-/

namespace EbpfTools.CamV2
open EbpfTools.Lib

abbrev TASK_COMM_LEN : Nat := 16

def EVENT_BINDER_CALL : UInt32 := 20
def EVENT_APP_SESSION : UInt32 := 21
def EVENT_FRAME_BUFFER_QBUF : UInt32 := 30
def EVENT_FRAME_BUFFER_DQBUF : UInt32 := 31
def EVENT_FRAME_DONE : UInt32 := 32
def EVENT_CAPTURE_REQUEST : UInt32 := 33
def EVENT_DELEGATION_EDGE : UInt32 := 34

def CAMSERVER_MATCH_WINDOW_NS : UInt64 := 2000000000
def BINDER_DEDUP_WINDOW_NS : UInt64 := 500000000

structure CamEvent where
  timestamp : UInt64
  pid : UInt32
  tgid : UInt32
  uid : UInt32
  comm : Buf TASK_COMM_LEN
  eventType : UInt32
  cameraId : UInt32
  bufferId : UInt32
  extra1 : UInt64
  extra2 : UInt64
  -- the C string; the 32-byte copy of a shorter literal reads past its end
  entity : List UInt8
  deriving DecidableEq

-- the maps `config_map`, `recent_caller`, `last_caller` and `last_caller_ns`
structure Maps where
  camserverPid : UInt32
  recentCaller : BoundedMap UInt32 UInt64 1024
  lastCaller : UInt32
  lastCallerNs : UInt64

def Maps.init (camserverPid : UInt32) : Maps := ⟨camserverPid, .empty, 0, 0⟩

-- what the `bpf_get_current_*` helpers return
structure Task where
  pid : UInt32
  uid : UInt32
  comm : Buf TASK_COMM_LEN

-- one ring-buffer reservation and the clock reading stored in the event
structure Slot where
  reserved : Bool
  ktime : UInt64

structure BinderTransactionArgs where
  reply : Int32
  toProc : Int32
  code : UInt32

/-- `emit_event` -/
def emitEvent (task : Task) (slot : Slot) (eventType pid uid cameraId bufferId : UInt32)
    (extra1 extra2 : UInt64) (entity : String) : List CamEvent :=
  if slot.reserved then
    [{ timestamp := slot.ktime, pid, tgid := pid, uid, comm := task.comm, eventType, cameraId,
       bufferId, extra1, extra2, entity := ascii entity }]
  else []

def rememberCaller (m : Maps) (callerPid : UInt32) (now : UInt64) : Maps :=
  { m with
    recentCaller := m.recentCaller.update callerPid now
    lastCaller := callerPid
    lastCallerNs := now }

/-- `get_last_caller`: the pid and the age. -/
def getLastCaller (m : Maps) (now : UInt64) : UInt32 × UInt64 :=
  let age := now - m.lastCallerNs
  if age > CAMSERVER_MATCH_WINDOW_NS then (0, age) else (m.lastCaller, age)

def traceBinderTransaction (m : Maps) (task : Task) (args : BinderTransactionArgs) (now : UInt64)
    (edge call : Slot) : Maps × List CamEvent :=
  if args.reply ≠ 0 then (m, [])
  else if m.camserverPid = 0 then (m, [])
  else if args.toProc.toUInt32 ≠ m.camserverPid then (m, [])
  else if task.pid = 0 then (m, [])
  else if task.uid < 10000 then (m, [])
  else if (m.recentCaller.lookup task.pid).any (fun t => now - t < BINDER_DEDUP_WINDOW_NS) then
    (m, [])
  else
    (rememberCaller m task.pid now,
      emitEvent task edge EVENT_DELEGATION_EDGE task.pid task.uid 0 0 m.camserverPid.toUInt64
          args.code.toUInt64 "binder->cameraserver" ++
        emitEvent task call EVENT_BINDER_CALL task.pid task.uid 0 0 m.camserverPid.toUInt64
          args.code.toUInt64 "cameraserver")

/-- The pid `trace_cam_context_state` reports: the last caller while fresh, else the current pid. -/
def inferredPid (m : Maps) (pid : UInt32) (now : UInt64) : UInt32 :=
  let inferred := (getLastCaller m now).1
  if inferred = 0 then pid else inferred

def traceCamContextState (m : Maps) (task : Task) (now : UInt64) (slot : Slot) :
    Maps × List CamEvent :=
  (m, emitEvent task slot EVENT_APP_SESSION (inferredPid m task.pid now) task.uid 0 0 0
    (getLastCaller m now).2 "cam_context_state")

/-- The tracepoints that only report the current task. -/
def traceFrame (eventType : UInt32) (entity : String) (m : Maps) (task : Task) (slot : Slot) :
    Maps × List CamEvent :=
  (m, emitEvent task slot eventType task.pid task.uid 0 0 0 0 entity)

def traceCamApplyReq := traceFrame EVENT_CAPTURE_REQUEST "cam_apply_req"
def traceCamBufDone := traceFrame EVENT_FRAME_DONE "cam_buf_done"
def traceV4l2Qbuf := traceFrame EVENT_FRAME_BUFFER_QBUF "v4l2_qbuf"
def traceV4l2Dqbuf := traceFrame EVENT_FRAME_BUFFER_DQBUF "v4l2_dqbuf"

/-- One firing of a tracepoint with what the helpers return in it. -/
inductive Firing
  | binderTransaction (task : Task) (args : BinderTransactionArgs) (now : UInt64)
      (edge call : Slot)
  | camContextState (task : Task) (now : UInt64) (slot : Slot)
  | camApplyReq (task : Task) (slot : Slot)
  | camBufDone (task : Task) (slot : Slot)
  | v4l2Qbuf (task : Task) (slot : Slot)
  | v4l2Dqbuf (task : Task) (slot : Slot)

def step (m : Maps) : Firing → Maps × List CamEvent
  | .binderTransaction task args now edge call => traceBinderTransaction m task args now edge call
  | .camContextState task now slot => traceCamContextState m task now slot
  | .camApplyReq task slot => traceCamApplyReq m task slot
  | .camBufDone task slot => traceCamBufDone m task slot
  | .v4l2Qbuf task slot => traceV4l2Qbuf m task slot
  | .v4l2Dqbuf task slot => traceV4l2Dqbuf m task slot

end EbpfTools.CamV2

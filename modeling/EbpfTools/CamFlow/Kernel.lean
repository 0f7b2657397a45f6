import EbpfTools.Lib.BoundedMap
import EbpfTools.Lib.Buf

/-!
# cam_flow: sessions and requests

`cam_flow.bpf.c`: `req_submit_ts` holds the time a request was applied until its buffer is done,
`session_map` the open camera contexts.
-/

namespace EbpfTools.CamFlow
open EbpfTools.Lib

abbrev TASK_COMM_LEN : Nat := 16
abbrev ENTITY_LEN : Nat := 16

def EVENT_CAMERA_OPEN : UInt32 := 1
def EVENT_CAMERA_CLOSE : UInt32 := 2
def EVENT_BUFFER_FILLED : UInt32 := 10
def EVENT_FLUSH : UInt32 := 16

structure CamEvent where
  timestamp : UInt64
  pid : UInt32
  tgid : UInt32
  uid : UInt32
  comm : Buf TASK_COMM_LEN
  eventType : UInt32
  cameraId : UInt32
  bufferId : UInt32
  extra1 : UInt64
  extra2 : UInt64
  entity : Buf ENTITY_LEN
  deriving DecidableEq

structure SessionInfo where
  startTime : UInt64
  lastReqId : UInt64
  frameCount : UInt32
  dropCount : UInt32
  lastSubmitTs : UInt64
  lastDoneTs : UInt64
  deriving DecidableEq

structure Maps where
  sessionMap : BoundedMap UInt32 SessionInfo 64
  reqSubmitTs : BoundedMap UInt64 UInt64 256

def Maps.init : Maps := ⟨.empty, .empty⟩

-- what the `bpf_get_current_*` helpers return, and whether the ring buffer has room
structure Task where
  pid : UInt32
  tid : UInt32
  uid : UInt32
  comm : Buf TASK_COMM_LEN
  reserved : Bool

structure CamContextStateArgs where
  ctx : UInt64
  state : UInt32

structure CamReqMgrApplyArgs where
  reqId : UInt64
  linkHdl : Int32

structure CamBufDoneArgs where
  linkHdl : Int32
  request : UInt64

/-- The event each handler reserves, fills and submits. -/
def submit (task : Task) (timestamp : UInt64) (eventType cameraId : UInt32)
    (extra1 extra2 : UInt64) : List CamEvent :=
  if task.reserved then
    [{ timestamp, pid := task.pid, tgid := task.tid, uid := task.uid, comm := task.comm,
       eventType, cameraId, bufferId := 0, extra1, extra2, entity := .zero _ }]
  else []

/-- The low 16 bits of the context pointer. -/
def sessionKey (ctx : UInt64) : UInt32 := ctx.toUInt32 &&& 0xFFFF

def flowCamContextState (m : Maps) (task : Task) (args : CamContextStateArgs) (now : UInt64) :
    Maps × List CamEvent :=
  let key := sessionKey args.ctx
  let m' : Maps :=
    if args.state ≠ 0 then
      { m with sessionMap := m.sessionMap.update key ⟨now, 0, 0, 0, 0, 0⟩ }
    else { m with sessionMap := m.sessionMap.delete key }
  (m', submit task now (if args.state = 0 then EVENT_CAMERA_CLOSE else EVENT_CAMERA_OPEN) key
    args.state.toUInt64 0)

def flowCamReqMgrApply (m : Maps) (args : CamReqMgrApplyArgs) (now : UInt64) :
    Maps × List CamEvent :=
  ({ m with reqSubmitTs := m.reqSubmitTs.update args.reqId now }, [])

def flowCamBufDone (m : Maps) (task : Task) (args : CamBufDoneArgs) (now : UInt64) :
    Maps × List CamEvent :=
  match m.reqSubmitTs.lookup args.request with
  | some submitTs =>
      ({ m with reqSubmitTs := m.reqSubmitTs.delete args.request },
        submit task now EVENT_BUFFER_FILLED 0 args.request (now - submitTs))
  | none => (m, submit task now EVENT_BUFFER_FILLED 0 args.request 0)

def flowCamNotifyFrameSkip (m : Maps) (task : Task) (now : UInt64) : Maps × List CamEvent :=
  (m, submit task now EVENT_FLUSH 0 0 0)

/-- One firing of a tracepoint with what the helpers return in it. -/
inductive Firing
  | camContextState (task : Task) (args : CamContextStateArgs) (now : UInt64)
  | camReqMgrApply (args : CamReqMgrApplyArgs) (now : UInt64)
  | camBufDone (task : Task) (args : CamBufDoneArgs) (now : UInt64)
  | camNotifyFrameSkip (task : Task) (now : UInt64)

def step (m : Maps) : Firing → Maps × List CamEvent
  | .camContextState task args now => flowCamContextState m task args now
  | .camReqMgrApply args now => flowCamReqMgrApply m args now
  | .camBufDone task args now => flowCamBufDone m task args now
  | .camNotifyFrameSkip task now => flowCamNotifyFrameSkip m task now

end EbpfTools.CamFlow

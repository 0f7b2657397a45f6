import EbpfTools.Lib.BoundedMap
import EbpfTools.Lib.Buf

/-!
# cam_data_tracking: opens of camera processes

`cam_ident.bpf.c` of `cam_data_tracking`: `pid_to_camera` collects the processes that were seen in
`binder_transaction` with the name of a camera process, and the opens of these are reported.
-/

namespace EbpfTools.CamTracking
open EbpfTools.Lib

abbrev TASK_COMM_LEN : Nat := 16

def EVENT_CAMERA_OPEN : UInt32 := 1
def EVENT_CAMERA_BINDER_REQ : UInt32 := 3

structure CamEvent where
  timestamp : UInt64
  pid : UInt32
  tgid : UInt32
  uid : UInt32
  comm : Buf TASK_COMM_LEN
  eventType : UInt32
  cameraId : UInt32
  bufferId : UInt32
  extra1 : UInt64
  extra2 : UInt64
  deriving DecidableEq

structure Maps where
  pidToCamera : BoundedMap UInt32 UInt32 256

def Maps.init : Maps := ⟨.empty⟩

-- what the helpers return in one firing, and whether the ring buffer has room
structure Task where
  pid : UInt32
  tid : UInt32
  uid : UInt32
  comm : Buf TASK_COMM_LEN
  now : UInt64
  reserved : Bool

def commIsCameraserver (comm : Buf TASK_COMM_LEN) : Bool :=
  comm.bytes.take 12 = ascii "cameraserver"

def commIsCameraApp (comm : Buf TASK_COMM_LEN) : Bool := comm.bytes.take 11 = ascii "com.android"

-- the stores to the reserved event, the same in both programs but for the type
def camEvent (task : Task) (eventType : UInt32) : CamEvent :=
  { timestamp := task.now, pid := task.pid, tgid := task.tid, uid := task.uid, comm := task.comm,
    eventType, cameraId := 0, bufferId := 0, extra1 := 0, extra2 := 0 }

def traceBinderTransaction (m : Maps) (task : Task) : Maps × List CamEvent :=
  if !commIsCameraserver task.comm && !commIsCameraApp task.comm then (m, [])
  else if !task.reserved then (m, [])
  else (⟨m.pidToCamera.update task.pid 0⟩, [camEvent task EVENT_CAMERA_BINDER_REQ])

def traceOpenat (m : Maps) (task : Task) : Maps × List CamEvent :=
  if m.pidToCamera.lookup task.pid = none then (m, [])
  else if !task.reserved then (m, [])
  else (m, [camEvent task EVENT_CAMERA_OPEN])

/-- One firing of a kprobe. -/
inductive Firing
  | binderTransaction (task : Task)
  | openat (task : Task)

def step (m : Maps) : Firing → Maps × List CamEvent
  | .binderTransaction task => traceBinderTransaction m task
  | .openat task => traceOpenat m task

end EbpfTools.CamTracking

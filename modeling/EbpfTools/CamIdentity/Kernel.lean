import EbpfTools.CamFlow.Kernel
import EbpfTools.CamV2.Kernel

/-!
# cam_identity: the app behind a camera session

`cam_identity.bpf.c` of `cam_ident`, the tool that the one of `cam_v2` replaces. The binder
tracepoint is the same, and the events are those of `camtrace.h` of `cam_ident`.
-/

namespace EbpfTools.CamIdentity
open EbpfTools.Lib
open EbpfTools.CamFlow (CamEvent CamContextStateArgs sessionKey)
open EbpfTools.CamV2 (Task Slot BinderTransactionArgs)

def EVENT_BINDER_CALL : UInt32 := 20
def EVENT_APP_SESSION : UInt32 := 21

-- the maps `config_map`, `recent_caller` and `seen_callers`
structure Maps where
  camserverPid : UInt32
  recentCaller : BoundedMap UInt32 UInt32 16
  seenCallers : BoundedMap UInt32 UInt64 256

def Maps.init (camserverPid : UInt32) : Maps := ⟨camserverPid, .empty, .empty⟩

def traceBinderTransaction (m : Maps) (task : Task) (args : BinderTransactionArgs) (now : UInt64)
    (slot : Slot) : Maps × List CamEvent :=
  if args.reply ≠ 0 then (m, [])
  else if m.camserverPid = 0 then (m, [])
  else if args.toProc.toUInt32 ≠ m.camserverPid then (m, [])
  else if task.pid = 0 then (m, [])
  else if task.uid < 10000 then (m, [])
  else if (m.seenCallers.lookup task.pid).any (fun t => now - t < 500000000) then (m, [])
  else
    ({ m with
        seenCallers := m.seenCallers.update task.pid now
        recentCaller := m.recentCaller.update 0 task.pid },
      if slot.reserved then
        [{ timestamp := now, pid := task.pid, tgid := task.pid, uid := task.uid, comm := task.comm,
           eventType := EVENT_BINDER_CALL, cameraId := 0, bufferId := 0,
           extra1 := args.toProc.toUInt32.toUInt64, extra2 := args.code.toUInt64, entity := .zero _ }]
      else [])

-- `app_pid ? *app_pid : 0`
def appPid (m : Maps) : UInt32 := (m.recentCaller.lookup 0).getD 0

def traceCamContextState (m : Maps) (task : Task) (args : CamContextStateArgs) (slot : Slot) :
    Maps × List CamEvent :=
  if args.state = 0 then (m, [])
  else
    (m,
      if slot.reserved then
        [{ timestamp := slot.ktime, pid := appPid m, tgid := appPid m, uid := task.uid,
           comm := task.comm, eventType := EVENT_APP_SESSION, cameraId := sessionKey args.ctx,
           bufferId := 0, extra1 := args.state.toUInt64, extra2 := (appPid m).toUInt64,
           entity := .zero _ }]
      else [])

/-- One firing of a tracepoint with what the helpers return in it. -/
inductive Firing
  | binderTransaction (task : Task) (args : BinderTransactionArgs) (now : UInt64) (slot : Slot)
  | camContextState (task : Task) (args : CamContextStateArgs) (slot : Slot)

def step (m : Maps) : Firing → Maps × List CamEvent
  | .binderTransaction task args now slot => traceBinderTransaction m task args now slot
  | .camContextState task args slot => traceCamContextState m task args slot

end EbpfTools.CamIdentity

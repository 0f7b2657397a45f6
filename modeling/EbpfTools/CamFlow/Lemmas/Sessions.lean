import EbpfTools.Lib.Run
import EbpfTools.CamFlow.Kernel

/-!
# The session table

What each firing does to the entry of one session id.
-/

namespace EbpfTools.CamFlow
open EbpfTools.Lib

-- the session that a firing opens, changes or closes
def Firing.sessionId : Firing → Option UInt32
  | .camContextState _ args _ => some (sessionKey args.ctx)
  | _ => none

/-- The entry that a context event at `now` leaves: a new one for a non-zero state, if there is room
for it. -/
def sessionAfter (m : Maps) (args : CamContextStateArgs) (now : UInt64) : Option SessionInfo :=
  if args.state ≠ 0 ∧ m.sessionMap.Room (sessionKey args.ctx) then some ⟨now, 0, 0, 0, 0, 0⟩
  else none

theorem sessionMap_of_no_session {m : Maps} {x : Firing} (h : x.sessionId = none) :
    (step m x).1.sessionMap = m.sessionMap := by
  cases x with
  | camContextState task args now => cases h
  | camBufDone task args now =>
      simp only [step, flowCamBufDone]
      split <;> rfl
  | camReqMgrApply args now => rfl
  | camNotifyFrameSkip task now => rfl

theorem lookup_camContextState (m : Maps) (task : Task) (args : CamContextStateArgs)
    (now : UInt64) :
    (step m (.camContextState task args now)).1.sessionMap.lookup (sessionKey args.ctx) =
      sessionAfter m args now := by
  simp only [step, flowCamContextState, sessionAfter]
  by_cases hs : args.state = 0
  · rw [if_neg (not_not_intro hs), if_neg fun h => h.1 hs]
    exact BoundedMap.lookup_delete_self _ _
  · rw [if_pos hs]
    by_cases hr : m.sessionMap.Room (sessionKey args.ctx)
    · rw [if_pos ⟨hs, hr⟩]
      exact BoundedMap.lookup_update_self _ hr
    · rw [if_neg fun h => hr h.2, BoundedMap.update_of_not_room _ hr]
      exact BoundedMap.lookup_eq_none.mpr fun hm => hr (Or.inl hm)

/-- A firing changes the entry of its own session only. -/
theorem lookup_session_of_ne {m : Maps} {x : Firing} {id : UInt32} (h : x.sessionId ≠ some id) :
    (step m x).1.sessionMap.lookup id = m.sessionMap.lookup id := by
  cases x with
  | camContextState task args now =>
      have hid : id ≠ sessionKey args.ctx := fun he => h (by rw [he]; rfl)
      simp only [step, flowCamContextState]
      split
      · exact BoundedMap.lookup_update_ne _ _ hid
      · exact BoundedMap.lookup_delete_ne _ hid
  | _ => rw [sessionMap_of_no_session rfl]

theorem lookup_session_runState_of_ne {m : Maps} {xs : List Firing} {id : UInt32}
    (h : ∀ x ∈ xs, x.sessionId ≠ some id) :
    (runState step m xs).sessionMap.lookup id = m.sessionMap.lookup id := by
  induction xs generalizing m with
  | nil => rfl
  | cons x xs ih =>
      rw [runState_cons, ih fun y hy => h y (List.mem_cons_of_mem x hy)]
      exact lookup_session_of_ne (h x List.mem_cons_self)

end EbpfTools.CamFlow

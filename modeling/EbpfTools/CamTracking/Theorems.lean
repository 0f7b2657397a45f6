import EbpfTools.CamTracking.Kernel
import EbpfTools.Lib.Admission

/-!
# cam_data_tracking: which opens are reported
-/

namespace EbpfTools.CamTracking
open EbpfTools.Lib

/-! ## Camera processes -/

/-- The pid that a firing adds to the camera processes, if any: its name is that of a camera process
and its event finds room. -/
def Firing.cameraPid : Firing → Option UInt32
  | .binderTransaction task =>
      if (commIsCameraserver task.comm ∨ commIsCameraApp task.comm) ∧ task.reserved then
        some task.pid
      else none
  | .openat _ => none

def cameraPids (xs : List Firing) : List UInt32 := xs.filterMap Firing.cameraPid

/-- What a firing does to the maps and what it reports. -/
theorem traceBinderTransaction_eq (m : Maps) (task : Task) :
    traceBinderTransaction m task =
      match (Firing.binderTransaction task).cameraPid with
      | some pid => (⟨m.pidToCamera.update pid 0⟩, [camEvent task EVENT_CAMERA_BINDER_REQ])
      | none => (m, []) := by
  rw [traceBinderTransaction, Firing.cameraPid]
  cases commIsCameraserver task.comm <;> cases commIsCameraApp task.comm <;>
    cases task.reserved <;> rfl

theorem firstCome_update {ks : List UInt32} {m : BoundedMap UInt32 UInt32 256}
    (h : FirstCome ks m) (pid : UInt32) : FirstCome (ks ++ [pid]) (m.update pid 0) :=
  h.step (BoundedMap.tracks_track id (fun _ _ => 0) m pid)

/-- The map holds the first 256 camera processes. -/
theorem firstCome_pidToCamera (xs : List Firing) :
    FirstCome (cameraPids xs) (runState step Maps.init xs).pidToCamera := by
  induction xs using List.reverseRecOn with
  | nil => exact firstCome_empty
  | append_singleton xs x ih =>
      rw [runState_concat, cameraPids, List.filterMap_append, ← cameraPids]
      cases x with
      | binderTransaction task =>
          rw [step, traceBinderTransaction_eq]
          cases hpid : (Firing.binderTransaction task).cameraPid with
          | none => simpa [hpid] using ih
          | some pid => simpa [hpid] using firstCome_update ih pid
      | openat task =>
          have hsame : (step (runState step Maps.init xs) (.openat task)).1 =
              runState step Maps.init xs := by
            rw [step, traceOpenat]
            split
            · rfl
            · split <;> rfl
          have hnone : [Firing.openat task].filterMap Firing.cameraPid = [] := rfl
          rw [hsame, hnone, List.append_nil]
          exact ih

/-- In every run an open is reported exactly when there is room for its event and its process is
one of the first 256 that made a reported binder transaction under the name of a camera process. -/
theorem openat_out (xs : List Firing) (task : Task) :
    (step (runState step Maps.init xs) (.openat task)).2 =
      if task.reserved ∧ task.pid ∈ cameraPids xs ∧ Admitted 256 (cameraPids xs) task.pid then
        [camEvent task EVENT_CAMERA_OPEN]
      else [] := by
  have hknown := (firstCome_pidToCamera xs).mem_iff task.pid
  rw [step, traceOpenat]
  by_cases hcamera : task.pid ∈ cameraPids xs ∧ Admitted 256 (cameraPids xs) task.pid
  · rw [if_neg (BoundedMap.isSome_lookup.mpr (hknown.mpr hcamera))]
    cases hreserved : task.reserved <;> simp [hcamera]
  · rw [if_pos (BoundedMap.lookup_eq_none.mpr fun hm => hcamera (hknown.mp hm)),
      if_neg fun h => hcamera h.2]

end EbpfTools.CamTracking

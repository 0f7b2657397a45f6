import EbpfTools.Lib.Run
import EbpfTools.CamFlow.Kernel

/-!
# The submit time of a request

What the firings of other requests, sessions and frame skips leave alone.
-/

namespace EbpfTools.CamFlow
open EbpfTools.Lib

-- the request that a firing applies or completes
def Firing.request : Firing → Option UInt64
  | .camReqMgrApply args _ => some args.reqId
  | .camBufDone _ args _ => some args.request
  | _ => none

theorem reqSubmitTs_bufDone (m : Maps) (task : Task) (args : CamBufDoneArgs) (now : UInt64) :
    (flowCamBufDone m task args now).1.reqSubmitTs = m.reqSubmitTs ∧
        m.reqSubmitTs.lookup args.request = none ∨
      (flowCamBufDone m task args now).1.reqSubmitTs = m.reqSubmitTs.delete args.request := by
  rw [flowCamBufDone]
  split
  · exact Or.inr rfl
  · rename_i h
    exact Or.inl ⟨rfl, h⟩

/-- A firing changes the submit time of its own request only. -/
theorem lookup_step_of_ne {m : Maps} {x : Firing} {r : UInt64} (h : x.request ≠ some r) :
    (step m x).1.reqSubmitTs.lookup r = m.reqSubmitTs.lookup r := by
  cases x with
  | camContextState task args now =>
      simp only [step, flowCamContextState]
      split <;> rfl
  | camReqMgrApply args now =>
      have hr : r ≠ args.reqId := fun he => h (by rw [he]; rfl)
      exact m.reqSubmitTs.lookup_update_ne now hr
  | camBufDone task args now =>
      have hr : r ≠ args.request := fun he => h (by rw [he]; rfl)
      rcases reqSubmitTs_bufDone m task args now with ⟨he, -⟩ | he
      · rw [step, he]
      · rw [step, he, m.reqSubmitTs.lookup_delete_ne hr]
  | camNotifyFrameSkip task now => rfl

theorem lookup_runState_of_ne {m : Maps} {xs : List Firing} {r : UInt64}
    (h : ∀ x ∈ xs, x.request ≠ some r) :
    (runState step m xs).reqSubmitTs.lookup r = m.reqSubmitTs.lookup r := by
  induction xs generalizing m with
  | nil => rfl
  | cons x xs ih =>
      rw [runState_cons, ih fun y hy => h y (List.mem_cons_of_mem x hy)]
      exact lookup_step_of_ne (h x List.mem_cons_self)

theorem lookup_apply {m : Maps} (args : CamReqMgrApplyArgs) (now : UInt64)
    (h : m.reqSubmitTs.Room args.reqId) :
    (step m (.camReqMgrApply args now)).1.reqSubmitTs.lookup args.reqId = some now :=
  BoundedMap.lookup_update_self now h

theorem lookup_apply_of_not_room {m : Maps} (args : CamReqMgrApplyArgs) (now : UInt64)
    (h : ¬ m.reqSubmitTs.Room args.reqId) :
    (step m (.camReqMgrApply args now)).1.reqSubmitTs.lookup args.reqId = none := by
  have hm : args.reqId ∉ m.reqSubmitTs := fun hm => h (Or.inl hm)
  simp only [step, flowCamReqMgrApply, BoundedMap.update_of_not_room now h]
  exact BoundedMap.lookup_eq_none.mpr hm

theorem bufDone_of_lookup_none {m : Maps} (task : Task) (args : CamBufDoneArgs) (now : UInt64)
    (h : m.reqSubmitTs.lookup args.request = none) :
    (step m (.camBufDone task args now)).2 =
      submit task now EVENT_BUFFER_FILLED 0 args.request 0 := by
  simp only [step, flowCamBufDone, h]

/-- The latency a completion reports: the age of the submit time, and 0 without one. -/
theorem extra2_of_mem_bufDone {m : Maps} {task : Task} {args : CamBufDoneArgs} {now : UInt64}
    {e : CamEvent} (h : e ∈ (step m (.camBufDone task args now)).2) :
    e.extra2 = ((m.reqSubmitTs.lookup args.request).map (now - ·)).getD 0 := by
  have hsub : ∀ latency, e ∈ submit task now EVENT_BUFFER_FILLED 0 args.request latency →
      e.extra2 = latency := by
    intro latency he
    rw [submit] at he
    split at he
    · rw [List.mem_singleton.mp he]
    · cases he
  cases hl : m.reqSubmitTs.lookup args.request with
  | none =>
      rw [bufDone_of_lookup_none task args now hl] at h
      exact hsub 0 h
  | some submitTs =>
      simp only [step, flowCamBufDone, hl] at h
      exact hsub (now - submitTs) h

/-! ## Requests that never complete -/

/-- Every applied request that does not complete takes one entry of the table for good. -/
theorem size_runState_applies {m : Maps} {applies : List (CamReqMgrApplyArgs × UInt64)}
    (hnodup : (applies.map fun p => p.1.reqId).Nodup)
    (hnew : ∀ p ∈ applies, p.1.reqId ∉ m.reqSubmitTs)
    (hsize : m.reqSubmitTs.size + applies.length ≤ 256) :
    (runState step m (applies.map fun p => .camReqMgrApply p.1 p.2)).reqSubmitTs.size =
      m.reqSubmitTs.size + applies.length := by
  induction applies generalizing m with
  | nil => rfl
  | cons p applies ih =>
      obtain ⟨hp, hnodup⟩ := List.nodup_cons.mp hnodup
      simp only [List.length_cons] at hsize
      have hs : (m.reqSubmitTs.update p.1.reqId p.2).size = m.reqSubmitTs.size + 1 :=
        BoundedMap.size_update_of_not_mem p.2 (hnew p List.mem_cons_self) (by omega)
      have hnew' : ∀ q ∈ applies, q.1.reqId ∉ m.reqSubmitTs.update p.1.reqId p.2 := by
        intro q hq hm
        rcases BoundedMap.mem_of_mem_update hm with he | hm
        · exact hp (List.mem_map.mpr ⟨q, hq, he⟩)
        · exact hnew q (List.mem_cons_of_mem p hq) hm
      rw [List.map_cons, runState_cons, step, flowCamReqMgrApply,
        ih hnodup hnew' (by simp only [hs]; omega), hs, List.length_cons]
      omega

theorem not_mem_runState_applies {m : Maps} {applies : List (CamReqMgrApplyArgs × UInt64)}
    {r : UInt64} (hm : r ∉ m.reqSubmitTs) (hr : ∀ p ∈ applies, p.1.reqId ≠ r) :
    r ∉ (runState step m (applies.map fun p => .camReqMgrApply p.1 p.2)).reqSubmitTs := by
  rw [← BoundedMap.lookup_eq_none, lookup_runState_of_ne, BoundedMap.lookup_eq_none]
  · exact hm
  · intro x hx
    obtain ⟨p, hp, rfl⟩ := List.mem_map.mp hx
    exact fun he => hr p hp (Option.some.inj he)

end EbpfTools.CamFlow

import EbpfTools.CamFlow.Lemmas.Links
import EbpfTools.Lib.LiveMap

/-!
# cam_flow: requests in flight

A request is in flight from its apply on until a buffer of it is done.
-/

namespace EbpfTools.CamFlow
open EbpfTools.Lib EbpfTools.Lib.MapOp

/-- What a firing does to the table of submit times. -/
def Firing.submitOp : Firing → MapOp UInt64 UInt64
  | .camReqMgrApply args now => .update args.reqId now
  | .camBufDone _ args _ => .delete args.request
  | _ => .skip

/-- The requests that are applied and not done. -/
def inFlight (xs : List Firing) : Finset UInt64 := liveKeys (xs.map Firing.submitOp)

/-- There are never more than 256 requests in flight. -/
def FewInFlight (xs : List Firing) : Prop :=
  ∀ pre args t post, xs = pre ++ .camReqMgrApply args t :: post →
    (insert args.reqId (inFlight pre)).card ≤ 256

theorem reqSubmitTs_step_lookup (m : Maps) (x : Firing) (r : UInt64) :
    (step m x).1.reqSubmitTs.lookup r = (act m.reqSubmitTs x.submitOp).lookup r := by
  cases x with
  | camBufDone task args now =>
      rcases reqSubmitTs_bufDone m task args now with ⟨he, hnone⟩ | he
      · rw [step, he, Firing.submitOp, act]
        by_cases hr : r = args.request
        · rw [hr, hnone, BoundedMap.lookup_delete_self]
        · rw [BoundedMap.lookup_delete_ne _ hr]
      · rw [step, he]
        rfl
  | camContextState task args now =>
      simp only [step, flowCamContextState]
      split <;> rfl
  | _ => rfl

/-- The table after a run looks like its updates and deletes alone. -/
theorem lookup_reqSubmitTs_run (xs : List Firing) (r : UInt64) :
    (runState step .init xs).reqSubmitTs.lookup r =
      (applyAll (xs.map Firing.submitOp) : BoundedMap UInt64 UInt64 256).lookup r := by
  induction xs using List.reverseRecOn generalizing r with
  | nil => rfl
  | append_singleton xs x ih =>
      rw [runState_concat, reqSubmitTs_step_lookup, List.map_append, List.map_singleton,
        applyAll_concat]
      exact lookup_act_congr ih x.submitOp r

theorem room_run_iff (xs : List Firing) (r : UInt64) :
    (runState step .init xs).reqSubmitTs.Room r ↔
      (applyAll (xs.map Firing.submitOp) : BoundedMap UInt64 UInt64 256).Room r := by
  rw [BoundedMap.room_iff_card, BoundedMap.room_iff_card, BoundedMap.keySet_congr (lookup_reqSubmitTs_run xs)]

theorem map_eq_append_update {xs : List Firing} {pre post : List (MapOp UInt64 UInt64)}
    {k v : UInt64} (h : xs.map Firing.submitOp = pre ++ .update k v :: post) :
    ∃ p args q, xs = p ++ .camReqMgrApply args v :: q ∧ p.map Firing.submitOp = pre ∧
      args.reqId = k := by
  obtain ⟨p, rest, rfl, hpre, hrest⟩ := List.map_eq_append_iff.mp h
  obtain ⟨x, q, rfl, hx, -⟩ := List.map_eq_cons_iff.mp hrest
  cases x with
  | camReqMgrApply args now =>
      obtain ⟨rfl, rfl⟩ := MapOp.update.inj hx
      exact ⟨p, args, q, rfl, hpre, rfl⟩
  | _ => cases hx

theorem fits_iff_fewInFlight (xs : List Firing) :
    Fits 256 (xs.map Firing.submitOp) ↔ FewInFlight xs := by
  constructor
  · rintro h pre args t post rfl
    exact h _ _ t (post.map Firing.submitOp) (by rw [List.map_append]; rfl)
  · intro h pre k v post he
    obtain ⟨p, args, q, hxs, rfl, rfl⟩ := map_eq_append_update he
    exact h p args v q hxs

theorem noneRefused_iff (xs : List Firing) :
    NoneRefused 256 (xs.map Firing.submitOp) ↔ AppliesFindRoom xs := by
  constructor
  · rintro h pre args t post rfl
    rw [room_run_iff]
    exact h _ _ t (post.map Firing.submitOp) (by rw [List.map_append]; rfl)
  · intro h pre k v post he
    obtain ⟨p, args, q, hxs, rfl, rfl⟩ := map_eq_append_update he
    rw [← room_run_iff]
    exact h p args v q hxs

/-- The submit time of every apply is kept if and only if there are never more than 256 requests in
flight, and then every buffer is reported with the time since the latest apply of its request, or
with 0 if that was reported already. -/
theorem latencies_exact (xs : List Firing) :
    (AppliesFindRoom xs ↔ FewInFlight xs) ∧
      (FewInFlight xs → ∀ pre task done now post, xs = pre ++ .camBufDone task done now :: post →
        ∀ e ∈ (step (runState step .init pre) (.camBufDone task done now)).2,
          e.extra2 = latency (pendingTs (latestOf done.request pre)) now) := by
  have hiff : AppliesFindRoom xs ↔ FewInFlight xs := by
    rw [← noneRefused_iff, noneRefused_iff_fits, fits_iff_fewInFlight]
  refine ⟨hiff, ?_⟩
  rintro hfew pre task done now post rfl e he
  have hroom : AppliesFindRoom pre := fun p args t q hpre =>
    hiff.mpr hfew p args t (q ++ .camBufDone task done now :: post) (by simp [hpre])
  rw [extra2_of_mem_bufDone he, lookup_reqSubmitTs hroom]
  rfl

end EbpfTools.CamFlow

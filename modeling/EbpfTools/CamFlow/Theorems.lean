import EbpfTools.CamFlow.Lemmas.Links
import EbpfTools.CamFlow.Lemmas.Sessions

/-!
# Theorems about cam_flow
-/

namespace EbpfTools.CamFlow
open EbpfTools.Lib

/-! ## The latency of a request -/

/-- The reported latency of a request is the time since its last apply exactly when that apply
found room in the table or no time has passed: requests that never complete keep their entries,
and an apply that finds the table full is lost. -/
theorem bufDone_latency_iff (pre post : List Firing) (apply : CamReqMgrApplyArgs) (t₁ : UInt64)
    (task : Task) (done : CamBufDoneArgs) (t₂ : UInt64) (e : CamEvent)
    (hreq : apply.reqId = done.request) (hpost : ∀ x ∈ post, x.request ≠ some done.request)
    (he : e ∈ (step (runState step .init (pre ++ .camReqMgrApply apply t₁ :: post))
      (.camBufDone task done t₂)).2) :
    e.extra2 = t₂ - t₁ ↔
      (runState step .init pre).reqSubmitTs.Room done.request ∨ t₁ = t₂ := by
  rw [extra2_of_mem_bufDone he, runState_append, runState_cons, lookup_runState_of_ne hpost,
    ← hreq]
  by_cases hroom : (runState step .init pre).reqSubmitTs.Room apply.reqId
  · rw [lookup_apply apply t₁ hroom]
    exact iff_of_true rfl (Or.inl hroom)
  · rw [lookup_apply_of_not_room apply t₁ hroom]
    constructor
    · intro h
      have h' : t₂ = 0 + t₁ := UInt64.sub_eq_iff_eq_add.mp h.symm
      exact Or.inr (h'.trans (UInt64.zero_add t₁)).symm
    · rintro (h | rfl)
      · exact absurd h hroom
      · exact (UInt64.sub_self t₁).symm

def hal : Task := ⟨1462, 1500, 1047, .zero _, true⟩

def orphanArgs : List (CamReqMgrApplyArgs × UInt64) :=
  (List.range 256).map fun i => (⟨UInt64.ofNat i, 1⟩, 1000000 * UInt64.ofNat i)

/-- The requests 0 to 255, applied and never completed. -/
def orphans : List Firing := orphanArgs.map fun p => .camReqMgrApply p.1 p.2

theorem orphanId_inj {i j : Nat} (hi : i < 257) (hj : j < 257)
    (h : UInt64.ofNat i = UInt64.ofNat j) : i = j := by
  have hnat := congrArg UInt64.toNat h
  simp only [UInt64.toNat_ofNat'] at hnat
  omega

theorem orphans_nodup : (orphanArgs.map fun p => p.1.reqId).Nodup := by
  have hids : orphanArgs.map (fun p => p.1.reqId) = (List.range 256).map UInt64.ofNat := by
    rw [orphanArgs, List.map_map]
    rfl
  rw [hids]
  refine List.Nodup.map_on (fun i hi j hj h => ?_) List.nodup_range
  have hi' : i < 256 := List.mem_range.mp hi
  have hj' : j < 256 := List.mem_range.mp hj
  exact orphanId_inj (by omega) (by omega) h

theorem orphans_reqId_ne : ∀ p ∈ orphanArgs, p.1.reqId ≠ 256 := by
  intro p hp he
  obtain ⟨i, hi, rfl⟩ := List.mem_map.mp hp
  have hi' : i < 256 := List.mem_range.mp hi
  have heq : i = 256 := orphanId_inj (by omega) (by omega) he
  omega

theorem orphans_fill : ¬ (runState step .init orphans).reqSubmitTs.Room 256 := by
  have hempty : ∀ r, r ∉ Maps.init.reqSubmitTs := fun r =>
    BoundedMap.lookup_eq_none.mp (BoundedMap.lookup_empty r)
  have hlen : orphanArgs.length = 256 := by rw [orphanArgs, List.length_map, List.length_range]
  have hsize : (runState step .init orphans).reqSubmitTs.size = 0 + 256 := by
    rw [orphans, size_runState_applies orphans_nodup (fun p _ => hempty _) (by rw [hlen]; rfl), hlen]
    rfl
  rintro (h | h)
  · rw [orphans] at h
    exact not_mem_runState_applies (hempty 256) orphans_reqId_ne h
  · exact absurd (hsize ▸ h) (lt_irrefl 256)

/-- After 256 orphans a request that takes 5 ms is reported with the latency 0. -/
theorem orphans_lose_latency :
    (step (runState step .init (orphans ++ [.camReqMgrApply ⟨256, 1⟩ 1000000000]))
      (.camBufDone hal ⟨1, 256⟩ 1005000000)).2.map (fun e => (e.extra1, e.extra2)) =
        [(256, 0)] ∧
      (1005000000 - 1000000000 : UInt64) ≠ 0 := by
  refine ⟨?_, by decide⟩
  have hl := lookup_apply_of_not_room ⟨256, 1⟩ 1000000000 orphans_fill
  rw [runState_concat, bufDone_of_lookup_none hal ⟨1, 256⟩ 1005000000 hl]
  rfl

def filled : CamEvent :=
  { timestamp := 1005000000, pid := 1462, tgid := 1500, uid := 1047, comm := .zero _,
    eventType := EVENT_BUFFER_FILLED, cameraId := 0, bufferId := 0, extra1 := 7,
    extra2 := 5000000, entity := .zero _ }

theorem bufDone_latency_iff_filled :
    filled.extra2 = 1005000000 - 1000000000 ↔
      (runState step .init []).reqSubmitTs.Room 7 ∨ (1000000000 : UInt64) = 1005000000 :=
  bufDone_latency_iff [] [] ⟨7, 1⟩ 1000000000 hal ⟨1, 7⟩ 1005000000 filled rfl (by decide)
    (by decide)

/-! ## Requests of several links -/

/-- A completion reports the latency of its own link's apply exactly when the latest firing for the
request id came from the same link, or from another one that left the same submit time. -/
theorem bufDone_link_latency_iff {xs : List Firing} (hroom : AppliesFindRoom xs) {task : Task}
    {done : CamBufDoneArgs} {now : UInt64} {e : CamEvent}
    (he : e ∈ (step (runState step .init xs) (.camBufDone task done now)).2) :
    e.extra2 = latency (pendingTs (latestOn done.linkHdl done.request xs)) now ↔
      Unmixed done.linkHdl done.request now xs := by
  rw [extra2_of_mem_bufDone he, lookup_reqSubmitTs hroom]
  exact latency_eq_latency_iff

/-- The request 1 is applied on the link 1 at 1.000 s and on the link 2 at 1.020 s. -/
def twoLinks : List Firing :=
  [.camReqMgrApply ⟨1, 1⟩ 1000000000, .camReqMgrApply ⟨1, 2⟩ 1020000000]

theorem twoLinks_room : AppliesFindRoom twoLinks := by
  have hroom : ∀ pre x post, twoLinks = pre ++ x :: post → ∀ args t,
      x = .camReqMgrApply args t → (runState step .init pre).reqSubmitTs.Room args.reqId := by
    refine forall_split_cons.mpr ⟨fun args t hx => ?_, ?_⟩
    · cases hx
      decide
    · refine forall_split_singleton.mpr fun args t hx => ?_
      cases hx
      decide
  exact fun pre args t post he => hroom pre _ post he args t rfl

/-- The buffer of the link 1 that is done at 1.033 s is reported with 13 ms in place of 33 ms. -/
theorem twoLinks_mixed :
    AppliesFindRoom twoLinks ∧
      (step (runState step .init twoLinks) (.camBufDone hal ⟨1, 1⟩ 1033000000)).2.map
        CamEvent.extra2 = [13000000] ∧
      latency (pendingTs (latestOn 1 1 twoLinks)) 1033000000 = 33000000 :=
  ⟨twoLinks_room, by decide, by decide⟩

theorem bufDone_link_latency_iff_filled :
    { filled with extra1 := 1, extra2 := 13000000, timestamp := 1033000000 : CamEvent }.extra2 =
        latency (pendingTs (latestOn 2 1 twoLinks)) 1033000000 ↔
      Unmixed 2 1 1033000000 twoLinks :=
  @bufDone_link_latency_iff twoLinks twoLinks_room hal ⟨2, 1⟩ 1033000000
    { filled with extra1 := 1, extra2 := 13000000, timestamp := 1033000000 } (by decide)

/-! ## Camera sessions -/

/-- A session id has the entry of its latest context event: a fresh one if the state was not 0 and
the table had room, and none otherwise. No event of another id touches it. -/
theorem session_of_latest (xs : List Firing) (id : UInt32) :
    ((∀ x ∈ xs, x.sessionId ≠ some id) →
        (runState step .init xs).sessionMap.lookup id = none) ∧
      (∀ pre task args now post, xs = pre ++ .camContextState task args now :: post →
        sessionKey args.ctx = id → (∀ y ∈ post, y.sessionId ≠ some id) →
        (runState step .init xs).sessionMap.lookup id =
          sessionAfter (runState step .init pre) args now) ∧
      ∀ x, x.sessionId ≠ some id →
        (step (runState step .init xs) x).1.sessionMap.lookup id =
          (runState step .init xs).sessionMap.lookup id := by
  refine ⟨lookup_session_runState_of_ne, ?_, fun x hx => lookup_session_of_ne hx⟩
  rintro pre task args now post rfl rfl hpost
  rw [runState_append, runState_cons, lookup_session_runState_of_ne hpost, lookup_camContextState]

def context (ctx : UInt64) (state : UInt32) (now : UInt64) : Firing :=
  .camContextState hal ⟨ctx, state⟩ now

def sessionStart (ctx : UInt64) (xs : List Firing) : Option UInt64 :=
  ((runState step .init xs).sessionMap.lookup (sessionKey ctx)).map SessionInfo.startTime

/-- The time since which a context has had a state other than 0. -/
def openSince (ctx : UInt64) (xs : List Firing) : Option UInt64 :=
  xs.foldl
    (fun o x =>
      match x with
      | .camContextState _ args now =>
          if args.ctx = ctx then if args.state = 0 then none else some (o.getD now) else o
      | _ => o)
    none

/-- A change from state 1 to state 2 restarts the session, a context with the same low 16 bits ends
it, and a context that finds 64 sessions has none. -/
theorem sessions_not_contexts :
    (sessionStart 0xf4d0 [context 0xf4d0 1 1000, context 0xf4d0 2 2000] = some 2000 ∧
        openSince 0xf4d0 [context 0xf4d0 1 1000, context 0xf4d0 2 2000] = some 1000) ∧
      (sessionStart 0xf4d0 [context 0xf4d0 1 1000, context 0x1f4d0 0 2000] = none ∧
        openSince 0xf4d0 [context 0xf4d0 1 1000, context 0x1f4d0 0 2000] = some 1000) ∧
      (sessionStart 64 ((List.range 65).map fun i => context (UInt64.ofNat i) 1 1000) = none ∧
        openSince 64 ((List.range 65).map fun i => context (UInt64.ofNat i) 1 1000) =
          some 1000) := by
  refine ⟨by decide, by decide, by decide +kernel⟩

theorem session_of_latest_reopened :
    sessionStart 0xf4d0 [context 0xf4d0 1 1000, context 0xf4d0 2 2000] = some 2000 := by
  have hentry := (session_of_latest [context 0xf4d0 1 1000, context 0xf4d0 2 2000] 0xf4d0).2.1
    [context 0xf4d0 1 1000] hal ⟨0xf4d0, 2⟩ 2000 [] rfl (by decide) (by decide)
  have hkey : sessionKey 0xf4d0 = 0xf4d0 := by decide
  rw [sessionStart, hkey, hentry]
  decide

end EbpfTools.CamFlow

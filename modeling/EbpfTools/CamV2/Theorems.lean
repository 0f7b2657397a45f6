import EbpfTools.CamV2.Lemmas.Attribution
import EbpfTools.CamV2.Lemmas.Dedup
import EbpfTools.CamV2.Lemmas.Edges

/-!
# Theorems about cam_v2
-/

namespace EbpfTools.CamV2
open EbpfTools.Lib

/-! ## Attribution of camera sessions -/

theorem pid_of_mem_traceCamContextState {m : Maps} {task : Task} {now : UInt64} {slot : Slot}
    {e : CamEvent} (h : e ∈ (step m (.camContextState task now slot)).2) :
    e.pid = inferredPid m task.pid now := by
  cases hs : slot.reserved with
  | false => simp [step, traceCamContextState, emitEvent, hs] at h
  | true =>
      simp only [step, traceCamContextState, emitEvent, hs, if_true, List.mem_singleton] at h
      rw [h]

/-- A session is attributed to the latest caller of cameraserver exactly when that call was not
suppressed or the call remembered instead does as well: a call that is not reported again within
half a second is not remembered either. -/
theorem appSession_pid_iff {camserverPid : UInt32} (hpid : camserverPid ≠ 0) {xs : List Firing}
    {task : Task} {now : UInt64} {slot : Slot} {e : CamEvent}
    (hmono : List.Pairwise (fun x y => x.now ≤ y.now) (xs ++ [.camContextState task now slot]))
    (he : e ∈ (step (runState step (Maps.init camserverPid) xs)
      (.camContextState task now slot)).2) :
    e.pid = sessionPid (latestCall camserverPid xs) task.pid now ↔
      LatestCallKept camserverPid xs task.pid now := by
  rw [List.pairwise_append] at hmono
  obtain ⟨hxs, -, hlast⟩ := hmono
  have hle : ∀ p, latestCall camserverPid xs = some p → p.2.toNat ≤ now.toNat := by
    intro p hp
    obtain ⟨x, hx, hnow⟩ := now_of_latestCall hp
    rw [hnow]
    exact UInt64.le_iff_toNat_le.mp (hlast x hx _ (List.mem_singleton.mpr rfl))
  rw [pid_of_mem_traceCamContextState he]
  constructor
  · rintro h pre x post caller t rfl hx hpost
    have hlatest := @latestCall_of_split _ pre _ _ _ hx hpost
    rw [hlatest] at h
    exact (inferredPid_split_iff hpid hxs hx hpost (hle _ hlatest) task.pid).mp h
  · intro h
    cases hl : latestCall camserverPid xs with
    | none => exact inferredPid_of_none task.pid ((callerInv_run hpid hxs).none_eq hl)
    | some p =>
        obtain ⟨pre, x, post, rfl, hx, hpost⟩ := exists_split_of_latestCall hl
        exact (inferredPid_split_iff hpid hxs hx hpost (hle p hl) task.pid).mpr
          (h pre x post p.1 p.2 rfl hx hpost)

def app (pid : UInt32) : Task := ⟨pid, 10001, .zero _⟩

-- a transaction of `pid` to the cameraserver with pid 500
def callAt (pid : UInt32) (now : UInt64) : Firing :=
  .binderTransaction (app pid) ⟨0, 500, 1⟩ now ⟨true, now⟩ ⟨true, now⟩

def cameraserver : Task := ⟨500, 1047, .zero _⟩

/-- The app 100 calls at 10.0 s, the app 200 at 10.1 s and 100 again at 10.2 s. -/
def repeatedCall : List Firing :=
  [callAt 100 10000000000, callAt 200 10100000000, callAt 100 10200000000]

/-- The session that follows at 10.3 s is reported for 200, not for the latest caller 100. -/
theorem repeatedCall_misattributed :
    List.Pairwise (fun x y => x.now ≤ y.now)
        (repeatedCall ++ [.camContextState cameraserver 10300000000 ⟨true, 10300000000⟩]) ∧
      (step (runState step (Maps.init 500) repeatedCall)
        (.camContextState cameraserver 10300000000 ⟨true, 10300000000⟩)).2.map
          (fun e => (e.eventType, e.pid)) = [(EVENT_APP_SESSION, 200)] ∧
      sessionPid (latestCall 500 repeatedCall) cameraserver.pid 10300000000 = 100 := by
  refine ⟨by decide, by decide, by decide⟩

def freshSession : CamEvent :=
  { timestamp := 10100000000, pid := 100, tgid := 100, uid := 1047, comm := .zero _,
    eventType := EVENT_APP_SESSION, cameraId := 0, bufferId := 0, extra1 := 0,
    extra2 := 100000000, entity := ascii "cam_context_state" }

theorem appSession_pid_iff_freshSession :
    freshSession.pid = sessionPid (latestCall 500 [callAt 100 10000000000]) cameraserver.pid
        10100000000 ↔
      LatestCallKept 500 [callAt 100 10000000000] cameraserver.pid 10100000000 :=
  @appSession_pid_iff 500 (by decide) [callAt 100 10000000000] cameraserver 10100000000
    ⟨true, 10100000000⟩ freshSession (by decide) (by decide)

/-! ## De-duplication of camera calls -/

/-- The de-duplication is exact if and only if each caller comes among the first 1024 ones or calls
at intervals of half a second: a caller that finds the map full is reported at each call. -/
theorem dedup_exact_iff {camserverPid : UInt32} {xs : List Firing}
    (hcalls : ∀ x ∈ xs, IsCall camserverPid x) (hmono : xs.Pairwise fun x y => x.now ≤ y.now) :
    Spaced camserverPid xs ∧ Covered camserverPid xs ↔
      ∀ pid, Admitted 1024 (xs.map Firing.caller) pid ∨
        (xs.filter fun x => x.caller = pid).Pairwise fun x y =>
          x.now.toNat + BINDER_DEDUP_WINDOW_NS.toNat ≤ y.now.toNat :=
  (and_iff_left (covered_of_calls hcalls hmono)).trans (spaced_iff hcalls hmono)

def crowd : List Firing := (List.range 1024).map fun i => callAt (UInt32.ofNat (i + 1)) 0

/-- 1024 apps call once each, then the app 2000 at 1.0 s and at 1.1 s. -/
def crowdedCalls : List Firing := crowd ++ [callAt 2000 1000000000, callAt 2000 1100000000]

theorem isCall_callAt {pid : UInt32} (h : pid ≠ 0) (now : UInt64) :
    IsCall 500 (callAt pid now) := by
  have huid : (10000 : UInt32) ≤ 10001 := by decide
  exact ⟨by decide, ⟨rfl, rfl, h, huid⟩, rfl, rfl⟩

theorem toNat_crowd {i : Nat} (h : i < 1024) : (UInt32.ofNat (i + 1)).toNat = i + 1 := by
  rw [UInt32.toNat_ofNat']
  omega

theorem isCall_crowdedCalls : ∀ x ∈ crowdedCalls, IsCall 500 x := by
  intro x hx
  rcases List.mem_append.mp hx with hx | hx
  · obtain ⟨i, hi, rfl⟩ := List.mem_map.mp hx
    refine isCall_callAt (fun h => ?_) 0
    have hnat := congrArg UInt32.toNat h
    rw [toNat_crowd (List.mem_range.mp hi)] at hnat
    cases hnat
  · rcases List.mem_pair.mp hx with rfl | rfl
    · exact isCall_callAt (by decide) _
    · exact isCall_callAt (by decide) _

theorem callers_crowd :
    crowd.map Firing.caller = (List.range 1024).map fun i => UInt32.ofNat (i + 1) := by
  rw [crowd, List.map_map]
  rfl

theorem crowdedCalls_not_admitted : ¬ Admitted 1024 (crowdedCalls.map Firing.caller) 2000 := by
  have hrun : crowdedCalls.map Firing.caller = crowd.map Firing.caller ++ 2000 :: [2000] := by
    rw [crowdedCalls, List.map_append]
    rfl
  rw [hrun]
  refine not_admitted_of_crowd ?_ ?_ ?_ _ <;> rw [callers_crowd]
  · rw [List.mem_map]
    rintro ⟨i, hi, he⟩
    have hnat := congrArg UInt32.toNat he
    rw [toNat_crowd (List.mem_range.mp hi)] at hnat
    have hlt := List.mem_range.mp hi
    have h2000 : (2000 : UInt32).toNat = 2000 := rfl
    omega
  · refine List.Nodup.map_on (fun i hi j hj he => ?_) List.nodup_range
    have hnat := congrArg UInt32.toNat he
    rw [toNat_crowd (List.mem_range.mp hi), toNat_crowd (List.mem_range.mp hj)] at hnat
    omega
  · rw [List.length_map, List.length_range]

/-- Both calls of the app 2000 are reported, a tenth of a second apart. -/
theorem crowdedCalls_repeated :
    (∀ x ∈ crowdedCalls, IsCall 500 x) ∧ (crowdedCalls.Pairwise fun x y => x.now ≤ y.now) ∧
      ¬ Spaced 500 crowdedCalls := by
  have hmono : crowdedCalls.Pairwise fun x y => x.now ≤ y.now := by
    rw [crowdedCalls, List.pairwise_append]
    refine ⟨?_, by decide, ?_⟩
    · rw [crowd, List.pairwise_map]
      exact List.Pairwise.imp (fun _ => UInt64.le_refl 0) List.pairwise_lt_range
    · rintro x hx y -
      obtain ⟨i, -, rfl⟩ := List.mem_map.mp hx
      exact UInt64.le_iff_toNat_le.mpr (Nat.zero_le _)
  refine ⟨isCall_crowdedCalls, hmono, fun h => ?_⟩
  rcases (spaced_iff isCall_crowdedCalls hmono).mp h 2000 with ha | hp
  · exact crowdedCalls_not_admitted ha
  · have hpair : [callAt 2000 1000000000, callAt 2000 1100000000].Sublist
        (crowdedCalls.filter fun x => x.caller = 2000) := by
      rw [crowdedCalls, List.filter_append]
      exact List.sublist_append_right _ _
    exact absurd (hp.sublist hpair) (by decide)

theorem dedup_exact_iff_repeatedCall :
    Spaced 500 repeatedCall ∧ Covered 500 repeatedCall ↔
      ∀ pid, Admitted 1024 (repeatedCall.map Firing.caller) pid ∨
        (repeatedCall.filter fun x => x.caller = pid).Pairwise fun x y =>
          x.now.toNat + BINDER_DEDUP_WINDOW_NS.toNat ≤ y.now.toNat :=
  @dedup_exact_iff 500 repeatedCall (by decide) (by decide)

/-! ## Links of frame events -/

/-- A frame event that comes at most 2 s after one of the last 64 edges is linked to the most recent
such edge if and only if its tracepoint fired in the process the edge comes from, and the edges so
far did not overflow `edge_pos`: the handlers report the process they run in, not the last caller. -/
theorem frame_linked_iff {camserverPid : UInt32} {pre : List Firing} {env : Nat → Inputs}
    {frame : Task → Slot → Firing} (hf : frame ∈ frameFirings) {task : Task} {slot : Slot}
    {e : CamEvent}
    (he : e ∈ (step (runState step (Maps.init camserverPid) pre) (frame task slot)).2)
    {a : EdgeRecord} (ha : a ∈ (edgesOf env (emitted camserverPid pre)).rtake MAX_EDGES)
    (hwindow : inWindow slot.ktime a) (i : Inputs) :
    ∃ edge, recentEdge slot.ktime (edgesOf env (emitted camserverPid pre)) = some edge ∧
      ((∃ s, handleEvents env (emitted camserverPid pre) = some s ∧ Linked s e i edge) ↔
        task.pid = edge.srcPid ∧ (edgesOf env (emitted camserverPid pre)).length ≤ INT_MAX) := by
  obtain ⟨hpid, hts, hframe⟩ := of_mem_frameFirings hf he
  obtain ⟨edge, hedge⟩ := exists_latest ha hwindow
  refine ⟨edge, hedge, ?_⟩
  rw [← hpid]
  exact exists_linked_iff env _ i hframe (hts ▸ hedge)

/-- No frame event of interrupt context is linked to an edge. -/
theorem interrupt_not_linked {camserverPid : UInt32} {pre : List Firing} {env : Nat → Inputs}
    {s : State} (hs : handleEvents env (emitted camserverPid pre) = some s) {e : CamEvent}
    (he : e.pid = 0) (i : Inputs) (edge : EdgeRecord) : ¬ Linked s e i edge := by
  rintro ⟨hfound, -⟩
  rw [findRecentEdge_eq (holds_of_handleEvents hs)] at hfound
  obtain ⟨hmem, hp⟩ := of_latest hfound
  have hsrc := srcPid_ne_zero (List.mem_of_mem_drop hmem)
  exact hsrc ((of_decide_eq_true hp).1.trans he)

def hal : Task := ⟨1462, 1047, .zero _⟩

-- the app 100 opens the camera at 10.0 s
def openedCamera : List Firing := [callAt 100 10000000000]

def appInputs (name : String) : Inputs := ⟨some (ascii name), 0, none⟩

def appEdge : EdgeRecord :=
  ⟨10000000000, 100, 500, 1, ascii "com.example", ascii "cameraserver"⟩

-- a frame is done in the HAL at 10.1 s
def halFrame : CamEvent :=
  { timestamp := 10100000000, pid := 1462, tgid := 1462, uid := 1047, comm := .zero _,
    eventType := EVENT_FRAME_DONE, cameraId := 0, bufferId := 0, extra1 := 0, extra2 := 0,
    entity := ascii "cam_buf_done" }

/-- The frame of the HAL is not linked to the edge of the app: no edge is found, and the only line
printed is that of the frame. -/
theorem halFrame_not_linked :
    (step (runState step (Maps.init 500) openedCamera)
        (.camBufDone hal ⟨true, 10100000000⟩)).2 = [halFrame] ∧
      recentEdge 10100000000
        (edgesOf (fun _ => appInputs "com.example") (emitted 500 openedCamera)) = some appEdge ∧
      (handleEvents (fun _ => appInputs "com.example") (emitted 500 openedCamera)).map (fun s =>
          (findRecentEdge s.edges halFrame.pid halFrame.timestamp,
            (handleEvent s halFrame (appInputs "camera.provider")).map Prod.snd)) =
        some (none, some [.frame 10 100 "FRAME_DONE" (ascii "camera.provider") 1462
          (ascii "cam_buf_done")]) := by
  refine ⟨by decide, by decide, by decide⟩

theorem frame_linked_iff_halFrame :
    ∃ edge, recentEdge 10100000000
        (edgesOf (fun _ => appInputs "com.example") (emitted 500 openedCamera)) = some edge ∧
      ((∃ s, handleEvents (fun _ => appInputs "com.example") (emitted 500 openedCamera) = some s ∧
          Linked s halFrame (appInputs "camera.provider") edge) ↔
        hal.pid = edge.srcPid ∧
          (edgesOf (fun _ => appInputs "com.example") (emitted 500 openedCamera)).length ≤
            INT_MAX) :=
  @frame_linked_iff 500 openedCamera (fun _ => appInputs "com.example") .camBufDone
    (by simp [frameFirings]) hal ⟨true, 10100000000⟩ halFrame (by decide) appEdge (by decide)
    (by decide) (appInputs "camera.provider")

/-! ## The edge ring -/

/-- An edge from the process that is at most 2 s older than `ts`. -/
def Answers (pid : UInt32) (ts : UInt64) (e : EdgeRecord) : Prop :=
  e.srcPid = pid ∧ e.ts.toNat ≤ ts.toNat ∧ ts.toNat ≤ e.ts.toNat + CHAIN_WINDOW_NS.toNat

/-- The table answers like a log of all edges of which the last 64 are looked at, whatever its
slots held before the first edge. -/
theorem findRecentEdge_rememberEdges (slots : Int → EdgeRecord) {calls : List EdgeCall}
    (h : calls.length < 2 ^ 31) (pid : UInt32) (ts : UInt64) :
    ∃ r, rememberEdges ⟨slots, 0⟩ calls = some r ∧
      (∀ e, findRecentEdge r pid ts = some e ↔
        ∃ pre post, calls.map EdgeCall.record = pre ++ e :: post ∧ post.length < 64 ∧
          Answers pid ts e ∧ ∀ x ∈ post, ¬ Answers pid ts x) ∧
      (findRecentEdge r pid ts = none ↔
        ∀ x ∈ (calls.map EdgeCall.record).rtake 64, ¬ Answers pid ts x) := by
  have hmax : (calls.length : Int) ≤ INT_MAX := by
    rw [INT_MAX]
    omega
  obtain ⟨r, hr, hholds⟩ := holds_rememberEdges slots hmax
  have hanswers : ∀ e, decide (e.srcPid = pid ∧ inWindow ts e) = true ↔ Answers pid ts e := by
    intro e
    rw [decide_eq_true_eq, inWindow, decide_eq_true_eq, Answers]
  refine ⟨r, hr, fun e => ?_, ?_⟩
  · rw [findRecentEdge, findRecentEdgeLoop_eq_search, hholds.search_eq_some_iff]
    simp only [hanswers]
  · rw [findRecentEdge, findRecentEdgeLoop_eq_search, hholds.search_eq_none_iff]
    simp only [hanswers]

-- two edges of process 0, the older one remembered last
def swappedEdges : List EdgeCall :=
  [⟨0, 500, 1, none, none, 3000000000⟩, ⟨0, 500, 2, none, none, 1000000000⟩]

/-- Before its first second, process 0 has no edge. -/
theorem findRecentEdge_rememberEdges_swapped :
    ∃ r, rememberEdges State.init.edges swappedEdges = some r ∧
      findRecentEdge r 0 3000000000 = some (edgeRecord 0 500 2 none none 1000000000) ∧
      findRecentEdge r 0 500000000 = none := by
  obtain ⟨r, hr, hsome, -⟩ := @findRecentEdge_rememberEdges State.init.edges.slots swappedEdges
    (by decide) 0 3000000000
  obtain ⟨r', hr', -, hnone⟩ := @findRecentEdge_rememberEdges State.init.edges.slots swappedEdges
    (by decide) 0 500000000
  obtain rfl : r = r' := Option.some.inj (hr.symm.trans hr')
  refine ⟨r, hr, (hsome _).mpr ?_, hnone.mpr ?_⟩
  · exact ⟨[edgeRecord 0 500 1 none none 3000000000], [], rfl, by decide,
      ⟨rfl, by decide, by decide⟩, List.forall_mem_nil _⟩
  · intro x hx
    have hmem : x ∈ swappedEdges.map EdgeCall.record := List.mem_of_mem_drop hx
    simp only [swappedEdges, List.map_cons, List.map_nil, List.mem_cons, List.not_mem_nil,
      or_false] at hmem
    rcases hmem with rfl | rfl
    · exact fun h => absurd h.2.1 (by decide)
    · exact fun h => absurd h.2.1 (by decide)

end EbpfTools.CamV2

import EbpfTools.Lib.Admission
import EbpfTools.Lib.Sorted
import EbpfTools.CamV2.Lemmas.Attribution

/-!
# Which transactions are reported

`recent_caller` holds the time of the last reported transaction of each caller that has an entry.
-/

namespace EbpfTools.CamV2
open EbpfTools.Lib

variable {camserverPid : UInt32} {xs : List Firing}

/-! ## Reported transactions -/

def Firing.task : Firing → Task
  | .binderTransaction task _ _ _ _ => task
  | .camContextState task _ _ => task
  | .camApplyReq task _ => task
  | .camBufDone task _ => task
  | .v4l2Qbuf task _ => task
  | .v4l2Dqbuf task _ => task

def Firing.caller (x : Firing) : UInt32 := x.task.pid

/-- A call of an app to a known cameraserver that finds room for its events. -/
def IsCall (camserverPid : UInt32) : Firing → Prop
  | .binderTransaction task args _ edge call =>
      camserverPid ≠ 0 ∧ Qualifies camserverPid task args ∧ edge.reserved ∧ call.reserved
  | _ => False

instance (camserverPid : UInt32) : DecidablePred (IsCall camserverPid)
  | .binderTransaction _ _ _ _ _ => inferInstanceAs (Decidable (_ ∧ _))
  | .camContextState _ _ _ | .camApplyReq _ _ | .camBufDone _ _ | .v4l2Qbuf _ _
  | .v4l2Dqbuf _ _ => isFalse id

/-- The camera-call events of `x` after the firings `pre`. -/
def callEvents (camserverPid : UInt32) (pre : List Firing) (x : Firing) : List CamEvent :=
  (step (runState step (Maps.init camserverPid) pre) x).2.filter fun e =>
    e.eventType = EVENT_BINDER_CALL

/-- Two reported calls of one process are half a second apart. -/
def Spaced (camserverPid : UInt32) (xs : List Firing) : Prop :=
  ∀ pre x mid y post, xs = pre ++ x :: (mid ++ y :: post) →
    ∀ e ∈ callEvents camserverPid pre x, ∀ e' ∈ callEvents camserverPid (pre ++ x :: mid) y,
      e.pid = e'.pid → x.now.toNat + BINDER_DEDUP_WINDOW_NS.toNat ≤ y.now.toNat

/-- A call that emits nothing comes less than half a second after a reported one of its process. -/
def Covered (camserverPid : UInt32) (xs : List Firing) : Prop :=
  ∀ pre y post, xs = pre ++ y :: post →
    (step (runState step (Maps.init camserverPid) pre) y).2 = [] →
    ∃ p x q, pre = p ++ x :: q ∧ x.caller = y.caller ∧ callEvents camserverPid p x ≠ [] ∧
      y.now.toNat < x.now.toNat + BINDER_DEDUP_WINDOW_NS.toNat

/-! ## One transaction -/

theorem camserverPid_step (m : Maps) (x : Firing) : (step m x).1.camserverPid = m.camserverPid := by
  cases x with
  | binderTransaction task args now edge call =>
      rw [step]
      rcases traceBinderTransaction_cases m task args now edge call with ⟨h, -⟩ | ⟨-, -, h⟩
      · rw [h]
      · rw [h]
        rfl
  | _ => rfl

theorem camserverPid_runState (xs : List Firing) :
    (runState step (Maps.init camserverPid) xs).camserverPid = camserverPid := by
  induction xs using List.reverseRecOn with
  | nil => rfl
  | append_singleton xs x ih => rw [runState_concat, camserverPid_step, ih]

theorem step_of_suppressed {m : Maps} {x : Firing} (hx : IsCall m.camserverPid x)
    (h : Suppressed m x.caller x.now) : step m x = (m, []) := by
  cases x with
  | binderTransaction task args now edge call =>
      rw [step]
      rcases traceBinderTransaction_cases m task args now edge call with ⟨he, -⟩ | ⟨-, hn, -⟩
      · exact he
      · exact absurd h hn
  | _ => exact absurd hx id

/-- A call that is not suppressed is recorded and reported. -/
theorem step_of_not_suppressed {m : Maps} {x : Firing} (hx : IsCall m.camserverPid x)
    (h : ¬ Suppressed m x.caller x.now) :
    (step m x).1 = rememberCaller m x.caller x.now ∧
      ((step m x).2.filter fun e => e.eventType = EVENT_BINDER_CALL).map CamEvent.pid =
        [x.caller] := by
  cases x with
  | binderTransaction task args now edge call =>
      obtain ⟨hpid, ⟨hreply, hproc, hcaller, huid⟩, hedge, hcall⟩ := hx
      have hn : ¬ (m.recentCaller.lookup task.pid).any
          (fun t => now - t < BINDER_DEDUP_WINDOW_NS) := h
      have hu : ¬ task.uid < 10000 := UInt32.not_lt.mpr huid
      simp only [step, traceBinderTransaction, hreply, hproc, hcaller, hpid, hu, hn, emitEvent,
        hedge, hcall, Firing.caller, Firing.task, Firing.now, ne_eq, not_true, if_false, if_true]
      exact ⟨rfl, rfl⟩
  | _ => exact absurd hx id

/-- The recorded time of a caller after a call at `now`. -/
def nextSeen (o : Option UInt64) (now : UInt64) : UInt64 :=
  match o with
  | none => now
  | some t => if now - t < BINDER_DEDUP_WINDOW_NS then t else now

theorem suppressed_iff {m : Maps} {pid : UInt32} {now : UInt64} :
    Suppressed m pid now ↔
      ∃ t, m.recentCaller.lookup pid = some t ∧ now - t < BINDER_DEDUP_WINDOW_NS := by
  rw [Suppressed]
  cases m.recentCaller.lookup pid <;> simp

theorem nextSeen_of_not_suppressed {m : Maps} {pid : UInt32} {now : UInt64}
    (h : ¬ Suppressed m pid now) : nextSeen (m.recentCaller.lookup pid) now = now := by
  cases ho : m.recentCaller.lookup pid with
  | none => rfl
  | some t => exact if_neg fun hnow => h (suppressed_iff.mpr ⟨t, ho, hnow⟩)

theorem tracks_step {m : Maps} {x : Firing} (hx : IsCall m.camserverPid x) :
    Tracks Firing.caller (fun o x => nextSeen o x.now) m.recentCaller x
      (step m x).1.recentCaller := by
  by_cases h : Suppressed m x.caller x.now
  · rw [step_of_suppressed hx h]
    obtain ⟨t, ht, hnow⟩ := suppressed_iff.mp h
    have hroom : m.recentCaller.Room x.caller := Or.inl (BoundedMap.isSome_lookup.mp h.recorded)
    refine ⟨?_, fun _ _ => rfl⟩
    rw [if_pos hroom, ht, nextSeen, if_pos hnow]
  · rw [(step_of_not_suppressed hx h).1, rememberCaller]
    have htrack := BoundedMap.tracks_track Firing.caller (fun o x => nextSeen o x.now)
      m.recentCaller x
    rwa [BoundedMap.track, nextSeen_of_not_suppressed h] at htrack

/-! ## The recorded time of one caller -/

theorem tracksRun_calls (hcalls : ∀ x ∈ xs, IsCall camserverPid x) :
    TracksRun Maps.recentCaller Firing.caller (fun o x => nextSeen o x.now) step
      (Maps.init camserverPid) xs := by
  intro pre x post he
  refine tracks_step ?_
  rw [camserverPid_runState]
  exact hcalls x (by simp [he])

/-- Whatever is recorded for a caller is the time of a reported call of it. -/
theorem exists_reported_of_recorded (hcalls : ∀ x ∈ xs, IsCall camserverPid x) {pid : UInt32}
    {t : UInt64}
    (h : (runState step (Maps.init camserverPid) xs).recentCaller.lookup pid = some t) :
    ∃ pre x post, xs = pre ++ x :: post ∧ x.caller = pid ∧ x.now = t ∧
      callEvents camserverPid pre x ≠ [] := by
  induction xs using List.reverseRecOn with
  | nil => cases h
  | append_singleton xs x ih =>
      have hx : IsCall (runState step (Maps.init camserverPid) xs).camserverPid x := by
        rw [camserverPid_runState]
        exact hcalls x (by simp)
      have hprev : (runState step (Maps.init camserverPid) xs).recentCaller.lookup pid = some t →
          ∃ pre y post, xs ++ [x] = pre ++ y :: post ∧ y.caller = pid ∧ y.now = t ∧
            callEvents camserverPid pre y ≠ [] := by
        intro hl
        obtain ⟨pre, y, post, rfl, hy⟩ := ih (fun z hz => hcalls z (by simp [hz])) hl
        exact ⟨pre, y, post ++ [x], by simp, hy⟩
      rw [runState_concat] at h
      by_cases hs : Suppressed (runState step (Maps.init camserverPid) xs) x.caller x.now
      · rw [step_of_suppressed hx hs] at h
        exact hprev h
      · obtain ⟨hm, hevents⟩ := step_of_not_suppressed hx hs
        rw [hm, rememberCaller] at h
        by_cases hk : pid = x.caller
        · subst hk
          by_cases hr : (runState step (Maps.init camserverPid) xs).recentCaller.Room x.caller
          · rw [BoundedMap.lookup_update_self _ hr] at h
            refine ⟨xs, x, [], rfl, rfl, Option.some.inj h, fun hnil => ?_⟩
            rw [callEvents] at hnil
            rw [hnil] at hevents
            cases hevents
          · rw [BoundedMap.update_of_not_room _ hr] at h
            exact hprev h
        · rw [BoundedMap.lookup_update_ne _ _ hk] at h
          exact hprev h

/-- The recorded time of a caller after its calls at the times `ts`. -/
def seenAfter (ts : List UInt64) : Option UInt64 :=
  ts.foldl (fun o t => some (nextSeen o t)) none

def callTimes (pid : UInt32) (xs : List Firing) : List UInt64 :=
  (xs.filter fun x => x.caller = pid).map Firing.now

theorem lookup_recentCaller (hcalls : ∀ x ∈ xs, IsCall camserverPid x) (pid : UInt32) :
    (runState step (Maps.init camserverPid) xs).recentCaller.lookup pid =
      if Admitted 1024 (xs.map Firing.caller) pid then seenAfter (callTimes pid xs) else none := by
  have hlookup := lookup_run Maps.recentCaller rfl (tracksRun_calls hcalls) pid
  rwa [seenAfter, callTimes, List.foldl_map]

/-- A recorded time never moves back. -/
theorem seen_ge {t : UInt64} {ts : List UInt64} (h : ∀ u ∈ ts, t ≤ u) :
    ∃ u, ts.foldl (fun o u => some (nextSeen o u)) (some t) = some u ∧ t ≤ u := by
  induction ts using List.reverseRecOn with
  | nil => exact ⟨t, rfl, UInt64.le_refl t⟩
  | append_singleton ts v ih =>
      obtain ⟨u, hu, hle⟩ := ih fun w hw => h w (List.mem_append_left _ hw)
      refine ⟨nextSeen (some u) v, by rw [List.foldl_append, hu]; rfl, ?_⟩
      rw [nextSeen]
      split
      · exact hle
      · exact h v (by simp)

/-! ## Suppressed and reported calls of a run -/

theorem exists_callEvent {pre : List Firing} {x : Firing} (hx : IsCall camserverPid x)
    (h : ¬ Suppressed (runState step (Maps.init camserverPid) pre) x.caller x.now) :
    ∃ e ∈ callEvents camserverPid pre x, e.pid = x.caller := by
  obtain ⟨-, hevents⟩ := step_of_not_suppressed (by rwa [camserverPid_runState]) h
  have hmem : x.caller ∈ (callEvents camserverPid pre x).map CamEvent.pid := by
    rw [callEvents, hevents]
    exact List.mem_singleton.mpr rfl
  exact List.mem_map.mp hmem

theorem of_mem_callEvents {pre : List Firing} {x : Firing} {e : CamEvent}
    (hx : IsCall camserverPid x) (h : e ∈ callEvents camserverPid pre x) :
    e.pid = x.caller ∧
      ¬ Suppressed (runState step (Maps.init camserverPid) pre) x.caller x.now := by
  have hx' : IsCall (runState step (Maps.init camserverPid) pre).camserverPid x := by
    rwa [camserverPid_runState]
  rw [callEvents] at h
  by_cases hs : Suppressed (runState step (Maps.init camserverPid) pre) x.caller x.now
  · rw [step_of_suppressed hx' hs] at h
    cases h
  · have hpid := List.mem_map_of_mem (f := CamEvent.pid) h
    rw [(step_of_not_suppressed hx' hs).2, List.mem_singleton] at hpid
    exact ⟨hpid, hs⟩

theorem covered_of_calls (hcalls : ∀ x ∈ xs, IsCall camserverPid x)
    (hmono : xs.Pairwise fun x y => x.now ≤ y.now) : Covered camserverPid xs := by
  intro pre y post he hnil
  have hy : IsCall camserverPid y := hcalls y (by simp [he])
  by_cases hs : Suppressed (runState step (Maps.init camserverPid) pre) y.caller y.now
  · obtain ⟨t, ht, hnow⟩ := suppressed_iff.mp hs
    obtain ⟨p, x, q, hp, hcaller, rfl, hevents⟩ :=
      exists_reported_of_recorded (fun z hz => hcalls z (by simp [he, hz])) ht
    rw [he, List.pairwise_append] at hmono
    have hle : x.now ≤ y.now := hmono.2.2 x (by simp [hp]) y (by simp)
    exact ⟨p, x, q, hp, hcaller, hevents,
      (elapsed_lt_iff (UInt64.le_iff_toNat_le.mp hle)).mp hnow⟩
  · obtain ⟨e, he, -⟩ := exists_callEvent hy hs
    rw [callEvents, hnil] at he
    cases he

/-- What a prefix of a run leaves recorded for a caller is decided by whether the caller is admitted
in the whole run. -/
theorem lookup_before (hcalls : ∀ x ∈ xs, IsCall camserverPid x) {pre post : List Firing}
    (he : xs = pre ++ post) (pid : UInt32) :
    (runState step (Maps.init camserverPid) pre).recentCaller.lookup pid =
      if Admitted 1024 (xs.map Firing.caller) pid then seenAfter (callTimes pid pre) else none := by
  rw [lookup_recentCaller fun z hz => hcalls z (by simp [he, hz]), he, List.map_append]
  by_cases hmem : pid ∈ pre.map Firing.caller
  · simp only [admitted_append_of_mem hmem]
  · rw [callTimes, filter_key_of_not_mem hmem]
    exact (ite_self none).trans (ite_self none).symm

theorem not_suppressed_of_not_admitted (hcalls : ∀ x ∈ xs, IsCall camserverPid x)
    {pre post : List Firing} (he : xs = pre ++ post) {pid : UInt32}
    (ha : ¬ Admitted 1024 (xs.map Firing.caller) pid) (now : UInt64) :
    ¬ Suppressed (runState step (Maps.init camserverPid) pre) pid now := by
  intro hs
  refine hs.recorded ?_
  rw [lookup_before hcalls he, if_neg ha]

/-- Two reported calls of an admitted caller are half a second apart: the later one finds the time
of the earlier one, or a later time. -/
theorem spaced_of_admitted (hcalls : ∀ x ∈ xs, IsCall camserverPid x)
    (hmono : xs.Pairwise fun x y => x.now ≤ y.now) {pre mid post : List Firing} {x y : Firing}
    (he : xs = pre ++ x :: mid ++ y :: post) (hxy : x.caller = y.caller)
    (ha : Admitted 1024 (xs.map Firing.caller) x.caller)
    (hx : ¬ Suppressed (runState step (Maps.init camserverPid) pre) x.caller x.now)
    (hy : ¬ Suppressed (runState step (Maps.init camserverPid) (pre ++ x :: mid)) y.caller y.now) :
    x.now.toNat + BINDER_DEDUP_WINDOW_NS.toNat ≤ y.now.toNat := by
  have hnext := nextSeen_of_not_suppressed hx
  rw [lookup_before hcalls (he.trans (List.append_assoc _ _ _)), if_pos ha] at hnext
  have hlookup := lookup_before hcalls he x.caller
  rw [if_pos ha] at hlookup
  rw [he, List.pairwise_append] at hmono
  have hmid : ∀ z ∈ mid, x.now ≤ z.now :=
    (List.pairwise_cons.mp (List.pairwise_append.mp hmono.1).2.1).1
  obtain ⟨u, hu, hle⟩ := @seen_ge x.now (callTimes x.caller mid) fun u hu => by
    obtain ⟨z, hz, rfl⟩ := List.mem_map.mp hu
    exact hmid z (List.mem_of_mem_filter hz)
  have hseen : seenAfter (callTimes x.caller (pre ++ x :: mid)) = some u := by
    have htimes : callTimes x.caller (pre ++ x :: mid) =
        callTimes x.caller pre ++ x.now :: callTimes x.caller mid := by
      simp [callTimes]
    rw [htimes, seenAfter, List.foldl_append, ← seenAfter, List.foldl_cons, hnext, hu]
  rw [hseen] at hlookup
  have hbefore : ∀ z ∈ pre ++ x :: mid, IsCall camserverPid z := fun z hz => hcalls z (by
    rw [he]
    exact List.mem_append_left _ hz)
  obtain ⟨p, z, q, hp, -, rfl, -⟩ := exists_reported_of_recorded hbefore hlookup
  have hz : z.now ≤ y.now := hmono.2.2 z (by rw [hp]; simp) y (by simp)
  have hlate : ¬ y.now - z.now < BINDER_DEDUP_WINDOW_NS := fun hlt =>
    hy (suppressed_iff.mpr ⟨z.now, hxy ▸ hlookup, hlt⟩)
  rw [elapsed_lt_iff (UInt64.le_iff_toNat_le.mp hz)] at hlate
  have hle' := UInt64.le_iff_toNat_le.mp hle
  omega

theorem spaced_iff (hcalls : ∀ x ∈ xs, IsCall camserverPid x)
    (hmono : xs.Pairwise fun x y => x.now ≤ y.now) :
    Spaced camserverPid xs ↔ ∀ pid, Admitted 1024 (xs.map Firing.caller) pid ∨
      (xs.filter fun x => x.caller = pid).Pairwise fun x y =>
        x.now.toNat + BINDER_DEDUP_WINDOW_NS.toNat ≤ y.now.toNat := by
  constructor
  · intro h pid
    by_cases ha : Admitted 1024 (xs.map Firing.caller) pid
    · exact Or.inl ha
    · right
      rw [List.pairwise_filter, pairwise_iff_split]
      intro pre x mid y post he hx hy
      rw [decide_eq_true_eq] at hx hy
      have he' : xs = (pre ++ x :: mid) ++ y :: post := by simp [he]
      obtain ⟨e, hmem, hpid⟩ := exists_callEvent (hcalls x (by simp [he]))
        (not_suppressed_of_not_admitted hcalls he (hx ▸ ha) x.now)
      obtain ⟨e', hmem', hpid'⟩ := exists_callEvent (hcalls y (by simp [he]))
        (not_suppressed_of_not_admitted hcalls he' (hy ▸ ha) y.now)
      refine h pre x mid y post he e hmem e' hmem' ?_
      rw [hpid, hpid', hx, hy]
  · intro h pre x mid y post he e hmem e' hmem' hpid
    obtain ⟨hx, hsx⟩ := of_mem_callEvents (hcalls x (by simp [he])) hmem
    obtain ⟨hy, hsy⟩ := of_mem_callEvents (hcalls y (by simp [he])) hmem'
    have hxy : x.caller = y.caller := by rw [← hx, ← hy, hpid]
    rcases h x.caller with ha | hp
    · have he' : xs = pre ++ x :: mid ++ y :: post := by simp [he]
      exact spaced_of_admitted hcalls hmono he' hxy ha hsx hsy
    · rw [List.pairwise_filter, pairwise_iff_split] at hp
      exact hp pre x mid y post he (decide_eq_true rfl) (decide_eq_true hxy.symm)

end EbpfTools.CamV2

import EbpfTools.CamIdentity.Lemmas.Calls

/-!
# cam_identity: the first version of the tool against the second
-/

namespace EbpfTools.CamIdentity
open EbpfTools.Lib
open EbpfTools.CamFlow (CamEvent CamContextStateArgs)
open EbpfTools.CamV2 (Task Slot BinderTransactionArgs CAMSERVER_MATCH_WINDOW_NS)

variable {camserverPid : UInt32} {xs : List Shared}

/-! ## Calls -/

theorem callReports_run (camserverPid : UInt32) (xs : List Shared) (pid : UInt32) :
    (callReports (runOut step (.init camserverPid) (xs.map Shared.firing))).filter
        (fun r => r.pid = pid) =
      ((accepted 256 camserverPid xs).filter fun c => c.caller = pid).flatMap Call.reports := by
  rw [(follows_run camserverPid xs).2, filter_flatMap_reports]

theorem callReportsV2_run (camserverPid : UInt32) (xs : List Shared) (pid : UInt32) :
    (callReportsV2 (runOut CamV2.step (.init camserverPid) (xs.map Shared.firingV2))).filter
        (fun r => r.pid = pid) =
      ((accepted 1024 camserverPid xs).filter fun c => c.caller = pid).flatMap Call.reports := by
  rw [(followsV2_run camserverPid xs).2, filter_flatMap_reports]

/-- Both versions report the same calls of each of the first 256 callers, and the first version
reports every call of any other. -/
theorem reported_calls (camserverPid : UInt32) (xs : List Shared) (pid : UInt32) :
    (Admitted 256 (callers camserverPid xs) pid →
      (callReports (runOut step (.init camserverPid) (xs.map Shared.firing))).filter
          (fun r => r.pid = pid) =
        (callReportsV2 (runOut CamV2.step (.init camserverPid) (xs.map Shared.firingV2))).filter
          (fun r => r.pid = pid)) ∧
    (¬ Admitted 256 (callers camserverPid xs) pid →
      (callReports (runOut step (.init camserverPid) (xs.map Shared.firing))).filter
          (fun r => r.pid = pid) =
        ((calls camserverPid xs).filter fun c => c.caller = pid).flatMap Call.reports) := by
  rw [callReports_run, callReportsV2_run, accepted, accepted]
  constructor
  · intro h
    have hsmall : Admitted 256 ((calls camserverPid xs).map Call.caller ++ []) pid := by
      rwa [List.append_nil]
    have hlarge : Admitted 1024 ((calls camserverPid xs).map Call.caller ++ []) pid :=
      admitted_mono (by decide) hsmall
    rw [runOut_limit_of_admitted hsmall, runOut_limit_of_admitted hlarge]
  · intro h
    have hnot : ¬ Admitted 256 ((calls camserverPid xs).map Call.caller ++ []) pid := by
      rwa [List.append_nil]
    rw [runOut_limit_of_not_admitted hnot]

/-! ## Sessions -/

theorem accepted_congr (h : (callers camserverPid xs).toFinset.card ≤ 256) :
    accepted 256 camserverPid xs = accepted 1024 camserverPid xs :=
  runOut_limit_congr (fun _ hk => admitted_of_card_le hk h)
    (fun _ hk => admitted_of_card_le hk (le_trans h (by decide)))

theorem appPid_run (camserverPid : UInt32) (xs : List Shared) :
    appPid (runState step (.init camserverPid) (xs.map Shared.firing)) =
      lastCaller (accepted 256 camserverPid xs) := by
  rw [appPid, (follows_run camserverPid xs).1.recent]
  rfl

theorem pid_of_mem_session {m : Maps} {task : Task} {args : CamContextStateArgs} {slot : Slot}
    {e : CamEvent} (h : e ∈ (traceCamContextState m task args slot).2) : e.pid = appPid m := by
  rw [traceCamContextState] at h
  split at h
  · cases h
  · split at h
    · rw [List.mem_singleton.mp h]
    · cases h

theorem of_mem_sessionV2 {m : CamV2.Maps} {task : Task} {now : UInt64} {slot : Slot}
    {e : CamV2.CamEvent} (h : e ∈ (CamV2.traceCamContextState m task now slot).2) :
    e.pid = CamV2.inferredPid m task.pid now ∧ e.extra2 = now - m.lastCallerNs := by
  rw [CamV2.traceCamContextState, CamV2.emitEvent] at h
  split at h
  · rw [List.mem_singleton.mp h]
    refine ⟨rfl, ?_⟩
    show (CamV2.getLastCaller m now).2 = _
    rw [CamV2.getLastCaller]
    split <;> rfl
  · cases h

/-- With at most 256 callers the second version attributes a session as the first does while its
last call is fresh, and to the current process otherwise. -/
theorem session_pid (h : (callers camserverPid xs).toFinset.card ≤ 256) (task : Task)
    (args : CamContextStateArgs) (now : UInt64) (slot : Slot) :
    ∀ e ∈ (step (runState step (.init camserverPid) (xs.map Shared.firing))
        (Shared.camContextState task args now slot).firing).2,
      ∀ e' ∈ (CamV2.step (runState CamV2.step (.init camserverPid) (xs.map Shared.firingV2))
          (Shared.camContextState task args now slot).firingV2).2,
        e'.pid = if e'.extra2 ≤ CAMSERVER_MATCH_WINDOW_NS ∧ e.pid ≠ 0 then e.pid else task.pid := by
  intro e he e' he'
  have hlast := (followsV2_run camserverPid xs).1.recent
  rw [← accepted_congr h, ← appPid_run] at hlast
  obtain ⟨hpid, hage⟩ := of_mem_sessionV2 he'
  rw [pid_of_mem_session he, hpid, hage, CamV2.inferredPid, CamV2.getLastCaller]
  by_cases hstale : now - (runState CamV2.step (.init camserverPid)
      (xs.map Shared.firingV2)).lastCallerNs > CAMSERVER_MATCH_WINDOW_NS
  · have hnot : ¬ now - (runState CamV2.step (.init camserverPid)
        (xs.map Shared.firingV2)).lastCallerNs ≤ CAMSERVER_MATCH_WINDOW_NS :=
      UInt64.not_le.mpr hstale
    simp [hstale, hnot]
  · have hfresh := UInt64.not_lt.mp hstale
    simp only [hstale, if_false, hfresh, true_and, hlast, ite_not]

def oneCall : List Shared :=
  [.binderTransaction ⟨4242, 10050, .zero _⟩ ⟨0, 900, 1⟩ 5000000000 ⟨true, 5000000100⟩
    ⟨true, 5000000200⟩]

theorem session_pid_oneCall :
    (callers 900 oneCall).toFinset.card ≤ 256 ∧
      ∀ e ∈ (step (runState step (.init 900) (oneCall.map Shared.firing))
          (Shared.camContextState ⟨900, 1047, .zero _⟩ ⟨0xAB12, 3⟩ 6000000000
            ⟨true, 6000000100⟩).firing).2,
        ∀ e' ∈ (CamV2.step (runState CamV2.step (.init 900) (oneCall.map Shared.firingV2))
            (Shared.camContextState ⟨900, 1047, .zero _⟩ ⟨0xAB12, 3⟩ 6000000000
              ⟨true, 6000000100⟩).firingV2).2,
          e'.pid = if e'.extra2 ≤ CAMSERVER_MATCH_WINDOW_NS ∧ e.pid ≠ 0 then e.pid else 900 :=
  ⟨by decide, session_pid (by decide) _ _ _ _⟩

end EbpfTools.CamIdentity

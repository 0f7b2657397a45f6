import EbpfTools.CamIdentity.Kernel
import EbpfTools.CamV2.Lemmas.Attribution
import EbpfTools.Lib.Limiter

/-!
# The calls that either version of the tool accepts

Both versions pass the calls of apps through a rate limiter, one of 256 entries and one of 1024,
and both remember the caller of the last call that got through.
-/

namespace EbpfTools.CamIdentity
open EbpfTools.Lib
open EbpfTools.CamFlow (CamEvent CamContextStateArgs)
open EbpfTools.CamV2 (Task Slot BinderTransactionArgs Qualifies BINDER_DEDUP_WINDOW_NS)

/-! ## Firings both versions see -/

/-- One firing of a tracepoint that both versions attach to. -/
inductive Shared
  | binderTransaction (task : Task) (args : BinderTransactionArgs) (now : UInt64)
      (edge call : Slot)
  | camContextState (task : Task) (args : CamContextStateArgs) (now : UInt64) (slot : Slot)

def Shared.firing : Shared → Firing
  | .binderTransaction task args now _ call => .binderTransaction task args now call
  | .camContextState task args _ slot => .camContextState task args slot

def Shared.firingV2 : Shared → CamV2.Firing
  | .binderTransaction task args now edge call => .binderTransaction task args now edge call
  | .camContextState task _ now slot => .camContextState task now slot

/-- A call of an app to a known cameraserver. -/
structure Call where
  task : Task
  args : BinderTransactionArgs
  now : UInt64
  slot : Slot

def Call.caller (c : Call) : UInt32 := c.task.pid

def Shared.call (camserverPid : UInt32) : Shared → Option Call
  | .binderTransaction task args now _ call =>
      if camserverPid ≠ 0 ∧ Qualifies camserverPid task args then some ⟨task, args, now, call⟩
      else none
  | .camContextState _ _ _ _ => none

def calls (camserverPid : UInt32) (xs : List Shared) : List Call :=
  xs.filterMap (Shared.call camserverPid)

def callers (camserverPid : UInt32) (xs : List Shared) : List UInt32 :=
  (calls camserverPid xs).map Call.caller

def near (now t : UInt64) : Bool := now - t < BINDER_DEDUP_WINDOW_NS

abbrev limitCalls {cap : Nat} :
    BoundedMap UInt32 UInt64 cap → Call → BoundedMap UInt32 UInt64 cap × List Call :=
  limit Call.caller Call.now near

/-- The calls a limiter with `cap` entries lets through. -/
def accepted (cap : Nat) (camserverPid : UInt32) (xs : List Shared) : List Call :=
  runOut limitCalls (BoundedMap.empty : BoundedMap UInt32 UInt64 cap) (calls camserverPid xs)

def seenAfter (cap : Nat) (camserverPid : UInt32) (xs : List Shared) :
    BoundedMap UInt32 UInt64 cap :=
  runState limitCalls BoundedMap.empty (calls camserverPid xs)

/-- The caller of the last of `cs`, and zero without one. -/
def lastCaller (cs : List Call) : UInt32 := (cs.getLast?.map Call.caller).getD 0

/-! ## What is reported of a call -/

structure Report where
  pid : UInt32
  uid : UInt32
  comm : Buf CamV2.TASK_COMM_LEN
  toProc : UInt64
  code : UInt64
  deriving DecidableEq

def report (e : CamEvent) : Report := ⟨e.pid, e.uid, e.comm, e.extra1, e.extra2⟩

def reportV2 (e : CamV2.CamEvent) : Report := ⟨e.pid, e.uid, e.comm, e.extra1, e.extra2⟩

def Call.reports (c : Call) : List Report :=
  if c.slot.reserved then
    [⟨c.task.pid, c.task.uid, c.task.comm, c.args.toProc.toUInt32.toUInt64, c.args.code.toUInt64⟩]
  else []

def callReports (es : List CamEvent) : List Report :=
  (es.filter fun e => e.eventType = EVENT_BINDER_CALL).map report

def callReportsV2 (es : List CamV2.CamEvent) : List Report :=
  (es.filter fun e => e.eventType = CamV2.EVENT_BINDER_CALL).map reportV2

theorem callReports_append (es fs : List CamEvent) :
    callReports (es ++ fs) = callReports es ++ callReports fs := by
  simp [callReports]

theorem callReportsV2_append (es fs : List CamV2.CamEvent) :
    callReportsV2 (es ++ fs) = callReportsV2 es ++ callReportsV2 fs := by
  simp [callReportsV2]

theorem pid_of_mem_reports {c : Call} {r : Report} (h : r ∈ c.reports) : r.pid = c.caller := by
  rw [Call.reports] at h
  split at h
  · rw [List.mem_singleton.mp h]
    rfl
  · cases h

/-- The reports about one process are those of its own calls. -/
theorem filter_flatMap_reports (cs : List Call) (pid : UInt32) :
    (cs.flatMap Call.reports).filter (fun r => r.pid = pid) =
      (cs.filter fun c => c.caller = pid).flatMap Call.reports := by
  induction cs with
  | nil => rfl
  | cons c cs ih =>
      rw [List.flatMap_cons, List.filter_append, ih, List.filter_cons]
      by_cases hc : c.caller = pid
      · have hall : c.reports.filter (fun r => r.pid = pid) = c.reports := by
          rw [List.filter_eq_self]
          intro r hr
          rw [pid_of_mem_reports hr, hc]
          exact decide_eq_true rfl
        rw [hall, if_pos (decide_eq_true hc), List.flatMap_cons]
      · have hnone : c.reports.filter (fun r => r.pid = pid) = [] := by
          rw [List.filter_eq_nil_iff]
          intro r hr
          rw [pid_of_mem_reports hr]
          simpa using hc
        rw [hnone, if_neg (by simpa using hc), List.nil_append]

/-! ## One more firing -/

variable {camserverPid : UInt32} {xs : List Shared} {x : Shared} {cap : Nat}

theorem accepted_concat_of_none (h : x.call camserverPid = none) :
    accepted cap camserverPid (xs ++ [x]) = accepted cap camserverPid xs := by
  simp [accepted, calls, h]

theorem seenAfter_concat_of_none (h : x.call camserverPid = none) :
    seenAfter cap camserverPid (xs ++ [x]) = seenAfter cap camserverPid xs := by
  simp [seenAfter, calls, h]

theorem accepted_concat_of_some {c : Call} (h : x.call camserverPid = some c) :
    accepted cap camserverPid (xs ++ [x]) =
      accepted cap camserverPid xs ++ (limitCalls (seenAfter cap camserverPid xs) c).2 := by
  simp [accepted, seenAfter, calls, h, runOut_append]

theorem seenAfter_concat_of_some {c : Call} (h : x.call camserverPid = some c) :
    seenAfter cap camserverPid (xs ++ [x]) =
      (limitCalls (seenAfter cap camserverPid xs) c).1 := by
  simp [seenAfter, calls, h, runState_append]

theorem lastCaller_concat (cs : List Call) (c : Call) :
    lastCaller (cs ++ [c]) = c.caller := by
  simp [lastCaller]

/-! ## The first version -/

theorem traceBinderTransaction_of_not_call {m : Maps} {task : Task} {args : BinderTransactionArgs}
    {now : UInt64} {slot : Slot} (h : ¬ (m.camserverPid ≠ 0 ∧ Qualifies m.camserverPid task args)) :
    traceBinderTransaction m task args now slot = (m, []) := by
  unfold traceBinderTransaction
  split
  · rfl
  split
  · rfl
  split
  · rfl
  split
  · rfl
  split
  · rfl
  rename_i hreply hcam hproc hpid huid
  exact absurd ⟨hcam, not_ne_iff.mp hreply, not_ne_iff.mp hproc, hpid, UInt32.not_lt.mp huid⟩ h

/-- A call does what the limiter says. -/
theorem traceBinderTransaction_of_call {m : Maps} {task : Task} {args : BinderTransactionArgs}
    {now : UInt64} {slot : Slot} (hcam : m.camserverPid ≠ 0)
    (h : Qualifies m.camserverPid task args) :
    (limitCalls m.seenCallers ⟨task, args, now, slot⟩ = (m.seenCallers, []) ∧
      traceBinderTransaction m task args now slot = (m, [])) ∨
    (limitCalls m.seenCallers ⟨task, args, now, slot⟩ =
        (m.seenCallers.update task.pid now, [⟨task, args, now, slot⟩]) ∧
      (traceBinderTransaction m task args now slot).1 =
        { m with
          seenCallers := m.seenCallers.update task.pid now
          recentCaller := m.recentCaller.update 0 task.pid } ∧
      callReports (traceBinderTransaction m task args now slot).2 =
        (⟨task, args, now, slot⟩ : Call).reports) := by
  obtain ⟨hreply, hproc, hpid, huid⟩ := h
  have huid' : ¬ task.uid < 10000 := UInt32.not_lt.mpr huid
  by_cases hnear : (m.seenCallers.lookup task.pid).any (near now)
  · left
    refine ⟨by simp [limitCalls, limit, Call.caller, hnear], ?_⟩
    have hnear' : (m.seenCallers.lookup task.pid).any (fun t => now - t < 500000000) := hnear
    simp [traceBinderTransaction, hreply, hproc, hcam, hpid, huid', hnear']
  · right
    have hnear' : ¬ (m.seenCallers.lookup task.pid).any (fun t => now - t < 500000000) := hnear
    refine ⟨by simp [limitCalls, limit, Call.caller, hnear], ?_, ?_⟩
    · simp [traceBinderTransaction, hreply, hproc, hcam, hpid, huid', hnear']
    · simp only [traceBinderTransaction, hreply, hproc, hcam, hpid, huid', hnear', ne_eq,
        not_true, if_false, Call.reports]
      by_cases hslot : slot.reserved <;> simp [hslot, callReports, report]

/-- The maps of the first version against the firings handled so far. -/
structure Follows (camserverPid : UInt32) (xs : List Shared) (m : Maps) : Prop where
  config : m.camserverPid = camserverPid
  seen : m.seenCallers = seenAfter 256 camserverPid xs
  room : m.recentCaller.Room 0
  recent : m.recentCaller.lookup 0 = (accepted 256 camserverPid xs).getLast?.map Call.caller

theorem follows_init (camserverPid : UInt32) : Follows camserverPid [] (.init camserverPid) where
  config := rfl
  seen := rfl
  room := Or.inr (show 0 < 16 by decide)
  recent := rfl

/-- One firing keeps the maps in step, and the limiter decides what is reported. -/
theorem follows_step {m : Maps} (h : Follows camserverPid xs m) (x : Shared) :
    Follows camserverPid (xs ++ [x]) (step m x.firing).1 ∧
      ∃ cs, accepted 256 camserverPid (xs ++ [x]) = accepted 256 camserverPid xs ++ cs ∧
        callReports (step m x.firing).2 = cs.flatMap Call.reports := by
  have hskip : x.call camserverPid = none → Follows camserverPid (xs ++ [x]) m := by
    intro hx
    refine ⟨h.config, ?_, h.room, ?_⟩
    · rw [seenAfter_concat_of_none hx, h.seen]
    · rw [accepted_concat_of_none hx, h.recent]
  cases x with
  | camContextState task args now slot =>
      have hx : (Shared.camContextState task args now slot).call camserverPid = none := rfl
      rw [Shared.firing, step, traceCamContextState]
      split
      · exact ⟨hskip hx, [], by rw [accepted_concat_of_none hx, List.append_nil], rfl⟩
      · refine ⟨hskip hx, [], by rw [accepted_concat_of_none hx, List.append_nil], ?_⟩
        by_cases hslot : slot.reserved
        · rw [if_pos hslot]
          rfl
        · rw [if_neg hslot]
          rfl
  | binderTransaction task args now edge call =>
      rw [Shared.firing, step]
      by_cases hq : m.camserverPid ≠ 0 ∧ Qualifies m.camserverPid task args
      · have hx : (Shared.binderTransaction task args now edge call).call camserverPid =
            some ⟨task, args, now, call⟩ := if_pos (h.config ▸ hq)
        rw [accepted_concat_of_some hx, ← h.seen]
        rcases traceBinderTransaction_of_call hq.1 hq.2 with ⟨hl, ht⟩ | ⟨hl, hm, hreports⟩
        · rw [ht, hl]
          refine ⟨⟨h.config, ?_, h.room, ?_⟩, [], rfl, rfl⟩
          · rw [seenAfter_concat_of_some hx, ← h.seen, hl]
          · rw [accepted_concat_of_some hx, ← h.seen, hl, List.append_nil, h.recent]
        · rw [hm, hl]
          refine ⟨⟨h.config, ?_, ?_, ?_⟩, [⟨task, args, now, call⟩], rfl, ?_⟩
          · rw [seenAfter_concat_of_some hx, ← h.seen, hl]
          · exact Or.inl (BoundedMap.isSome_lookup.mp
              (by rw [BoundedMap.lookup_update_self _ h.room]; exact Option.some_ne_none _))
          · rw [accepted_concat_of_some hx, ← h.seen, hl, List.getLast?_concat]
            exact BoundedMap.lookup_update_self _ h.room
          · rw [hreports, List.flatMap_singleton]
      · have hx : (Shared.binderTransaction task args now edge call).call camserverPid = none :=
          if_neg (h.config ▸ hq)
        rw [traceBinderTransaction_of_not_call hq]
        exact ⟨hskip hx, [], by rw [accepted_concat_of_none hx, List.append_nil], rfl⟩

theorem follows_run (camserverPid : UInt32) (xs : List Shared) :
    Follows camserverPid xs (runState step (.init camserverPid) (xs.map Shared.firing)) ∧
      callReports (runOut step (.init camserverPid) (xs.map Shared.firing)) =
        (accepted 256 camserverPid xs).flatMap Call.reports := by
  induction xs using List.reverseRecOn with
  | nil => exact ⟨follows_init camserverPid, rfl⟩
  | append_singleton xs x ih =>
      obtain ⟨hfollows, cs, hcs, hout⟩ := follows_step ih.1 x
      rw [List.map_append, List.map_singleton, runState_concat, runOut_concat]
      refine ⟨hfollows, ?_⟩
      rw [callReports_append, ih.2, hout, hcs, List.flatMap_append]

/-! ## The second version -/

/-- The maps of the second version against the firings handled so far. -/
structure FollowsV2 (camserverPid : UInt32) (xs : List Shared) (m : CamV2.Maps) : Prop where
  config : m.camserverPid = camserverPid
  seen : m.recentCaller = seenAfter 1024 camserverPid xs
  recent : m.lastCaller = lastCaller (accepted 1024 camserverPid xs)

theorem traceBinderTransactionV2_of_call {m : CamV2.Maps} {task : Task}
    {args : BinderTransactionArgs} {now : UInt64} {edge call : Slot} (hcam : m.camserverPid ≠ 0)
    (h : Qualifies m.camserverPid task args) :
    (limitCalls m.recentCaller ⟨task, args, now, call⟩ = (m.recentCaller, []) ∧
      CamV2.traceBinderTransaction m task args now edge call = (m, [])) ∨
    (limitCalls m.recentCaller ⟨task, args, now, call⟩ =
        (m.recentCaller.update task.pid now, [⟨task, args, now, call⟩]) ∧
      (CamV2.traceBinderTransaction m task args now edge call).1 =
        CamV2.rememberCaller m task.pid now ∧
      callReportsV2 (CamV2.traceBinderTransaction m task args now edge call).2 =
        (⟨task, args, now, call⟩ : Call).reports) := by
  obtain ⟨hreply, hproc, hpid, huid⟩ := h
  have huid' : ¬ task.uid < 10000 := UInt32.not_lt.mpr huid
  by_cases hnear : (m.recentCaller.lookup task.pid).any (near now)
  · left
    refine ⟨by simp [limitCalls, limit, Call.caller, hnear], ?_⟩
    have hnear' : (m.recentCaller.lookup task.pid).any
        (fun t => now - t < BINDER_DEDUP_WINDOW_NS) := hnear
    simp [CamV2.traceBinderTransaction, hreply, hproc, hcam, hpid, huid', hnear']
  · right
    have hnear' : ¬ (m.recentCaller.lookup task.pid).any
        (fun t => now - t < BINDER_DEDUP_WINDOW_NS) := hnear
    refine ⟨by simp [limitCalls, limit, Call.caller, hnear], ?_, ?_⟩
    · simp [CamV2.traceBinderTransaction, hreply, hproc, hcam, hpid, huid', hnear']
    · simp only [CamV2.traceBinderTransaction, hreply, hproc, hcam, hpid, huid', hnear', ne_eq,
        not_true, if_false, CamV2.emitEvent, Call.reports]
      by_cases hedge : edge.reserved <;> by_cases hcall : call.reserved <;>
        simp [hedge, hcall, callReportsV2, reportV2, CamV2.EVENT_DELEGATION_EDGE,
          CamV2.EVENT_BINDER_CALL]

theorem followsV2_step {m : CamV2.Maps} (h : FollowsV2 camserverPid xs m) (x : Shared) :
    FollowsV2 camserverPid (xs ++ [x]) (CamV2.step m x.firingV2).1 ∧
      ∃ cs, accepted 1024 camserverPid (xs ++ [x]) = accepted 1024 camserverPid xs ++ cs ∧
        callReportsV2 (CamV2.step m x.firingV2).2 = cs.flatMap Call.reports := by
  have hskip : x.call camserverPid = none → FollowsV2 camserverPid (xs ++ [x]) m := by
    intro hx
    refine ⟨h.config, ?_, ?_⟩
    · rw [seenAfter_concat_of_none hx, h.seen]
    · rw [accepted_concat_of_none hx, h.recent]
  cases x with
  | camContextState task args now slot =>
      have hx : (Shared.camContextState task args now slot).call camserverPid = none := rfl
      rw [Shared.firingV2, CamV2.step, CamV2.traceCamContextState, CamV2.emitEvent]
      refine ⟨hskip hx, [], by rw [accepted_concat_of_none hx, List.append_nil], ?_⟩
      by_cases hslot : slot.reserved
      · rw [if_pos hslot]
        rfl
      · rw [if_neg hslot]
        rfl
  | binderTransaction task args now edge call =>
      rw [Shared.firingV2, CamV2.step]
      by_cases hq : m.camserverPid ≠ 0 ∧ Qualifies m.camserverPid task args
      · have hx : (Shared.binderTransaction task args now edge call).call camserverPid =
            some ⟨task, args, now, call⟩ := if_pos (h.config ▸ hq)
        rw [accepted_concat_of_some hx, ← h.seen]
        rcases traceBinderTransactionV2_of_call hq.1 hq.2 with ⟨hl, ht⟩ | ⟨hl, hm, hreports⟩
        · rw [ht, hl]
          refine ⟨⟨h.config, ?_, ?_⟩, [], rfl, rfl⟩
          · rw [seenAfter_concat_of_some hx, ← h.seen, hl]
          · rw [accepted_concat_of_some hx, ← h.seen, hl, List.append_nil, h.recent]
        · rw [hm, hl]
          refine ⟨⟨h.config, ?_, ?_⟩, [⟨task, args, now, call⟩], rfl, ?_⟩
          · rw [seenAfter_concat_of_some hx, ← h.seen, hl]
            rfl
          · rw [accepted_concat_of_some hx, ← h.seen, hl, lastCaller_concat]
            rfl
          · rw [hreports, List.flatMap_singleton]
      · have hx : (Shared.binderTransaction task args now edge call).call camserverPid = none :=
          if_neg (h.config ▸ hq)
        have hstay : CamV2.traceBinderTransaction m task args now edge call = (m, []) := by
          rcases CamV2.traceBinderTransaction_cases m task args now edge call with
            ⟨hstay, -⟩ | ⟨hqual, -, hm⟩
          · exact hstay
          · have hcam : m.camserverPid = 0 := not_ne_iff.mp fun hn => hq ⟨hn, hqual⟩
            simp [CamV2.traceBinderTransaction, hcam]
        rw [hstay]
        exact ⟨hskip hx, [], by rw [accepted_concat_of_none hx, List.append_nil], rfl⟩

theorem followsV2_run (camserverPid : UInt32) (xs : List Shared) :
    FollowsV2 camserverPid xs
        (runState CamV2.step (.init camserverPid) (xs.map Shared.firingV2)) ∧
      callReportsV2 (runOut CamV2.step (.init camserverPid) (xs.map Shared.firingV2)) =
        (accepted 1024 camserverPid xs).flatMap Call.reports := by
  induction xs using List.reverseRecOn with
  | nil => exact ⟨⟨rfl, rfl, rfl⟩, rfl⟩
  | append_singleton xs x ih =>
      obtain ⟨hfollows, cs, hcs, hout⟩ := followsV2_step ih.1 x
      rw [List.map_append, List.map_singleton, runState_concat, runOut_concat]
      refine ⟨hfollows, ?_⟩
      rw [callReportsV2_append, ih.2, hout, hcs, List.flatMap_append]

end EbpfTools.CamIdentity

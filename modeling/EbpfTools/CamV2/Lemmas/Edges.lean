import EbpfTools.Lib.Clock
import EbpfTools.Lib.Run
import EbpfTools.CamV2.Userspace

/-!
# Which edge an event is linked to

The table of edges holds the last 64 delegation edges handled, and a search from the newest on finds
the most recent one of a process within the window.
-/

namespace EbpfTools.CamV2
open EbpfTools.Lib

/-! ## The edges of a run -/

/-- The edge that handling an event adds to the table. -/
def edgeOf (e : CamEvent) (i : Inputs) : Option EdgeRecord :=
  if e.eventType = EVENT_DELEGATION_EDGE then
    some (edgeRecord e.pid e.extra1.toUInt32 e.extra2.toUInt32 (some (appName e i))
      (some (ascii "cameraserver")) e.timestamp)
  else none

/-- All edges remembered while the events are handled. -/
def edgesOf (env : Nat → Inputs) (es : List CamEvent) : List EdgeRecord :=
  es.zipIdx.filterMap fun x => edgeOf x.1 (env x.2)

/-- The events of a run, in the order they are delivered. -/
def emitted (camserverPid : UInt32) (xs : List Firing) : List CamEvent :=
  runOut step (Maps.init camserverPid) xs

/-- The edge is at most 2 s older than `ts`. -/
def inWindow (ts : UInt64) (e : EdgeRecord) : Bool :=
  e.ts.toNat ≤ ts.toNat ∧ ts.toNat ≤ e.ts.toNat + CHAIN_WINDOW_NS.toNat

/-- The most recent edge of the last 64 that is at most 2 s older than `ts`, whatever its source. -/
def recentEdge (ts : UInt64) (edges : List EdgeRecord) : Option EdgeRecord :=
  latest (inWindow ts) (edges.rtake MAX_EDGES)

/-- The event is linked to the edge: the search finds it and a line printed names its source. -/
def Linked (s : State) (e : CamEvent) (i : Inputs) (r : EdgeRecord) : Prop :=
  findRecentEdge s.edges e.pid e.timestamp = some r ∧
    ∃ s' lines, handleEvent s e i = some (s', lines) ∧ .link r.srcName ∈ lines

/-- The result of handling events against the edges remembered on the way: the table holds the last
ones, unless there were more than an `int` counts. -/
def Tracked (xs : List EdgeRecord) : Option State → Prop
  | some s => xs.length ≤ INT_MAX ∧ s.edges.Holds MAX_EDGES xs
  | none => INT_MAX < xs.length

/-! ## One event -/

@[simp] theorem edges_readForegroundPackage (s : State) (i : Inputs) :
    (readForegroundPackage s i).1.edges = s.edges := by
  unfold readForegroundPackage
  split
  · rfl
  split
  · rfl
  · dsimp only
    split <;> rfl

theorem edges_handleEvent_of_edge (s : State) {e : CamEvent} {i : Inputs} {r : EdgeRecord}
    (h : edgeOf e i = some r) :
    (handleEvent s e i).map (fun p => p.1.edges) =
      if s.edges.pos = INT_MAX then none else some (s.edges.push MAX_EDGES r) := by
  rw [edgeOf, Option.ite_none_right_eq_some] at h
  obtain ⟨htype, hr⟩ := h
  rw [← Option.some.inj hr, handleEvent, if_pos htype, rememberEdge, edges_readForegroundPackage]
  by_cases hmax : s.edges.pos = INT_MAX
  · rw [if_pos hmax]
    rfl
  · rw [if_neg hmax]
    rfl

theorem edges_handleEvent_of_none (s : State) {e : CamEvent} {i : Inputs}
    (h : edgeOf e i = none) :
    (handleEvent s e i).map (fun p => p.1.edges) = some s.edges := by
  rw [edgeOf, ite_eq_right_iff] at h
  have htype : e.eventType ≠ EVENT_DELEGATION_EDGE := fun he => by cases h he
  rw [handleEvent, if_neg htype]
  split
  · exact congrArg some (edges_readForegroundPackage s i)
  split
  · exact congrArg some (edges_readForegroundPackage s i)
  split <;> exact congrArg some (edges_readForegroundPackage s i)

theorem tracked_handleEvent {xs : List EdgeRecord} {s : State} (h : Tracked xs (some s))
    (e : CamEvent) (i : Inputs) :
    Tracked (xs ++ (edgeOf e i).toList) ((handleEvent s e i).map Prod.fst) := by
  obtain ⟨hle, hholds⟩ := h
  cases hedge : edgeOf e i with
  | none =>
      obtain ⟨p, hp, hedges⟩ := Option.map_eq_some_iff.mp (edges_handleEvent_of_none s hedge)
      rw [hp, Option.map_some, Option.toList_none, List.append_nil, Tracked, hedges]
      exact ⟨hle, hholds⟩
  | some r =>
      have h := edges_handleEvent_of_edge s hedge
      rw [Option.toList_some]
      by_cases hmax : s.edges.pos = INT_MAX
      · rw [if_pos hmax, Option.map_eq_none_iff] at h
        rw [h, Option.map_none, Tracked, List.length_append, List.length_singleton, ← hmax,
          hholds.pos_eq]
        omega
      · rw [if_neg hmax] at h
        obtain ⟨p, hp, hedges⟩ := Option.map_eq_some_iff.mp h
        rw [hholds.pos_eq] at hmax
        rw [hp, Option.map_some, Tracked, hedges, List.length_append, List.length_singleton]
        exact ⟨by omega, hholds.push r⟩

/-! ## Runs -/

theorem handleEvents_concat (env : Nat → Inputs) (es : List CamEvent) (e : CamEvent) :
    handleEvents env (es ++ [e]) =
      (handleEvents env es).bind fun s => (handleEvent s e (env es.length)).map Prod.fst := by
  rw [handleEvents, List.zipIdx_append, List.foldlM_append]
  simp [handleEvents]

theorem edgesOf_concat (env : Nat → Inputs) (es : List CamEvent) (e : CamEvent) :
    edgesOf env (es ++ [e]) = edgesOf env es ++ (edgeOf e (env es.length)).toList := by
  rw [edgesOf, List.zipIdx_append, List.filterMap_append]
  cases h : edgeOf e (env es.length) <;> simp [edgesOf, h]

theorem tracked_handleEvents (env : Nat → Inputs) (es : List CamEvent) :
    Tracked (edgesOf env es) (handleEvents env es) := by
  induction es using List.reverseRecOn with
  | nil =>
      have hzero : (0 : Int) ≤ INT_MAX := by decide
      exact ⟨hzero, RingLog.holds_empty _⟩
  | append_singleton es e ih =>
      rw [handleEvents_concat, edgesOf_concat]
      cases hs : handleEvents env es with
      | none =>
          rw [hs, Tracked] at ih
          rw [Option.bind_none, Tracked, List.length_append]
          omega
      | some s =>
          rw [hs] at ih
          exact tracked_handleEvent ih e (env es.length)

/-- The events can all be handled exactly when their edges do not overflow `edge_pos`. -/
theorem exists_handleEvents_iff (env : Nat → Inputs) (es : List CamEvent) :
    (∃ s, handleEvents env es = some s) ↔ (edgesOf env es).length ≤ INT_MAX := by
  have h := tracked_handleEvents env es
  cases hs : handleEvents env es with
  | none =>
      rw [hs, Tracked] at h
      simpa using h
  | some s =>
      rw [hs, Tracked] at h
      simpa using h.1

theorem holds_of_handleEvents {env : Nat → Inputs} {es : List CamEvent} {s : State}
    (h : handleEvents env es = some s) : s.edges.Holds MAX_EDGES (edgesOf env es) := by
  have htracked := tracked_handleEvents env es
  rw [h] at htracked
  exact htracked.2

/-! ## The search -/

variable {r : RingLog EdgeRecord} {xs : List EdgeRecord} {pid : UInt32} {ts : UInt64}
  {edge : EdgeRecord}

theorem inWindow_iff : inWindow ts edge ↔ ts ≥ edge.ts ∧ ts - edge.ts ≤ CHAIN_WINDOW_NS := by
  rw [inWindow, decide_eq_true_eq, ge_iff_le, UInt64.le_iff_toNat_le]
  exact and_congr_right fun h => (elapsed_le_iff h).symm

theorem findRecentEdgeLoop_eq_search (left i : Nat) :
    findRecentEdgeLoop r pid ts left i =
      r.search MAX_EDGES (fun e => e.srcPid = pid ∧ inWindow ts e) left i := by
  induction left generalizing i with
  | zero => rfl
  | succ left ih =>
      simp only [findRecentEdgeLoop, RingLog.search, ih, inWindow_iff, decide_eq_true_eq]
      split
      · rfl
      split
      · rename_i hpid
        rw [if_neg fun h => hpid h.1]
      · rename_i hpid
        simp only [not_ne_iff.mp hpid, true_and]

theorem findRecentEdge_eq (h : r.Holds MAX_EDGES xs) :
    findRecentEdge r pid ts =
      latest (fun e => e.srcPid = pid ∧ inWindow ts e) (xs.rtake MAX_EDGES) := by
  rw [findRecentEdge, findRecentEdgeLoop_eq_search, h.search_eq]

/-- The search finds the most recent edge of all exactly when it searches for that edge's source. -/
theorem findRecentEdge_eq_recentEdge_iff (h : r.Holds MAX_EDGES xs)
    (hedge : recentEdge ts xs = some edge) :
    findRecentEdge r pid ts = some edge ↔ pid = edge.srcPid := by
  rw [findRecentEdge_eq h]
  constructor
  · intro hlatest
    exact (of_decide_eq_true (of_latest hlatest).2).1.symm
  · rintro rfl
    exact latest_of_latest hedge (decide_eq_true ⟨rfl, (of_latest hedge).2⟩)
      fun e he => (of_decide_eq_true he).2

/-! ## Calls of `remember_edge` -/

-- its arguments
structure EdgeCall where
  srcPid : UInt32
  dstPid : UInt32
  code : UInt32
  srcName : Option (List UInt8)
  dstName : Option (List UInt8)
  ts : UInt64

def EdgeCall.record (c : EdgeCall) : EdgeRecord :=
  edgeRecord c.srcPid c.dstPid c.code c.srcName c.dstName c.ts

def rememberEdges (r : RingLog EdgeRecord) (calls : List EdgeCall) :
    Option (RingLog EdgeRecord) :=
  calls.foldlM (fun r c => rememberEdge r c.srcPid c.dstPid c.code c.srcName c.dstName c.ts) r

/-- Up to `INT_MAX` calls keep the log of their records. -/
theorem holds_rememberEdges (slots : Int → EdgeRecord) {calls : List EdgeCall}
    (h : calls.length ≤ INT_MAX) :
    ∃ r, rememberEdges ⟨slots, 0⟩ calls = some r ∧
      r.Holds MAX_EDGES (calls.map EdgeCall.record) := by
  induction calls using List.reverseRecOn with
  | nil => exact ⟨_, rfl, RingLog.holds_empty slots⟩
  | append_singleton calls c ih =>
      rw [List.length_append, List.length_singleton] at h
      obtain ⟨r, hr, hholds⟩ := ih (by omega)
      have hpos : r.pos ≠ INT_MAX := by
        rw [hholds.pos_eq, List.length_map]
        omega
      refine ⟨r.push MAX_EDGES c.record, ?_, ?_⟩
      · have hstep : rememberEdge r c.srcPid c.dstPid c.code c.srcName c.dstName c.ts =
            some (r.push MAX_EDGES c.record) := if_neg hpos
        rw [rememberEdges, List.foldlM_append, ← rememberEdges, hr, Option.bind_eq_bind,
          Option.bind_some, List.foldlM_cons, hstep]
        rfl
      · rw [List.map_append, List.map_singleton]
        exact hholds.push c.record

/-! ## Events of the tracepoints -/

theorem of_mem_emitEvent {task : Task} {slot : Slot}
    {eventType pid uid cameraId bufferId : UInt32} {extra1 extra2 : UInt64} {entity : String}
    {e : CamEvent}
    (h : e ∈ emitEvent task slot eventType pid uid cameraId bufferId extra1 extra2 entity) :
    e.eventType = eventType ∧ e.pid = pid ∧ e.timestamp = slot.ktime := by
  rw [emitEvent] at h
  split at h
  · rw [List.mem_singleton] at h
    rw [h]
    exact ⟨rfl, rfl, rfl⟩
  · cases h

/-! ## Frame events -/

def IsFrameEvent (e : CamEvent) : Prop :=
  e.eventType = EVENT_CAPTURE_REQUEST ∨ e.eventType = EVENT_FRAME_DONE ∨
    e.eventType = EVENT_FRAME_BUFFER_QBUF ∨ e.eventType = EVENT_FRAME_BUFFER_DQBUF

/-- The tracepoints of frame activity. -/
def frameFirings : List (Task → Slot → Firing) :=
  [.camApplyReq, .camBufDone, .v4l2Qbuf, .v4l2Dqbuf]

theorem of_mem_frameFirings {frame : Task → Slot → Firing} (hf : frame ∈ frameFirings) {m : Maps}
    {task : Task} {slot : Slot} {e : CamEvent} (he : e ∈ (step m (frame task slot)).2) :
    e.pid = task.pid ∧ e.timestamp = slot.ktime ∧ IsFrameEvent e := by
  simp only [frameFirings, List.mem_cons, List.not_mem_nil, or_false] at hf
  rcases hf with rfl | rfl | rfl | rfl
  · obtain ⟨htype, hpid, hts⟩ := of_mem_emitEvent he
    exact ⟨hpid, hts, Or.inl htype⟩
  · obtain ⟨htype, hpid, hts⟩ := of_mem_emitEvent he
    exact ⟨hpid, hts, Or.inr (Or.inl htype)⟩
  · obtain ⟨htype, hpid, hts⟩ := of_mem_emitEvent he
    exact ⟨hpid, hts, Or.inr (Or.inr (Or.inl htype))⟩
  · obtain ⟨htype, hpid, hts⟩ := of_mem_emitEvent he
    exact ⟨hpid, hts, Or.inr (Or.inr (Or.inr htype))⟩

theorem IsFrameEvent.not_delegation {e : CamEvent} (h : IsFrameEvent e) :
    e.eventType ≠ EVENT_DELEGATION_EDGE ∧ e.eventType ≠ EVENT_BINDER_CALL ∧
      e.eventType ≠ EVENT_APP_SESSION := by
  rcases h with h | h | h | h <;> rw [h] <;> decide

/-- A frame event for which the search finds an edge is printed with its source. -/
theorem link_of_findRecentEdge {s : State} {e : CamEvent} {i : Inputs} {edge : EdgeRecord}
    (he : IsFrameEvent e) (h : findRecentEdge s.edges e.pid e.timestamp = some edge) :
    Linked s e i edge := by
  obtain ⟨hdelegation, hcall, hsession⟩ := he.not_delegation
  rw [IsFrameEvent] at he
  refine ⟨h, ?_⟩
  rw [handleEvent, if_neg hdelegation, if_neg hcall, if_neg hsession, if_pos he,
    edges_readForegroundPackage, h]
  exact ⟨_, _, rfl, by simp⟩

/-- Whatever was handled before, a frame event is linked to the most recent edge exactly when it
carries the pid of that edge's source and the edges did not overflow `edge_pos`. -/
theorem exists_linked_iff (env : Nat → Inputs) (es : List CamEvent) {e : CamEvent} (i : Inputs)
    {edge : EdgeRecord} (he : IsFrameEvent e)
    (hedge : recentEdge e.timestamp (edgesOf env es) = some edge) :
    (∃ s, handleEvents env es = some s ∧ Linked s e i edge) ↔
      e.pid = edge.srcPid ∧ (edgesOf env es).length ≤ INT_MAX := by
  constructor
  · rintro ⟨s, hs, hfound, -⟩
    exact ⟨(findRecentEdge_eq_recentEdge_iff (holds_of_handleEvents hs) hedge).mp hfound,
      (exists_handleEvents_iff env es).mp ⟨s, hs⟩⟩
  · rintro ⟨hpid, hle⟩
    obtain ⟨s, hs⟩ := (exists_handleEvents_iff env es).mpr hle
    have hfound := (findRecentEdge_eq_recentEdge_iff (holds_of_handleEvents hs) hedge).mpr hpid
    exact ⟨s, hs, link_of_findRecentEdge he hfound⟩

/-! ## The source of an edge -/

theorem of_mem_traceBinderTransaction {m : Maps} {task : Task} {args : BinderTransactionArgs}
    {now : UInt64} {edge call : Slot} {e : CamEvent}
    (h : e ∈ (traceBinderTransaction m task args now edge call).2) :
    e.pid = task.pid ∧ task.pid ≠ 0 := by
  unfold traceBinderTransaction at h
  split at h
  · cases h
  split at h
  · cases h
  split at h
  · cases h
  split at h
  · cases h
  rename_i hpid
  split at h
  · cases h
  split at h
  · cases h
  · rcases List.mem_append.mp h with h | h
    · exact ⟨(of_mem_emitEvent h).2.1, hpid⟩
    · exact ⟨(of_mem_emitEvent h).2.1, hpid⟩

/-- A delegation edge comes from a process, never from interrupt context. -/
theorem srcPid_ne_zero {camserverPid : UInt32} {pre : List Firing} {env : Nat → Inputs}
    {edge : EdgeRecord} (h : edge ∈ edgesOf env (emitted camserverPid pre)) :
    edge.srcPid ≠ 0 := by
  obtain ⟨⟨e, k⟩, hmem, he⟩ := List.mem_filterMap.mp h
  rw [edgeOf, Option.ite_none_right_eq_some] at he
  obtain ⟨htype, hr⟩ := he
  rw [← Option.some.inj hr]
  obtain ⟨pre, x, post, -, hx⟩ := mem_runOut.mp (List.fst_mem_of_mem_zipIdx hmem)
  cases x with
  | binderTransaction task args now edge call =>
      obtain ⟨hpid, hne⟩ := of_mem_traceBinderTransaction hx
      exact hpid ▸ hne
  | _ =>
      -- the other tracepoints emit events of other types
      exact absurd (htype.symm.trans (of_mem_emitEvent hx).1) (by decide)

end EbpfTools.CamV2

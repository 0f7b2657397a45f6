import EbpfTools.CamV2.Lemmas.Backing
import EbpfTools.CamV2.Lemmas.Dedup
import EbpfTools.CamV2.Lemmas.Foreground

/-!
# cam_v2: what a printed line stands for

The tracepoints and the event handler together: the events of a run are handled in the order they
were submitted.
-/

namespace EbpfTools.CamV2
open EbpfTools.Lib

variable {camserverPid : UInt32} {xs : List Firing} {env : Nat → Inputs} {es rest : List CamEvent}
  {d e : CamEvent} {s : State}

/-! ## Where a delegation event comes from -/

/-- An app called cameraserver when `d` was submitted. -/
def Called (camserverPid : UInt32) (xs : List Firing) (d : CamEvent) : Prop :=
  ∃ task args now edge call, .binderTransaction task args now edge call ∈ xs ∧
    Qualifies camserverPid task args ∧ d.pid = task.pid ∧ d.timestamp = edge.ktime

theorem traceBinderTransaction_out {m : Maps} {task : Task} {args : BinderTransactionArgs}
    {now : UInt64} {edge call : Slot}
    (h : (traceBinderTransaction m task args now edge call).2 ≠ []) :
    Qualifies m.camserverPid task args ∧
      (traceBinderTransaction m task args now edge call).2 =
        emitEvent task edge EVENT_DELEGATION_EDGE task.pid task.uid 0 0 m.camserverPid.toUInt64
            args.code.toUInt64 "binder->cameraserver" ++
          emitEvent task call EVENT_BINDER_CALL task.pid task.uid 0 0 m.camserverPid.toUInt64
            args.code.toUInt64 "cameraserver" := by
  have hq : Qualifies m.camserverPid task args ∧ m.camserverPid ≠ 0 ∧
      ¬ Suppressed m task.pid now := by
    rcases traceBinderTransaction_cases m task args now edge call with ⟨he, -⟩ | ⟨hq, hs, -⟩
    · exact absurd (congrArg Prod.snd he) h
    · refine ⟨hq, fun hzero => h ?_, hs⟩
      rw [traceBinderTransaction, if_neg (not_ne_iff.mpr hq.1), if_pos hzero]
  obtain ⟨⟨hreply, hproc, hpid, huid⟩, hcam, hs⟩ := hq
  refine ⟨⟨hreply, hproc, hpid, huid⟩, ?_⟩
  have huid' : ¬ task.uid < 10000 := UInt32.not_lt.mpr huid
  have hs' : ¬ (m.recentCaller.lookup task.pid).any
      (fun t => now - t < BINDER_DEDUP_WINDOW_NS) := hs
  rw [traceBinderTransaction, if_neg (not_ne_iff.mpr hreply), if_neg hcam,
    if_neg (not_ne_iff.mpr hproc), if_neg hpid, if_neg huid', if_neg hs']

theorem length_emitEvent_le {task : Task} {slot : Slot}
    {eventType pid uid cameraId bufferId : UInt32} {extra1 extra2 : UInt64} {entity : String} :
    (emitEvent task slot eventType pid uid cameraId bufferId extra1 extra2 entity).length ≤ 1 := by
  rw [emitEvent]
  split <;> simp

/-- Only a call of an app to cameraserver leaves a delegation event. -/
theorem called_of_mem (hd : d ∈ emitted camserverPid xs) (hedge : IsEdge d) :
    Called camserverPid xs d := by
  obtain ⟨pre, x, post, rfl, hx⟩ := mem_runOut.mp hd
  cases x with
  | binderTransaction task args now edge call =>
      rw [step] at hx
      obtain ⟨hq, hout⟩ := traceBinderTransaction_out (List.ne_nil_of_mem hx)
      rw [camserverPid_runState] at hq
      rw [hout] at hx
      rcases List.mem_append.mp hx with hx | hx
      · obtain ⟨-, hpid, hts⟩ := of_mem_emitEvent hx
        exact ⟨task, args, now, edge, call, by simp, hq, hpid, hts⟩
      · exact absurd (hedge.symm.trans (of_mem_emitEvent hx).1) (by decide)
  | _ =>
      -- the other tracepoints emit events of other types
      exact absurd (hedge.symm.trans (of_mem_emitEvent hx).1) (by decide)

/-! ## Lines for frame events and calls -/

theorem link_mem_iff {i : Inputs} (he : IsFrameEvent e) (src : List UInt8) :
    (∃ s' lines, handleEvent s e i = some (s', lines) ∧ .link src ∈ lines) ↔
      ∃ a, findRecentEdge s.edges e.pid e.timestamp = some a ∧ src = a.srcName := by
  obtain ⟨hdelegation, hcall, hsession⟩ := he.not_delegation
  rw [IsFrameEvent] at he
  rw [handleEvent, if_neg hdelegation, if_neg hcall, if_neg hsession, if_pos he,
    edges_readForegroundPackage]
  cases findRecentEdge s.edges e.pid e.timestamp with
  | none => simp
  | some a => simp

theorem chain_mem_iff {i : Inputs} (he : e.eventType = EVENT_BINDER_CALL)
    (fg app : List UInt8) :
    (∃ s' lines, handleEvent s e i = some (s', lines) ∧ .chain fg app ∈ lines) ↔
      (∃ a, findRecentEdge s.edges e.pid e.timestamp = some a) ∧
        fg = (readForegroundPackage s i).2 ∧ app = appName e i ∧ fg ≠ [] ∧ fg ≠ app := by
  have hdelegation : e.eventType ≠ EVENT_DELEGATION_EDGE := by
    rw [he]
    decide
  rw [handleEvent, if_neg hdelegation, if_pos he, edges_readForegroundPackage,
    ← Option.isSome_iff_exists]
  by_cases hprint : (findRecentEdge s.edges e.pid e.timestamp).isSome = true ∧
      (readForegroundPackage s i).2 ≠ [] ∧ (readForegroundPackage s i).2 ≠ appName e i
  · rw [if_pos hprint]
    simp only [Option.some.injEq, Prod.mk.injEq]
    constructor
    · rintro ⟨_, _, ⟨-, rfl⟩, hmem⟩
      obtain ⟨rfl, rfl⟩ : fg = (readForegroundPackage s i).2 ∧ app = appName e i := by
        simpa using hmem
      exact ⟨hprint.1, rfl, rfl, hprint.2⟩
    · rintro ⟨-, rfl, rfl, -⟩
      exact ⟨_, _, ⟨rfl, rfl⟩, by simp⟩
  · rw [if_neg hprint]
    simp only [Option.some.injEq, Prod.mk.injEq]
    constructor
    · rintro ⟨_, _, ⟨-, rfl⟩, hmem⟩
      simp at hmem
    · rintro ⟨hfound, rfl, rfl, hne⟩
      exact absurd ⟨hfound, hne⟩ hprint

theorem srcName_of_edgeOf {a : EdgeRecord} {i : Inputs} (h : edgeOf d i = some a) :
    a.srcName = (appName d i).take (MAX_CMDLINE - 1) := by
  obtain ⟨-, rfl⟩ := edgeOf_eq_some_iff.mp h
  rfl

/-- In every run a link of frame activity names the app behind the most recent call of the same
process within 2 s, as it was called at that time, unless 64 other calls came in between. -/
theorem link_iff (hrun : emitted camserverPid xs = es ++ e :: rest)
    (hs : handleEvents env es = some s) (he : IsFrameEvent e) (src : List UInt8) :
    (∃ s' lines, handleEvent s e (env es.length) = some (s', lines) ∧ .link src ∈ lines) ↔
      ∃ pre d post, Backs es e.pid e.timestamp pre d post ∧ Called camserverPid xs d ∧
        src = (appName d (env pre.length)).take (MAX_CMDLINE - 1) := by
  rw [link_mem_iff he]
  constructor
  · rintro ⟨a, ha, rfl⟩
    obtain ⟨pre, d, post, hbacks, hd⟩ := (findRecentEdge_eq_some_iff hs).mp ha
    have hmem : d ∈ emitted camserverPid xs := by
      rw [hrun, hbacks.split]
      simp
    exact ⟨pre, d, post, hbacks, called_of_mem hmem hbacks.edge, srcName_of_edgeOf hd⟩
  · rintro ⟨pre, d, post, hbacks, -, rfl⟩
    have hd := edgeOf_eq_some_iff.mpr (⟨hbacks.edge, rfl⟩ : IsEdge d ∧ _ =
      edgeRecord d.pid d.extra1.toUInt32 d.extra2.toUInt32 (some (appName d (env pre.length)))
        _ d.timestamp)
    exact ⟨_, (findRecentEdge_eq_some_iff hs).mpr ⟨pre, d, post, hbacks, hd⟩,
      (srcName_of_edgeOf hd).symm⟩

def camTask : Task := ⟨100, 10050, .zero _⟩

/-- The app 100 calls cameraserver at 1.0 s. -/
def appCall : Firing :=
  .binderTransaction camTask ⟨0, 500, 3⟩ 1000000000 ⟨true, 1000000100⟩ ⟨true, 1000000200⟩

/-- It queues a buffer at 1.5 s. -/
def appFrame : CamEvent :=
  { timestamp := 1500000000, pid := 100, tgid := 100, uid := 10050, comm := .zero _,
    eventType := EVENT_FRAME_BUFFER_QBUF, cameraId := 0, bufferId := 0, extra1 := 0, extra2 := 0,
    entity := ascii "v4l2_qbuf" }

def camApp : Inputs := ⟨some (ascii "com.cam"), 0, none⟩

theorem link_iff_appFrame :
    ∃ s, handleEvents (fun _ => camApp) (emitted 500 [appCall]) = some s ∧
      ((∃ s' lines, handleEvent s appFrame camApp = some (s', lines) ∧
          .link (ascii "com.cam") ∈ lines) ↔
        ∃ pre d post, Backs (emitted 500 [appCall]) 100 1500000000 pre d post ∧
          Called 500 [appCall, .v4l2Qbuf camTask ⟨true, 1500000000⟩] d ∧
          ascii "com.cam" = (appName d camApp).take (MAX_CMDLINE - 1)) := by
  obtain ⟨s, hs⟩ := (exists_handleEvents_iff (fun _ => camApp) (emitted 500 [appCall])).mpr
    (by decide)
  have hrun : emitted 500 [appCall, .v4l2Qbuf camTask ⟨true, 1500000000⟩] =
      emitted 500 [appCall] ++ appFrame :: [] := by decide
  exact ⟨s, hs, link_iff hrun hs (by right; right; left; rfl) _⟩

/-- A call that is submitted with its edge finds that edge: its chain is printed exactly when some
app other than the caller is in the foreground. -/
theorem call_chain_iff {x : Firing}
    (hx : (step (runState step (Maps.init camserverPid) xs) x).2 = [d, e])
    (hle : d.timestamp.toNat ≤ e.timestamp.toNat)
    (hwindow : e.timestamp.toNat ≤ d.timestamp.toNat + CHAIN_WINDOW_NS.toNat)
    (hs : handleEvents env (emitted camserverPid xs ++ [d]) = some s) (i : Inputs)
    (fg app : List UInt8) :
    (∃ s' lines, handleEvent s e i = some (s', lines) ∧ .chain fg app ∈ lines) ↔
      fg = (readForegroundPackage s i).2 ∧ app = appName e i ∧ fg ≠ [] ∧ fg ≠ app := by
  cases x with
  | binderTransaction task args now edge call =>
      rw [step] at hx
      obtain ⟨-, hout⟩ := traceBinderTransaction_out (hx ▸ List.cons_ne_nil d [e])
      rw [hx, emitEvent, emitEvent] at hout
      split at hout
      · split at hout
        · obtain ⟨rfl, rfl⟩ : d = _ ∧ e = _ := by simpa using hout
          rw [chain_mem_iff rfl]
          refine and_iff_right ⟨_, (findRecentEdge_eq_some_iff hs).mpr
            ⟨_, _, [], ⟨rfl, rfl, rfl, ⟨hle, hwindow⟩, ?_, by decide⟩,
              edgeOf_eq_some_iff.mpr ⟨rfl, rfl⟩⟩⟩
          intro d' hd'
          cases hd'
        · cases hout
      · split at hout <;> cases hout
  | _ =>
      -- every other tracepoint submits at most one event
      have htwo : [d, e].length ≤ 1 := hx ▸ length_emitEvent_le
      exact absurd htwo (by simp)

def appEvent (timestamp : UInt64) (eventType : UInt32) (entity : String) : CamEvent :=
  { timestamp, pid := 100, tgid := 100, uid := 10050, comm := .zero _, eventType, cameraId := 0,
    bufferId := 0, extra1 := 500, extra2 := 3, entity := ascii entity }

/-- The line in which `dumpsys` shows an app in the focus. -/
def focusLine (app : String) : List UInt8 :=
  ascii ("  mCurrentFocus=Window\x7b1a2b u0 " ++ app ++ "/.Main\x7d")

/-- The call of the app 100 while another app is in the focus. -/
theorem call_chain_iff_appCall :
    let delegation := appEvent 1000000100 EVENT_DELEGATION_EDGE "binder->cameraserver"
    let call := appEvent 1000000200 EVENT_BINDER_CALL "cameraserver"
    let i : Inputs := ⟨some (ascii "com.cam"), 0, some (focusLine "com.home")⟩
    ∃ s, handleEvents (fun _ => camApp) [delegation] = some s ∧
      ∃ s' lines, handleEvent s call i = some (s', lines) ∧
        .chain (ascii "com.home") (ascii "com.cam") ∈ lines := by
  intro delegation call i
  let s := (handleEvents (fun _ => camApp) [delegation]).get (by decide)
  have hs : handleEvents (fun _ => camApp) [delegation] = some s := (Option.some_get _).symm
  have hx : (step (runState step (Maps.init 500) []) appCall).2 = [delegation, call] := by decide
  exact ⟨s, hs, (call_chain_iff hx (by decide) (by decide) hs i _ _).mpr
    ⟨by decide, by decide, by decide, by decide⟩⟩

/-! ## The foreground app -/

/-- The foreground app shown with an event is what `dumpsys` said at a clock reading less than a
second before, or unknown because it just failed, and after an answer it is not started again
within a second of clock readings. -/
theorem foreground_fresh (hmono : ∀ j k, j ≤ k → (env j).now ≤ (env k).now)
    (hs : handleEvents env es = some s) : ShownRecently env es s ∧ AskedRarely env es :=
  ⟨shownRecently hmono hs, askedRarely hmono es⟩

/-- Three events at 1.0 s, 1.5 s and 2.5 s; after the first another app comes to the foreground. -/
def homeThenMaps (k : Nat) : Inputs where
  cmdline := some (ascii "com.cam")
  now := if k = 0 then 1000000000 else if k = 1 then 1500000000 else 2500000000
  focusLine := some (focusLine (if k = 0 then "com.home" else "com.maps"))

theorem homeThenMaps_mono (j k : Nat) (h : j ≤ k) : (homeThenMaps j).now ≤ (homeThenMaps k).now := by
  simp only [homeThenMaps]
  split_ifs <;> first | omega | decide

/-- The answer of the first event is shown with the second, and a new one with the third. -/
theorem foreground_fresh_homeThenMaps :
    let call := appEvent 1000000200 EVENT_BINDER_CALL "cameraserver"
    (∃ s, handleEvents homeThenMaps [call] = some s ∧
        (readForegroundPackage s (homeThenMaps 1)).2 = ascii "com.home" ∧
        ShownRecently homeThenMaps [call] s) ∧
      ∃ s, handleEvents homeThenMaps [call, call] = some s ∧
        (readForegroundPackage s (homeThenMaps 2)).2 = ascii "com.maps" ∧
        AnsweredAt homeThenMaps [call, call] 0 ∧ StartedAt homeThenMaps [call, call] 2 ∧
        ShownRecently homeThenMaps [call, call] s ∧ AskedRarely homeThenMaps [call, call] := by
  intro call
  let first := (handleEvents homeThenMaps [call]).get (by decide)
  let second := (handleEvents homeThenMaps [call, call]).get (by decide)
  have hfirst : handleEvents homeThenMaps [call] = some first := (Option.some_get _).symm
  have hsecond : handleEvents homeThenMaps [call, call] = some second := (Option.some_get _).symm
  refine ⟨⟨first, hfirst, by decide, (foreground_fresh homeThenMaps_mono hfirst).1⟩, second,
    hsecond, by decide, ?_, ?_, foreground_fresh homeThenMaps_mono hsecond⟩
  · exact ⟨⟨State.init, rfl, by decide⟩, focusLine "com.home", rfl, by decide⟩
  · exact (startedAt_length hsecond).mpr (by decide)

end EbpfTools.CamV2

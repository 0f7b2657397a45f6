import EbpfTools.Lib.Clock
import EbpfTools.Lib.Run
import EbpfTools.CamV2.Kernel

/-!
# Which caller a camera session is attributed to

The last remembered caller compared with the caller of the latest transaction that qualifies.
-/

namespace EbpfTools.CamV2
open EbpfTools.Lib

/-! ## The transactions that count -/

/-- A call of an app to cameraserver. -/
def Qualifies (camserverPid : UInt32) (task : Task) (args : BinderTransactionArgs) : Prop :=
  args.reply = 0 ∧ args.toProc.toUInt32 = camserverPid ∧ task.pid ≠ 0 ∧ 10000 ≤ task.uid

instance (camserverPid : UInt32) (task : Task) (args : BinderTransactionArgs) :
    Decidable (Qualifies camserverPid task args) :=
  inferInstanceAs (Decidable (_ ∧ _))

/-- The clock reading of a firing. -/
def Firing.now : Firing → UInt64
  | .binderTransaction _ _ now _ _ => now
  | .camContextState _ now _ => now
  | .camApplyReq _ slot => slot.ktime
  | .camBufDone _ slot => slot.ktime
  | .v4l2Qbuf _ slot => slot.ktime
  | .v4l2Dqbuf _ slot => slot.ktime

-- the caller and the time of a firing that is a qualifying transaction
def qualifying (camserverPid : UInt32) : Firing → Option (UInt32 × UInt64)
  | .binderTransaction task args now _ _ =>
      if Qualifies camserverPid task args then some (task.pid, now) else none
  | _ => none

/-- The latest qualifying transaction of a run. -/
def latestCall (camserverPid : UInt32) (xs : List Firing) : Option (UInt32 × UInt64) :=
  (xs.filterMap (qualifying camserverPid)).getLast?

/-- The pid a session belongs to: the latest caller for 2 s, else the current pid. -/
def sessionPid (latest : Option (UInt32 × UInt64)) (pid : UInt32) (now : UInt64) : UInt32 :=
  match latest with
  | none => pid
  | some (caller, t) =>
      if now.toNat ≤ t.toNat + CAMSERVER_MATCH_WINDOW_NS.toNat then caller else pid

/-- The caller was recorded less than half a second ago. -/
def Suppressed (m : Maps) (pid : UInt32) (now : UInt64) : Prop :=
  (m.recentCaller.lookup pid).any (fun t => now - t < BINDER_DEDUP_WINDOW_NS)

/-- A call of `caller` that is not remembered makes no difference at `now`: the remembered call is
of the same process and fresh, or it is stale and the current process is the caller. -/
def Replaceable (m : Maps) (caller pid : UInt32) (now : UInt64) : Prop :=
  (now.toNat ≤ m.lastCallerNs.toNat + CAMSERVER_MATCH_WINDOW_NS.toNat ∧ m.lastCaller = caller) ∨
    (m.lastCallerNs.toNat + CAMSERVER_MATCH_WINDOW_NS.toNat < now.toNat ∧ pid = caller)

/-- The latest qualifying transaction of a run is not lost: if it still counts at `now` and is
suppressed when it fires, then the call remembered at that time does as well. -/
def LatestCallKept (camserverPid : UInt32) (xs : List Firing) (pid : UInt32) (now : UInt64) :
    Prop :=
  ∀ pre x post caller t, xs = pre ++ x :: post → qualifying camserverPid x = some (caller, t) →
    (∀ y ∈ post, qualifying camserverPid y = none) →
    now.toNat ≤ t.toNat + CAMSERVER_MATCH_WINDOW_NS.toNat →
    Suppressed (runState step (Maps.init camserverPid) pre) caller t →
    Replaceable (runState step (Maps.init camserverPid) pre) caller pid now

/-! ## One firing -/

/-- What a binder transaction does to the maps: nothing, unless it qualifies and its caller was not
recorded within the last half second. -/
theorem traceBinderTransaction_cases (m : Maps) (task : Task) (args : BinderTransactionArgs)
    (now : UInt64) (edge call : Slot) :
    (traceBinderTransaction m task args now edge call = (m, []) ∧
      (m.camserverPid ≠ 0 → Qualifies m.camserverPid task args → Suppressed m task.pid now)) ∨
    (Qualifies m.camserverPid task args ∧ ¬ Suppressed m task.pid now ∧
      (traceBinderTransaction m task args now edge call).1 = rememberCaller m task.pid now) := by
  unfold traceBinderTransaction
  split
  · rename_i h; exact Or.inl ⟨rfl, fun _ hq => absurd hq.1 h⟩
  split
  · rename_i h; exact Or.inl ⟨rfl, fun hn _ => absurd h hn⟩
  split
  · rename_i h; exact Or.inl ⟨rfl, fun _ hq => absurd hq.2.1 h⟩
  split
  · rename_i h; exact Or.inl ⟨rfl, fun _ hq => absurd h hq.2.2.1⟩
  split
  · rename_i h; exact Or.inl ⟨rfl, fun _ hq => absurd h (UInt32.not_lt.mpr hq.2.2.2)⟩
  split
  · rename_i h; exact Or.inl ⟨rfl, fun _ _ => h⟩
  · rename_i h₁ _ h₃ h₄ h₅ h₆
    exact Or.inr ⟨⟨not_ne_iff.mp h₁, not_ne_iff.mp h₃, h₄, UInt32.not_lt.mp h₅⟩, h₆, rfl⟩

theorem Suppressed.recorded {m : Maps} {pid : UInt32} {now : UInt64} (h : Suppressed m pid now) :
    m.recentCaller.lookup pid ≠ none := by
  intro hn
  rw [Suppressed, hn] at h
  cases h

/-! ## Runs -/

/-- The maps against the qualifying transactions handled so far. -/
structure CallerInv (camserverPid : UInt32) (latest : Option (UInt32 × UInt64)) (m : Maps) :
    Prop where
  config : m.camserverPid = camserverPid
  recorded : ∀ pid, m.recentCaller.lookup pid ≠ none → m.lastCaller ≠ 0
  none_eq : latest = none → m.lastCaller = 0
  some_le : ∀ p, latest = some p → m.lastCaller ≠ 0 ∧ m.lastCallerNs.toNat ≤ p.2.toNat

theorem latestCall_concat (camserverPid : UInt32) (xs : List Firing) (x : Firing) :
    latestCall camserverPid (xs ++ [x]) =
      (qualifying camserverPid x).or (latestCall camserverPid xs) := by
  rw [latestCall, List.filterMap_append, List.getLast?_append]
  cases h : qualifying camserverPid x <;> simp [h, latestCall]

theorem qualifying_eq_some {camserverPid : UInt32} {x : Firing} {p : UInt32 × UInt64}
    (h : qualifying camserverPid x = some p) : p.2 = x.now := by
  cases x with
  | binderTransaction task args now edge call =>
      simp only [qualifying, Option.ite_none_right_eq_some, Option.some.injEq] at h
      obtain ⟨-, rfl⟩ := h
      rfl
  | _ => cases h

theorem now_of_latestCall {camserverPid : UInt32} {xs : List Firing} {p : UInt32 × UInt64}
    (h : latestCall camserverPid xs = some p) : ∃ x ∈ xs, p.2 = x.now := by
  obtain ⟨x, hx, hq⟩ := List.mem_filterMap.mp (List.mem_of_getLast? h)
  exact ⟨x, hx, qualifying_eq_some hq⟩

theorem callerInv_init (camserverPid : UInt32) :
    CallerInv camserverPid none (Maps.init camserverPid) where
  config := rfl
  recorded pid h := absurd (BoundedMap.lookup_empty pid) h
  none_eq _ := rfl
  some_le p h := by cases h

theorem callerInv_step {camserverPid : UInt32} (hpid : camserverPid ≠ 0)
    {latest : Option (UInt32 × UInt64)} {m : Maps} {x : Firing}
    (hi : CallerInv camserverPid latest m)
    (hnow : ∀ p, latest = some p → p.2.toNat ≤ x.now.toNat) :
    CallerInv camserverPid ((qualifying camserverPid x).or latest) (step m x).1 := by
  cases x with
  | binderTransaction task args now edge call =>
      by_cases hq : Qualifies camserverPid task args
      · have hor : (qualifying camserverPid (.binderTransaction task args now edge call)).or latest =
            some (task.pid, now) := by
          simp [qualifying, hq]
        rw [hor, step]
        rcases traceBinderTransaction_cases m task args now edge call with ⟨h, hseen⟩ | ⟨-, -, h⟩
        · rw [h]
          rw [hi.config] at hseen
          have hlast := hi.recorded task.pid (hseen hpid hq).recorded
          refine ⟨hi.config, hi.recorded, (fun h => by cases h), ?_⟩
          rintro p hp
          cases hp
          refine ⟨hlast, ?_⟩
          cases hl : latest with
          | none => exact absurd (hi.none_eq hl) hlast
          | some p => exact le_trans (hi.some_le p hl).2 (hnow p hl)
        · rw [h]
          refine ⟨hi.config, fun _ _ => hq.2.2.1, (fun h => by cases h), ?_⟩
          rintro p hp
          cases hp
          exact ⟨hq.2.2.1, le_refl _⟩
      · have hor : (qualifying camserverPid (.binderTransaction task args now edge call)).or latest =
            latest := by
          simp [qualifying, hq]
        rw [hor, step]
        rcases traceBinderTransaction_cases m task args now edge call with ⟨h, -⟩ | ⟨hq', -⟩
        · rw [h]; exact hi
        · exact absurd (hi.config ▸ hq') hq
  | _ => exact hi

theorem callerInv_run {camserverPid : UInt32} (hpid : camserverPid ≠ 0) {xs : List Firing}
    (hmono : xs.Pairwise fun x y => x.now ≤ y.now) :
    CallerInv camserverPid (latestCall camserverPid xs)
      (runState step (Maps.init camserverPid) xs) := by
  let Inv (pre : List Firing) (m : Maps) : Prop := CallerInv camserverPid (latestCall camserverPid pre) m
  have h₀ : Inv [] (Maps.init camserverPid) := callerInv_init camserverPid
  refine run_invariant h₀ fun pre x post he hi => ?_
  show CallerInv camserverPid (latestCall camserverPid (pre ++ [x])) _
  rw [latestCall_concat]
  refine callerInv_step hpid hi fun p hp => ?_
  obtain ⟨y, hy, hnow⟩ := now_of_latestCall hp
  rw [he, List.pairwise_append] at hmono
  rw [hnow]
  exact UInt64.le_iff_toNat_le.mp (hmono.2.2 y hy x (by simp))

/-! ## The reported pid -/

theorem inferredPid_of_stale {m : Maps} {now : UInt64} (pid : UInt32)
    (h : m.lastCallerNs.toNat ≤ now.toNat)
    (hs : m.lastCallerNs.toNat + CAMSERVER_MATCH_WINDOW_NS.toNat < now.toNat) :
    inferredPid m pid now = pid := by
  simp [inferredPid, getLastCaller, (elapsed_gt_iff h).mpr hs]

theorem inferredPid_of_fresh {m : Maps} {now : UInt64} (pid : UInt32)
    (h : m.lastCallerNs.toNat ≤ now.toNat) (hc : m.lastCaller ≠ 0)
    (hf : now.toNat ≤ m.lastCallerNs.toNat + CAMSERVER_MATCH_WINDOW_NS.toNat) :
    inferredPid m pid now = m.lastCaller := by
  have hn : ¬ now - m.lastCallerNs > CAMSERVER_MATCH_WINDOW_NS := by
    rw [elapsed_gt_iff h]
    omega
  simp only [inferredPid, getLastCaller, hn, ↓reduceIte, hc]

theorem inferredPid_of_none {m : Maps} {now : UInt64} (pid : UInt32) (hc : m.lastCaller = 0) :
    inferredPid m pid now = pid := by
  simp only [inferredPid, getLastCaller, hc]
  split <;> rfl

/-- The reported pid against the latest call, from the state when the session is reported. -/
theorem inferredPid_eq_iff {camserverPid caller : UInt32} {t : UInt64} {m : Maps}
    (hi : CallerInv camserverPid (some (caller, t)) m) {now : UInt64} (ht : t.toNat ≤ now.toNat)
    (pid : UInt32) :
    inferredPid m pid now = sessionPid (some (caller, t)) pid now ↔
      (now.toNat ≤ t.toNat + CAMSERVER_MATCH_WINDOW_NS.toNat → Replaceable m caller pid now) := by
  obtain ⟨hne, hlast⟩ := hi.some_le _ rfl
  have hle : m.lastCallerNs.toNat ≤ now.toNat := le_trans hlast ht
  simp only [sessionPid, Replaceable]
  simp only at hlast
  by_cases hf : now.toNat ≤ m.lastCallerNs.toNat + CAMSERVER_MATCH_WINDOW_NS.toNat
  · have hcount : now.toNat ≤ t.toNat + CAMSERVER_MATCH_WINDOW_NS.toNat := by omega
    rw [inferredPid_of_fresh pid hle hne hf, if_pos hcount]
    constructor
    · intro h _
      exact Or.inl ⟨hf, h⟩
    · intro h
      rcases h hcount with ⟨-, h⟩ | ⟨h, -⟩
      · exact h
      · exact absurd hf (by omega)
  · rw [inferredPid_of_stale pid hle (by omega)]
    by_cases hl : now.toNat ≤ t.toNat + CAMSERVER_MATCH_WINDOW_NS.toNat
    · rw [if_pos hl]
      constructor
      · intro h _
        exact Or.inr ⟨by omega, h⟩
      · intro h
        rcases h hl with ⟨h, -⟩ | ⟨-, h⟩
        · exact absurd h hf
        · exact h
    · rw [if_neg hl]
      exact iff_of_true rfl fun h => absurd h hl

/-! ## From the latest call to the session -/

theorem latestCall_of_split {camserverPid : UInt32} {pre post : List Firing} {x : Firing}
    {p : UInt32 × UInt64} (hx : qualifying camserverPid x = some p)
    (hpost : ∀ y ∈ post, qualifying camserverPid y = none) :
    latestCall camserverPid (pre ++ x :: post) = some p := by
  have hnil : post.filterMap (qualifying camserverPid) = [] :=
    List.filterMap_eq_nil_iff.mpr hpost
  rw [latestCall, List.filterMap_append, List.filterMap_cons_some hx, hnil]
  exact List.getLast?_concat

theorem exists_split_of_latestCall {camserverPid : UInt32} {xs : List Firing}
    {p : UInt32 × UInt64} (h : latestCall camserverPid xs = some p) :
    ∃ pre x post, xs = pre ++ x :: post ∧ qualifying camserverPid x = some p ∧
      ∀ y ∈ post, qualifying camserverPid y = none := by
  induction xs using List.reverseRecOn with
  | nil => cases h
  | append_singleton xs y ih =>
      rw [latestCall_concat] at h
      cases hy : qualifying camserverPid y with
      | some q =>
          rw [hy, Option.some_or] at h
          cases h
          exact ⟨xs, y, [], rfl, hy, fun _ hz => absurd hz List.not_mem_nil⟩
      | none =>
          rw [hy, Option.none_or] at h
          obtain ⟨pre, x, post, rfl, hx, hpost⟩ := ih h
          refine ⟨pre, x, post ++ [y], by simp, hx, fun z hz => ?_⟩
          rcases List.mem_append.mp hz with hz | hz
          · exact hpost z hz
          · rw [List.mem_singleton.mp hz]
            exact hy

theorem step_of_not_qualifying {m : Maps} {y : Firing} (h : qualifying m.camserverPid y = none) :
    (step m y).1 = m := by
  cases y with
  | binderTransaction task args now edge call =>
      rw [step]
      rcases traceBinderTransaction_cases m task args now edge call with ⟨hm, -⟩ | ⟨hq, -⟩
      · rw [hm]
      · rw [qualifying, if_pos hq] at h
        cases h
  | _ => rfl

theorem runState_of_not_qualifying {m : Maps} {ys : List Firing}
    (h : ∀ y ∈ ys, qualifying m.camserverPid y = none) : runState step m ys = m := by
  induction ys with
  | nil => rfl
  | cons y ys ih =>
      rw [runState_cons, step_of_not_qualifying (h y List.mem_cons_self)]
      exact ih fun z hz => h z (List.mem_cons_of_mem y hz)

/-- After a call of `caller` the maps remember it, or it was suppressed and they are as before. -/
theorem replaceable_step_iff {m : Maps} {x : Firing} {caller pid : UInt32} {t now : UInt64}
    (hpid : m.camserverPid ≠ 0) (hx : qualifying m.camserverPid x = some (caller, t))
    (hnow : now.toNat ≤ t.toNat + CAMSERVER_MATCH_WINDOW_NS.toNat) :
    Replaceable (step m x).1 caller pid now ↔
      (Suppressed m caller t → Replaceable m caller pid now) := by
  cases x with
  | binderTransaction task args t' edge call =>
      simp only [qualifying, Option.ite_none_right_eq_some, Option.some.injEq,
        Prod.mk.injEq] at hx
      obtain ⟨hq, rfl, rfl⟩ := hx
      rw [step]
      rcases traceBinderTransaction_cases m task args t' edge call with
        ⟨hm, hseen⟩ | ⟨-, hnew, hm⟩
      · rw [hm]
        exact ⟨fun h _ => h, fun h => h (hseen hpid hq)⟩
      · rw [hm]
        exact iff_of_true (Or.inl ⟨hnow, rfl⟩) fun h => absurd h hnew
  | _ => cases hx

/-- The reported pid against the latest call, from the state when that call was made. -/
theorem inferredPid_split_iff {camserverPid : UInt32} (hpid : camserverPid ≠ 0)
    {pre post : List Firing} {x : Firing}
    (hmono : (pre ++ x :: post).Pairwise fun x y => x.now ≤ y.now) {caller : UInt32} {t : UInt64}
    (hx : qualifying camserverPid x = some (caller, t))
    (hpost : ∀ y ∈ post, qualifying camserverPid y = none) {now : UInt64}
    (ht : t.toNat ≤ now.toNat) (pid : UInt32) :
    inferredPid (runState step (Maps.init camserverPid) (pre ++ x :: post)) pid now =
        sessionPid (some (caller, t)) pid now ↔
      (now.toNat ≤ t.toNat + CAMSERVER_MATCH_WINDOW_NS.toNat →
        Suppressed (runState step (Maps.init camserverPid) pre) caller t →
        Replaceable (runState step (Maps.init camserverPid) pre) caller pid now) := by
  have hinv := callerInv_run hpid hmono
  rw [latestCall_of_split hx hpost] at hinv
  have hsub : (pre ++ [x]).Sublist (pre ++ x :: post) :=
    List.Sublist.append_left (List.singleton_sublist.mpr List.mem_cons_self) pre
  have hconfig := (callerInv_run hpid (hmono.sublist (List.sublist_append_left pre _))).config
  have hconfig' := (callerInv_run hpid (hmono.sublist hsub)).config
  rw [inferredPid_eq_iff hinv ht pid]
  rw [runState_concat] at hconfig'
  rw [runState_append, runState_cons]
  generalize runState step (Maps.init camserverPid) pre = m at hconfig hconfig' ⊢
  subst hconfig
  rw [runState_of_not_qualifying (hconfig'.symm ▸ hpost)]
  constructor
  · intro h hnow
    exact (replaceable_step_iff hpid hx hnow).mp (h hnow)
  · intro h hnow
    exact (replaceable_step_iff hpid hx hnow).mpr (h hnow)

end EbpfTools.CamV2

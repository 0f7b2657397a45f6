import EbpfTools.Lib.Latest
import EbpfTools.CamFlow.Lemmas.Requests

/-!
# Requests of several links

The table of submit times has one entry per request id, whichever link the request belongs to.
-/

namespace EbpfTools.CamFlow
open EbpfTools.Lib

-- the link that a firing applies or completes a request on
def Firing.linkHdl : Firing → Option Int32
  | .camReqMgrApply args _ => some args.linkHdl
  | .camBufDone _ args _ => some args.linkHdl
  | _ => none

-- the time of a firing that is an apply
def Firing.applyTime : Firing → Option UInt64
  | .camReqMgrApply _ now => some now
  | _ => none

/-- The latest apply or completion of the request `r`. -/
def latestOf (r : UInt64) (xs : List Firing) : Option Firing :=
  latest (fun x => x.request = some r) xs

/-- The latest apply or completion of the request `r` on the link `L`. -/
def latestOn (L : Int32) (r : UInt64) (xs : List Firing) : Option Firing :=
  latest (fun x => x.request = some r ∧ x.linkHdl = some L) xs

/-- The time of a latest apply that is not completed yet. -/
def pendingTs (x : Option Firing) : Option UInt64 := x.bind Firing.applyTime

/-- The time that has passed at `now` since a pending apply, and 0 if there is none. -/
def latency (ts : Option UInt64) (now : UInt64) : UInt64 := (ts.map (now - ·)).getD 0

/-- The table never refuses an apply. -/
def AppliesFindRoom (xs : List Firing) : Prop :=
  ∀ pre args t post, xs = pre ++ .camReqMgrApply args t :: post →
    (runState step .init pre).reqSubmitTs.Room args.reqId

/-- Other links make no difference to a completion of `r` on `L` at `now`: the latest apply or
completion of `r` on any link is one on `L`, or the submit time it leaves reads the same. -/
def Unmixed (L : Int32) (r : UInt64) (now : UInt64) (xs : List Firing) : Prop :=
  ∀ x ∈ latestOf r xs, x.linkHdl = some L ∨ x.applyTime = pendingTs (latestOn L r xs) ∨
    x.applyTime = none ∧ pendingTs (latestOn L r xs) = some now ∨
    x.applyTime = some now ∧ pendingTs (latestOn L r xs) = none

theorem lookup_bufDone (m : Maps) (task : Task) (args : CamBufDoneArgs) (now : UInt64) :
    (step m (.camBufDone task args now)).1.reqSubmitTs.lookup args.request = none := by
  rcases reqSubmitTs_bufDone m task args now with ⟨he, hnone⟩ | he
  · rw [step, he, hnone]
  · rw [step, he, BoundedMap.lookup_delete_self]

/-- While no apply is refused, the table holds the time of each request whose latest firing is an
apply. -/
theorem lookup_reqSubmitTs {xs : List Firing} (hroom : AppliesFindRoom xs) (r : UInt64) :
    (runState step .init xs).reqSubmitTs.lookup r = pendingTs (latestOf r xs) := by
  induction xs using List.reverseRecOn with
  | nil => rfl
  | append_singleton xs x ih =>
      have hprev := ih fun pre args t post he => hroom pre args t (post ++ [x]) (by simp [he])
      rw [runState_concat]
      by_cases hr : x.request = some r
      · rw [latestOf, latest_concat_of_pos xs (decide_eq_true hr)]
        cases x with
        | camReqMgrApply args now =>
            obtain rfl := Option.some.inj hr
            exact lookup_apply args now (hroom xs args now [] rfl)
        | camBufDone task args now =>
            obtain rfl := Option.some.inj hr
            exact lookup_bufDone _ task args now
        | _ => cases hr
      · rw [lookup_step_of_ne hr, hprev, latestOf, latestOf,
          latest_concat_of_neg xs (by simpa using hr)]

theorem latency_eq_iff {a o : Option UInt64} {now : UInt64} :
    latency a now = latency o now ↔
      a = o ∨ a = none ∧ o = some now ∨ a = some now ∧ o = none := by
  have hzero : ∀ s : UInt64, now - s = 0 ↔ s = now := by
    intro s
    rw [UInt64.sub_eq_iff_eq_add, UInt64.zero_add]
    exact eq_comm
  cases a <;> cases o
  · simp
  · simp [latency, hzero, eq_comm]
  · simp [latency, hzero]
  · simp [latency]

theorem latency_eq_latency_iff {xs : List Firing} {L : Int32} {r now : UInt64} :
    latency (pendingTs (latestOf r xs)) now = latency (pendingTs (latestOn L r xs)) now ↔
      Unmixed L r now xs := by
  have hnarrow : ∀ x : Firing, decide (x.request = some r ∧ x.linkHdl = some L) →
      decide (x.request = some r) := fun x hx => decide_eq_true (of_decide_eq_true hx).1
  cases hl : latestOf r xs with
  | none =>
      rw [latestOn, latest_eq_none_of_imp hl hnarrow, Unmixed, hl]
      simp
  | some x =>
      rw [Unmixed, hl, latency_eq_iff]
      by_cases hlink : x.linkHdl = some L
      · have hx : x.request = some r := of_decide_eq_true (of_latest hl).2
        rw [latestOn, latest_of_latest hl (decide_eq_true ⟨hx, hlink⟩) hnarrow]
        simp [hlink]
      · simp [hlink, pendingTs]

end EbpfTools.CamFlow

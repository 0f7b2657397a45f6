import EbpfTools.CamV2.Lemmas.Attribution
import EbpfTools.CamV2.Lemmas.Edges

/-!
# The edge event behind a printed line

A search of the table of edges against the delegation events handled before, and the lines printed
for calls and frame events.
-/

namespace EbpfTools.CamV2
open EbpfTools.Lib

/-! ## Delegation events of a run -/

def IsEdge (e : CamEvent) : Prop := e.eventType = EVENT_DELEGATION_EDGE

instance : DecidablePred IsEdge := fun e => inferInstanceAs (Decidable (e.eventType = _))

/-- At `ts` the event is not in the future and at most 2 s old. -/
def Recent (ts : UInt64) (d : CamEvent) : Prop :=
  d.timestamp.toNat ≤ ts.toNat ∧ ts.toNat ≤ d.timestamp.toNat + CHAIN_WINDOW_NS.toNat

/-- The delegation event `d` is the most recent one of process `pid` at `ts` among the last 64. -/
structure Backs (es : List CamEvent) (pid : UInt32) (ts : UInt64) (pre : List CamEvent)
    (d : CamEvent) (post : List CamEvent) : Prop where
  split : es = pre ++ d :: post
  edge : IsEdge d
  own : d.pid = pid
  recent : Recent ts d
  newest : ∀ d' ∈ post, IsEdge d' → d'.pid = pid → ¬ Recent ts d'
  kept : (post.filter IsEdge).length < MAX_EDGES

/-- The records of the delegation events in `es`, of which the first is event number `k`. -/
def edgesFrom (env : Nat → Inputs) (k : Nat) (es : List CamEvent) : List EdgeRecord :=
  (es.zipIdx k).filterMap fun x => edgeOf x.1 (env x.2)

variable {env : Nat → Inputs} {k : Nat} {es pre post : List CamEvent} {d e : CamEvent}
  {pid : UInt32} {ts : UInt64} {a : EdgeRecord}

theorem edgesFrom_cons (e : CamEvent) (es : List CamEvent) :
    edgesFrom env k (e :: es) = (edgeOf e (env k)).toList ++ edgesFrom env (k + 1) es := by
  rw [edgesFrom, List.zipIdx_cons, List.filterMap_cons]
  cases edgeOf e (env k) <;> rfl

theorem edgesFrom_append (es fs : List CamEvent) :
    edgesFrom env k (es ++ fs) = edgesFrom env k es ++ edgesFrom env (k + es.length) fs := by
  rw [edgesFrom, List.zipIdx_append, List.filterMap_append]
  rfl

theorem edgeOf_eq_some_iff {i : Inputs} :
    edgeOf e i = some a ↔
      IsEdge e ∧ a = edgeRecord e.pid e.extra1.toUInt32 e.extra2.toUInt32 (some (appName e i))
        (some (ascii "cameraserver")) e.timestamp := by
  rw [edgeOf, Option.ite_none_right_eq_some]
  exact and_congr_right fun _ => ⟨fun h => (Option.some.inj h).symm, fun h => congrArg some h.symm⟩

theorem inWindow_of_edgeOf {i : Inputs} (h : edgeOf e i = some a) :
    inWindow ts a ↔ Recent ts e := by
  obtain ⟨-, rfl⟩ := edgeOf_eq_some_iff.mp h
  exact decide_eq_true_iff

theorem srcPid_of_edgeOf {i : Inputs} (h : edgeOf e i = some a) : a.srcPid = e.pid := by
  obtain ⟨-, rfl⟩ := edgeOf_eq_some_iff.mp h
  rfl

theorem length_edgesFrom (k : Nat) (es : List CamEvent) :
    (edgesFrom env k es).length = (es.filter IsEdge).length := by
  induction es generalizing k with
  | nil => rfl
  | cons e es ih =>
      rw [edgesFrom_cons, List.length_append, ih, List.filter_cons]
      by_cases he : IsEdge e
      · rw [edgeOf_eq_some_iff.mpr ⟨he, rfl⟩, if_pos (decide_eq_true he)]
        simp [Nat.add_comm]
      · have hnone : edgeOf e (env k) = none := if_neg he
        rw [hnone, if_neg (by simpa using he)]
        simp

/-- A place among the records is a place among the events. -/
theorem edgesFrom_eq_append_cons {as bs : List EdgeRecord}
    (h : edgesFrom env k es = as ++ a :: bs) :
    ∃ pre d post, es = pre ++ d :: post ∧ edgeOf d (env (k + pre.length)) = some a ∧
      edgesFrom env (k + pre.length + 1) post = bs := by
  induction es generalizing k as with
  | nil => simp [edgesFrom] at h
  | cons e es ih =>
      rw [edgesFrom_cons] at h
      cases he : edgeOf e (env k) with
      | none =>
          rw [he, Option.toList_none, List.nil_append] at h
          obtain ⟨pre, d, post, rfl, hd, hpost⟩ := ih h
          refine ⟨e :: pre, d, post, rfl, ?_, ?_⟩
          · rwa [List.length_cons, ← Nat.add_assoc, Nat.add_right_comm]
          · rwa [List.length_cons, ← Nat.add_assoc, Nat.add_right_comm k]
      | some b =>
          rw [he, Option.toList_some, List.singleton_append] at h
          cases as with
          | nil =>
              obtain ⟨rfl, hbs⟩ := List.cons.inj h
              exact ⟨[], e, es, rfl, he, hbs⟩
          | cons _ as =>
              obtain ⟨pre, d, post, rfl, hd, hpost⟩ := ih (List.cons.inj h).2
              refine ⟨e :: pre, d, post, rfl, ?_, ?_⟩
              · rwa [List.length_cons, ← Nat.add_assoc, Nat.add_right_comm]
              · rwa [List.length_cons, ← Nat.add_assoc, Nat.add_right_comm k]

theorem mem_edgesFrom :
    a ∈ edgesFrom env k es ↔
      ∃ pre d post, es = pre ++ d :: post ∧ edgeOf d (env (k + pre.length)) = some a := by
  constructor
  · intro h
    obtain ⟨as, bs, hsplit⟩ := List.append_of_mem h
    obtain ⟨pre, d, post, hes, hd, -⟩ := edgesFrom_eq_append_cons hsplit
    exact ⟨pre, d, post, hes, hd⟩
  · rintro ⟨pre, d, post, rfl, hd⟩
    rw [edgesFrom_append, edgesFrom_cons, hd]
    simp

/-! ## The search -/

/-- The search finds the record of the delegation event that backs the process, and nothing without
one. -/
theorem findRecentEdge_eq_some_iff {s : State} (hs : handleEvents env es = some s) :
    findRecentEdge s.edges pid ts = some a ↔
      ∃ pre d post, Backs es pid ts pre d post ∧ edgeOf d (env pre.length) = some a := by
  have hedges : edgesOf env es = edgesFrom env 0 es := rfl
  rw [findRecentEdge, findRecentEdgeLoop_eq_search, (holds_of_handleEvents hs).search_eq_some_iff,
    hedges]
  constructor
  · rintro ⟨as, bs, hsplit, hlen, ha, hbs⟩
    obtain ⟨pre, d, post, rfl, hd, hpost⟩ := edgesFrom_eq_append_cons hsplit
    obtain ⟨hown, hwindow⟩ := of_decide_eq_true ha
    rw [Nat.zero_add] at hd
    refine ⟨pre, d, post, ⟨rfl, (edgeOf_eq_some_iff.mp hd).1, ?_, ?_, ?_, ?_⟩, hd⟩
    · rw [← srcPid_of_edgeOf hd, hown]
    · exact (inWindow_of_edgeOf hd).mp hwindow
    · intro d' hd' hedge hown' hrecent
      obtain ⟨p, q, rfl⟩ := List.append_of_mem hd'
      have hrec := edgeOf_eq_some_iff.mpr
        (⟨hedge, rfl⟩ : IsEdge d' ∧ _ = edgeRecord d'.pid d'.extra1.toUInt32 d'.extra2.toUInt32
          (some (appName d' (env (0 + pre.length + 1 + p.length)))) _ d'.timestamp)
      refine hbs _ (hpost ▸ mem_edgesFrom.mpr ⟨p, d', q, rfl, hrec⟩) (decide_eq_true ⟨?_, ?_⟩)
      · rw [srcPid_of_edgeOf hrec, hown']
      · exact (inWindow_of_edgeOf hrec).mpr hrecent
    · rwa [← length_edgesFrom, hpost]
  · rintro ⟨pre, d, post, hbacks, hd⟩
    obtain ⟨rfl, -, hown, hrecent, hnewest, hkept⟩ := hbacks
    refine ⟨edgesFrom env 0 pre, edgesFrom env (0 + pre.length + 1) post, ?_, ?_, ?_, ?_⟩
    · rw [edgesFrom_append, edgesFrom_cons, Nat.zero_add, hd]
      rfl
    · rwa [length_edgesFrom]
    · exact decide_eq_true ⟨(srcPid_of_edgeOf hd).trans hown, (inWindow_of_edgeOf hd).mpr hrecent⟩
    · intro b hb hp
      obtain ⟨p, d', q, rfl, hd'⟩ := mem_edgesFrom.mp hb
      obtain ⟨hown', hwindow⟩ := of_decide_eq_true hp
      exact hnewest d' (by simp) (edgeOf_eq_some_iff.mp hd').1
        ((srcPid_of_edgeOf hd').symm.trans hown') ((inWindow_of_edgeOf hd').mp hwindow)

end EbpfTools.CamV2

import EbpfTools.Tracers.Lemmas.TcSession
import EbpfTools.Tracers.Lemmas.Views
import EbpfTools.Pktrace.Theorems
import EbpfTools.Pksniff.Theorems.Capture

/-!
# Theorems about both packet tracers
-/

namespace EbpfTools.Tracers
open EbpfTools.Lib EbpfTools.Bpf

/-! ## The same packets -/

/-- Of an IPv4 frame of at least 64 bytes both tracers submit the same packet, or neither submits
an event. -/
theorem tracers_agree {skb : Skb} (hlen : 64 ≤ skb.len) (heth : skb.ethProto = ETH_P_IP)
    (slot : Pktrace.Event) (scratch re : Pksniff.Event) (direction : UInt8) (ktime : UInt64) :
    (Pktrace.pktraceFn skb (some slot)).toList.map pktraceView =
      (Pksniff.processPacket scratch ⟨skb, direction, ktime, some re⟩).2.map pksniffView := by
  rw [processPacket_view hlen heth, ← pktraceFn_view hlen slot]
  cases Pktrace.pktraceFn skb (some slot) <;> rfl

theorem tracers_agree_dataFrame :
    (Pktrace.pktraceFn Pktrace.dataFrame (some Pktrace.emptyEvent)).toList.map pktraceView =
      (Pksniff.processPacket .zero ⟨Pktrace.dataFrame, Pksniff.DIR_EGRESS, 0, some .zero⟩).2.map
        pksniffView :=
  @tracers_agree Pktrace.dataFrame (by decide) (by decide) Pktrace.emptyEvent .zero .zero
    Pksniff.DIR_EGRESS 0

/-! ## The TC configuration -/

/-- A run of either program leaves the hooks and filters as they were exactly when it creates no
hook, and attaches only to hooks without filters: the cleanup flushes a hook and removes none. -/
theorem main_restores_iff {σ : Type} {lib : Libbpf σ} {tc : σ → TcConfig} (hlib : lib.Lawful tc)
    (s : σ) (rb : Bool) (lastPoll : Int) (fds : Option (Int × Int)) (fd : Option Int) :
    (tc (Pksniff.main lib fds rb lastPoll s).1 = tc s ↔
        ∀ fdIn fdEg, fds = some (fdIn, fdEg) →
          Traceless lib tc s .ingress fdIn ∧
            ((tcSetup lib s .ingress fdIn).attached →
              Traceless lib tc (tcSetup lib s .ingress fdIn).state .egress fdEg)) ∧
      (tc (Pktrace.main lib fd rb lastPoll s).1 = tc s ↔
        ∀ f, fd = some f → Traceless lib tc s .ingress f) := by
  constructor
  · cases fds with
    | none => exact iff_of_true rfl fun fdIn fdEg h => by cases h
    | some p =>
        obtain ⟨fdIn, fdEg⟩ := p
        rw [pksniff_main_eq, nested_restores_iff hlib]
        constructor
        · rintro h _ _ ⟨⟩
          exact h
        · exact fun h => h fdIn fdEg rfl
  · cases fd with
    | none => exact iff_of_true rfl fun f h => by cases h
    | some fd =>
        rw [pktrace_main_eq, session_restores_iff hlib]
        constructor
        · rintro h _ ⟨⟩
          exact h
        · exact fun h => h fd rfl

def ENOENT : Int := 2

-- the ids of the programs with the descriptors 5 and 6
def progIdOf (fd : Int) : UInt32 := if fd = 5 then 73 else 74

/-- The calls on an interface whose two hooks come with one `clsact` qdisc. -/
def clsact : Libbpf TcConfig where
  bpfTcHookCreate tc p :=
    if tc p = none then (fun q => some ((tc q).getD []), 0) else (tc, -EEXIST)
  bpfTcAttach tc p opts :=
    match tc p with
    | none => (tc, opts, -ENOENT)
    | some filters =>
        if filters.any fun f => f.priority = opts.priority ∧ f.handle = opts.handle then
          (tc, opts, -EEXIST)
        else
          (Function.update tc p
              (some (⟨progIdOf opts.progFd, opts.handle, opts.priority⟩ :: filters)),
            { opts with progId := progIdOf opts.progFd }, 0)
  bpfTcDetach tc p opts :=
    if opts.progFd ≠ 0 ∨ opts.progId ≠ 0 ∨ opts.flags ≠ 0 then (tc, -EINVAL)
    else
      (Function.update tc p ((tc p).map fun filters =>
        filters.filter fun f => ¬ (f.priority = opts.priority ∧ f.handle = opts.handle)), 0)
  bpfTcHookDestroy tc p :=
    match tc p with
    | none => (tc, -ENOENT)
    | some _ => (Function.update tc p (some []), 0)

theorem clsact_lawful : clsact.Lawful id where
  create_exists tc p h := by
    have hp : ¬ tc p = none := h
    simp only [clsact, if_neg hp]
  create_failed tc p h := by
    by_cases hp : tc p = none
    · simp [clsact, hp] at h
    · simp only [clsact, if_neg hp]
  create_ok tc p h := by
    by_cases hp : tc p = none
    · have hnew : (clsact.bpfTcHookCreate tc p).1 = fun q => some ((tc q).getD []) := by
        simp only [clsact, if_pos hp]
      rw [hnew]
      refine ⟨by simp [hp], fun q hq => ?_⟩
      obtain ⟨filters, hf⟩ := Option.ne_none_iff_exists'.mp hq
      have hq' : tc q = some filters := hf
      simp [hq']
    · simp [clsact, hp, EEXIST] at h
  attach_failed tc p opts h := by
    simp only [clsact] at h ⊢
    split
    · rfl
    · rename_i filters hp
      rw [hp] at h
      split
      · rfl
      · rename_i hf
        simp only [if_neg hf] at h
        exact absurd rfl h
  attach_ok tc p opts h := by
    simp only [clsact] at h ⊢
    split at h
    · cases h
    · rename_i filters hp
      split at h
      · cases h
      · rename_i hf
        rw [if_neg hf]
        refine ⟨?_, [], ⟨progIdOf opts.progFd, opts.handle, opts.priority⟩, filters, hp, rfl⟩
        change progIdOf opts.progFd ≠ 0
        rw [progIdOf]
        split <;> decide
  detach_invalid tc p opts h := by
    simp only [clsact, if_pos h, and_self]
  destroy_flushes tc p h := by
    obtain ⟨filters, hf⟩ := Option.ne_none_iff_exists'.mp h
    have hp : tc p = some filters := hf
    simp only [clsact, hp, id_eq]

/-- Both hooks with a filter of some other program. -/
def shared : TcConfig := fun _ => some [⟨9, 7, 2⟩]

/-- The filters of the other program are gone afterwards, and hooks that were missing stay. -/
theorem shared_flushed :
    clsact.Lawful id ∧
      (Pksniff.main clsact (some (5, 6)) true 0 shared).1 ≠ shared ∧
      (Pktrace.main clsact (some 5) true 0 shared).1 ≠ shared ∧
      (Pktrace.main clsact (some 5) true 0 fun _ => none).1 ≠ fun _ => none := by
  refine ⟨clsact_lawful, fun h => ?_, fun h => ?_, fun h => ?_⟩
  · exact absurd (congrFun h .ingress) (by decide)
  · exact absurd (congrFun h .ingress) (by decide)
  · exact absurd (congrFun h .ingress) (by decide)

theorem main_restores_iff_shared :
    ((Pksniff.main clsact (some (5, 6)) true 0 shared).1 = shared ↔
        ∀ fdIn fdEg, some ((5 : Int), (6 : Int)) = some (fdIn, fdEg) →
          Traceless clsact id shared .ingress fdIn ∧
            ((tcSetup clsact shared .ingress fdIn).attached →
              Traceless clsact id (tcSetup clsact shared .ingress fdIn).state .egress fdEg)) ∧
      ((Pktrace.main clsact (some 5) true 0 shared).1 = shared ↔
        ∀ f, some (5 : Int) = some f → Traceless clsact id shared .ingress f) :=
  main_restores_iff clsact_lawful shared true 0 (some (5, 6)) (some 5)

end EbpfTools.Tracers

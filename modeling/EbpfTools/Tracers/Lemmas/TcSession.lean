import EbpfTools.Pksniff.Ui
import EbpfTools.Pktrace.Userspace

/-!
# What a session leaves of the TC configuration
-/

namespace EbpfTools.Tracers
open EbpfTools.Bpf

variable {σ : Type} {lib : Libbpf σ} {tc : σ → TcConfig} {s : σ} {p q : AttachPoint} {fd : Int}

/-- The hook is not created by the set-up, and carries no filter if the program is attached. -/
def Traceless (lib : Libbpf σ) (tc : σ → TcConfig) (s : σ) (p : AttachPoint) (fd : Int) : Prop :=
  (lib.bpfTcHookCreate s p).2 ≠ 0 ∧ ((tcSetup lib s p fd).attached → tc s p = some [])

/-- What happens between the set-up and the cleanup of one attach point. -/
def tcSession (lib : Libbpf σ) (p : AttachPoint) (fd : Int) (body : σ → σ) (s : σ) : σ :=
  let r := tcSetup lib s p fd
  if r.attached then tcCleanup lib (body r.state) p r.opts else r.state

/-! ## Set-up and cleanup -/

theorem tcSetup_cases (lib : Libbpf σ) (s : σ) (p : AttachPoint) (fd : Int) :
    ((lib.bpfTcHookCreate s p).2 ≠ 0 ∧
        tcSetup lib s p fd =
          ⟨(lib.bpfTcHookCreate s p).1, (lib.bpfTcHookCreate s p).2, .zero, false⟩) ∨
      ∃ opts, tcSetup lib s p fd =
        ⟨(lib.bpfTcAttach (lib.bpfTcHookCreate s p).1 p opts).1,
          (lib.bpfTcAttach (lib.bpfTcHookCreate s p).1 p opts).2.2,
          (lib.bpfTcAttach (lib.bpfTcHookCreate s p).1 p opts).2.1,
          (lib.bpfTcAttach (lib.bpfTcHookCreate s p).1 p opts).2.2 = 0⟩ := by
  unfold tcSetup
  dsimp only
  split
  · rename_i h
    exact Or.inl ⟨h.1, rfl⟩
  · exact Or.inr ⟨_, rfl⟩

/-- An attach changes no other hook and leaves an existing hook in place. -/
theorem attach_frame (hlib : lib.Lawful tc) (s : σ) (p : AttachPoint) (opts : TcOpts) :
    (∀ q, q ≠ p → tc (lib.bpfTcAttach s p opts).1 q = tc s q) ∧
      (tc s p ≠ none → tc (lib.bpfTcAttach s p opts).1 p ≠ none) := by
  by_cases h : (lib.bpfTcAttach s p opts).2.2 = 0
  · obtain ⟨-, pre, f, post, -, htc⟩ := hlib.attach_ok s p opts h
    rw [htc]
    refine ⟨fun q hq => Function.update_of_ne hq _ _, fun _ => ?_⟩
    rw [Function.update_self]
    exact Option.some_ne_none _
  · rw [hlib.attach_failed s p opts h]
    exact ⟨fun _ _ => rfl, id⟩

theorem create_frame (hlib : lib.Lawful tc)
    (h : (lib.bpfTcHookCreate s p).2 ≠ 0 ∨ tc s q ≠ none) :
    tc (lib.bpfTcHookCreate s p).1 q = tc s q := by
  by_cases hc : (lib.bpfTcHookCreate s p).2 = 0
  · exact (hlib.create_ok s p hc).2 q (h.resolve_left (not_not_intro hc))
  · rw [hlib.create_failed s p hc]

/-- A hook that is created exists after the set-up. -/
theorem setup_created (hlib : lib.Lawful tc) (h : (lib.bpfTcHookCreate s p).2 = 0) (fd : Int) :
    tc s p = none ∧ tc (tcSetup lib s p fd).state p ≠ none := by
  refine ⟨?_, ?_⟩
  · by_contra hn
    rw [hlib.create_exists s p hn] at h
    cases h
  · rcases tcSetup_cases lib s p fd with ⟨hne, -⟩ | ⟨opts, hr⟩
    · exact absurd h hne
    · rw [hr]
      refine (attach_frame hlib _ p opts).2 ?_
      rw [(hlib.create_ok s p h).1]
      exact Option.some_ne_none _

theorem setup_other (hlib : lib.Lawful tc) (hq : q ≠ p)
    (h : (lib.bpfTcHookCreate s p).2 ≠ 0 ∨ tc s q ≠ none) (fd : Int) :
    tc (tcSetup lib s p fd).state q = tc s q := by
  rcases tcSetup_cases lib s p fd with ⟨-, hr⟩ | ⟨opts, hr⟩
  · rw [hr]
    exact create_frame hlib h
  · rw [hr]
    exact ((attach_frame hlib _ p opts).1 q hq).trans (create_frame hlib h)

theorem setup_failed (hlib : lib.Lawful tc) (h : (lib.bpfTcHookCreate s p).2 ≠ 0)
    (ha : (tcSetup lib s p fd).attached = false) : tc (tcSetup lib s p fd).state = tc s := by
  rcases tcSetup_cases lib s p fd with ⟨-, hr⟩ | ⟨opts, hr⟩
  · rw [hr]
    exact hlib.create_failed s p h
  · rw [hr] at ha ⊢
    exact (hlib.attach_failed _ p opts (of_decide_eq_false ha)).trans (hlib.create_failed s p h)

theorem setup_attached (hlib : lib.Lawful tc) (ha : (tcSetup lib s p fd).attached) :
    (tcSetup lib s p fd).opts.progId ≠ 0 ∧ tc (tcSetup lib s p fd).state p ≠ none := by
  rcases tcSetup_cases lib s p fd with ⟨-, hr⟩ | ⟨opts, hr⟩
  · rw [hr] at ha
    cases ha
  · rw [hr] at ha ⊢
    obtain ⟨hid, pre, f, post, -, htc⟩ := hlib.attach_ok _ p opts (of_decide_eq_true ha)
    refine ⟨hid, ?_⟩
    rw [htc, Function.update_self]
    exact Option.some_ne_none _

/-- The program is not detached, since the options still name it: its filter goes with all others
on the hook. -/
theorem tc_cleanup (hlib : lib.Lawful tc) {opts : TcOpts} (hid : opts.progId ≠ 0)
    (hp : tc s p ≠ none) : tc (tcCleanup lib s p opts) = Function.update (tc s) p (some []) := by
  obtain ⟨-, hdetach⟩ := hlib.detach_invalid s p opts (Or.inr (Or.inl hid))
  rw [tcCleanup, hlib.destroy_flushes _ p (by rwa [hdetach]), hdetach]

/-! ## One session -/

/-- What a session does to its own hook, while what happens in between leaves the hook in place. -/
theorem session_own_iff (hlib : lib.Lawful tc) {body : σ → σ}
    (hbody : ∀ s, tc s p ≠ none → tc (body s) p ≠ none) :
    tc (tcSession lib p fd body s) p = tc s p ↔ Traceless lib tc s p fd := by
  rw [tcSession, Traceless]
  by_cases hc : (lib.bpfTcHookCreate s p).2 = 0
  · obtain ⟨hnone, hexists⟩ := setup_created hlib hc fd
    refine iff_of_false ?_ fun h => h.1 hc
    rw [hnone]
    split
    · rename_i ha
      obtain ⟨hid, hp⟩ := setup_attached hlib ha
      rw [tc_cleanup hlib hid (hbody _ hp), Function.update_self]
      exact Option.some_ne_none _
    · exact hexists
  · rw [and_iff_right hc]
    split
    · rename_i ha
      obtain ⟨hid, hp⟩ := setup_attached hlib ha
      rw [tc_cleanup hlib hid (hbody _ hp), Function.update_self]
      exact ⟨fun h _ => h.symm, fun h => (h ha).symm⟩
    · rename_i ha
      rw [setup_failed hlib hc (Bool.eq_false_iff.mpr ha)]
      exact iff_of_true rfl fun h => absurd h ha

theorem session_id_own_iff (hlib : lib.Lawful tc) :
    tc (tcSession lib p fd id s) p = tc s p ↔ Traceless lib tc s p fd :=
  session_own_iff hlib fun _ h => h

theorem session_other (hlib : lib.Lawful tc) (hq : q ≠ p)
    (h : (lib.bpfTcHookCreate s p).2 ≠ 0 ∨ tc s q ≠ none) :
    tc (tcSession lib p fd id s) q = tc s q := by
  rw [tcSession]
  split
  · rename_i ha
    obtain ⟨hid, hp⟩ := setup_attached hlib ha
    rw [id_eq, tc_cleanup hlib hid hp, Function.update_of_ne hq]
    exact setup_other hlib hq h fd
  · exact setup_other hlib hq h fd

theorem session_restores_iff (hlib : lib.Lawful tc) :
    tc (tcSession lib p fd id s) = tc s ↔ Traceless lib tc s p fd := by
  constructor
  · exact fun h => (session_id_own_iff hlib).mp (congrFun h p)
  · intro h
    funext q
    by_cases hq : q = p
    · subst hq
      exact (session_id_own_iff hlib).mpr h
    · exact session_other hlib hq (Or.inl h.1)

/-! ## The two programs -/

theorem pktrace_main_eq (fd : Int) (rb : Bool) (lastPoll : Int) (s : σ) :
    (Pktrace.main lib (some fd) rb lastPoll s).1 = tcSession lib .ingress fd id s := by
  rw [Pktrace.main, tcSession]
  dsimp only
  split <;> rfl

theorem pksniff_main_eq (fdIn fdEg : Int) (rb : Bool) (lastPoll : Int) (s : σ) :
    (Pksniff.main lib (some (fdIn, fdEg)) rb lastPoll s).1 =
      tcSession lib .ingress fdIn (tcSession lib .egress fdEg id) s := by
  rw [Pksniff.main, tcSession]
  dsimp only
  split
  · rw [tcSession]
    split <;> rfl
  · rfl

theorem ingress_ne_egress : AttachPoint.ingress ≠ .egress := AttachPoint.noConfusion

theorem nested_keeps_ingress (hlib : lib.Lawful tc) {fdEg : Int} (s : σ)
    (hs : tc s .ingress ≠ none) : tc (tcSession lib .egress fdEg id s) .ingress ≠ none := by
  rwa [session_other hlib ingress_ne_egress (Or.inr hs)]

/-- What the inner session leaves on egress is what the whole program leaves there. -/
theorem nested_egress_iff (hlib : lib.Lawful tc) {fdIn fdEg : Int}
    (hc : (lib.bpfTcHookCreate s .ingress).2 ≠ 0) :
    tc (tcSession lib .ingress fdIn (tcSession lib .egress fdEg id) s) .egress = tc s .egress ↔
      ((tcSetup lib s .ingress fdIn).attached →
        Traceless lib tc (tcSetup lib s .ingress fdIn).state .egress fdEg) := by
  have hother : AttachPoint.egress ≠ .ingress := ingress_ne_egress.symm
  rw [tcSession]
  split
  · rename_i ha
    obtain ⟨hid, hp⟩ := setup_attached hlib ha
    rw [tc_cleanup hlib hid (nested_keeps_ingress hlib _ hp), Function.update_of_ne hother,
      ← setup_other hlib hother (Or.inl hc) fdIn, session_id_own_iff hlib]
    exact ⟨fun h _ => h, fun h => h ha⟩
  · rename_i ha
    rw [setup_failed hlib hc (Bool.eq_false_iff.mpr ha)]
    exact iff_of_true rfl fun h => absurd h ha

/-- The session on egress is nested in the one on ingress. -/
theorem nested_restores_iff (hlib : lib.Lawful tc) {fdIn fdEg : Int} :
    tc (tcSession lib .ingress fdIn (tcSession lib .egress fdEg id) s) = tc s ↔
      Traceless lib tc s .ingress fdIn ∧
        ((tcSetup lib s .ingress fdIn).attached →
          Traceless lib tc (tcSetup lib s .ingress fdIn).state .egress fdEg) := by
  have hown := @session_own_iff σ lib tc s .ingress fdIn hlib _
    (@nested_keeps_ingress σ lib tc hlib fdEg)
  constructor
  · intro h
    have hclean := hown.mp (congrFun h .ingress)
    exact ⟨hclean, (nested_egress_iff hlib hclean.1).mp (congrFun h .egress)⟩
  · rintro ⟨hclean, hnext⟩
    funext q
    cases q with
    | ingress => exact hown.mpr hclean
    | egress => exact (nested_egress_iff hlib hclean.1).mpr hnext

end EbpfTools.Tracers

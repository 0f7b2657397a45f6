import EbpfTools.Privwatch.Lemmas.Caps

/-!
# Theorems about privwatch
-/

namespace EbpfTools.Privwatch
open EbpfTools.Lib

/-- The change is submitted, and printed as more than information. -/
def Flagged (cur : Current) (newCred : Cred) : Prop :=
  ∀ slot behind, ∃ e, traceCommitCreds cur newCred (some slot) = some e ∧
    ((handleEvent e behind).severity = .warn ∨ (handleEvent e behind).severity = .alert)

theorem severityOf_ne_info_iff (e : Event) :
    severityOf e = .warn ∨ severityOf e = .alert ↔ e.oldUid ≠ 0 ∧ e.newUid = 0 := by
  have hzero : e.oldUid > 10000 → e.oldUid ≠ 0 := by
    rintro h he
    rw [he] at h
    exact absurd h (by decide)
  by_cases hnew : e.newUid = 0
  · by_cases hold : e.oldUid = 0
    · simp [severityOf, hold]
    · by_cases happ : e.oldUid > 10000
      · simp [severityOf, hnew, hold, happ]
      · simp [severityOf, hnew, hold, happ]
  · simp [severityOf, hnew]

theorem flagged_iff_uid (cur : Current) (newCred : Cred) :
    Flagged cur newCred ↔ cur.cred.uid ≠ 0 ∧ newCred.uid = 0 := by
  constructor
  · intro h
    obtain ⟨e, he, hsev⟩ := h ⟨0, 0, 0, 0, 0, 0, 0, 0, 0, 0, .zero _⟩ []
    simp only [traceCommitCreds] at he
    split at he
    · cases he
    · cases he
      exact (severityOf_ne_info_iff _).mp hsev
  · rintro ⟨hold, hnew⟩ slot behind
    have hchanged : ¬ (cur.cred.uid = newCred.uid ∧ cur.cred.gid = newCred.gid ∧
        readCaps cur.cred = readCaps newCred) := fun h => hold (h.1.trans hnew)
    refine ⟨_, by simp only [traceCommitCreds, if_neg hchanged]; rfl, ?_⟩
    exact (severityOf_ne_info_iff _).mpr ⟨hold, hnew⟩

/-- The effective user of the task changes to root. -/
def Escalates (oldCred newCred : Cred) : Prop := oldCred.euid ≠ 0 ∧ newCred.euid = 0

/-- A task that becomes root is flagged exactly when its real user becomes root as well: the
effective ids are not looked at. -/
theorem escalation_flagged_iff (cur : Current) (newCred : Cred) :
    (Escalates cur.cred newCred → Flagged cur newCred) ↔
      (Escalates cur.cred newCred → cur.cred.uid ≠ 0 ∧ newCred.uid = 0) := by
  rw [flagged_iff_uid]

def credOf (uid euid : UInt32) (caps : CapWords) : Cred := ⟨uid, 2000, euid, 2000, caps⟩

def shell (euid : UInt32) : Current :=
  ⟨0, 0x6400000064, .zero _, credOf 2000 euid ⟨0, 0⟩, 1, 0⟩

def blankEvent : Event := ⟨0, 0, 0, 0, 0, 0, 0, 0, 0, 0, .zero _⟩

/-- A shell user runs a set-uid program, which prints as information, or gets back the effective
user 0 of such a program without capabilities, which leaves no event. -/
theorem setuidExec_not_flagged :
    Escalates (shell 2000).cred (credOf 2000 0 ⟨0xFFFFFFFF, 0x1FF⟩) ∧
      (traceCommitCreds (shell 2000) (credOf 2000 0 ⟨0xFFFFFFFF, 0x1FF⟩) (some blankEvent)).map
        (fun e => (handleEvent e []).severity) = some .info ∧
      ¬ Flagged (shell 2000) (credOf 2000 0 ⟨0xFFFFFFFF, 0x1FF⟩) ∧
      Escalates (shell 2000).cred (credOf 2000 0 ⟨0, 0⟩) ∧
      traceCommitCreds (shell 2000) (credOf 2000 0 ⟨0, 0⟩) (some blankEvent) = none ∧
      ¬ Flagged (shell 2000) (credOf 2000 0 ⟨0, 0⟩) := by
  have hescalates : ∀ caps, Escalates (shell 2000).cred (credOf 2000 0 caps) :=
    fun caps => ⟨by decide, rfl⟩
  have hreal : (2000 : UInt32) ≠ 0 := by decide
  have hsilent : ∀ caps, ¬ Flagged (shell 2000) (credOf 2000 0 caps) :=
    fun caps h => hreal ((flagged_iff_uid _ _).mp h).2
  exact ⟨hescalates _, by decide, hsilent _, hescalates _, by decide, hsilent _⟩

/-! ## The labels -/

/-- The numbers that Linux assigns to the capabilities that have a label. -/
def linuxCaps : List (Nat × String) :=
  [(0, "CAP_CHOWN"), (1, "CAP_DAC_OVERRIDE"), (3, "CAP_FOWNER"), (6, "CAP_SETGID"),
    (7, "CAP_SETUID"), (19, "CAP_SYS_PTRACE"), (21, "CAP_SYS_ADMIN")]

/-- A label is printed exactly when the capability of that name is gained. -/
def NamesGained (oldCred newCred : Cred) : Prop :=
  ∀ x ∈ linuxCaps,
    x.2 ∈ printedLabels (readCaps oldCred) (readCaps newCred) ↔ Gains oldCred newCred x.1

instance (oldCred newCred : Cred) : Decidable (NamesGained oldCred newCred) :=
  inferInstanceAs (Decidable (∀ x ∈ linuxCaps, _))

/-- The labels name the capabilities gained exactly when `CAP_SETGID` and `CAP_SETUID` are gained
together or not at all, and so are `CAP_SYS_PTRACE` and number 27, `CAP_MKNOD`: the labels of the
first two are exchanged, and the label of the third is tied to the bit of the fourth. -/
theorem namesGained_iff (oldCred newCred : Cred) :
    NamesGained oldCred newCred ↔
      (Gains oldCred newCred 6 ↔ Gains oldCred newCred 7) ∧
        (Gains oldCred newCred 19 ↔ Gains oldCred newCred 27) := by
  have hlabel : ∀ b name, (b, name) ∈ capLabels →
      (name ∈ printedLabels (readCaps oldCred) (readCaps newCred) ↔
        Gains oldCred newCred b.toNat) :=
    fun b name h => mem_printedLabels_iff oldCred newCred h
  have hsetuid := hlabel 6 "CAP_SETUID" (by decide)
  have hsetgid := hlabel 7 "CAP_SETGID" (by decide)
  have hptrace := hlabel 27 "CAP_SYS_PTRACE" (by decide)
  constructor
  · intro h
    have hgid := h (6, "CAP_SETGID") (by decide)
    have hsys := h (19, "CAP_SYS_PTRACE") (by decide)
    exact ⟨hgid.symm.trans hsetgid, hsys.symm.trans hptrace⟩
  · rintro ⟨hids, hsys⟩ x hx
    simp only [linuxCaps, List.mem_cons, List.not_mem_nil, or_false] at hx
    rcases hx with rfl | rfl | rfl | rfl | rfl | rfl | rfl
    · exact hlabel 0 "CAP_CHOWN" (by decide)
    · exact hlabel 1 "CAP_DAC_OVERRIDE" (by decide)
    · exact hlabel 3 "CAP_FOWNER" (by decide)
    · exact hsetgid.trans hids.symm
    · exact hsetuid.trans hids
    · exact hptrace.trans hsys.symm
    · exact hlabel 21 "CAP_SYS_ADMIN" (by decide)

/-- A shell that gains `CAP_SETGID` is printed as one that gains `CAP_SETUID`, and one that gains
`CAP_SYS_PTRACE` without a label. -/
theorem setgid_mislabelled :
    (traceCommitCreds (shell 2000) (credOf 2000 2000 ⟨0x40, 0⟩) (some blankEvent)).map
        (fun e => (handleEvent e []).caps) = some (some (0, 64, ["CAP_SETUID"])) ∧
      (traceCommitCreds (shell 2000) (credOf 2000 2000 ⟨0x80000, 0⟩) (some blankEvent)).map
        (fun e => (handleEvent e []).caps) = some (some (0, 0x80000, [])) ∧
      ¬ ∀ oldCred newCred, NamesGained oldCred newCred := by
  refine ⟨by decide, by decide, fun h => ?_⟩
  exact absurd (h (shell 2000).cred (credOf 2000 2000 ⟨0x40, 0⟩)) (by decide)

end EbpfTools.Privwatch

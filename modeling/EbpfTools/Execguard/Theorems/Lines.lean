import EbpfTools.Execguard.Lemmas.Normalize
import EbpfTools.Execguard.Lemmas.Window
import EbpfTools.Lib.Run

/-!
# execguard: nothing stale is printed

The events are written to memory of the ring buffer that held other events before, and normalized
into an array on the stack.
-/

namespace EbpfTools.Execguard
open EbpfTools.Lib

/-! ## The system -/

/-- An exec and the memory that its event meets in the handler. -/
structure Handled where
  exec : Exec
  cmdline : Buf CMDLINE_LEN
  behind : List UInt8

def step (stats : Stats) (x : Handled) : Stats × List Lines :=
  ((handleExec stats x.exec).1,
    (handleExec stats x.exec).2.map (handleEvent x.cmdline x.behind))

/-- The same exec in other memory, with a terminated name. -/
structure Alike (x y : Handled) : Prop where
  now : x.exec.now = y.exec.now
  pid : x.exec.pid = y.exec.pid
  ppid : x.exec.ppid = y.exec.ppid
  uid : x.exec.uid = y.exec.uid
  nsInum : x.exec.nsInum = y.exec.nsInum
  comm : x.exec.comm = y.exec.comm
  room : x.exec.slot.isSome = y.exec.slot.isSome
  terminated : 0 ∈ x.exec.comm.bytes

/-! ## One event -/

variable {x : Exec}

theorem zero_mem_commPath (comm : Buf TASK_COMM_LEN) : 0 ∈ (commPath comm).bytes := by
  rw [commPath, Buf.memcpy_bytes _ (by rw [comm.size_eq]; decide), comm.size_eq]
  exact List.mem_append_right _ (by decide)

theorem headD_normalizeCmdline_zero (dst : Buf CMDLINE_LEN) (src : List UInt8) :
    (normalizeCmdline dst src 0).bytes.headD 0 = 0 := by
  obtain ⟨bytes, hsize⟩ := dst
  obtain ⟨c, cs, rfl⟩ : ∃ c cs, bytes = c :: cs :=
    List.exists_cons_of_length_pos (by rw [hsize]; decide)
  rfl

/-- The lines of an event from the exec and its count alone. -/
def Exec.lines (x : Exec) (count : UInt32) : Lines where
  sec := x.now / 1000000000
  severity := severityFor ⟨x.pid, x.ppid, x.uid, x.nsInum, x.now, count, x.comm, .zero _,
    commPath x.comm, .zero _, 0⟩
  pid := x.pid
  ppid := x.ppid
  uid := x.uid
  count
  nsInum := x.nsInum
  comm := x.comm.str
  parent := []
  bin := if (commPath x.comm).bytes.headD 0 ≠ 0 then (commPath x.comm).str else ascii "(unknown)"
  cmd := ascii "(empty)"

theorem handleEvent_fillEvent (hcomm : 0 ∈ x.comm.bytes) (slot : Event) (count : UInt32)
    (cmdline : Buf CMDLINE_LEN) (behind : List UInt8) :
    handleEvent cmdline behind { fillEvent x slot with execCount := count } = x.lines count := by
  have hparent : ∀ rest, cstr ((fillEvent x slot).parentComm.bytes ++ rest) = [] := by
    intro rest
    rw [fillEvent]
    obtain ⟨bytes, hsize⟩ := slot.parentComm
    obtain ⟨c, cs, rfl⟩ : ∃ c cs, bytes = c :: cs :=
      List.exists_cons_of_length_pos (by rw [hsize]; decide)
    rfl
  have hcommStr : ∀ rest, cstr (x.comm.bytes ++ rest) = x.comm.str :=
    fun rest => cstr_append_of_mem rest hcomm
  have hbin : ∀ rest, cstr ((commPath x.comm).bytes ++ rest) = (commPath x.comm).str :=
    fun rest => cstr_append_of_mem rest (zero_mem_commPath x.comm)
  have hcmd := headD_normalizeCmdline_zero cmdline
    ((fillEvent x slot).cmdline.bytes ++ behind)
  rw [handleEvent, Exec.lines, Lines.mk.injEq]
  refine ⟨rfl, rfl, rfl, rfl, rfl, rfl, rfl, hcommStr _, hparent _, ?_, ?_⟩
  · show (if (commPath x.comm).bytes.headD 0 ≠ 0 then cstr ((commPath x.comm).bytes ++ _) else _) =
      _
    rw [hbin]
  · exact if_neg (not_ne_iff.mpr hcmd)

/-! ## Runs -/

theorem step_eq (stats : Stats) (x : Handled) (hcomm : 0 ∈ x.exec.comm.bytes) :
    step stats x =
      if x.exec.slot.isSome then
        (BoundedMap.track Exec.key (fun o x => nextStat o x.now) stats x.exec,
          [x.exec.lines (nextStat (stats.lookup x.exec.key) x.exec.now).count])
      else (stats, []) := by
  rw [step]
  cases hslot : x.exec.slot with
  | none => simp [handleExec, hslot]
  | some slot =>
      rw [handleExec_some hslot]
      simp [handleEvent_fillEvent hcomm]

theorem step_congr {x y : Handled} (h : Alike x y) (stats : Stats) : step stats x = step stats y := by
  have hkey : x.exec.key = y.exec.key := by rw [Exec.key, Exec.key, h.uid, h.comm]
  have hlines : ∀ count, x.exec.lines count = y.exec.lines count := by
    intro count
    rw [Exec.lines, Exec.lines, h.now, h.pid, h.ppid, h.uid, h.nsInum, h.comm]
  rw [step_eq stats x h.terminated, step_eq stats y (h.comm ▸ h.terminated), h.room, hkey, h.now,
    hlines, BoundedMap.track, BoundedMap.track, hkey, h.now]

theorem of_mem_step {stats : Stats} {x : Handled} (hcomm : 0 ∈ x.exec.comm.bytes) {l : Lines}
    (h : l ∈ (step stats x).2) : ∃ count, l = x.exec.lines count := by
  rw [step_eq stats x hcomm] at h
  split at h
  · exact ⟨_, List.mem_singleton.mp h⟩
  · cases h

theorem terminated_of_alike {xs ys : List Handled} (h : List.Forall₂ Alike xs ys) :
    ∀ x ∈ xs, 0 ∈ x.exec.comm.bytes := by
  induction h with
  | nil => exact fun x hx => absurd hx List.not_mem_nil
  | cons hxy _ ih => exact List.forall_mem_cons.mpr ⟨hxy.terminated, ih⟩

/-- The lines of a run tell nothing of what the ring buffer or the stack held before, and none of
them shows a parent or a command line. -/
theorem lines_alike {xs ys : List Handled} (h : List.Forall₂ Alike xs ys) (stats : Stats) :
    runOut step stats xs = runOut step stats ys ∧
      ∀ l ∈ runOut step stats xs, l.parent = [] ∧ l.cmd = ascii "(empty)" := by
  refine ⟨?_, fun l hl => ?_⟩
  · induction h generalizing stats with
    | nil => rfl
    | cons hxy _ ih => rw [runOut_cons, runOut_cons, step_congr hxy, ih]
  · obtain ⟨pre, x, post, hsplit, hx⟩ := mem_runOut.mp hl
    obtain ⟨count, rfl⟩ := of_mem_step (terminated_of_alike h x (by simp [hsplit])) hx
    exact ⟨rfl, rfl⟩

def freshSlot : Event := ⟨0, 0, 0, 0, 0, 0, .zero _, .zero _, .zero _, .zero _, 0⟩

def usedSlot : Event :=
  { freshSlot with
    parentComm := (Buf.zero _).memcpy 0 (ascii "keystore")
    cmdline := (Buf.zero _).memcpy 0 (ascii "id --secret") }

/-- A `curl` of user 10050 in a given memory. -/
def curlIn (slot : Event) (behind : List UInt8) : Handled :=
  ⟨⟨5000000000, 4242, 1, 10050, 0, (Buf.zero _).memcpy 0 (ascii "curl"), some slot⟩, .zero _,
    behind⟩

theorem lines_alike_curl :
    runOut step .empty [curlIn freshSlot []] = runOut step .empty [curlIn usedSlot [7, 8]] ∧
      ∀ l ∈ runOut step .empty [curlIn freshSlot []], l.parent = [] ∧ l.cmd = ascii "(empty)" :=
  lines_alike (.cons ⟨rfl, rfl, rfl, rfl, rfl, rfl, rfl, by decide⟩ .nil) .empty

/-! ## Command lines -/

/-- Whatever a command line holds, at most 255 bytes of it are printed, none of them a control
character and the last not a blank, and what is printed would be printed again unchanged. -/
theorem cmdline_printed (dst dst' : Buf CMDLINE_LEN) (src : List UInt8) (srcLen : UInt32) :
    (normalizeCmdline dst src srcLen).str.length < CMDLINE_LEN ∧
      (∀ c ∈ (normalizeCmdline dst src srcLen).str, iscntrl c = false) ∧
      (normalizeCmdline dst src srcLen).str.getLast? ≠ some 32 ∧
      (normalizeCmdline dst' (normalizeCmdline dst src srcLen).str
        (.ofNat (normalizeCmdline dst src srcLen).str.length)).str =
        (normalizeCmdline dst src srcLen).str := by
  have hpos : 0 < CMDLINE_LEN := by decide
  rw [str_normalizeCmdline hpos]
  generalize src.take srcLen.toNat = src
  have hlen := @length_normalized_le CMDLINE_LEN src
  have hsize : CMDLINE_LEN = 256 := rfl
  refine ⟨by omega, fun c => not_iscntrl_of_mem_normalized, ?_, ?_⟩
  · intro hlast
    have hne : normalized CMDLINE_LEN src ≠ [] := by
      intro hnil
      rw [hnil] at hlast
      cases hlast
    have hblank := List.rdropWhile_last_not isBlank
      ((src.take (CMDLINE_LEN - 1)).map normalizeByte) hne
    rw [List.getLast?_eq_some_getLast hne, Option.some.injEq] at hlast
    exact hblank (decide_eq_true hlast)
  · have hnat : (UInt32.ofNat (normalized CMDLINE_LEN src).length).toNat =
        (normalized CMDLINE_LEN src).length := by
      rw [UInt32.toNat_ofNat']
      omega
    rw [str_normalizeCmdline hpos, hnat, List.take_length, normalized_normalized]

end EbpfTools.Execguard

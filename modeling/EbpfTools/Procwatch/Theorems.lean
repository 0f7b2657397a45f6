import EbpfTools.Procwatch.Lemmas.Argv
import EbpfTools.Procwatch.Lemmas.Stores
import EbpfTools.Procwatch.Lemmas.Tree

/-!
# Theorems about procwatch
-/

namespace EbpfTools.Procwatch
open EbpfTools.Lib

/-! ## The line of an exec -/

/-- The line of an exec shows the process's own data exactly when a NUL of its own ends the copied
arguments: the program writes no terminator, and the sanitizer takes the last NUL for a separator
if a stale byte follows it. -/
theorem printedExec_own_iff (ctx : ExecCtx) (cur : Current) :
    ((∀ slot slot' behind behind',
        printedExec ctx cur slot behind = printedExec ctx cur slot' behind') ↔
      Ended (argBytes cur.task.mm)) ∧
    (Ended (argBytes cur.task.mm) → ∀ slot behind,
      printedExec ctx cur slot behind =
        some (ownFilename ctx, cstr (spaced (argBytes cur.task.mm)))) := by
  refine ⟨⟨fun h => ?_, fun h slot slot' behind behind' => ?_⟩, printedExec_of_ended⟩
  · by_contra hended
    have hle := length_argBytes_le cur.task.mm
    have hshort := length_text_zero hle []
    have hlong := length_text_of_not_ended hle hended []
    have htexts := h (slotOf 0) (slotOf 120) [] []
    simp only [printedExec_eq, Option.some.injEq, Prod.mk.injEq, true_and] at htexts
    rw [htexts] at hshort
    exact absurd hshort (Nat.not_le.mpr hlong)
  · rw [printedExec_of_ended h, printedExec_of_ended h]

def userOf (bytes : List UInt8) (addr : UInt64) : Option UInt8 := bytes[(addr - 0x1000).toNat]?

def argsAt (bytes : List UInt8) : Mm := ⟨0x1000, 0x1000 + UInt64.ofNat bytes.length, userOf bytes⟩

def execOf (bytes : List UInt8) : Current :=
  ⟨0, 0x6400000064, 0, .zero _, ⟨1, 0, 0, some (argsAt bytes)⟩⟩

def lsCtx : ExecCtx := ⟨0x00070000, ascii "/bin/ls"⟩

-- the slot of an exec of `grep secret`, which has been read and is reserved again
def grepSlot : Event :=
  { slotOf 0 with args := (Buf.zero _).memcpy 0 (ascii "grep" ++ [0] ++ ascii "secret" ++ [0]) }

/-- The line of an exec of `ls` in a slot used before. -/
theorem lsExec_shows_stale :
    printedExec lsCtx (execOf (ascii "ls" ++ [0])) grepSlot [] =
        some (ascii "/bin/ls", ascii "ls p secret") ∧
      printedExec lsCtx (execOf (ascii "ls" ++ [0])) (slotOf 0) [] =
        some (ascii "/bin/ls", ascii "ls") ∧
      ¬ ∀ slot slot' behind behind', printedExec lsCtx (execOf (ascii "ls" ++ [0])) slot behind =
        printedExec lsCtx (execOf (ascii "ls" ++ [0])) slot' behind' := by
  have hstale : printedExec lsCtx (execOf (ascii "ls" ++ [0])) grepSlot [] =
      some (ascii "/bin/ls", ascii "ls p secret") := by
    rw [printedExec_eq]
    decide +kernel
  have hzero : printedExec lsCtx (execOf (ascii "ls" ++ [0])) (slotOf 0) [] =
      some (ascii "/bin/ls", ascii "ls") := by
    rw [printedExec_eq]
    decide +kernel
  refine ⟨hstale, hzero, fun h => ?_⟩
  have hsame := h grepSlot (slotOf 0) [] []
  rw [hstale, hzero] at hsame
  exact absurd hsame (by decide)

/-- With an empty last argument the copied bytes end in two NULs. -/
theorem printedExec_own_iff_emptyArg :
    printedExec lsCtx (execOf (ascii "ls" ++ [0, 0])) grepSlot [] =
      some (ownFilename lsCtx, cstr (spaced (ascii "ls" ++ [0, 0]))) :=
  (printedExec_own_iff lsCtx (execOf (ascii "ls" ++ [0, 0]))).2
    (Or.inl ⟨ascii "ls", [], by decide +kernel⟩) grepSlot []

/-! ## The arguments -/

/-- The arguments are rendered faithfully exactly when no empty argument makes two NULs follow each
other in the field, which end the text, and the field does not end in the midst of an argument,
whose last byte then takes the place of the terminator. -/
theorem faithful_iff {args : List (List UInt8)} (hargs : ∀ a ∈ args, 0 ∉ a) {mm : Mm}
    (hmm : mm.Stores args) {cur : Current} (hcur : cur.task.mm = some mm) (ctx : ExecCtx)
    (behind : List UInt8) : Faithful ctx cur args behind ↔ Renderable args := by
  have hcopied := argBytes_eq hmm
  rw [← hcur] at hcopied
  rw [faithful_eq, hcopied, rendered_eq hargs]
  by_cases harea : (argvBytes args).length < 2 ^ 63
  · have hlen : ((argvBytes args).take MAX_ARGS_LEN).length +
        (MAX_ARGS_LEN - ((argvBytes args).take MAX_ARGS_LEN).length) = MAX_ARGS_LEN := by
      rw [List.length_take]
      omega
    have hend : (argvBytes args).take MAX_ARGS_LEN = [] ∨
        ((argvBytes args).take MAX_ARGS_LEN).getLast? = some 0 ∨
        MAX_ARGS_LEN - ((argvBytes args).take MAX_ARGS_LEN).length = 0 := by
      by_cases hfit : (argvBytes args).length ≤ MAX_ARGS_LEN
      · exact ((ends_iff args).mp (Or.inl hfit)).imp_right Or.inl
      · refine Or.inr (Or.inr ?_)
        rw [List.length_take]
        omega
    rw [if_pos harea, inZeros, text_iff hlen hend, ← ends_iff, twoNuls_argvBytes_iff hargs]
    constructor
    · rintro ⟨htwo, hends⟩
      refine ⟨fun pre post hsplit hpre => ?_, hends, harea⟩
      exact Nat.le_of_not_lt fun hlt => htwo ⟨pre, post, hsplit, hpre, hlt⟩
    · rintro ⟨hempty, hends, -⟩
      refine ⟨?_, hends⟩
      rintro ⟨pre, post, hsplit, hpre, hlt⟩
      exact Nat.not_le.mpr hlt (hempty pre post hsplit hpre)
  · rw [if_neg harea]
    refine iff_of_false (fun h => ?_) (fun h => harea h.area)
    have hshown := congrArg List.length h.1
    simp only [inZeros, List.nil_append, List.length_nil, Nat.sub_zero, spaced_replicate_zero,
      List.length_map, List.length_dropLast, List.length_take] at hshown
    rw [cstr_append_of_mem _ (by decide), cstr_replicate] at hshown
    simp only [List.length_nil, show MAX_ARGS_LEN = 256 from rfl] at hshown
    omega

/-- `printf "" x` is shown without its last argument. -/
theorem emptyArg_cut :
    printedExec lsCtx (execOf (argvBytes [ascii "printf", [], ascii "x"])) (slotOf 0) [] =
        some (ascii "/bin/ls", ascii "printf") ∧
      ¬ ∀ (args : List (List UInt8)) (mm : Mm) (cur : Current) (ctx : ExecCtx)
        (behind : List UInt8), (∀ a ∈ args, 0 ∉ a) → mm.Stores args → cur.task.mm = some mm →
        Faithful ctx cur args behind := by
  have hprinted : printedExec lsCtx (execOf (argvBytes [ascii "printf", [], ascii "x"]))
      (slotOf 0) [] = some (ascii "/bin/ls", ascii "printf") := by
    rw [printedExec_eq]
    decide +kernel
  have hmm : (argsAt (argvBytes [ascii "printf", [], ascii "x"])).Stores
      [ascii "printf", [], ascii "x"] := ⟨by decide, by decide⟩
  refine ⟨hprinted, fun h => ?_⟩
  have hshown := (h _ _ (execOf _) lsCtx [] (by decide) hmm rfl).1
  rw [hprinted] at hshown
  exact absurd hshown (by decide)

/-- The arguments of `ls -l`. -/
theorem faithful_iff_ls :
    Faithful lsCtx (execOf (argvBytes [ascii "ls", ascii "-l"])) [ascii "ls", ascii "-l"] [] := by
  have hmm : (argsAt (argvBytes [ascii "ls", ascii "-l"])).Stores [ascii "ls", ascii "-l"] :=
    ⟨by decide, by decide⟩
  refine (faithful_iff (by decide) hmm rfl lsCtx []).mpr ⟨fun pre post hsplit _ => ?_, ?_, ?_⟩
  · have hmem : [] ∈ [ascii "ls", ascii "-l"] := by simp [hsplit]
    exact absurd hmem (by decide)
  · exact Or.inl (by decide)
  · decide

/-! ## The record -/

/-- The handler makes no store into the record and leaves it as it was. -/
def Untouched (e : Event) (behind : List UInt8) : Prop :=
  handleEventStores e = [] ∧ (handleEvent e behind).1 = e

/-- A record of any type is left alone exactly when its `args` hold a string and nothing but NULs
behind it: the sanitizer runs on the record itself, whatever its type. -/
theorem untouched_iff (e : Event) (behind : List UInt8) :
    Untouched e behind ↔ Padded e.args.bytes := by
  have hstores : handleEventStores e = [] ↔ Padded e.args.bytes :=
    sanitizeStores_eq_nil_iff e.args rfl
  rw [← hstores]
  constructor
  · exact And.left
  · intro hnil
    refine ⟨hnil, ?_⟩
    rw [handleEvent_record, hnil]
    rfl

/-- The exec of a command with an argument is rewritten in its record, and so is a fork in a slot
that held such an exec. -/
theorem record_rewritten :
    (handleExec lsCtx (execOf (argvBytes [ascii "ls", ascii "-l"])) (some (slotOf 0))).map
        (fun e => (e.type, handleEventStores e)) = some (EVENT_EXEC, [(2, 32)]) ∧
      (handleFork ⟨.zero _, 100, 101⟩ (execOf []) (some grepSlot)).map
        (fun e => (e.type, handleEventStores e)) = some (EVENT_FORK, [(4, 32)]) ∧
      ¬ ∀ e behind, e.type = EVENT_EXEC → Untouched e behind := by
  refine ⟨by decide +kernel, by decide +kernel, fun h => ?_⟩
  have hstores := (h { grepSlot with type := EVENT_EXEC } [] rfl).1
  revert hstores
  decide +kernel

/-! ## The process tree -/

/-- The events tell the life of a process exactly when the first thread of its parent creates it
and its own threads end only with the last one: a fork event holds thread ids, and each thread that
ends leaves an exit event of the process. -/
theorem reconstructed_iff {k : Kernel} {x : Step} {p : UInt32} {xs : List Step}
    (hx : x.action = .fork p) (hk : k.Possible x) (hkeeps : ∀ y ∈ xs, y.Keeps p) :
    Reconstructed k x p xs ↔ x.thread.tid = x.thread.tgid ∧ EndsOnce (k.next x) p xs := by
  constructor
  · intro h
    have hfork := h.fork
    rw [forkEvents_created hx hk hkeeps] at hfork
    exact ⟨(List.cons.inj hfork).1, endsOnce_of_reconstructed hk h⟩
  · rintro ⟨hfirst, h⟩
    exact reconstructed_of_endsOnce hx hk hkeeps hfirst h

def stepOf (tid tgid : UInt32) (action : Action) : Step :=
  { thread := ⟨tid, tgid⟩, action, ktime := 0, uidGid := 0, comm := .zero _, nsInum := 0,
    exitCode := 0, mm := none, slot := slotOf 0 }

/-- The process 100 has the threads 100 and 101, and is a child of 1. -/
def twoThreads : Kernel := ⟨{⟨1, 1⟩, ⟨100, 100⟩, ⟨101, 100⟩}, fun _ => 1⟩

/-- The thread 101 creates the process 200, which starts the thread 201 and ends the first one. -/
def workerFork : Step := stepOf 101 100 (.fork 200)

def workerRun : List Step := [stepOf 200 200 (.clone 201), stepOf 200 200 (.exit 1)]

/-- The process 200 is reported as a child of 101, and as ended while its second thread runs. -/
theorem workerFork_not_reconstructed :
    workerFork.action = .fork 200 ∧ twoThreads.Possible workerFork ∧
      (∀ y ∈ workerRun, y.Keeps 200) ∧
      (runOut step twoThreads (workerFork :: workerRun)).map (fun e => (e.type, e.pid, e.ppid)) =
        [(EVENT_FORK, 200, 101), (EVENT_FORK, 201, 200), (EVENT_EXIT, 200, 100)] ∧
      (runState step twoThreads (workerFork :: workerRun)).Alive 200 ∧
      ¬ Reconstructed twoThreads workerFork 200 workerRun := by
  have hkeeps : ∀ y ∈ workerRun, y.Keeps 200 := by
    simp [workerRun, Step.Keeps, stepOf]
  refine ⟨rfl, by decide, hkeeps, by decide +kernel, by decide +kernel, fun h => ?_⟩
  have hfork := h.fork
  rw [forkEvents_created rfl (by decide) hkeeps] at hfork
  exact absurd hfork (by decide)

/-- A child of a first thread that executes `ls` and ends. -/
theorem reconstructed_iff_lsChild :
    Reconstructed twoThreads (stepOf 100 100 (.fork 200)) 200
        [stepOf 200 200 (.exec lsCtx), stepOf 200 200 (.exit 1)] ↔
      (100 : UInt32) = 100 ∧ EndsOnce (twoThreads.next (stepOf 100 100 (.fork 200))) 200
        [stepOf 200 200 (.exec lsCtx), stepOf 200 200 (.exit 1)] :=
  @reconstructed_iff twoThreads (stepOf 100 100 (.fork 200)) 200
    [stepOf 200 200 (.exec lsCtx), stepOf 200 200 (.exit 1)] rfl (by decide)
    (by simp [Step.Keeps, stepOf])

end EbpfTools.Procwatch

import Mathlib.Data.List.GetD
import Mathlib.Data.List.Infix
import Mathlib.Data.List.TakeWhile
import EbpfTools.Procwatch.Print

/-!
# The arguments in an exec line
-/

namespace EbpfTools.Procwatch
open EbpfTools.Lib

/-! ## The sanitizer -/

/-- Each NUL that another byte follows becomes a space. -/
def spaced : List UInt8 → List UInt8
  | a :: b :: rest => (if a = 0 ∧ b ≠ 0 then 32 else a) :: spaced (b :: rest)
  | rest => rest

@[simp] theorem spaced_nil : spaced [] = [] := rfl

@[simp] theorem spaced_singleton (a : UInt8) : spaced [a] = [a] := rfl

@[simp] theorem spaced_cons_cons (a b : UInt8) (rest : List UInt8) :
    spaced (a :: b :: rest) = (if a = 0 ∧ b ≠ 0 then 32 else a) :: spaced (b :: rest) := rfl

@[simp] theorem length_spaced (bs : List UInt8) : (spaced bs).length = bs.length := by
  induction bs with
  | nil => rfl
  | cons a rest ih =>
      cases rest with
      | nil => rfl
      | cons b rest => simpa using ih

/-- What the sanitizer makes of the bytes before a given one is decided by that byte. -/
theorem spaced_append_cons (u : List UInt8) (a : UInt8) (v : List UInt8) :
    spaced (u ++ a :: v) = (spaced (u ++ [a])).dropLast ++ spaced (a :: v) := by
  induction u with
  | nil => rfl
  | cons c u ih =>
      cases u with
      | nil => rfl
      | cons d u =>
          have hne : spaced (d :: (u ++ [a])) ≠ [] := by
            intro h
            simpa using congrArg List.length h
          simp only [List.cons_append] at ih
          simp only [List.cons_append, spaced_cons_cons, ih, List.dropLast_cons_of_ne_nil hne]

/-- Stores before an index change nothing from it on. -/
theorem drop_store {n : Nat} (b : Buf n) (i : Nat) (c : UInt8) :
    (b.store (i, c)).bytes.drop (i + 1) = b.bytes.drop (i + 1) := by
  simp [Buf.store, List.drop_set_of_lt]

theorem take_store {n : Nat} (b : Buf n) {i : Nat} (c : UInt8) (h : i < n) :
    (b.store (i, c)).bytes.take (i + 1) = b.bytes.take i ++ [c] := by
  have hi : i < b.bytes.length := by rw [b.size_eq]; exact h
  simp [Buf.store, List.take_add_one, List.take_set_of_le, hi]

theorem sanitizeLoop_bytes {n left i : Nat} (args : Buf n) (h : i + left + 1 = n) :
    (sanitizeLoop left i args).bytes = args.bytes.take i ++ spaced (args.bytes.drop i) := by
  induction left generalizing i args with
  | zero =>
      have hlen : (args.bytes.drop i).length = 1 := by rw [List.length_drop, args.size_eq]; omega
      obtain ⟨a, ha⟩ := List.length_eq_one_iff.mp hlen
      rw [sanitizeLoop, ha, spaced_singleton, ← ha, List.take_append_drop]
  | succ left ih =>
      have hi : i < args.bytes.length := by rw [args.size_eq]; omega
      have hj : i + 1 < args.bytes.length := by rw [args.size_eq]; omega
      have htake : args.bytes.take (i + 1) = args.bytes.take i ++ [args.bytes[i]] :=
        List.take_succ_eq_append_getElem hi
      have hdrop : args.bytes.drop i =
          args.bytes[i] :: args.bytes[i + 1] :: args.bytes.drop (i + 1 + 1) := by
        rw [List.drop_eq_getElem_cons hi, List.drop_eq_getElem_cons hj]
      rw [hdrop, spaced_cons_cons, ← List.drop_eq_getElem_cons hj, sanitizeLoop,
        List.getD_eq_getElem _ _ hi, List.getD_eq_getElem _ _ hj]
      by_cases hc : args.bytes[i] = 0 ∧ args.bytes[i + 1] ≠ 0
      · rw [if_pos hc, if_pos hc, ih _ (by omega), drop_store, take_store _ _ (by omega)]
        simp
      · rw [if_neg hc, if_neg hc, ih _ (by omega), htake, List.append_assoc, List.singleton_append]

theorem sanitizeArgs_bytes {n : Nat} (args : Buf (n + 1)) :
    (sanitizeArgs args (n + 1)).bytes = spaced args.bytes := by
  rw [sanitizeArgs, Nat.add_sub_cancel, sanitizeLoop_bytes args (by omega)]
  simp

/-! ## Where the printed text ends -/

/-- Among the copied bytes is a NUL that no other byte can follow: one before another NUL, or the
last byte of the field. -/
def Ended (copied : List UInt8) : Prop :=
  [0, 0] <:+: copied ∨ (copied.length = MAX_ARGS_LEN ∧ copied.getLast? = some 0)

/-- Up to an ended NUL the text is made of the copied bytes. -/
theorem cstr_spaced_of_twoNuls {copied : List UInt8} (h : [0, 0] <:+: copied)
    (rest behind : List UInt8) :
    cstr (spaced (copied ++ rest) ++ behind) = cstr (spaced copied) := by
  obtain ⟨u, v, rfl⟩ := h
  have happ : ∀ w, spaced (u ++ 0 :: 0 :: w) =
      (spaced (u ++ [0])).dropLast ++ 0 :: spaced (0 :: w) := by
    intro w
    rw [spaced_append_cons]
    simp
  have h₁ := happ (v ++ rest)
  have h₂ := happ v
  simp only [List.append_assoc, List.cons_append, List.nil_append]
  rw [h₁, h₂, List.append_assoc, List.cons_append, cstr_append_zero, cstr_append_zero]

theorem cstr_spaced_of_lastNul {copied : List UInt8} (h : copied.getLast? = some 0)
    (behind : List UInt8) : cstr (spaced copied ++ behind) = cstr (spaced copied) := by
  obtain ⟨u, rfl⟩ := List.getLast?_eq_some_iff.mp h
  have happ : spaced (u ++ [0]) = (spaced (u ++ [0])).dropLast ++ [0] := spaced_append_cons u 0 []
  rw [happ, List.append_assoc, List.cons_append, cstr_append_zero, cstr_append_zero]

/-- Without two NULs in a row and with another byte at the end no NUL is left. -/
theorem zero_not_mem_spaced {bs : List UInt8} (h : ¬ [0, 0] <:+: bs)
    (hlast : bs.getLast? ≠ some 0) : 0 ∉ spaced bs := by
  induction bs with
  | nil => simp
  | cons a rest ih =>
      cases rest with
      | nil => simpa [eq_comm] using hlast
      | cons b rest =>
          have htail : 0 ∉ spaced (b :: rest) := by
            refine ih (fun hi => h (hi.trans (List.suffix_cons a _).isInfix)) ?_
            simpa using hlast
          have hhead : ¬ (a = 0 ∧ b = 0) := by
            rintro ⟨rfl, rfl⟩
            exact h ⟨[], rest, rfl⟩
          rw [spaced_cons_cons, List.mem_cons, not_or]
          refine ⟨fun he => ?_, htail⟩
          split at he
          · cases he
          · rename_i hc
            exact hc ⟨he.symm, fun hb => hhead ⟨he.symm, hb⟩⟩

/-- Two NULs in a row are not made by bytes that are none. -/
theorem twoNuls_of_append {bs xs : List UInt8} (hxs : 0 ∉ xs) (h : [0, 0] <:+: bs ++ xs) :
    [0, 0] <:+: bs := by
  induction bs with
  | nil => exact absurd (h.subset List.mem_cons_self) hxs
  | cons a bs ih =>
      rw [List.cons_append, List.infix_cons_iff] at h
      rcases h with hp | hi
      · obtain ⟨w, hw⟩ := hp
        simp only [List.cons_append, List.nil_append, List.cons.injEq] at hw
        obtain ⟨rfl, hw⟩ := hw
        cases bs with
        | nil => exact absurd (by rw [List.nil_append] at hw; rw [← hw]; simp) hxs
        | cons b bs =>
            simp only [List.cons_append, List.cons.injEq] at hw
            obtain ⟨rfl, -⟩ := hw
            exact ⟨[], bs, rfl⟩
      · exact (ih hi).trans (List.suffix_cons a bs).isInfix

/-! ## The line of an exec -/

/-- The texts of file name and arguments that an exec leads to: `slot` is what the reserved record
held before, `behind` what follows it in memory. -/
def printedExec (ctx : ExecCtx) (cur : Current) (slot : Event) (behind : List UInt8) :
    Option (List UInt8 × List UInt8) :=
  match (handleExec ctx cur (some slot)).map fun e => (handleEvent e behind).2 with
  | some (.exec _ bin args) => some (bin, args)
  | _ => none

/-- The name of the executed file as it fits the field. -/
def ownFilename (ctx : ExecCtx) : List UInt8 :=
  (cstr (ctx.record.drop (ctx.dataLocFilename &&& 0xFFFF).toNat)).take (MAX_FILENAME_LEN - 1)

theorem length_probeReadUser (mm : Mm) (len : Nat) (addr : UInt64) :
    (probeReadUser mm len addr).length = len := by
  simp only [probeReadUser]
  split <;> simp

theorem length_argBytes_le (mm : Option Mm) : (argBytes mm).length ≤ MAX_ARGS_LEN := by
  cases mm with
  | none => simp [argBytes]
  | some mm =>
      simp only [argBytes]
      generalize (mm.argEnd - mm.argStart).toInt64.toInt = len
      by_cases hlen : (if len > MAX_ARGS_LEN then (MAX_ARGS_LEN : Int) else len) > 0
      · rw [if_pos hlen, length_probeReadUser]
        split <;> omega
      · rw [if_neg hlen]
        exact Nat.zero_le _

theorem zero_not_mem_take_cstr (bs : List UInt8) (k : Nat) : 0 ∉ (cstr bs).take k := by
  intro h
  simpa using List.mem_takeWhile_imp (List.mem_of_mem_take h)

theorem cstr_probeReadStr (n : Nat) (src rest : List UInt8) :
    cstr (probeReadStr n src ++ rest) = (cstr src).take (n - 1) := by
  rw [probeReadStr, List.append_assoc, List.singleton_append, cstr_append_zero,
    cstr_eq_self (zero_not_mem_take_cstr src (n - 1))]

theorem length_probeReadStr_le {n : Nat} (hn : 0 < n) (src : List UInt8) :
    (probeReadStr n src).length ≤ n := by
  simp only [probeReadStr, List.length_append, List.length_take, List.length_singleton]
  omega

theorem printedExec_eq (ctx : ExecCtx) (cur : Current) (slot : Event) (behind : List UInt8) :
    printedExec ctx cur slot behind = some (ownFilename ctx,
      cstr (spaced (argBytes cur.task.mm ++ slot.args.bytes.drop (argBytes cur.task.mm).length) ++
        (slot.padding.bytes ++ behind))) := by
  have hargs : (slot.args.memcpy 0 (argBytes cur.task.mm)).bytes =
      argBytes cur.task.mm ++ slot.args.bytes.drop (argBytes cur.task.mm).length := by
    have hle := length_argBytes_le cur.task.mm
    rw [Buf.memcpy_bytes _ (by omega)]
    simp
  have hname := length_probeReadStr_le (n := MAX_FILENAME_LEN) (by decide)
    (ctx.record.drop (ctx.dataLocFilename &&& 0xFFFF).toNat)
  simp only [printedExec, handleExec, Option.map_some, handleEvent, if_true, sanitizeArgs_bytes,
    hargs]
  rw [Buf.memcpy_bytes _ (by omega)]
  simp only [List.take_zero, List.nil_append, List.append_assoc, cstr_probeReadStr]
  rfl

/-- The printed arguments are those of the process when a NUL of its own ends them. -/
theorem printedExec_of_ended {ctx : ExecCtx} {cur : Current} (h : Ended (argBytes cur.task.mm))
    (slot : Event) (behind : List UInt8) :
    printedExec ctx cur slot behind =
      some (ownFilename ctx, cstr (spaced (argBytes cur.task.mm))) := by
  rw [printedExec_eq]
  rcases h with htwo | ⟨hfull, hlast⟩
  · rw [cstr_spaced_of_twoNuls htwo]
  · have hnone : slot.args.bytes.drop (argBytes cur.task.mm).length = [] :=
      List.drop_eq_nil_of_le (by rw [slot.args.size_eq, hfull])
    rw [hnone, List.append_nil, cstr_spaced_of_lastNul hlast]

/-- A slot with the byte `c` in its argument field and its padding. -/
def slotOf (c : UInt8) : Event :=
  { pid := 0, ppid := 0, uid := 0, gid := 0, inum := 0, exitCode := 0, timestamp := 0, type := 0,
    comm := .zero _, filename := .zero _, args := ⟨List.replicate _ c, List.length_replicate⟩,
    padding := ⟨List.replicate _ c, List.length_replicate⟩ }

theorem length_cstr_le (bs : List UInt8) : (cstr bs).length ≤ bs.length :=
  (List.takeWhile_prefix _).length_le

/-- In a zeroed slot the text ends in the argument field at the latest. -/
theorem length_text_zero {copied : List UInt8} (hle : copied.length ≤ MAX_ARGS_LEN)
    (behind : List UInt8) :
    (cstr (spaced (copied ++ (slotOf 0).args.bytes.drop copied.length) ++
      ((slotOf 0).padding.bytes ++ behind))).length ≤ MAX_ARGS_LEN := by
  have hpad : (slotOf 0).padding.bytes ++ behind = 0 :: (List.replicate 6 0 ++ behind) := rfl
  rw [hpad, cstr_append_zero]
  refine (length_cstr_le _).trans ?_
  simp [slotOf]
  omega

/-- In a slot without zeros the text of unended bytes goes on to the end of the record. -/
theorem length_text_of_not_ended {copied : List UInt8} (hle : copied.length ≤ MAX_ARGS_LEN)
    (h : ¬ Ended copied) (behind : List UInt8) :
    MAX_ARGS_LEN < (cstr (spaced (copied ++ (slotOf 120).args.bytes.drop copied.length) ++
      ((slotOf 120).padding.bytes ++ behind))).length := by
  have hdrop : (slotOf 120).args.bytes.drop copied.length =
      List.replicate (MAX_ARGS_LEN - copied.length) 120 := List.drop_replicate
  have htwo : ¬ [0, 0] <:+: copied := fun hi => h (Or.inl hi)
  have hno : 0 ∉ spaced (copied ++ List.replicate (MAX_ARGS_LEN - copied.length) 120) := by
    refine zero_not_mem_spaced (fun hi => htwo (twoNuls_of_append (by simp) hi)) ?_
    rcases Nat.eq_or_lt_of_le hle with heq | hlt
    · rw [heq, Nat.sub_self, List.replicate_zero, List.append_nil]
      exact fun hl => h (Or.inr ⟨heq, hl⟩)
    · obtain ⟨k, hk⟩ := Nat.exists_eq_add_of_lt hlt
      have hsub : MAX_ARGS_LEN - copied.length = k + 1 := by omega
      rw [hsub, List.replicate_succ', ← List.append_assoc, List.getLast?_concat]
      simp
  have hpad : 0 ∉ (slotOf 120).padding.bytes := by decide
  rw [hdrop, cstr_append_of_not_mem _ hno, cstr_append_of_not_mem _ hpad]
  simp only [List.length_append, length_spaced, List.length_replicate, Buf.size_eq]
  omega

end EbpfTools.Procwatch

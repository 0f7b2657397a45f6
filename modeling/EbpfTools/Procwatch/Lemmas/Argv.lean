import Mathlib.Algebra.Group.Int.Defs
import Mathlib.Algebra.Group.Nat.Defs
import EbpfTools.Procwatch.Lemmas.Args

/-!
# Arguments as execve lays them out
-/

namespace EbpfTools.Procwatch
open EbpfTools.Lib

/-- The argument strings one after the other, each with its NUL. -/
def argvBytes (args : List (List UInt8)) : List UInt8 := args.flatMap (· ++ [0])

/-- The arguments joined by single spaces, as far as they fit the field. -/
def rendered (args : List (List UInt8)) : List UInt8 :=
  ([32].intercalate args).take (MAX_ARGS_LEN - 1)

def blank (c : UInt8) : UInt8 := if c = 0 then 32 else c

@[simp] theorem argvBytes_nil : argvBytes [] = [] := rfl

theorem argvBytes_cons (a : List UInt8) (args : List (List UInt8)) :
    argvBytes (a :: args) = a ++ 0 :: argvBytes args := by
  simp [argvBytes]

theorem argvBytes_append (as bs : List (List UInt8)) :
    argvBytes (as ++ bs) = argvBytes as ++ argvBytes bs := List.flatMap_append

theorem argvBytes_ne_nil (a : List UInt8) (args : List (List UInt8)) :
    argvBytes (a :: args) ≠ [] := by
  simp [argvBytes_cons]

theorem getLast?_argvBytes {args : List (List UInt8)} (h : args ≠ []) :
    (argvBytes args).getLast? = some 0 := by
  obtain ⟨init, a, rfl⟩ := List.eq_nil_or_concat args |>.resolve_left h
  rw [List.concat_eq_append, argvBytes_append, argvBytes_cons, argvBytes_nil]
  simp

theorem map_blank_eq_self {a : List UInt8} (h : 0 ∉ a) : a.map blank = a := by
  refine (List.map_congr_left fun c hc => ?_).trans (List.map_id a)
  rw [blank, if_neg (ne_of_mem_of_not_mem hc h), id]

theorem blank_ne_zero (c : UInt8) : blank c ≠ 0 := by
  unfold blank
  split
  · decide
  · assumption

theorem intercalate_eq_map_blank {args : List (List UInt8)} (h : ∀ a ∈ args, 0 ∉ a) :
    [32].intercalate args = (argvBytes args).dropLast.map blank := by
  induction args with
  | nil => rfl
  | cons a args ih =>
      have ha := map_blank_eq_self (h a List.mem_cons_self)
      have ih := ih fun b hb => h b (List.mem_cons_of_mem a hb)
      rw [argvBytes_cons]
      cases args with
      | nil => simp [ha]
      | cons b args =>
          have hne := argvBytes_ne_nil b args
          rw [List.intercalate_cons_cons, ih, List.dropLast_append_of_ne_nil (by simp),
            List.dropLast_cons_of_ne_nil hne, List.map_append, List.map_cons, ha, blank, if_pos rfl]
          simp

/-- What is to be shown is made of the bytes that fit the field. -/
theorem rendered_eq {args : List (List UInt8)} (h : ∀ a ∈ args, 0 ∉ a) :
    rendered args = ((argvBytes args).take MAX_ARGS_LEN).dropLast.map blank := by
  rw [rendered, intercalate_eq_map_blank h, ← List.map_take]
  simp only [List.dropLast_eq_take, List.take_take, List.length_take]
  congr 2
  omega

/-! ## Empty arguments -/

theorem twoNuls_cons_iff {a bs : List UInt8} (ha : 0 ∉ a) :
    [0, 0] <:+: a ++ 0 :: bs ↔ [0] <+: bs ∨ [0, 0] <:+: bs := by
  induction a with
  | nil =>
      rw [List.nil_append, List.infix_cons_iff, List.cons_prefix_cons]
      simp
  | cons c a ih =>
      rw [List.mem_cons, not_or] at ha
      rw [List.cons_append, List.infix_cons_iff, List.cons_prefix_cons, ih ha.2]
      simp [ha.1]

theorem take_argvBytes_cons (a : List UInt8) (args : List (List UInt8)) (k : Nat) :
    (argvBytes (a :: args)).take (a.length + 1 + k) = a ++ 0 :: (argvBytes args).take k := by
  rw [argvBytes_cons, Nat.add_assoc, List.take_length_add_append, Nat.add_comm 1 k,
    List.take_succ_cons]

/-- The bytes begin with a NUL when the first argument is empty. -/
theorem nul_prefix_argvBytes {args : List (List UInt8)} (h : ∀ a ∈ args, 0 ∉ a) {k : Nat}
    (hp : [0] <+: (argvBytes args).take k) : 0 < k ∧ ∃ post, args = [] :: post := by
  cases k with
  | zero => simp at hp
  | succ k =>
      refine ⟨Nat.succ_pos k, ?_⟩
      cases args with
      | nil => simp at hp
      | cons b args =>
          cases b with
          | nil => exact ⟨args, rfl⟩
          | cons c b =>
              rw [argvBytes_cons, List.cons_append, List.take_succ_cons,
                List.cons_prefix_cons] at hp
              have hc := h (c :: b) List.mem_cons_self
              exact absurd (hp.1 ▸ List.mem_cons_self) hc

/-- Two NULs follow each other where an argument behind the first one is empty. -/
theorem twoNuls_argvBytes_iff {args : List (List UInt8)} (h : ∀ a ∈ args, 0 ∉ a) (n : Nat) :
    [0, 0] <:+: (argvBytes args).take n ↔
      ∃ pre post, args = pre ++ [] :: post ∧ pre ≠ [] ∧ (argvBytes pre).length < n := by
  constructor
  · intro hi
    induction args generalizing n with
    | nil => simp at hi
    | cons a args ih =>
        have ha := h a List.mem_cons_self
        have hargs : ∀ b ∈ args, 0 ∉ b := fun b hb => h b (List.mem_cons_of_mem a hb)
        obtain ⟨k, rfl⟩ : ∃ k, n = a.length + 1 + k := by
          refine Nat.exists_eq_add_of_le (Nat.lt_of_not_le fun hle => ?_)
          rw [argvBytes_cons, List.take_append_of_le_length hle] at hi
          exact ha (List.mem_of_mem_take (hi.subset List.mem_cons_self))
        rw [take_argvBytes_cons, twoNuls_cons_iff ha] at hi
        rcases hi with hp | hi
        · obtain ⟨hk, post, rfl⟩ := nul_prefix_argvBytes hargs hp
          refine ⟨[a], post, rfl, by simp, ?_⟩
          rw [argvBytes_cons, argvBytes_nil, List.length_append, List.length_singleton]
          omega
        · obtain ⟨pre, post, rfl, -, hlen⟩ := ih hargs k hi
          refine ⟨a :: pre, post, rfl, by simp, ?_⟩
          rw [argvBytes_cons, List.length_append, List.length_cons]
          omega
  · rintro ⟨pre, post, rfl, hpre, hlen⟩
    obtain ⟨u, hu⟩ := List.getLast?_eq_some_iff.mp (getLast?_argvBytes hpre)
    rw [argvBytes_append, argvBytes_cons, List.nil_append, hu, List.append_assoc,
      List.singleton_append]
    rw [hu, List.length_append, List.length_singleton] at hlen
    obtain ⟨k, rfl⟩ : ∃ k, n = u.length + (k + 1 + 1) := ⟨n - u.length - 2, by omega⟩
    rw [List.take_length_add_append, List.take_succ_cons, List.take_succ_cons]
    exact ⟨u, (argvBytes post).take k, by simp⟩

/-! ## The copy -/

/-- The argument area of a process holds the strings. -/
structure Mm.Stores (mm : Mm) (args : List (List UInt8)) : Prop where
  area : mm.argStart.toNat + (argvBytes args).length = mm.argEnd.toNat
  user : ∀ i, i < (argvBytes args).length →
    mm.user (mm.argStart + UInt64.ofNat i) = (argvBytes args)[i]?

theorem toInt_toInt64 (x : UInt64) :
    x.toInt64.toInt = if x.toNat < 2 ^ 63 then (x.toNat : Int) else x.toNat - 2 ^ 64 := by
  have hx := x.toNat_lt
  change x.toBitVec.toInt = _
  rw [BitVec.toInt_eq_toNat_cond, UInt64.toNat_toBitVec]
  split <;> split <;> omega

theorem probeReadUser_eq {mm : Mm} {args : List (List UInt8)} (h : mm.Stores args) {len : Nat}
    (hlen : len ≤ (argvBytes args).length) :
    probeReadUser mm len mm.argStart = (argvBytes args).take len := by
  have hbytes : (List.range len).map (fun i => mm.user (mm.argStart + UInt64.ofNat i)) =
      ((argvBytes args).take len).map some := by
    refine List.ext_getElem (by simp [hlen]) fun i hi _ => ?_
    have hi' : i < (argvBytes args).length := by
      simp at hi
      omega
    simp [h.user i hi', hi']
  have hall : (((argvBytes args).take len).map some).all Option.isSome = true := by
    rw [List.all_map]
    exact List.all_eq_true.mpr fun _ _ => rfl
  simp only [probeReadUser, hbytes]
  rw [if_pos hall]
  simp [Function.comp_def]

/-- An area of less than 2^63 bytes is copied as far as it fits the field, a larger one not at
all. -/
theorem argBytes_eq {mm : Mm} {args : List (List UInt8)} (h : mm.Stores args) :
    argBytes (some mm) =
      if (argvBytes args).length < 2 ^ 63 then (argvBytes args).take MAX_ARGS_LEN else [] := by
  have harea := h.area
  have hend := mm.argEnd.toNat_lt
  have hsub : (mm.argEnd - mm.argStart).toNat = (argvBytes args).length := by
    rw [UInt64.toNat_sub_of_le _ _ (UInt64.le_iff_toNat_le.mpr (by omega))]
    omega
  simp only [argBytes, toInt_toInt64, hsub]
  by_cases hlt : (argvBytes args).length < 2 ^ 63
  · simp only [if_pos hlt]
    by_cases hfit : (argvBytes args).length ≤ MAX_ARGS_LEN
    · rw [if_neg (show ¬ ((argvBytes args).length : Int) > MAX_ARGS_LEN by omega),
        List.take_of_length_le hfit]
      by_cases hpos : ((argvBytes args).length : Int) > 0
      · rw [if_pos hpos, Int.toNat_natCast, probeReadUser_eq h (le_refl _), List.take_length]
      · have hnil : argvBytes args = [] := List.length_eq_zero_iff.mp (by omega)
        rw [if_neg hpos, hnil]
    · rw [if_pos (show ((argvBytes args).length : Int) > MAX_ARGS_LEN by omega), if_pos (by decide),
        Int.toNat_natCast, probeReadUser_eq h (by omega)]
  · simp only [if_neg hlt]
    rw [if_neg (show ¬ ((argvBytes args).length : Int) - 2 ^ 64 > MAX_ARGS_LEN by omega),
      if_neg (by omega)]

/-! ## The text -/

theorem spaced_eq_map_blank {bs : List UInt8} (h : ¬ [0, 0] <:+: bs)
    (hlast : bs.getLast? = some 0) : spaced bs = bs.dropLast.map blank ++ [0] := by
  induction bs with
  | nil => cases hlast
  | cons a rest ih =>
      cases rest with
      | nil =>
          obtain rfl : a = 0 := by simpa using hlast
          rfl
      | cons b rest =>
          have hhead : (if a = 0 ∧ b ≠ 0 then 32 else a) = blank a := by
            by_cases ha : a = 0
            · have hb : b ≠ 0 := fun hb => h ⟨[], rest, by rw [ha, hb]; rfl⟩
              rw [if_pos ⟨ha, hb⟩, blank, if_pos ha]
            · rw [if_neg (fun hc => ha hc.1), blank, if_neg ha]
          have htail := ih (fun hi => h (hi.trans (List.suffix_cons a _).isInfix))
            (by simpa using hlast)
          rw [spaced_cons_cons, hhead, htail,
            List.dropLast_cons_of_ne_nil (List.cons_ne_nil b rest), List.map_cons,
            List.cons_append]

theorem spaced_replicate_zero (k : Nat) : spaced (List.replicate k 0) = List.replicate k 0 := by
  induction k with
  | zero => rfl
  | succ k ih =>
      cases k with
      | zero => rfl
      | succ k =>
          rw [List.replicate_succ, List.replicate_succ, spaced_cons_cons, ← List.replicate_succ, ih]
          rfl

theorem zero_not_mem_map_blank (bs : List UInt8) : 0 ∉ bs.map blank := by
  rw [List.mem_map]
  rintro ⟨c, -, hc⟩
  exact blank_ne_zero c hc

/-- What the sanitizer makes of bytes that end with a NUL and are followed by zeros. -/
theorem spaced_append_zeros {bs : List UInt8} (hlast : bs.getLast? = some 0) (k : Nat) :
    spaced (bs ++ List.replicate k 0) = (spaced bs).dropLast ++ List.replicate (k + 1) 0 := by
  obtain ⟨u, rfl⟩ := List.getLast?_eq_some_iff.mp hlast
  rw [List.append_assoc, List.singleton_append, spaced_append_cons, ← List.replicate_succ,
    spaced_replicate_zero]

theorem length_cstr_spaced_of_twoNuls {bs : List UInt8} (h : [0, 0] <:+: bs) :
    (cstr (spaced bs)).length + 2 ≤ bs.length := by
  obtain ⟨u, v, rfl⟩ := h
  have hsplit : spaced (u ++ [0, 0] ++ v) =
      (spaced (u ++ [0])).dropLast ++ 0 :: spaced (0 :: v) := by
    rw [List.append_assoc, List.cons_append, List.cons_append, List.nil_append, spaced_append_cons]
    rfl
  have hlen := length_cstr_le (spaced (u ++ [0])).dropLast
  rw [hsplit, cstr_append_zero]
  simp only [List.length_dropLast, length_spaced, List.length_append, List.length_cons,
    List.length_nil] at hlen ⊢
  omega

/-- The copied bytes of a zeroed field are shown with spaces, and end in the field, exactly if no
two NULs follow each other among them and the last one is a NUL. -/
theorem text_iff {copied : List UInt8} {k : Nat} (hlen : copied.length + k = MAX_ARGS_LEN)
    (hend : copied = [] ∨ copied.getLast? = some 0 ∨ k = 0) (behind : List UInt8) :
    (cstr (spaced (copied ++ List.replicate k 0) ++ behind) = copied.dropLast.map blank ∧
        0 ∈ spaced (copied ++ List.replicate k 0)) ↔
      ¬ [0, 0] <:+: copied ∧ (copied = [] ∨ copied.getLast? = some 0) := by
  constructor
  · rintro ⟨htext, hmem⟩
    have htwo : ¬ [0, 0] <:+: copied := by
      intro hi
      rw [cstr_spaced_of_twoNuls hi] at htext
      have hshort := length_cstr_spaced_of_twoNuls hi
      rw [htext, List.length_map, List.length_dropLast] at hshort
      omega
    refine ⟨htwo, ?_⟩
    by_contra hno
    rw [not_or] at hno
    obtain rfl := (hend.resolve_left hno.1).resolve_left hno.2
    rw [List.replicate_zero, List.append_nil] at hmem
    exact zero_not_mem_spaced htwo hno.2 hmem
  · rintro ⟨htwo, rfl | hlast⟩
    · obtain rfl : k = MAX_ARGS_LEN := by simpa using hlen
      rw [List.nil_append, spaced_replicate_zero]
      exact ⟨rfl, by decide⟩
    · rw [spaced_append_zeros hlast, spaced_eq_map_blank htwo hlast, List.dropLast_concat,
        List.replicate_succ, List.append_assoc, List.cons_append, cstr_append_zero,
        cstr_eq_self (zero_not_mem_map_blank _)]
      exact ⟨rfl, by simp⟩

/-! ## The line of an exec -/

/-- The argument field of the record behind the copy and the sanitizer. -/
def shownField (ctx : ExecCtx) (cur : Current) (slot : Event) (behind : List UInt8) :
    Option (Buf MAX_ARGS_LEN) :=
  (handleExec ctx cur (some slot)).map fun e => (handleEvent e behind).1.args

theorem shownField_eq (ctx : ExecCtx) (cur : Current) (slot : Event) (behind : List UInt8) :
    ∃ field, shownField ctx cur slot behind = some field ∧
      field.bytes = spaced (argBytes cur.task.mm ++
        slot.args.bytes.drop (argBytes cur.task.mm).length) := by
  have hfits : 0 + (argBytes cur.task.mm).length ≤ MAX_ARGS_LEN := by
    have := length_argBytes_le cur.task.mm
    omega
  refine ⟨_, rfl, ?_⟩
  simp only [handleEvent, sanitizeArgs_bytes]
  rw [Buf.memcpy_bytes _ hfits]
  simp

/-- From a zeroed record the arguments joined by single spaces are printed, cut to 255 bytes, and
the terminator lies in `args`. -/
def Faithful (ctx : ExecCtx) (cur : Current) (args : List (List UInt8)) (behind : List UInt8) :
    Prop :=
  printedExec ctx cur (slotOf 0) behind = some (ownFilename ctx, rendered args) ∧
    ∃ field ∈ shownField ctx cur (slotOf 0) behind, 0 ∈ field.bytes

/-- No argument but the first is empty, as far as the field goes, and the field is not full or ends
where an argument ends. No area is as long as the last condition forbids. -/
structure Renderable (args : List (List UInt8)) : Prop where
  nonempty : ∀ pre post, args = pre ++ [] :: post → pre ≠ [] →
    MAX_ARGS_LEN ≤ (argvBytes pre).length
  ends : (argvBytes args).length ≤ MAX_ARGS_LEN ∨ (argvBytes args)[MAX_ARGS_LEN - 1]? = some 0
  area : (argvBytes args).length < 2 ^ 63

/-- The zeroed field with the copied bytes at its start. -/
def inZeros (copied : List UInt8) : List UInt8 :=
  copied ++ List.replicate (MAX_ARGS_LEN - copied.length) 0

theorem faithful_eq (ctx : ExecCtx) (cur : Current) (args : List (List UInt8))
    (behind : List UInt8) :
    Faithful ctx cur args behind ↔
      cstr (spaced (inZeros (argBytes cur.task.mm)) ++ ((slotOf 0).padding.bytes ++ behind)) =
          rendered args ∧
        0 ∈ spaced (inZeros (argBytes cur.task.mm)) := by
  have hzeros : (slotOf 0).args.bytes.drop (argBytes cur.task.mm).length =
      List.replicate (MAX_ARGS_LEN - (argBytes cur.task.mm).length) 0 := List.drop_replicate
  obtain ⟨field, hfield, hbytes⟩ := shownField_eq ctx cur (slotOf 0) behind
  rw [hzeros] at hbytes
  rw [Faithful, printedExec_eq, hzeros, hfield]
  simp [hbytes, inZeros]

theorem ends_iff (args : List (List UInt8)) :
    ((argvBytes args).length ≤ MAX_ARGS_LEN ∨ (argvBytes args)[MAX_ARGS_LEN - 1]? = some 0) ↔
      (argvBytes args).take MAX_ARGS_LEN = [] ∨
        ((argvBytes args).take MAX_ARGS_LEN).getLast? = some 0 := by
  by_cases hfit : (argvBytes args).length ≤ MAX_ARGS_LEN
  · rw [List.take_of_length_le hfit]
    refine iff_of_true (Or.inl hfit) ?_
    by_cases hargs : args = []
    · exact Or.inl (by rw [hargs, argvBytes_nil])
    · exact Or.inr (getLast?_argvBytes hargs)
  · have hlen : ((argvBytes args).take MAX_ARGS_LEN).length = MAX_ARGS_LEN := by
      rw [List.length_take]
      omega
    have hne : (argvBytes args).take MAX_ARGS_LEN ≠ [] := by
      intro hnil
      rw [hnil] at hlen
      cases hlen
    have hlast : ((argvBytes args).take MAX_ARGS_LEN).getLast? =
        (argvBytes args)[MAX_ARGS_LEN - 1]? := by
      rw [List.getLast?_eq_getElem?, hlen, List.getElem?_take_of_lt (by decide)]
    simp [hfit, hne, hlast]

end EbpfTools.Procwatch

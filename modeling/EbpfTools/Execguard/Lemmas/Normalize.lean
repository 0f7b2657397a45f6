import EbpfTools.Execguard.Print

/-!
# The command line as it is printed

The two loops of `normalize_cmdline` against a map over the bytes and a cut at the end.
-/

namespace EbpfTools.Execguard
open EbpfTools.Lib

variable {n : Nat}

def isBlank (c : UInt8) : Bool := c = 32

/-- The printed form of a command line that goes to an array of `n` bytes. -/
def normalized (n : Nat) (src : List UInt8) : List UInt8 :=
  ((src.take (n - 1)).map normalizeByte).rdropWhile isBlank

theorem not_iscntrl_normalizeByte (c : UInt8) : iscntrl (normalizeByte c) = false := by
  by_cases hzero : c = 0
  · subst hzero
    decide
  · rw [normalizeByte, if_neg hzero]
    by_cases hblank : c = 32
    · subst hblank
      decide
    · cases hcntrl : iscntrl c with
      | true =>
          rw [if_pos ⟨rfl, hblank⟩]
          decide
      | false =>
          rw [if_neg fun h => Bool.false_ne_true h.1]
          exact hcntrl

theorem normalizeByte_of_not_iscntrl {c : UInt8} (h : iscntrl c = false) : normalizeByte c = c := by
  have hzero : c ≠ 0 := by
    rintro rfl
    exact absurd h (by decide)
  simp [normalizeByte, hzero, h]

theorem normalizeByte_ne_zero (c : UInt8) : normalizeByte c ≠ 0 := by
  intro h
  have hnot := not_iscntrl_normalizeByte c
  rw [h] at hnot
  exact absurd hnot (by decide)

/-! ## The loops -/

theorem normalizeLoop_eq (src : List UInt8) (j : Nat) :
    normalizeLoop n src j = (src.take (n - 1 - j)).map normalizeByte := by
  induction src generalizing j with
  | nil => simp [normalizeLoop]
  | cons c src ih =>
      rw [normalizeLoop]
      split
      · rename_i hj
        rw [ih, show n - 1 - j = (n - 1 - (j + 1)) + 1 by omega, List.take_succ_cons,
          List.map_cons]
      · rename_i hj
        rw [show n - 1 - j = 0 by omega, List.take_zero, List.map_nil]

theorem trimLoop_eq (dst : List UInt8) {j : Nat} (hj : j ≤ dst.length) :
    trimLoop dst j = ((dst.take j).rdropWhile isBlank).length := by
  induction j with
  | zero => rfl
  | succ j ih =>
      have hlast : dst.take (j + 1) = dst.take j ++ [dst.getD j 0] := by
        rw [List.take_succ_eq_append_getElem (by omega), List.getD_eq_getElem?_getD,
          List.getElem?_eq_getElem (by omega), Option.getD_some]
      rw [trimLoop, hlast]
      split
      · rename_i hblank
        rw [List.rdropWhile_concat_pos isBlank _ _ (decide_eq_true hblank), ih (by omega)]
      · rename_i hblank
        rw [List.rdropWhile_concat_neg isBlank _ _ (by simpa [isBlank] using hblank), List.length_append,
          List.length_take, List.length_singleton]
        omega

/-! ## The result -/

theorem zero_not_mem_normalized (src : List UInt8) : 0 ∉ normalized n src := by
  intro h
  obtain ⟨c, -, hc⟩ := List.mem_map.mp ((List.rdropWhile_prefix isBlank _).subset h)
  exact normalizeByte_ne_zero c hc

/-- The array holds the printed form, whatever it held before. -/
theorem str_normalizeCmdline (hn : 0 < n) (dst : Buf n) (src : List UInt8) (srcLen : UInt32) :
    (normalizeCmdline dst src srcLen).str = normalized n (src.take srcLen.toNat) := by
  rw [normalizeCmdline, if_neg (by omega)]
  by_cases hlen : srcLen = 0
  · subst hlen
    rw [if_pos rfl, Buf.str_store_zero]
    simp [normalized]
  · rw [if_neg hlen]
    dsimp only
    rw [normalizeLoop_eq, Nat.sub_zero]
    generalize hout : ((src.take srcLen.toNat).take (n - 1)).map normalizeByte = out
    have hsize : out.length ≤ n - 1 := by
      rw [← hout, List.length_map, List.length_take]
      omega
    generalize hb : (dst.store (0, 0)).stores (storesAt 0 out) = b
    have hbytes : b.bytes.take out.length = out := by
      rw [← hb, Buf.stores_storesAt _ _ _ (by omega), List.take_zero, List.nil_append,
        List.take_left]
    have htrim : trimLoop b.bytes out.length = (out.rdropWhile isBlank).length := by
      rw [trimLoop_eq _ (by rw [b.size_eq]; omega), hbytes]
    have hpre := List.rdropWhile_prefix isBlank out
    have hshort := hpre.length_le
    have hset : (b.store (trimLoop b.bytes out.length, 0)).bytes =
        out.rdropWhile isBlank ++ 0 :: b.bytes.drop ((out.rdropWhile isBlank).length + 1) := by
      show b.bytes.set (trimLoop b.bytes out.length) 0 = _
      rw [htrim, List.set_eq_take_append_cons_drop, if_pos (by rw [b.size_eq]; omega)]
      congr 1
      rw [← List.prefix_iff_eq_take.mp (hpre.trans (hbytes ▸ List.take_prefix _ _))]
    have hzero : 0 ∉ out.rdropWhile isBlank := by
      have hnot := @zero_not_mem_normalized n (src.take srcLen.toNat)
      rwa [normalized, hout] at hnot
    rw [Buf.str, hset, cstr_append_zero, cstr_eq_self hzero, normalized, hout]

theorem length_normalized_le (src : List UInt8) : (normalized n src).length ≤ n - 1 := by
  refine le_trans (List.rdropWhile_prefix isBlank _).length_le ?_
  rw [List.length_map, List.length_take]
  omega

theorem not_iscntrl_of_mem_normalized {src : List UInt8} {c : UInt8} (h : c ∈ normalized n src) :
    iscntrl c = false := by
  obtain ⟨b, -, rfl⟩ := List.mem_map.mp ((List.rdropWhile_prefix isBlank _).subset h)
  exact not_iscntrl_normalizeByte b

/-- A printed form is its own printed form. -/
theorem normalized_normalized (src : List UInt8) :
    normalized n (normalized n src) = normalized n src := by
  have hmap : (normalized n src).map normalizeByte = normalized n src := by
    have hfix : ∀ c ∈ normalized n src, normalizeByte c = c := fun c hc =>
      normalizeByte_of_not_iscntrl (not_iscntrl_of_mem_normalized hc)
    exact (List.map_congr_left hfix).trans (List.map_id _)
  rw [normalized, List.take_of_length_le (length_normalized_le src), hmap]
  exact List.rdropWhile_idempotent _ _

end EbpfTools.Execguard

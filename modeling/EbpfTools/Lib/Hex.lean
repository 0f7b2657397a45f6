import Mathlib.Data.List.SplitOn
import Mathlib.Data.Nat.Digits.Defs
import EbpfTools.Lib.Buf

/-!
# Bytes in hexadecimal

`%02x`, `%04x` and sequences of bytes printed with blanks between or behind them.
-/

namespace EbpfTools.Lib

def hexDigit (d : Nat) : UInt8 := if d < 10 then .ofNat (48 + d) else .ofNat (87 + d)

/-- What `%02x` prints of a byte. -/
def printHex (b : UInt8) : List UInt8 := [hexDigit (b.toNat / 16), hexDigit (b.toNat % 16)]

def hexValue (c : UInt8) : Option Nat :=
  if 48 ≤ c.toNat ∧ c.toNat ≤ 57 then some (c.toNat - 48)
  else if 97 ≤ c.toNat ∧ c.toNat ≤ 102 then some (c.toNat - 87)
  else none

def readHex : List UInt8 → Option UInt8
  | [c, d] => do
      let high ← hexValue c
      let low ← hexValue d
      return .ofNat (16 * high + low)
  | _ => none

@[simp] theorem length_printHex (b : UInt8) : (printHex b).length = 2 := rfl

theorem toNat_hexDigit {d : Nat} (h : d < 16) :
    (hexDigit d).toNat = if d < 10 then 48 + d else 87 + d := by
  rw [hexDigit]
  split <;> rw [UInt8.toNat_ofNat'] <;> omega

theorem hexValue_hexDigit {d : Nat} (h : d < 16) : hexValue (hexDigit d) = some d := by
  rw [hexValue, toNat_hexDigit h]
  split_ifs <;> first | omega | rw [Option.some_inj]; omega

theorem readHex_printHex (b : UInt8) : readHex (printHex b) = some b := by
  have hlt : b.toNat < 256 := b.toNat_lt
  rw [printHex, readHex, hexValue_hexDigit (by omega), hexValue_hexDigit (by omega)]
  have hval : 16 * (b.toNat / 16) + b.toNat % 16 = b.toNat := Nat.div_add_mod b.toNat 16
  simp only [Option.bind_eq_bind, Option.bind_some, hval]
  exact congrArg some (UInt8.ofNat_toNat)

theorem toNat_of_mem_printHex {b c : UInt8} (h : c ∈ printHex b) : 48 ≤ c.toNat := by
  have hlt : b.toNat < 256 := b.toNat_lt
  rw [printHex, List.mem_cons, List.mem_singleton] at h
  rcases h with rfl | rfl
  · rw [toNat_hexDigit (by omega)]
    split <;> omega
  · rw [toNat_hexDigit (by omega)]
    split <;> omega

/-! ## Sequences -/

/-- The bytes printed with one blank between each two. -/
def hexText (bs : List UInt8) : List UInt8 := [32].intercalate (bs.map printHex)

/-- The bytes of such a text; no byte is printed as the empty text. -/
def readHexText (text : List UInt8) : Option (List UInt8) :=
  if text = [] then some [] else (text.splitOn 32).mapM readHex

theorem hexText_cons_cons (b c : UInt8) (bs : List UInt8) :
    hexText (b :: c :: bs) = printHex b ++ 32 :: hexText (c :: bs) := by
  rw [hexText, List.map_cons, List.map_cons, List.intercalate_cons_cons]
  simp [hexText]

theorem readHexText_hexText (bs : List UInt8) : readHexText (hexText bs) = some bs := by
  cases bs with
  | nil => rfl
  | cons b bs =>
      have hne : hexText (b :: bs) ≠ [] := by
        cases bs with
        | nil => simp [hexText, printHex]
        | cons c bs => simp [hexText_cons_cons, printHex]
      have hblank : ∀ t ∈ (b :: bs).map printHex, 32 ∉ t := by
        intro t ht hmem
        obtain ⟨x, -, rfl⟩ := List.mem_map.mp ht
        have hge := toNat_of_mem_printHex hmem
        exact absurd hge (by decide)
      rw [readHexText, if_neg hne, hexText, List.splitOn_intercalate 32 hblank (by simp)]
      generalize b :: bs = xs
      induction xs with
      | nil => rfl
      | cons x xs ih =>
          rw [List.map_cons, List.mapM_cons, readHex_printHex, ih]
          rfl

theorem toNat_of_mem_hexText {bs : List UInt8} {c : UInt8} (h : c ∈ hexText bs) :
    c = 32 ∨ 48 ≤ c.toNat := by
  induction bs with
  | nil => cases h
  | cons b bs ih =>
      cases bs with
      | nil =>
          simp only [hexText, List.map_cons, List.map_nil, List.intercalate_singleton] at h
          exact Or.inr (toNat_of_mem_printHex h)
      | cons d bs =>
          rw [hexText_cons_cons, List.mem_append, List.mem_cons] at h
          rcases h with h | rfl | h
          · exact Or.inr (toNat_of_mem_printHex h)
          · exact Or.inl rfl
          · exact ih h

/-! ## Cells -/

/-- The bytes printed with a blank behind each. -/
def hexCells (bs : List UInt8) : List UInt8 := bs.flatMap fun b => printHex b ++ [32]

/-- The bytes of a text of cells, of which the last ones may be blank. -/
def readHexCells : List UInt8 → Option (List UInt8)
  | [] => some []
  | c :: d :: s :: rest =>
      if c = 32 ∧ d = 32 ∧ s = 32 then some []
      else do
        let b ← readHex [c, d]
        guard (s = 32)
        let bs ← readHexCells rest
        return b :: bs
  | _ => none

theorem hexCells_cons (b : UInt8) (bs : List UInt8) :
    hexCells (b :: bs) =
      hexDigit (b.toNat / 16) :: hexDigit (b.toNat % 16) :: 32 :: hexCells bs := rfl

theorem length_hexCells (bs : List UInt8) : (hexCells bs).length = 3 * bs.length := by
  induction bs with
  | nil => rfl
  | cons b bs ih =>
      rw [hexCells_cons, List.length_cons, List.length_cons, List.length_cons, ih, List.length_cons]
      omega

theorem hexCells_append (as bs : List UInt8) : hexCells (as ++ bs) = hexCells as ++ hexCells bs :=
  List.flatMap_append

theorem not_mem_hexCells (bs : List UInt8) : 0 ∉ hexCells bs := by
  intro h
  obtain ⟨b, -, hb⟩ := List.mem_flatMap.mp h
  rcases List.mem_append.mp hb with hb | hb
  · exact absurd (toNat_of_mem_printHex hb) (by decide)
  · exact absurd (List.mem_singleton.mp hb) (by decide)

theorem readHexCells_hexCells (bs : List UInt8) (k : Nat) :
    readHexCells (hexCells bs ++ List.replicate (3 * k) 32) = some bs := by
  induction bs with
  | nil =>
      cases k with
      | zero => rfl
      | succ k => rfl
  | cons b bs ih =>
      have hread : readHex [hexDigit (b.toNat / 16), hexDigit (b.toNat % 16)] = some b :=
        readHex_printHex b
      have hdigit : hexDigit (b.toNat / 16) ≠ 32 := by
        intro he
        have hge := @toNat_of_mem_printHex b (hexDigit (b.toNat / 16)) List.mem_cons_self
        rw [he] at hge
        exact absurd hge (by decide)
      rw [hexCells_cons, List.cons_append, List.cons_append, List.cons_append, readHexCells,
        if_neg fun h => hdigit h.1, hread, ih]
      rfl

/-! ## Numbers -/

/-- What `%0nx` prints for a width `w` of at least 1. -/
def printHexPad (w n : Nat) : List UInt8 :=
  (List.replicate (w - (Nat.digits 16 n).length) 0 ++ (Nat.digits 16 n).reverse).map hexDigit

def readHexNat (text : List UInt8) : Option Nat :=
  (text.mapM hexValue).map fun ds => ds.foldl (fun n d => 16 * n + d) 0

theorem mapM_hexDigit {ds : List Nat} (h : ∀ d ∈ ds, d < 16) :
    (ds.map hexDigit).mapM hexValue = some ds := by
  induction ds with
  | nil => rfl
  | cons d ds ih =>
      obtain ⟨hd, hds⟩ := List.forall_mem_cons.mp h
      rw [List.map_cons, List.mapM_cons, hexValue_hexDigit hd, ih hds]
      rfl

theorem foldl_replicate_zero (k : Nat) (ds : List Nat) :
    (List.replicate k 0 ++ ds).foldl (fun n d => 16 * n + d) 0 =
      ds.foldl (fun n d => 16 * n + d) 0 := by
  induction k with
  | zero => rfl
  | succ k ih =>
      rw [List.replicate_succ, List.cons_append, List.foldl_cons]
      exact ih

theorem foldl_reverse_digits (ds : List Nat) :
    ds.reverse.foldl (fun n d => 16 * n + d) 0 = Nat.ofDigits 16 ds := by
  induction ds with
  | nil => rfl
  | cons d ds ih =>
      rw [List.reverse_cons, List.foldl_append, ih, List.foldl_cons, List.foldl_nil,
        Nat.ofDigits_cons]
      exact Nat.add_comm _ _

theorem readHexNat_printHexPad (w n : Nat) : readHexNat (printHexPad w n) = some n := by
  have hdigits : ∀ d ∈ List.replicate (w - (Nat.digits 16 n).length) 0 ++ (Nat.digits 16 n).reverse,
      d < 16 := by
    intro d hd
    rcases List.mem_append.mp hd with hd | hd
    · rw [List.eq_of_mem_replicate hd]
      decide
    · exact Nat.digits_lt_base (by decide) (List.mem_reverse.mp hd)
  rw [readHexNat, printHexPad, mapM_hexDigit hdigits, Option.map_some, foldl_replicate_zero,
    foldl_reverse_digits, Nat.ofDigits_digits]

theorem length_printHexPad {w n : Nat} (h : (Nat.digits 16 n).length ≤ w) :
    (printHexPad w n).length = w := by
  rw [printHexPad, List.length_map, List.length_append, List.length_replicate, List.length_reverse]
  omega

end EbpfTools.Lib

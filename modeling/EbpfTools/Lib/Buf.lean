import Mathlib.Data.List.Basic

/-!
# C arrays of bytes and C strings

A `Buf n` is an array of exactly `n` bytes. What a piece of code does to an array is the list of
its stores (`Stores`), so a function that only writes to an array is a function to `Stores` and its
result cannot depend on what the array held. `cstr` reads an array up to its first NUL.
-/

namespace EbpfTools.Lib

structure Buf (n : Nat) where
  bytes : List UInt8
  size_eq : bytes.length = n
  deriving DecidableEq

-- the index and the byte of each store
abbrev Stores := List (Nat × UInt8)

variable {n : Nat}

namespace Buf

@[ext] theorem ext {a b : Buf n} (h : a.bytes = b.bytes) : a = b := by
  cases a; cases b; simpa using h

def zero (n : Nat) : Buf n := ⟨List.replicate n 0, List.length_replicate⟩

@[simp] theorem zero_bytes : (zero n).bytes = List.replicate n 0 := rfl

def store (b : Buf n) (w : Nat × UInt8) : Buf n :=
  ⟨b.bytes.set w.1 w.2, by rw [List.length_set, b.size_eq]⟩

def stores (b : Buf n) (ws : Stores) : Buf n := ws.foldl store b

@[simp] theorem stores_nil (b : Buf n) : b.stores [] = b := rfl

@[simp] theorem stores_cons (b : Buf n) (w : Nat × UInt8) (ws : Stores) :
    b.stores (w :: ws) = (b.store w).stores ws := rfl

theorem stores_append (b : Buf n) (ws vs : Stores) :
    b.stores (ws ++ vs) = (b.stores ws).stores vs :=
  List.foldl_append

theorem mem_store (b : Buf n) {i : Nat} (h : i < n) (c : UInt8) : c ∈ (b.store (i, c)).bytes :=
  List.mem_set (by rw [b.size_eq]; exact h) c

/-- What is stored last is there. -/
theorem mem_stores_concat (b : Buf n) (ws : Stores) {i : Nat} (h : i < n) (c : UInt8) :
    c ∈ (b.stores (ws ++ [(i, c)])).bytes := by
  rw [stores_append]
  exact mem_store _ h c

end Buf

/-- Every store hits the array. -/
def InBounds (n : Nat) (ws : Stores) : Prop := ∀ w ∈ ws, w.1 < n

theorem inBounds_nil (n : Nat) : InBounds n [] := fun w h => by cases h

theorem InBounds.concat {ws : Stores} (h : InBounds n ws) {i : Nat} (hi : i < n) (c : UInt8) :
    InBounds n (ws ++ [(i, c)]) := by
  intro w hw
  rcases List.mem_append.mp hw with hw | hw
  · exact h w hw
  · rw [List.mem_singleton.mp hw]
    exact hi

/-! ## Consecutive stores -/

def storesAt (i : Nat) : List UInt8 → Stores
  | [] => []
  | c :: cs => (i, c) :: storesAt (i + 1) cs

theorem storesAt_append (i : Nat) (as bs : List UInt8) :
    storesAt i (as ++ bs) = storesAt i as ++ storesAt (i + as.length) bs := by
  induction as generalizing i with
  | nil => rfl
  | cons a as ih =>
      simp only [List.cons_append, storesAt, ih, List.length_cons, List.cons.injEq, true_and]
      rw [show i + 1 + as.length = i + (as.length + 1) by omega]

theorem length_storesAt (i : Nat) (cs : List UInt8) : (storesAt i cs).length = cs.length := by
  induction cs generalizing i with
  | nil => rfl
  | cons c cs ih => rw [storesAt, List.length_cons, List.length_cons, ih]

theorem inBounds_storesAt {i : Nat} {cs : List UInt8} (h : i + cs.length ≤ n) :
    InBounds n (storesAt i cs) := by
  induction cs generalizing i with
  | nil => exact inBounds_nil n
  | cons c cs ih =>
      rw [List.length_cons] at h
      intro w hw
      rcases List.mem_cons.mp hw with rfl | hw
      · show i < n
        omega
      · exact ih (by omega) w hw

/-- Consecutive stores inside the array replace one stretch of it. -/
theorem Buf.stores_storesAt (b : Buf n) (i : Nat) (cs : List UInt8) (h : i + cs.length ≤ n) :
    (b.stores (storesAt i cs)).bytes = b.bytes.take i ++ cs ++ b.bytes.drop (i + cs.length) := by
  induction cs generalizing i b with
  | nil => simp [storesAt]
  | cons c cs ih =>
      simp only [List.length_cons] at h
      have hi : i < b.bytes.length := by rw [b.size_eq]; omega
      have hset : (b.store (i, c)).bytes = b.bytes.take i ++ c :: b.bytes.drop (i + 1) :=
        List.set_eq_take_append_cons_drop.trans (if_pos hi)
      have hl : (b.bytes.take i).length = i := by rw [List.length_take]; omega
      rw [storesAt, stores_cons, ih _ _ (by omega), hset]
      have ht : (b.bytes.take i ++ c :: b.bytes.drop (i + 1)).take (i + 1) =
          b.bytes.take i ++ [c] := by
        rw [List.take_append, hl, List.take_of_length_le (by omega), Nat.add_sub_cancel_left]
        rfl
      have hd : (b.bytes.take i ++ c :: b.bytes.drop (i + 1)).drop (i + 1 + cs.length) =
          b.bytes.drop (i + (cs.length + 1)) := by
        rw [List.drop_append, hl, List.drop_eq_nil_of_le (by omega), List.nil_append,
          show i + 1 + cs.length - i = cs.length + 1 by omega, List.drop_succ_cons, List.drop_drop]
        congr 1
        omega
      rw [ht, hd]
      simp

/-- `memcpy` of `src` to the array at `off`. -/
def Buf.memcpy (b : Buf n) (off : Nat) (src : List UInt8) : Buf n := b.stores (storesAt off src)

theorem Buf.memcpy_bytes (b : Buf n) {off : Nat} {src : List UInt8} (h : off + src.length ≤ n) :
    (b.memcpy off src).bytes = b.bytes.take off ++ src ++ b.bytes.drop (off + src.length) :=
  stores_storesAt b off src h

theorem Buf.memcpy_whole (b : Buf n) {src : List UInt8} (h : src.length = n) :
    (b.memcpy 0 src).bytes = src := by
  have hdrop : b.bytes.drop (0 + src.length) = [] :=
    List.drop_eq_nil_of_le (by rw [b.size_eq]; omega)
  rw [memcpy_bytes b (by omega), hdrop, List.append_nil, List.take_zero, List.nil_append]

/-- Up to the end of the copy an array holds what was copied behind what it held. -/
theorem Buf.take_memcpy (b : Buf n) {off : Nat} {src : List UInt8} (h : off + src.length ≤ n) :
    (b.memcpy off src).bytes.take (off + src.length) = b.bytes.take off ++ src := by
  have hlen : (b.bytes.take off ++ src).length = off + src.length := by
    rw [List.length_append, List.length_take, b.size_eq]
    omega
  rw [memcpy_bytes b h, List.take_left' hlen]

/-- Behind the copy an array holds what it held. -/
theorem Buf.drop_memcpy (b : Buf n) {off j : Nat} {src : List UInt8} (h : off + src.length ≤ n)
    (hj : off + src.length ≤ j) : (b.memcpy off src).bytes.drop j = b.bytes.drop j := by
  have hlen : (b.bytes.take off ++ src).length = off + src.length := by
    rw [List.length_append, List.length_take, b.size_eq]
    omega
  obtain ⟨k, rfl⟩ := Nat.exists_eq_add_of_le hj
  rw [memcpy_bytes b h, ← List.drop_drop, List.drop_left' hlen, List.drop_drop]

/-! ## C strings -/

def cstr (bs : List UInt8) : List UInt8 := bs.takeWhile (· ≠ 0)

def Buf.str (b : Buf n) : List UInt8 := cstr b.bytes

@[simp] theorem cstr_zero_cons (bs : List UInt8) : cstr (0 :: bs) = [] := rfl

theorem cstr_append_of_mem {as : List UInt8} (bs : List UInt8) (h : 0 ∈ as) :
    cstr (as ++ bs) = cstr as := by
  induction as with
  | nil => cases h
  | cons a as ih =>
      by_cases ha : a = 0
      · subst ha; rfl
      · have hm : 0 ∈ as := (List.mem_cons.mp h).resolve_left (fun he => ha he.symm)
        simpa [cstr, List.takeWhile_cons, ha] using ih hm

theorem cstr_append_of_not_mem {as : List UInt8} (bs : List UInt8) (h : 0 ∉ as) :
    cstr (as ++ bs) = as ++ cstr bs := by
  have hp : ∀ a ∈ as, decide (a ≠ 0) = true := by
    intro a ha
    simpa using ne_of_mem_of_not_mem ha h
  exact List.takeWhile_append_of_pos hp

theorem cstr_eq_self {bs : List UInt8} (h : 0 ∉ bs) : cstr bs = bs := by
  have happ : cstr (bs ++ []) = bs ++ cstr [] := cstr_append_of_not_mem [] h
  simpa [cstr] using happ

/-- The bytes of an ASCII string literal, without the NUL. -/
def ascii (s : String) : List UInt8 := s.toList.map fun c => UInt8.ofNat c.toNat

theorem cstr_append_zero (as bs : List UInt8) : cstr (as ++ 0 :: bs) = cstr as := by
  by_cases h : 0 ∈ as
  · exact cstr_append_of_mem _ h
  · rw [cstr_append_of_not_mem _ h, cstr_eq_self h, cstr_zero_cons, List.append_nil]

/-- What is written from the start of an array and terminated is the string it holds then. -/
theorem Buf.str_stores_terminated (b : Buf n) {cs : List UInt8} (h : cs.length < n) :
    (b.stores (storesAt 0 cs ++ [(cs.length, 0)])).str = cstr cs := by
  have hst : storesAt 0 cs ++ [(cs.length, 0)] = storesAt 0 (cs ++ [0]) := by
    rw [storesAt_append, Nat.zero_add]
    rfl
  have hlen : 0 + (cs ++ [0]).length ≤ n := by
    rw [List.length_append, List.length_singleton]
    omega
  rw [hst, Buf.str, Buf.stores_storesAt b 0 _ hlen]
  simp only [List.take_zero, List.nil_append, List.append_assoc, List.cons_append]
  exact cstr_append_zero cs _

theorem cstr_replicate (k : Nat) : cstr (List.replicate k 0) = [] := by
  cases k <;> rfl

theorem cstr_append_replicate (as : List UInt8) (k : Nat) :
    cstr (as ++ List.replicate k 0) = cstr as := by
  by_cases h : 0 ∈ as
  · exact cstr_append_of_mem _ h
  · rw [cstr_append_of_not_mem _ h, cstr_eq_self h, cstr_replicate, List.append_nil]

/-- A NUL at its start empties a string. -/
theorem Buf.str_store_zero (b : Buf n) : (b.store (0, 0)).str = [] := by
  have hb : (b.store (0, 0)).bytes = b.bytes.set 0 0 := rfl
  rw [Buf.str, hb]
  cases b.bytes <;> rfl

/-- A string copied with its end reads back, whatever the array held. -/
theorem cstr_memcpy (b : Buf n) {cs : List UInt8} (h : cs.length ≤ n) (hcs : 0 ∈ cs)
    (behind : List UInt8) : cstr ((b.memcpy 0 cs).bytes ++ behind) = cstr cs := by
  rw [Buf.memcpy_bytes b (by omega), List.take_zero, List.nil_append, List.append_assoc,
    cstr_append_of_mem _ hcs]

theorem headD_memcpy (b : Buf n) {cs : List UInt8} (h : cs.length ≤ n) (hcs : cs ≠ []) :
    (b.memcpy 0 cs).bytes.headD 0 = cs.headD 0 := by
  obtain ⟨c, cs, rfl⟩ := List.exists_cons_of_ne_nil hcs
  rw [Buf.memcpy_bytes b (by omega)]
  rfl

end EbpfTools.Lib

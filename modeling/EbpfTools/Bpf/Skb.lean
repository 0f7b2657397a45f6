import Mathlib.Data.List.Basic
import EbpfTools.Lib.Wire

/-!
# Socket buffers

A TC program sees a frame as a `__sk_buff`. Direct packet access is bounded by `data_end`, the end
of the linear part; `bpf_skb_load_bytes` reads the whole frame and fails exactly when the range
leaves it.
-/

namespace EbpfTools.Bpf

/-- The frame of a socket buffer and how much of it `data` … `data_end` covers. `skb->len` is a
`__u32`. -/
structure Skb where
  bytes : List UInt8
  linear : Nat
  linear_le : linear ≤ bytes.length
  len_lt : bytes.length < 2 ^ 32

namespace Skb

def len (skb : Skb) : Nat := skb.bytes.length

/-- The byte at `data + i`, read by direct access. -/
def byte (skb : Skb) (i : Nat) : UInt8 := skb.bytes.getD i 0

/-- A big-endian `__u16` at `data + i`. -/
def be16 (skb : Skb) (i : Nat) : Nat := Lib.be16 skb.bytes i

/-- A `__u32` at `data + i` as a little-endian CPU reads it. -/
def le32 (skb : Skb) (i : Nat) : Nat :=
  (skb.byte i).toNat + (skb.byte (i + 1)).toNat * 2 ^ 8 + (skb.byte (i + 2)).toNat * 2 ^ 16 +
    (skb.byte (i + 3)).toNat * 2 ^ 24

/-- `bpf_skb_load_bytes(skb, off, …, n)` -/
def loadBytes (skb : Skb) (off n : Nat) : Option (List UInt8) :=
  if off + n ≤ skb.len then some ((skb.bytes.drop off).take n) else none

def loadByte (skb : Skb) (off : Nat) : Option UInt8 := (skb.loadBytes off 1).map (·.getD 0 0)

/-- What is read from the bytes alone does not depend on the linear part. -/
theorem congr_bytes {α : Type} {f : Skb → α}
    (hf : ∀ bytes a b ha hb hlt, f ⟨bytes, a, ha, hlt⟩ = f ⟨bytes, b, hb, hlt⟩) {skb skb' : Skb}
    (h : skb'.bytes = skb.bytes) : f skb' = f skb := by
  obtain ⟨bytes, linear, hle, hlt⟩ := skb
  obtain ⟨bytes', linear', hle', hlt'⟩ := skb'
  obtain rfl : bytes' = bytes := h
  exact hf bytes' linear' linear hle' hle hlt'

theorem loadBytes_eq_some {skb : Skb} {off n : Nat} (h : off + n ≤ skb.len) :
    skb.loadBytes off n = some ((skb.bytes.drop off).take n) :=
  if_pos h

theorem loadBytes_eq_none {skb : Skb} {off n : Nat} (h : skb.len < off + n) :
    skb.loadBytes off n = none :=
  if_neg (by omega)

theorem loadBytes_length {skb : Skb} {off n : Nat} {bs : List UInt8}
    (h : skb.loadBytes off n = some bs) : bs.length = n ∧ off + n ≤ skb.len := by
  unfold loadBytes at h
  split at h
  · rename_i hle
    cases h
    have : skb.len = skb.bytes.length := rfl
    refine ⟨?_, hle⟩
    rw [List.length_take, List.length_drop]
    omega
  · cases h

theorem drop_eq_cons {skb : Skb} {off : Nat} (h : off < skb.len) :
    skb.bytes.drop off = skb.byte off :: skb.bytes.drop (off + 1) := by
  have hlt : off < skb.bytes.length := h
  have hbyte : skb.byte off = skb.bytes[off] := by
    simp [byte, List.getD_eq_getElem?_getD, hlt]
  rw [hbyte]
  exact List.drop_eq_getElem_cons hlt

theorem loadByte_eq_some {skb : Skb} {off : Nat} (h : off < skb.len) :
    skb.loadByte off = some (skb.byte off) := by
  rw [loadByte, loadBytes_eq_some h, drop_eq_cons h]
  rfl

/-! ## Reading forward -/

/-- The frame holds `rest` from `pos` to its end. -/
structure At (skb : Skb) (pos : Nat) (rest : List UInt8) : Prop where
  pos_le : pos ≤ skb.len
  drop_eq : skb.bytes.drop pos = rest

theorem At.pos_add_length {skb : Skb} {pos : Nat} {rest : List UInt8} (h : skb.At pos rest) :
    pos + rest.length = skb.len := by
  have hlen := congrArg List.length h.drop_eq
  have hpos := h.pos_le
  have hdef : skb.len = skb.bytes.length := rfl
  rw [List.length_drop] at hlen
  omega

theorem At.le_len {skb : Skb} {pos n : Nat} {front rest : List UInt8}
    (h : skb.At pos (front ++ rest)) (hn : front.length = n) : pos + n ≤ skb.len := by
  have := h.pos_add_length
  rw [List.length_append] at this
  omega

theorem At.advance {skb : Skb} {pos n : Nat} {front rest : List UInt8}
    (h : skb.At pos (front ++ rest)) (hn : front.length = n) : skb.At (pos + n) rest where
  pos_le := h.le_len hn
  drop_eq := by
    rw [← List.drop_drop, h.drop_eq, List.drop_left' hn]

theorem At.load {skb : Skb} {pos n : Nat} {front rest : List UInt8}
    (h : skb.At pos (front ++ rest)) (hn : front.length = n) : skb.loadBytes pos n = some front := by
  rw [loadBytes_eq_some (h.le_len hn), h.drop_eq, List.take_left' hn]

theorem At.loadByte {skb : Skb} {pos : Nat} {b : UInt8} {rest : List UInt8}
    (h : skb.At pos ([b] ++ rest)) : skb.loadByte pos = some b := by
  rw [Skb.loadByte, h.load (n := 1) rfl]
  rfl

end Skb

/-- Unsigned 32-bit subtraction. -/
def u32sub (a b : Nat) : Nat := (a + 2 ^ 32 - b) % 2 ^ 32

end EbpfTools.Bpf

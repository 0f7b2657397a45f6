import EbpfTools.Pktrace.Kernel

/-!
# Theorems about pktrace
-/

namespace EbpfTools.Pktrace
open EbpfTools.Lib EbpfTools.Bpf

/-! ## Short frames -/

/-- A record with the whole frame up to 64 bytes. -/
def CapturedWhole (skb : Skb) (e : Event) : Prop :=
  e.packetLen.toNat = skb.len ∧ e.capLen.toNat = min skb.len MAX_CAPTURE_BYTES ∧
    e.packet.bytes.take e.capLen.toNat = skb.bytes.take e.capLen.toNat

theorem pktraceFn_of_short {skb : Skb} (h : skb.len < MAX_CAPTURE_BYTES) (slot : Option Event) :
    pktraceFn skb slot = none := by
  have hload : skb.loadBytes 0 MAX_CAPTURE_BYTES = none := Skb.loadBytes_eq_none (by omega)
  cases hh : headers skb with
  | none => simp [pktraceFn, hh]
  | some p =>
      cases slot with
      | none => simp [pktraceFn, hh]
      | some e => simp [pktraceFn, hh, hload]

theorem pktraceFn_of_long {skb : Skb} {p : Nat × L4} (hh : headers skb = some p)
    (h : MAX_CAPTURE_BYTES ≤ skb.len) (e : Event) :
    ∃ ev, pktraceFn skb (some e) = some ev ∧ CapturedWhole skb ev := by
  have hload : skb.loadBytes 0 MAX_CAPTURE_BYTES = some (skb.bytes.take MAX_CAPTURE_BYTES) :=
    Skb.loadBytes_eq_some (by omega)
  have htmp : (skb.bytes.take MAX_CAPTURE_BYTES).length = MAX_CAPTURE_BYTES :=
    (Skb.loadBytes_length hload).1
  have hcap : (UInt32.ofNat (if skb.len > MAX_CAPTURE_BYTES then MAX_CAPTURE_BYTES
      else skb.len)).toNat = MAX_CAPTURE_BYTES := by
    have he : (if skb.len > MAX_CAPTURE_BYTES then MAX_CAPTURE_BYTES else skb.len) =
        MAX_CAPTURE_BYTES := by
      split <;> omega
    rw [he]
    rfl
  refine ⟨_, by simp only [pktraceFn, hh, hload]; rfl, ?_, ?_, ?_⟩
  · exact (UInt32.toNat_ofNat').trans (Nat.mod_eq_of_lt skb.len_lt)
  · exact hcap.trans (Nat.min_eq_right h).symm
  · simp only [fill, hcap, e.packet.memcpy_whole htmp]
    rw [List.take_take, Nat.min_self]

/-- A frame with valid headers is captured exactly when it has at least 64 bytes: the load of 64
bytes fails on a shorter one, and its record is discarded. -/
theorem pktraceFn_captured_iff {skb : Skb} {p : Nat × L4} (hh : headers skb = some p)
    (e : Event) :
    (∃ ev, pktraceFn skb (some e) = some ev ∧ CapturedWhole skb ev) ↔
      MAX_CAPTURE_BYTES ≤ skb.len := by
  constructor
  · rintro ⟨ev, hev, -⟩
    by_contra hlt
    rw [pktraceFn_of_short (by omega)] at hev
    cases hev
  · intro h
    exact pktraceFn_of_long hh h e

def emptyEvent : Event := ⟨0, 0, 0, 0, 0, 0, 0, 0, 0, 0, .zero _, .zero _⟩

-- the 54 bytes of headers of a TCP segment to port 443
def tcpHeaders : List UInt8 :=
  List.replicate 12 0 ++ [0x08, 0x00] ++ [0x45] ++ List.replicate 8 0 ++ [6] ++
    List.replicate 10 0 ++ [0xC0, 0x00, 0x01, 0xBB] ++ List.replicate 8 0 ++ [0x50] ++
    List.replicate 7 0

def ackFrame : Skb := ⟨tcpHeaders, 54, by decide, by decide⟩

def dataFrame : Skb := ⟨tcpHeaders ++ List.replicate 46 0x41, 54, by decide, by decide⟩

/-- A segment without payload has valid headers and leaves no event. -/
theorem pktraceFn_ackFrame :
    headers ackFrame = some (34, ⟨49152, 443, 54⟩) ∧
      pktraceFn ackFrame (some emptyEvent) = none := by
  refine ⟨by decide, by decide⟩

theorem pktraceFn_captured_iff_dataFrame :
    (∃ ev, pktraceFn dataFrame (some emptyEvent) = some ev ∧ CapturedWhole dataFrame ev) ↔
      MAX_CAPTURE_BYTES ≤ dataFrame.len :=
  @pktraceFn_captured_iff dataFrame (34, ⟨49152, 443, 54⟩) (by decide) emptyEvent

end EbpfTools.Pktrace

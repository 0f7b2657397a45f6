import EbpfTools.Pksniff.Lemmas.Shown
import EbpfTools.Pktrace.Kernel

/-!
# The packet two tracers report

The fields that the events of pksniff and of pktrace have in common.
-/

namespace EbpfTools.Tracers
open EbpfTools.Lib EbpfTools.Bpf

structure PacketView where
  packetLen : UInt32
  srcIp : UInt32
  dstIp : UInt32
  srcPort : UInt16
  dstPort : UInt16
  l4Off : UInt16
  payloadOff : UInt16
  payloadLen : UInt16
  protocol : UInt8
  front : List UInt8
  deriving DecidableEq

def pktraceView (e : Pktrace.Event) : PacketView :=
  { packetLen := e.packetLen, srcIp := e.srcIp, dstIp := e.dstIp, srcPort := e.srcPort,
    dstPort := e.dstPort, l4Off := e.l4Off, payloadOff := e.payloadOff,
    payloadLen := e.payloadLen, protocol := e.protocol, front := e.packet.bytes }

def pksniffView (e : Pksniff.Event) : PacketView :=
  { packetLen := e.packetLen, srcIp := e.srcIp, dstIp := e.dstIp, srcPort := e.srcPort,
    dstPort := e.dstPort, l4Off := e.l4Off, payloadOff := e.payloadOff,
    payloadLen := e.payloadLen, protocol := e.ipProto
    front := e.packet.bytes.take Pktrace.MAX_CAPTURE_BYTES }

/-- The packet with the given headers. -/
def packetView (skb : Skb) (l4Off : Nat) (l4 : Pktrace.L4) : PacketView :=
  { packetLen := .ofNat skb.len, srcIp := .ofNat (skb.le32 26), dstIp := .ofNat (skb.le32 30)
    srcPort := l4.srcPort, dstPort := l4.dstPort, l4Off := .ofNat l4Off
    payloadOff := .ofNat l4.payloadOff
    payloadLen := .ofNat (if skb.len > l4.payloadOff then skb.len - l4.payloadOff else 0)
    protocol := skb.ipProtocol, front := skb.bytes.take Pktrace.MAX_CAPTURE_BYTES }

/-! ## Headers -/

-- the L4 header of pksniff: that of pktrace with the TCP flags
def withFlags (skb : Skb) (l4Off : Nat) (l4 : Pktrace.L4) : Pksniff.L4 :=
  ⟨l4.srcPort, l4.dstPort,
    if skb.ipProtocol = IPPROTO_TCP then Pksniff.packTcpFlags (skb.byte (l4Off + 13)) else 0,
    l4.payloadOff⟩

theorem l4Header_eq (skb : Skb) (l4Off : Nat) :
    Pksniff.l4Header skb l4Off = (Pktrace.l4Header skb l4Off).map (withFlags skb l4Off) := by
  unfold Pksniff.l4Header Pktrace.l4Header
  by_cases htcp : skb.ipProtocol = IPPROTO_TCP
  · simp only [if_pos htcp]
    split
    · rfl
    split
    · rfl
    · simp [withFlags, htcp]
  · simp only [if_neg htcp]
    split
    · split
      · rfl
      · simp [withFlags, htcp]
    · simp [withFlags, htcp]

theorem headers_eq {skb : Skb} (hlin : ¬ 14 > skb.linear) (heth : skb.ethProto = ETH_P_IP) :
    Pksniff.headers skb =
      (Pktrace.headers skb).map fun p => .ipv4 p.1 (withFlags skb p.1 p.2) := by
  have harp : skb.ethProto ≠ ETH_P_ARP := by
    rw [heth]
    decide
  rw [Pksniff.headers, Pktrace.headers, if_neg harp, if_neg hlin]
  simp only [heth, ne_eq, not_true_eq_false, if_false]
  cases skb.ipHdrLen with
  | none => rfl
  | some len =>
      simp only [Option.bind_eq_bind, Option.bind_some, l4Header_eq]
      cases Pktrace.l4Header skb (14 + len) <;> rfl

/-! ## Events -/

theorem pktraceFn_view {skb : Skb} (hlen : Pktrace.MAX_CAPTURE_BYTES ≤ skb.len)
    (slot : Pktrace.Event) :
    (Pktrace.pktraceFn skb (some slot)).map pktraceView =
      (Pktrace.headers skb).map fun p => packetView skb p.1 p.2 := by
  have hload : skb.loadBytes 0 Pktrace.MAX_CAPTURE_BYTES =
      some (skb.bytes.take Pktrace.MAX_CAPTURE_BYTES) := Skb.loadBytes_eq_some (by omega)
  have htmp := (Skb.loadBytes_length hload).1
  cases hh : Pktrace.headers skb with
  | none => simp [Pktrace.pktraceFn, hh]
  | some p =>
      obtain ⟨l4Off, l4⟩ := p
      simp only [Pktrace.pktraceFn, hh, hload, Option.bind_eq_bind, Option.bind_some,
        Option.pure_def, Option.map_some, pktraceView, Buf.memcpy_whole _ htmp]
      rfl

theorem pksniffView_fill (e : Pksniff.Event) (c : Pksniff.Call) (l4Off : Nat) (l4 : Pktrace.L4)
    (capLen : UInt32) {packet : Buf Pksniff.MAX_CAPTURE_BYTES}
    (hfront : packet.bytes.take Pktrace.MAX_CAPTURE_BYTES =
      c.skb.bytes.take Pktrace.MAX_CAPTURE_BYTES) :
    pksniffView
        { Pksniff.fill (Pksniff.resetScratch e c.direction c.ktime) c
            (.ipv4 l4Off (withFlags c.skb l4Off l4)) with
          reserved := .zero _, capLen := capLen, packet := packet } =
      packetView c.skb l4Off l4 := by
  have hnone : (Pksniff.fillIpv4 (Pksniff.resetScratch e c.direction c.ktime) c.skb l4Off
      (withFlags c.skb l4Off l4)).appTag = Pksniff.APP_NONE := rfl
  simp only [Pksniff.fill, Pksniff.appHint_eq hnone, pksniffView, hfront]
  rfl

theorem processPacket_view {skb : Skb} (hlen : Pktrace.MAX_CAPTURE_BYTES ≤ skb.len)
    (heth : skb.ethProto = ETH_P_IP) (scratch re : Pksniff.Event) (direction : UInt8)
    (ktime : UInt64) :
    (Pksniff.processPacket scratch ⟨skb, direction, ktime, some re⟩).2.map pksniffView =
      ((Pktrace.headers skb).map fun p => packetView skb p.1 p.2).toList := by
  by_cases hlin : 14 > skb.linear
  · rw [Pksniff.processPacket, if_pos hlin, Pktrace.headers, if_pos hlin]
    rfl
  · rw [Pksniff.processPacket, if_neg hlin]
    simp only [headers_eq hlin heth]
    cases Pktrace.headers skb with
    | none => rfl
    | some p =>
        obtain ⟨l4Off, l4⟩ := p
        obtain ⟨packet, hcap, hbytes⟩ := Pksniff.captureBytes_eq_some skb
          (Pksniff.fill (Pksniff.resetScratch scratch direction ktime)
            ⟨skb, direction, ktime, some re⟩ (.ipv4 l4Off (withFlags skb l4Off l4))) re
        have hround : Pktrace.MAX_CAPTURE_BYTES ≤ Pksniff.roundedCapLen skb := by
          have h₁ : Pktrace.MAX_CAPTURE_BYTES = 64 := rfl
          have h₂ : Pksniff.MAX_CAPTURE_BYTES = 256 := rfl
          rw [Pksniff.roundedCapLen_eq, h₂]
          omega
        have hfront : packet.bytes.take Pktrace.MAX_CAPTURE_BYTES =
            skb.bytes.take Pktrace.MAX_CAPTURE_BYTES := by
          have hle := (Pksniff.roundedCapLen_le skb).1
          have hdef : skb.len = skb.bytes.length := rfl
          rw [hbytes, List.take_append_of_le_length, List.take_take, Nat.min_eq_left hround]
          rw [List.length_take]
          omega
        simp only [Option.map_some, hcap, Option.toList_some, List.map_cons, List.map_nil]
        rw [List.singleton_inj]
        exact pksniffView_fill scratch ⟨skb, direction, ktime, some re⟩ l4Off l4 _ hfront

end EbpfTools.Tracers

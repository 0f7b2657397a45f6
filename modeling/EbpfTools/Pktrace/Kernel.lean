import EbpfTools.Bpf.Headers
import EbpfTools.Lib.Buf

/-!
# The packet handler of pktrace

`pktrace_fn` of `pktrace.bpf.c` (`pktrace_v2`).
-/

namespace EbpfTools.Pktrace
open EbpfTools.Lib EbpfTools.Bpf

abbrev MAX_CAPTURE_BYTES : Nat := 64

structure Event where
  packetLen : UInt32
  capLen : UInt32
  srcIp : UInt32
  dstIp : UInt32
  srcPort : UInt16
  dstPort : UInt16
  l4Off : UInt16
  payloadOff : UInt16
  payloadLen : UInt16
  protocol : UInt8
  reserved : Buf 3
  packet : Buf MAX_CAPTURE_BYTES
  deriving DecidableEq

structure L4 where
  srcPort : UInt16
  dstPort : UInt16
  payloadOff : Nat
  deriving DecidableEq

def l4Header (skb : Skb) (l4Off : Nat) : Option L4 :=
  if skb.ipProtocol = IPPROTO_TCP then
    if l4Off + 20 > skb.linear then none
    else if l4Off + skb.tcpHdrLen l4Off > skb.linear then none
    else
      some ⟨.ofNat (skb.be16 l4Off), .ofNat (skb.be16 (l4Off + 2)), l4Off + skb.tcpHdrLen l4Off⟩
  else if skb.ipProtocol = IPPROTO_UDP then
    if l4Off + 8 > skb.linear then none
    else some ⟨.ofNat (skb.be16 l4Off), .ofNat (skb.be16 (l4Off + 2)), l4Off + 8⟩
  else some ⟨0, 0, l4Off⟩

/-- `l4_off` and the L4 header, when all headers pass the bounds checks. -/
def headers (skb : Skb) : Option (Nat × L4) :=
  if 14 > skb.linear then none
  else if skb.ethProto ≠ ETH_P_IP then none
  else do
    let len ← skb.ipHdrLen
    let l4 ← l4Header skb (14 + len)
    return (14 + len, l4)

/-- The fields of the reserved record that are set before the bytes are loaded. -/
def fill (e : Event) (skb : Skb) (l4Off : Nat) (l4 : L4) : Event :=
  { e with
    packetLen := .ofNat skb.len
    capLen := .ofNat (if skb.len > MAX_CAPTURE_BYTES then MAX_CAPTURE_BYTES else skb.len)
    srcIp := .ofNat (skb.le32 26)
    dstIp := .ofNat (skb.le32 30)
    srcPort := l4.srcPort
    dstPort := l4.dstPort
    l4Off := .ofNat l4Off
    payloadOff := .ofNat l4.payloadOff
    protocol := skb.ipProtocol
    payloadLen := .ofNat (if skb.len > l4.payloadOff then skb.len - l4.payloadOff else 0) }

/-- The submitted record; `slot` is the reserved one with whatever it holds, if the reservation
succeeds. -/
def pktraceFn (skb : Skb) (slot : Option Event) : Option Event := do
  let (l4Off, l4) ← headers skb
  let e ← slot
  let e := fill e skb l4Off l4
  -- the record is discarded when the load fails
  let tmp ← skb.loadBytes 0 MAX_CAPTURE_BYTES
  return { e with packet := e.packet.memcpy 0 tmp }

end EbpfTools.Pktrace

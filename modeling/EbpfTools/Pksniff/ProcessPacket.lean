import EbpfTools.Pksniff.Parse

/-!
# The packet handler of pksniff

`process_packet` of `Pksniff.bpf.c`. The event is built in the per-CPU `scratch_map` entry, which
keeps what the previous packet left in it, and copied to a ring-buffer record.
-/

namespace EbpfTools.Pksniff
open EbpfTools.Lib EbpfTools.Bpf

/-- One call: the frame, the clock reading, and the reserved ring-buffer record with whatever it
holds, if the reservation succeeds. -/
structure Call where
  skb : Skb
  direction : UInt8
  ktime : UInt64
  slot : Option Event

/-! ## Headers -/

structure L4 where
  srcPort : UInt16
  dstPort : UInt16
  tcpFlags : UInt8
  payloadOff : Nat
  deriving DecidableEq

inductive Headers
  | arp
  | ipv4 (l4Off : Nat) (l4 : L4)

/-- The flag bits of the byte at offset 13 of a TCP header. -/
def packTcpFlags (b : UInt8) : UInt8 :=
  (if b &&& 0x01 ≠ 0 then TF_FIN else 0) ||| (if b &&& 0x02 ≠ 0 then TF_SYN else 0) |||
    (if b &&& 0x04 ≠ 0 then TF_RST else 0) ||| (if b &&& 0x08 ≠ 0 then TF_PSH else 0) |||
    (if b &&& 0x10 ≠ 0 then TF_ACK else 0) ||| (if b &&& 0x20 ≠ 0 then TF_URG else 0)

def l4Header (skb : Skb) (l4Off : Nat) : Option L4 :=
  if skb.ipProtocol = IPPROTO_TCP then
    if l4Off + 20 > skb.linear then none
    else if l4Off + skb.tcpHdrLen l4Off > skb.linear then none
    else
      some ⟨.ofNat (skb.be16 l4Off), .ofNat (skb.be16 (l4Off + 2)),
        packTcpFlags (skb.byte (l4Off + 13)), l4Off + skb.tcpHdrLen l4Off⟩
  else if skb.ipProtocol = IPPROTO_UDP then
    if l4Off + 8 > skb.linear then none
    else some ⟨.ofNat (skb.be16 l4Off), .ofNat (skb.be16 (l4Off + 2)), 0, l4Off + 8⟩
  else some ⟨0, 0, 0, l4Off⟩

/-- The headers behind a complete Ethernet header. -/
def headers (skb : Skb) : Option Headers :=
  if skb.ethProto = ETH_P_ARP then some .arp
  else if skb.ethProto ≠ ETH_P_IP then none
  else do
    let len ← skb.ipHdrLen
    let l4 ← l4Header skb (14 + len)
    return .ipv4 (14 + len) l4

/-! ## The scratch event -/

def resetScratch (e : Event) (direction : UInt8) (ktime : UInt64) : Event :=
  { e with
    dnsName := e.dnsName.store (0, 0)
    httpInfo := e.httpInfo.store (0, 0)
    tlsSni := e.tlsSni.store (0, 0)
    tcpFlags := 0
    appTag := APP_NONE
    direction := direction
    ktimeNs := ktime }

-- `skb->len < MAX_CAPTURE_BYTES ? skb->len : MAX_CAPTURE_BYTES`
def scratchCapLen (skb : Skb) : UInt32 :=
  .ofNat (if skb.len < MAX_CAPTURE_BYTES then skb.len else MAX_CAPTURE_BYTES)

def fillArp (e : Event) (skb : Skb) : Event :=
  { e with
    ipProto := 0, srcIp := 0, dstIp := 0, srcPort := 0, dstPort := 0, ttl := 0, ipFlags := 0
    ipTotLen := 0, l4Off := 14, payloadOff := 14, payloadLen := 0
    packetLen := .ofNat skb.len
    capLen := scratchCapLen skb }

def fillIpv4 (e : Event) (skb : Skb) (l4Off : Nat) (l4 : L4) : Event :=
  { e with
    srcIp := .ofNat (skb.le32 26)
    dstIp := .ofNat (skb.le32 30)
    ttl := skb.byte 22
    ipProto := skb.ipProtocol
    ipTotLen := .ofNat (skb.be16 16)
    ipFlags := (UInt16.ofNat (skb.be16 20) >>> 12 &&& 0x07).toUInt8
    srcPort := l4.srcPort
    dstPort := l4.dstPort
    tcpFlags := l4.tcpFlags
    l4Off := .ofNat l4Off
    payloadOff := .ofNat l4.payloadOff
    packetLen := .ofNat skb.len
    capLen := scratchCapLen skb
    payloadLen := .ofNat (if skb.len > l4.payloadOff then skb.len - l4.payloadOff else 0) }

/-- Whether `parse_tls_sni` is called on a TLS segment. -/
def tlsOutbound (direction : UInt8) (l4 : L4) : Prop :=
  direction = DIR_EGRESS ∨ l4.dstPort = 443

instance (direction : UInt8) (l4 : L4) : Decidable (tlsOutbound direction l4) :=
  inferInstanceAs (Decidable (_ ∨ _))

-- both branches on the port 80 and 8080 check do the same
def httpHint (e : Event) (skb : Skb) (l4 : L4) : Event :=
  if isHttp skb l4.payloadOff skb.len then
    { e with
      appTag := APP_HTTP
      httpInfo := e.httpInfo.stores (parseHttpInfo skb l4.payloadOff skb.len) }
  else e

def appHint (e : Event) (skb : Skb) (direction : UInt8) (l4 : L4) : Event :=
  if skb.ipProtocol = IPPROTO_ICMP then { e with appTag := APP_ICMP }
  else if skb.ipProtocol = IPPROTO_UDP then
    if l4.srcPort = 53 ∨ l4.dstPort = 53 then
      { e with
        appTag := APP_DNS
        dnsName := e.dnsName.stores (parseDnsName skb l4.payloadOff skb.len) }
    else e
  else if skb.ipProtocol = IPPROTO_TCP then
    if l4.srcPort = 443 ∨ l4.dstPort = 443 then
      if tlsOutbound direction l4 then
        { e with
          appTag := APP_TLS
          tlsSni := e.tlsSni.stores (parseTlsSni skb l4.payloadOff skb.len) }
      else { e with appTag := APP_TLS }
    else httpHint e skb l4
  else e

def fill (e : Event) (c : Call) : Headers → Event
  | .arp => fillArp e c.skb
  | .ipv4 l4Off l4 => appHint (fillIpv4 e c.skb l4Off l4) c.skb c.direction l4

/-! ## The ring-buffer record -/

/-- The `cap_len` of the record: `cap_len &= ~0xF` rounds it down to a 16-byte boundary. -/
def roundedCapLen (skb : Skb) : Nat :=
  (if skb.len > MAX_CAPTURE_BYTES then MAX_CAPTURE_BYTES else skb.len) / 16 * 16

/-- The chunk loop from `off` on, with `left` iterations to go; `none` when a load fails. -/
def copyChunks (skb : Skb) (capLen : Nat) :
    (left off : Nat) → Buf MAX_CAPTURE_BYTES → Option (Buf MAX_CAPTURE_BYTES)
  | 0, _, packet => some packet
  | left + 1, off, packet =>
      if off ≥ capLen then some packet
      else
        match skb.loadBytes off 16 with
        | none => none
        | some tmp => copyChunks skb capLen left (off + 16) (packet.memcpy off tmp)

/-- `capture_bytes`: the submitted record, `none` when it is discarded. All fields but `reserved`,
`cap_len` and `packet` are copied from the scratch event. -/
def captureBytes (skb : Skb) (e re : Event) : Option Event :=
  (copyChunks skb (roundedCapLen skb) 16 0 re.packet).map fun packet =>
    { e with reserved := .zero _, capLen := .ofNat (roundedCapLen skb), packet := packet }

/-! ## The handler -/

/-- The scratch event after a call and the submitted records. -/
def processPacket (e : Event) (c : Call) : Event × List Event :=
  if 14 > c.skb.linear then (e, [])
  else
    let e := resetScratch e c.direction c.ktime
    match headers c.skb with
    | none => (e, [])
    | some h =>
        let e := fill e c h
        match c.slot with
        | none => (e, [])
        | some re => (e, (captureBytes c.skb e re).toList)

end EbpfTools.Pksniff

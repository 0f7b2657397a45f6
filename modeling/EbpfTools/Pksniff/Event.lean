import EbpfTools.Lib.Buf

/-!
# The event of pksniff

`Pksniff.h`: the record that a captured packet leaves in the ring buffer.
-/

namespace EbpfTools.Pksniff
open EbpfTools.Lib

abbrev MAX_CAPTURE_BYTES : Nat := 256
abbrev MAX_DNS_NAME : Nat := 64
abbrev MAX_HTTP_INFO : Nat := 48
abbrev MAX_TLS_SNI : Nat := 64

def APP_NONE : UInt8 := 0
def APP_DNS : UInt8 := 1
def APP_HTTP : UInt8 := 2
def APP_TLS : UInt8 := 3
def APP_ICMP : UInt8 := 4

def TF_FIN : UInt8 := 0x01
def TF_SYN : UInt8 := 0x02
def TF_RST : UInt8 := 0x04
def TF_PSH : UInt8 := 0x08
def TF_ACK : UInt8 := 0x10
def TF_URG : UInt8 := 0x20

def DIR_INGRESS : UInt8 := 0
def DIR_EGRESS : UInt8 := 1

structure Event where
  ktimeNs : UInt64
  srcIp : UInt32
  dstIp : UInt32
  ipTotLen : UInt16
  ttl : UInt8
  ipProto : UInt8
  ipFlags : UInt8
  srcPort : UInt16
  dstPort : UInt16
  tcpFlags : UInt8
  l4Off : UInt16
  payloadOff : UInt16
  payloadLen : UInt16
  packetLen : UInt32
  capLen : UInt32
  direction : UInt8
  appTag : UInt8
  reserved : Buf 2
  dnsName : Buf MAX_DNS_NAME
  httpInfo : Buf MAX_HTTP_INFO
  tlsSni : Buf MAX_TLS_SNI
  packet : Buf MAX_CAPTURE_BYTES
  deriving DecidableEq

/-- An event of zero bytes, as a fresh map holds it. -/
def Event.zero : Event :=
  { ktimeNs := 0, srcIp := 0, dstIp := 0, ipTotLen := 0, ttl := 0, ipProto := 0, ipFlags := 0,
    srcPort := 0, dstPort := 0, tcpFlags := 0, l4Off := 0, payloadOff := 0, payloadLen := 0,
    packetLen := 0, capLen := 0, direction := 0, appTag := 0, reserved := .zero _,
    dnsName := .zero _, httpInfo := .zero _, tlsSni := .zero _, packet := .zero _ }

end EbpfTools.Pksniff

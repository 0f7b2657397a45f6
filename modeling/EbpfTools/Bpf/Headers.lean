import EbpfTools.Bpf.Skb

/-!
# Ethernet, IPv4 and TCP headers

The header fields that the TC programs read by direct access, and the lengths they compute from
them. A header is used only when it ends before `data_end`.
-/

namespace EbpfTools.Bpf

def ETH_P_IP : Nat := 0x0800
def ETH_P_ARP : Nat := 0x0806

def IPPROTO_ICMP : UInt8 := 1
def IPPROTO_TCP : UInt8 := 6
def IPPROTO_UDP : UInt8 := 17

namespace Skb

-- `bpf_ntohs(eth->h_proto)` and `ip->protocol`
def ethProto (skb : Skb) : Nat := skb.be16 12

def ipProtocol (skb : Skb) : UInt8 := skb.byte 23

/-- `ip_hdr_len`, when the header is complete. -/
def ipHdrLen (skb : Skb) : Option Nat :=
  if 14 + 20 > skb.linear then none
  else
    let len := (skb.byte 14 &&& 0x0F).toNat * 4
    if len < 20 then none else if 14 + len > skb.linear then none else some len

/-- `tcp_hdr_len`, at least the size of the fixed header. -/
def tcpHdrLen (skb : Skb) (l4Off : Nat) : Nat :=
  let len := (skb.byte (l4Off + 12) >>> 4).toNat * 4
  if len < 20 then 20 else len

end Skb

end EbpfTools.Bpf

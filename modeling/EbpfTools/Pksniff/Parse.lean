import EbpfTools.Bpf.Headers
import EbpfTools.Pksniff.Event

/-!
# The app-layer parsers of pksniff

`parse_dns_name`, `parse_http_info`, `is_http` and `parse_tls_sni` of `Pksniff.bpf.c`. A parser is
the list of its stores to `out`; `out_max` is the size of that array. `payload_off` is a `__u16` and
`pkt_end` the frame length wherever they are called, so positions in the frame do not wrap.
-/

namespace EbpfTools.Pksniff
open EbpfTools.Lib EbpfTools.Bpf

/-! ## DNS -/

-- one of the guarded copies of a label's characters: the stores and the next `out_pos`
def dnsChar (skb : Skb) (pos outPos : Nat) (copied : Bool) : Stores × Nat :=
  if copied then
    match skb.loadByte pos with
    | some ch => ([(outPos, ch)], outPos + 1)
    | none => ([], outPos)
  else ([], outPos)

/-- The characters of one label: the first is copied without a look at `out_pos`, three more if
there is room. -/
def dnsLabel (skb : Skb) (pos len outPos : Nat) : Stores × Nat :=
  let c₀ := dnsChar skb pos outPos (0 < len)
  let c₁ := dnsChar skb (pos + 1) c₀.2 (1 < len ∧ c₀.2 < MAX_DNS_NAME - 1)
  let c₂ := dnsChar skb (pos + 2) c₁.2 (2 < len ∧ c₁.2 < MAX_DNS_NAME - 1)
  let c₃ := dnsChar skb (pos + 3) c₂.2 (3 < len ∧ c₂.2 < MAX_DNS_NAME - 1)
  (c₀.1 ++ c₁.1 ++ c₂.1 ++ c₃.1, c₃.2)

/-- The label loop from label number `label` on, with `left` iterations to go. -/
def dnsLabels (skb : Skb) (pktEnd : Nat) : (left label pos outPos : Nat) → Stores × Nat
  | 0, _, _, outPos => ([], outPos)
  | left + 1, label, pos, outPos =>
      if pos + 1 > pktEnd ∨ outPos ≥ MAX_DNS_NAME - 1 then ([], outPos)
      else
        match skb.loadByte pos with
        | none => ([], outPos)
        | some len =>
            if len = 0 then ([], outPos)
            else if len &&& 0xC0 = 0xC0 then ([], outPos)
            else
              let dot := if label > 0 ∧ outPos < MAX_DNS_NAME - 1 then [(outPos, 0x2E)] else []
              if pos + 1 + len.toNat > pktEnd then (dot, outPos + dot.length)
              else
                let chars := dnsLabel skb (pos + 1) len.toNat (outPos + dot.length)
                let rest := dnsLabels skb pktEnd left (label + 1) (pos + 1 + len.toNat) chars.2
                (dot ++ chars.1 ++ rest.1, rest.2)

def parseDnsName (skb : Skb) (off pktEnd : Nat) : Stores :=
  let r := dnsLabels skb pktEnd 8 0 (off + 12) 0
  r.1 ++ if r.2 < MAX_DNS_NAME then [(r.2, 0)] else []

/-! ## HTTP -/

def parseHttpInfo (skb : Skb) (payloadOff pktEnd : Nat) : Stores :=
  let copy := MAX_HTTP_INFO - 1
  let copy := if payloadOff + copy > pktEnd then u32sub pktEnd payloadOff else copy
  if copy = 0 ∨ copy > MAX_HTTP_INFO - 1 then []
  else
    match skb.loadBytes payloadOff (MAX_HTTP_INFO - 1) with
    | none => []
    | some tmp =>
        storesAt 0 (tmp.map fun c => if c = 0x0D ∨ c = 0x0A then 0x20 else c) ++
          [(MAX_HTTP_INFO - 1, 0)]

def isHttp (skb : Skb) (payloadOff pktEnd : Nat) : Bool :=
  if payloadOff + 8 > pktEnd then false
  else
    match skb.loadBytes payloadOff 8 with
    | none => false
    | some hdr =>
        hdr.take 4 = ascii "GET " || hdr.take 4 = ascii "POST" || hdr.take 4 = ascii "HEAD" ||
          hdr.take 4 = ascii "PUT " || hdr.take 3 = ascii "DEL" || hdr.take 4 = ascii "HTTP"

/-! ## TLS -/

/-- Where the extensions of a ClientHello begin and end. -/
def tlsExtensions (skb : Skb) (payloadOff pktEnd : Nat) : Option (Nat × Nat) := do
  guard (payloadOff + 5 ≤ pktEnd)
  let hdr ← skb.loadBytes payloadOff 6
  guard (hdr.getD 0 0 = 0x16 ∧ hdr.getD 5 0 = 0x01)
  let pos := payloadOff + 5 + 4 + 2 + 32
  guard (pos + 1 ≤ pktEnd)
  let sidLen ← skb.loadByte pos
  let pos := pos + (1 + sidLen.toNat)
  guard (pos + 2 ≤ pktEnd)
  let cs ← skb.loadBytes pos 2
  let pos := pos + (2 + be16 cs 0)
  guard (pos + 1 ≤ pktEnd)
  let cmLen ← skb.loadByte pos
  let pos := pos + (1 + cmLen.toNat)
  guard (pos + 2 ≤ pktEnd)
  let extTot ← skb.loadBytes pos 2
  let pos := pos + 2
  let extEnd := pos + be16 extTot 0
  return (pos, if extEnd > pktEnd then pktEnd else extEnd)

/-- The host name of a server_name extension whose data is at `pos`: where it is and the
`name_len` bytes of it that are considered. -/
def sniHostName (skb : Skb) (pos extEnd : Nat) : Option (Nat × Nat) := do
  guard (pos + 5 ≤ extEnd)
  let sniHdr ← skb.loadBytes pos 5
  let nameLen := be16 sniHdr 3
  guard (nameLen ≠ 0)
  let nameLen := if nameLen ≥ MAX_TLS_SNI then MAX_TLS_SNI - 1 else nameLen
  guard (pos + 5 + nameLen ≤ extEnd)
  return (pos + 5, nameLen)

/-- The extension walk with `left` iterations to go: it ends at the first extension of type 0. -/
def sniWalk (skb : Skb) (extEnd : Nat) : (left pos : Nat) → Option (Nat × Nat)
  | 0, _ => none
  | left + 1, pos =>
      if pos + 4 > extEnd then none
      else
        match skb.loadBytes pos 4 with
        | none => none
        | some etype =>
            if be16 etype 0 = 0x0000 then sniHostName skb (pos + 4) extEnd
            else sniWalk skb extEnd left (pos + 4 + be16 etype 2)

def locateSni (skb : Skb) (payloadOff pktEnd : Nat) : Option (Nat × Nat) :=
  (tlsExtensions skb payloadOff pktEnd).bind fun p => sniWalk skb p.2 16 p.1

/-- The copy loop from character `c` on, with `left` iterations to go. -/
def sniCopy (skb : Skb) (start nameLen : Nat) : (left c : Nat) → Stores
  | 0, _ => []
  | left + 1, c =>
      if c ≥ nameLen then []
      else
        match skb.loadByte (start + c) with
        | none => []
        | some ch => (c, ch) :: sniCopy skb start nameLen left (c + 1)

def parseTlsSni (skb : Skb) (payloadOff pktEnd : Nat) : Stores :=
  match locateSni skb payloadOff pktEnd with
  | none => []
  | some (start, nameLen) => sniCopy skb start nameLen 16 0 ++ [(16 - 1, 0)]

end EbpfTools.Pksniff

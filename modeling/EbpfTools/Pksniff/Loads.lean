import EbpfTools.Lib.Loads
import EbpfTools.Pksniff.Lemmas.Shown

/-!
# The loads of the parsers

The parsers of `Pksniff.bpf.c` once more, as programs of their `bpf_skb_load_bytes` calls.
-/

namespace EbpfTools.Pksniff
open EbpfTools.Lib EbpfTools.Bpf

/-! ## DNS -/

def dnsCharLoads (pos outPos : Nat) (copied : Bool) : Loads (Stores × Nat) :=
  if copied then do
    match ← (Loads.byte pos).run with
    | some ch => return ([(outPos, ch)], outPos + 1)
    | none => return ([], outPos)
  else return ([], outPos)

def dnsLabelLoads (pos len outPos : Nat) : Loads (Stores × Nat) := do
  let c₀ ← dnsCharLoads pos outPos (0 < len)
  let c₁ ← dnsCharLoads (pos + 1) c₀.2 (1 < len ∧ c₀.2 < MAX_DNS_NAME - 1)
  let c₂ ← dnsCharLoads (pos + 2) c₁.2 (2 < len ∧ c₁.2 < MAX_DNS_NAME - 1)
  let c₃ ← dnsCharLoads (pos + 3) c₂.2 (3 < len ∧ c₂.2 < MAX_DNS_NAME - 1)
  return (c₀.1 ++ c₁.1 ++ c₂.1 ++ c₃.1, c₃.2)

def dnsLabelsLoads (pktEnd : Nat) : (left label pos outPos : Nat) → Loads (Stores × Nat)
  | 0, _, _, outPos => return ([], outPos)
  | left + 1, label, pos, outPos =>
      if pos + 1 > pktEnd ∨ outPos ≥ MAX_DNS_NAME - 1 then return ([], outPos)
      else do
        match ← (Loads.byte pos).run with
        | none => return ([], outPos)
        | some len =>
            if len = 0 then return ([], outPos)
            else if len &&& 0xC0 = 0xC0 then return ([], outPos)
            else
              let dot := if label > 0 ∧ outPos < MAX_DNS_NAME - 1 then [(outPos, 0x2E)] else []
              if pos + 1 + len.toNat > pktEnd then return (dot, outPos + dot.length)
              else
                let chars ← dnsLabelLoads (pos + 1) len.toNat (outPos + dot.length)
                let rest ← dnsLabelsLoads pktEnd left (label + 1) (pos + 1 + len.toNat) chars.2
                return (dot ++ chars.1 ++ rest.1, rest.2)

def parseDnsNameLoads (off pktEnd : Nat) : Loads Stores := do
  let r ← dnsLabelsLoads pktEnd 8 0 (off + 12) 0
  return r.1 ++ if r.2 < MAX_DNS_NAME then [(r.2, 0)] else []

theorem run_byte (skb : Skb) (pos : Nat) :
    (Loads.byte pos).run.run skb.loadBytes = skb.loadByte pos :=
  Loads.result_byte skb.loadBytes pos

theorem run_dnsCharLoads (skb : Skb) (pos outPos : Nat) (copied : Bool) :
    (dnsCharLoads pos outPos copied).run skb.loadBytes = dnsChar skb pos outPos copied := by
  rw [dnsCharLoads, dnsChar, Loads.run_ite, Loads.run_bind, run_byte]
  cases skb.loadByte pos <;> rfl

theorem run_dnsLabelLoads (skb : Skb) (pos len outPos : Nat) :
    (dnsLabelLoads pos len outPos).run skb.loadBytes = dnsLabel skb pos len outPos := by
  simp only [dnsLabelLoads, dnsLabel, Loads.run_bind, Loads.run_pure, run_dnsCharLoads]

theorem run_dnsLabelsLoads (skb : Skb) (pktEnd left label pos outPos : Nat) :
    (dnsLabelsLoads pktEnd left label pos outPos).run skb.loadBytes =
      dnsLabels skb pktEnd left label pos outPos := by
  induction left generalizing label pos outPos with
  | zero => rfl
  | succ left ih =>
      rw [dnsLabelsLoads, dnsLabels, Loads.run_ite, Loads.run_bind, run_byte]
      cases skb.loadByte pos with
      | none => rfl
      | some len =>
          simp only [Loads.run_ite, Loads.run_bind, Loads.run_pure, run_dnsLabelLoads, ih]

theorem run_parseDnsNameLoads (skb : Skb) (off pktEnd : Nat) :
    (parseDnsNameLoads off pktEnd).run skb.loadBytes = parseDnsName skb off pktEnd := by
  rw [parseDnsNameLoads, parseDnsName, Loads.run_bind, run_dnsLabelsLoads]
  rfl

/-! ## HTTP -/

def parseHttpInfoLoads (payloadOff pktEnd : Nat) : Loads Stores :=
  let copy := MAX_HTTP_INFO - 1
  let copy := if payloadOff + copy > pktEnd then u32sub pktEnd payloadOff else copy
  if copy = 0 ∨ copy > MAX_HTTP_INFO - 1 then return []
  else do
    match ← (Loads.bytes payloadOff (MAX_HTTP_INFO - 1)).run with
    | none => return []
    | some tmp =>
        return storesAt 0 (tmp.map fun c => if c = 0x0D ∨ c = 0x0A then 0x20 else c) ++
          [(MAX_HTTP_INFO - 1, 0)]

def isHttpLoads (payloadOff pktEnd : Nat) : Loads Bool :=
  if payloadOff + 8 > pktEnd then return false
  else do
    match ← (Loads.bytes payloadOff 8).run with
    | none => return false
    | some hdr =>
        return hdr.take 4 = ascii "GET " || hdr.take 4 = ascii "POST" ||
          hdr.take 4 = ascii "HEAD" || hdr.take 4 = ascii "PUT " || hdr.take 3 = ascii "DEL" ||
          hdr.take 4 = ascii "HTTP"

theorem run_bytes (skb : Skb) (off n : Nat) :
    (Loads.bytes off n).run.run skb.loadBytes = skb.loadBytes off n := rfl

theorem run_parseHttpInfoLoads (skb : Skb) (payloadOff pktEnd : Nat) :
    (parseHttpInfoLoads payloadOff pktEnd).run skb.loadBytes =
      parseHttpInfo skb payloadOff pktEnd := by
  simp only [parseHttpInfoLoads, parseHttpInfo, Loads.run_ite, Loads.run_bind, run_bytes]
  cases skb.loadBytes payloadOff (MAX_HTTP_INFO - 1) <;> rfl

theorem run_isHttpLoads (skb : Skb) (payloadOff pktEnd : Nat) :
    (isHttpLoads payloadOff pktEnd).run skb.loadBytes = isHttp skb payloadOff pktEnd := by
  rw [isHttpLoads, isHttp, Loads.run_ite, Loads.run_bind, run_bytes]
  cases skb.loadBytes payloadOff 8 <;> rfl

/-! ## TLS -/

def tlsExtensionsLoads (payloadOff pktEnd : Nat) : OptionT Loads (Nat × Nat) := do
  guard (payloadOff + 5 ≤ pktEnd)
  let hdr ← Loads.bytes payloadOff 6
  guard (hdr.getD 0 0 = 0x16 ∧ hdr.getD 5 0 = 0x01)
  let pos := payloadOff + 5 + 4 + 2 + 32
  guard (pos + 1 ≤ pktEnd)
  let sidLen ← Loads.byte pos
  let pos := pos + (1 + sidLen.toNat)
  guard (pos + 2 ≤ pktEnd)
  let cs ← Loads.bytes pos 2
  let pos := pos + (2 + be16 cs 0)
  guard (pos + 1 ≤ pktEnd)
  let cmLen ← Loads.byte pos
  let pos := pos + (1 + cmLen.toNat)
  guard (pos + 2 ≤ pktEnd)
  let extTot ← Loads.bytes pos 2
  let pos := pos + 2
  let extEnd := pos + be16 extTot 0
  return (pos, if extEnd > pktEnd then pktEnd else extEnd)

def sniHostNameLoads (pos extEnd : Nat) : OptionT Loads (Nat × Nat) := do
  guard (pos + 5 ≤ extEnd)
  let sniHdr ← Loads.bytes pos 5
  let nameLen := be16 sniHdr 3
  guard (nameLen ≠ 0)
  let nameLen := if nameLen ≥ MAX_TLS_SNI then MAX_TLS_SNI - 1 else nameLen
  guard (pos + 5 + nameLen ≤ extEnd)
  return (pos + 5, nameLen)

def sniWalkLoads (extEnd : Nat) : (left pos : Nat) → OptionT Loads (Nat × Nat)
  | 0, _ => failure
  | left + 1, pos =>
      if pos + 4 > extEnd then failure
      else do
        let etype ← Loads.bytes pos 4
        if be16 etype 0 = 0x0000 then sniHostNameLoads (pos + 4) extEnd
        else sniWalkLoads extEnd left (pos + 4 + be16 etype 2)

def locateSniLoads (payloadOff pktEnd : Nat) : OptionT Loads (Nat × Nat) := do
  let p ← tlsExtensionsLoads payloadOff pktEnd
  sniWalkLoads p.2 16 p.1

def sniCopyLoads (start nameLen : Nat) : (left c : Nat) → Loads Stores
  | 0, _ => return []
  | left + 1, c =>
      if c ≥ nameLen then return []
      else do
        match ← (Loads.byte (start + c)).run with
        | none => return []
        | some ch => return (c, ch) :: (← sniCopyLoads start nameLen left (c + 1))

def parseTlsSniLoads (payloadOff pktEnd : Nat) : Loads Stores := do
  match ← (locateSniLoads payloadOff pktEnd).run with
  | none => return []
  | some (start, nameLen) => return (← sniCopyLoads start nameLen 16 0) ++ [(16 - 1, 0)]

theorem result_tlsExtensionsLoads (skb : Skb) (payloadOff pktEnd : Nat) :
    Loads.result skb.loadBytes (tlsExtensionsLoads payloadOff pktEnd) =
      tlsExtensions skb payloadOff pktEnd := by
  simp only [tlsExtensionsLoads, tlsExtensions, Loads.result_bind, Loads.result_guard,
    Loads.result_bytes, Loads.result_byte, Loads.result_pure]
  rfl

theorem result_sniHostNameLoads (skb : Skb) (pos extEnd : Nat) :
    Loads.result skb.loadBytes (sniHostNameLoads pos extEnd) = sniHostName skb pos extEnd := by
  simp only [sniHostNameLoads, sniHostName, Loads.result_bind, Loads.result_guard,
    Loads.result_bytes, Loads.result_pure]
  rfl

theorem result_sniWalkLoads (skb : Skb) (extEnd left pos : Nat) :
    Loads.result skb.loadBytes (sniWalkLoads extEnd left pos) = sniWalk skb extEnd left pos := by
  induction left generalizing pos with
  | zero => rfl
  | succ left ih =>
      rw [sniWalkLoads, sniWalk, Loads.result_ite, Loads.result_bind, Loads.result_bytes]
      cases skb.loadBytes pos 4 with
      | none => rfl
      | some etype =>
          simp only [Loads.result_failure, Loads.result_ite, Option.bind_some,
            result_sniHostNameLoads, ih]

theorem result_locateSniLoads (skb : Skb) (payloadOff pktEnd : Nat) :
    Loads.result skb.loadBytes (locateSniLoads payloadOff pktEnd) =
      locateSni skb payloadOff pktEnd := by
  rw [locateSniLoads, locateSni, Loads.result_bind, result_tlsExtensionsLoads]
  simp only [result_sniWalkLoads]

theorem run_sniCopyLoads (skb : Skb) (start nameLen left c : Nat) :
    (sniCopyLoads start nameLen left c).run skb.loadBytes = sniCopy skb start nameLen left c := by
  induction left generalizing c with
  | zero => rfl
  | succ left ih =>
      rw [sniCopyLoads, sniCopy, Loads.run_ite, Loads.run_bind, run_byte]
      cases skb.loadByte (start + c) with
      | none => rfl
      | some ch => simp only [Loads.run_bind, Loads.run_pure, ih]

theorem run_parseTlsSniLoads (skb : Skb) (payloadOff pktEnd : Nat) :
    (parseTlsSniLoads payloadOff pktEnd).run skb.loadBytes = parseTlsSni skb payloadOff pktEnd := by
  have hloc : (locateSniLoads payloadOff pktEnd).run.run skb.loadBytes =
      locateSni skb payloadOff pktEnd := result_locateSniLoads skb payloadOff pktEnd
  rw [parseTlsSniLoads, parseTlsSni, Loads.run_bind, hloc]
  cases locateSni skb payloadOff pktEnd with
  | none => rfl
  | some p => simp only [Loads.run_bind, Loads.run_pure, run_sniCopyLoads]

/-! ## The hint of a packet -/

def hintLoads (skb : Skb) (direction : UInt8) (l4 : L4) : Loads Hint :=
  if skb.ipProtocol = IPPROTO_ICMP then return ⟨APP_ICMP, [], [], []⟩
  else if skb.ipProtocol = IPPROTO_UDP then
    if l4.srcPort = 53 ∨ l4.dstPort = 53 then do
      return ⟨APP_DNS, ← parseDnsNameLoads l4.payloadOff skb.len, [], []⟩
    else return ⟨APP_NONE, [], [], []⟩
  else if skb.ipProtocol = IPPROTO_TCP then
    if l4.srcPort = 443 ∨ l4.dstPort = 443 then
      if tlsOutbound direction l4 then do
        return ⟨APP_TLS, [], [], ← parseTlsSniLoads l4.payloadOff skb.len⟩
      else return ⟨APP_TLS, [], [], []⟩
    else do
      if ← isHttpLoads l4.payloadOff skb.len then
        return ⟨APP_HTTP, [], ← parseHttpInfoLoads l4.payloadOff skb.len, []⟩
      else return ⟨APP_NONE, [], [], []⟩
  else return ⟨APP_NONE, [], [], []⟩

/-- The programs compute the hint. -/
theorem run_hintLoads (skb : Skb) (direction : UInt8) (l4 : L4) :
    (hintLoads skb direction l4).run skb.loadBytes = hint skb direction l4 := by
  simp only [hintLoads, hint, Loads.run_ite, Loads.run_bind, Loads.run_pure, run_parseDnsNameLoads,
    run_parseTlsSniLoads, run_isHttpLoads, run_parseHttpInfoLoads]

end EbpfTools.Pksniff

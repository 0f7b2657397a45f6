import EbpfTools.Pksniff.Lemmas.Fragments
import EbpfTools.Pksniff.Lemmas.Paged
import EbpfTools.Pksniff.Theorems.Capture

/-!
# Padded frames, fragments and paged frames
-/

namespace EbpfTools.Pksniff
open EbpfTools.Lib EbpfTools.Bpf

/-! ## The end of the datagram -/

/-- The end of the IP datagram in the frame. -/
def datagramEnd (skb : Skb) : Nat := 14 + skb.be16 16

/-- No parser reads a byte at `last` or behind it; a load that leaves the frame reads nothing. -/
def ParsersWithin (c : Call) (last : Nat) : Prop :=
  ∀ l4Off l4, headers c.skb = some (.ipv4 l4Off l4) →
    ∀ r ∈ (hintLoads c.skb c.direction l4).ranges c.skb.loadBytes,
      r.1 + r.2 ≤ c.skb.len → r.1 + r.2 ≤ last

/-- The payload of the event ends with the datagram, and so does what the parsers read. -/
structure InDatagram (c : Call) (ev : Event) : Prop where
  payload : ev.payloadOff.toNat + ev.payloadLen.toNat = datagramEnd c.skb
  parsers : ParsersWithin c (datagramEnd c.skb)

theorem payload_end_iff {s ev : Event} {c : Call} (h : ev ∈ (processPacket s c).2)
    (heth : c.skb.ethProto = ETH_P_IP) (hoff : ev.payloadOff.toNat ≤ datagramEnd c.skb)
    (hend : datagramEnd c.skb ≤ c.skb.len) :
    ev.payloadOff.toNat + ev.payloadLen.toNat = datagramEnd c.skb ↔
      65536 ∣ c.skb.len - datagramEnd c.skb := by
  obtain ⟨l4Off, l4, packet, hh, rfl⟩ := mem_processPacket_ipv4 h heth
  obtain ⟨hlow, -, hle⟩ := payloadOff_bounds hh
  have hpayload : (ipv4Event s c l4Off l4 packet).payloadOff.toNat = l4.payloadOff :=
    toNat_payloadOff hh
  have hlen : (ipv4Event s c l4Off l4 packet).payloadLen.toNat =
      (c.skb.len - l4.payloadOff) % 65536 := by
    show (UInt16.ofNat (if _ then _ else 0)).toNat = _
    rw [UInt16.toNat_ofNat']
    split
    · rfl
    · rw [Nat.sub_eq_zero_of_le (by omega)]
  have htot : c.skb.be16 16 < 65536 := be16_lt c.skb.bytes 16
  rw [hpayload] at hoff
  rw [hpayload, hlen]
  unfold datagramEnd at hoff hend ⊢
  omega

/-- The payload of an event is that of the datagram exactly when no padding follows it in the
frame, or so much that the 16 bits of the length do not show it and no parser reads it. -/
theorem inDatagram_iff {s ev : Event} {c : Call} (h : ev ∈ (processPacket s c).2)
    (heth : c.skb.ethProto = ETH_P_IP) (hoff : ev.payloadOff.toNat ≤ datagramEnd c.skb)
    (hend : datagramEnd c.skb ≤ c.skb.len) :
    InDatagram c ev ↔
      c.skb.len = datagramEnd c.skb ∨
        65536 ∣ c.skb.len - datagramEnd c.skb ∧ ParsersWithin c (datagramEnd c.skb) := by
  have hlength := payload_end_iff h heth hoff hend
  constructor
  · rintro ⟨hpayload, hparsers⟩
    exact Or.inr ⟨hlength.mp hpayload, hparsers⟩
  · rintro (hlen | ⟨hdvd, hparsers⟩)
    · refine ⟨hlength.mpr ?_, ?_⟩
      · rw [hlen, Nat.sub_self]
        exact Nat.dvd_zero _
      · intro l4Off l4 _ r _ hr
        rwa [← hlen]
    · exact ⟨hlength.mpr hdvd, hparsers⟩

def receivedCall (skb : Skb) : Call := ⟨skb, DIR_INGRESS, 0, some .zero⟩

/-- An acknowledgement without data, padded to the 60 bytes of the shortest frame. -/
def paddedAck : Skb :=
  ⟨List.replicate 12 0 ++ [0x08, 0x00] ++ [0x45, 0, 0, 40] ++ List.replicate 4 0 ++ [64, 6] ++
      List.replicate 10 0 ++ [0xC0, 0x00, 0, 22] ++ List.replicate 8 0 ++ [0x50, 0x10] ++
      List.replicate 6 0 ++ List.replicate 6 0, 60, by decide, by decide⟩

def paddedAckEvent : Event := (processPacket .zero (receivedCall paddedAck)).2.headD .zero

/-- Its padding is reported as a payload of 6 bytes behind the end of the datagram. -/
theorem paddedAck_payload :
    (processPacket .zero (receivedCall paddedAck)).2.map (fun e => (e.payloadOff, e.payloadLen)) =
        [(54, 6)] ∧
      datagramEnd paddedAck = 54 ∧ paddedAck.be16 20 = 0 := by
  exact ⟨by decide +kernel, by decide, by decide⟩

theorem inDatagram_iff_paddedAck :
    InDatagram (receivedCall paddedAck) paddedAckEvent ↔
      paddedAck.len = datagramEnd paddedAck ∨
        65536 ∣ paddedAck.len - datagramEnd paddedAck ∧
          ParsersWithin (receivedCall paddedAck) (datagramEnd paddedAck) :=
  @inDatagram_iff .zero paddedAckEvent (receivedCall paddedAck) (by decide +kernel) (by decide)
    (by decide +kernel) (by decide)

/-! ## Fragments -/

/-- The app-layer tag and the strings of an event. -/
def Event.appLayer (e : Event) : UInt8 × List UInt8 × List UInt8 × List UInt8 :=
  (e.appTag, e.dnsName.str, e.httpInfo.str, e.tlsSni.str)

/-- The flags of the event are those of the IP header, and for a fragment behind the first one
nothing in it comes from the bytes behind that header. -/
structure DecodesFragment (s : Event) (c : Call) (ev : Event) : Prop where
  flags : ev.ipFlags.toNat = fragField c.skb / 2 ^ 13
  ports : fragField c.skb % 2 ^ 13 ≠ 0 → ev.srcPort = 0 ∧ ev.dstPort = 0 ∧ ev.tcpFlags = 0
  appLayer : fragField c.skb % 2 ^ 13 ≠ 0 → ∀ c' : Call,
    c'.skb.bytes.take ev.l4Off.toNat = c.skb.bytes.take ev.l4Off.toNat →
    c'.direction = c.direction → ∀ ev' ∈ (processPacket s c').2, ev'.appLayer = ev.appLayer

/-- The two packets agree on the bytes of the headers before `l4Off`. -/
theorem ipProtocol_of_take {skb skb' : Skb} {l4Off : Nat} (hle : 34 ≤ l4Off)
    (h : skb'.bytes.take l4Off = skb.bytes.take l4Off) :
    skb'.ethProto = skb.ethProto ∧ skb'.ipProtocol = skb.ipProtocol := by
  have hbyte : ∀ i < l4Off, skb'.byte i = skb.byte i := by
    intro i hi
    simp only [Skb.byte, List.getD_eq_getElem?_getD]
    rw [← List.getElem?_take_of_lt hi, h, List.getElem?_take_of_lt hi]
  refine ⟨?_, hbyte 23 (by omega)⟩
  show (skb'.byte 12).toNat * 256 + (skb'.byte 13).toNat = _
  rw [hbyte 12 (by omega), hbyte 13 (by omega)]
  rfl

/-- A packet that is neither TCP nor UDP is tagged by its protocol alone. -/
theorem appLayer_other {s ev : Event} {c : Call} (h : ev ∈ (processPacket s c).2)
    (heth : c.skb.ethProto = ETH_P_IP) (htcp : c.skb.ipProtocol ≠ IPPROTO_TCP)
    (hudp : c.skb.ipProtocol ≠ IPPROTO_UDP) :
    ev.appLayer =
      (if c.skb.ipProtocol = IPPROTO_ICMP then APP_ICMP else APP_NONE, [], [], []) := by
  obtain ⟨l4Off, l4, packet, -, rfl⟩ := mem_processPacket_ipv4 h heth
  simp only [Event.appLayer, ipv4Event, hint_other htcp hudp, Buf.stores_nil, Buf.str_store_zero]

/-- Fragments are decoded correctly exactly when the field is zero, or when its four highest bits
are equal and the protocol has no ports: the shift by 12 takes one bit of the offset for a flag,
and ports are read without a look at the offset. -/
theorem decodesFragment_iff {s ev : Event} {c : Call} (h : ev ∈ (processPacket s c).2)
    (heth : c.skb.ethProto = ETH_P_IP) :
    DecodesFragment s c ev ↔
      fragField c.skb = 0 ∨
        (fragField c.skb < 4096 ∨ 61440 ≤ fragField c.skb) ∧
          c.skb.ipProtocol ≠ IPPROTO_TCP ∧ c.skb.ipProtocol ≠ IPPROTO_UDP := by
  obtain ⟨l4Off, l4, packet, hh, rfl⟩ := mem_processPacket_ipv4 h heth
  have hfield : fragField c.skb < 65536 := be16_lt c.skb.bytes 20
  have hflags := toNat_ipFlags s c l4Off l4 packet
  obtain ⟨-, len, hlen, rfl, hl4⟩ := headers_eq_ipv4_iff.mp hh
  obtain ⟨hge, hle, -⟩ := ipHdrLen_bounds hlen
  have hoff : (ipv4Event s c (14 + len) l4 packet).l4Off.toNat = 14 + len := by
    show (UInt16.ofNat (14 + len)).toNat = _
    rw [UInt16.toNat_ofNat']
    omega
  constructor
  · rintro ⟨hf, hports, happ⟩
    rw [hflags] at hf
    by_cases hproto : c.skb.ipProtocol = IPPROTO_TCP ∨ c.skb.ipProtocol = IPPROTO_UDP
    · by_cases hfirst : fragField c.skb % 2 ^ 13 = 0
      · left
        omega
      · obtain ⟨hsrc, hdst, -⟩ := hports hfirst
        obtain ⟨c', htake, hdir, ev', hmem, hne⟩ := exists_other_tag s hh hsrc hdst hproto
        have hsame := happ hfirst c' (by rw [hoff]; exact htake) hdir ev' hmem
        exact absurd (congrArg Prod.fst hsame) hne
    · rw [not_or] at hproto
      exact Or.inr ⟨by omega, hproto⟩
  · intro hcond
    have hproto : fragField c.skb % 2 ^ 13 ≠ 0 →
        c.skb.ipProtocol ≠ IPPROTO_TCP ∧ c.skb.ipProtocol ≠ IPPROTO_UDP := by
      intro hlater
      obtain hzero | ⟨-, hproto⟩ := hcond
      · rw [hzero] at hlater
        exact absurd rfl hlater
      · exact hproto
    refine ⟨?_, ?_, ?_⟩
    · rw [hflags]
      omega
    · intro hlater
      obtain ⟨htcp, hudp⟩ := hproto hlater
      rw [l4Header_other htcp hudp] at hl4
      cases hl4
      exact ⟨rfl, rfl, rfl⟩
    · intro hlater c' htake _ ev' hmem
      obtain ⟨htcp, hudp⟩ := hproto hlater
      rw [hoff] at htake
      obtain ⟨heth', hproto'⟩ := ipProtocol_of_take (by omega) htake
      rw [appLayer_other h heth htcp hudp, appLayer_other hmem (heth'.trans heth)
        (hproto' ▸ htcp) (hproto' ▸ hudp), hproto']

/-- The last fragment of a UDP datagram: it begins 32768 bytes behind the UDP header. -/
def lastFragment : Skb :=
  ⟨List.replicate 12 0 ++ [0x08, 0x00] ++ [0x45, 0, 0, 48, 0, 1, 0x10, 0x00, 64, 17] ++
      List.replicate 10 0 ++ [0, 53] ++ List.replicate 18 0 ++ [3] ++ ascii "abc" ++ [0, 0, 0, 0],
    62, by decide, by decide⟩

def lastFragmentEvent : Event := (processPacket .zero (receivedCall lastFragment)).2.headD .zero

/-- A flag that is not set is reported, and its data as a port and a domain name. -/
theorem lastFragment_decoded :
    fragField lastFragment = 4096 ∧
      (processPacket .zero (receivedCall lastFragment)).2.map
          (fun e => (e.ipFlags, e.srcPort, e.appTag, e.dnsName.str)) =
        [(1, 53, APP_DNS, ascii "abc")] := by
  exact ⟨by decide, by decide +kernel⟩

theorem decodesFragment_iff_lastFragment :
    DecodesFragment .zero (receivedCall lastFragment) lastFragmentEvent ↔
      fragField lastFragment = 0 ∨
        (fragField lastFragment < 4096 ∨ 61440 ≤ fragField lastFragment) ∧
          lastFragment.ipProtocol ≠ IPPROTO_TCP ∧ lastFragment.ipProtocol ≠ IPPROTO_UDP :=
  @decodesFragment_iff .zero lastFragmentEvent (receivedCall lastFragment) (by decide +kernel)
    (by decide)

/-! ## Paged frames -/

/-- What is submitted does not depend on the linear part exactly when the ring buffer has no room,
or when the headers end in both linear parts or in neither. -/
theorem layout_independent_iff {skb skb' : Skb} (hbytes : skb'.bytes = skb.bytes)
    (hlin : 14 ≤ skb.linear) (hlin' : 14 ≤ skb'.linear) (s : Event) (direction : UInt8)
    (ktime : UInt64) (slot : Option Event) :
    (processPacket s ⟨skb', direction, ktime, slot⟩).2 =
        (processPacket s ⟨skb, direction, ktime, slot⟩).2 ↔
      slot = none ∨ (headerEnd skb ≤ skb.linear ↔ headerEnd skb ≤ skb'.linear) := by
  cases slot with
  | none =>
      rw [processPacket_of_no_slot rfl, processPacket_of_no_slot rfl]
      exact iff_of_true rfl (Or.inl rfl)
  | some re =>
      rw [or_iff_right (Option.some_ne_none re)]
      by_cases hend : headerEnd skb ≤ skb.linear <;> by_cases hend' : headerEnd skb ≤ skb'.linear
      · have hh : headers skb' = headers skb := by
          rw [headers_whole hlin, headers_whole hlin', headerEnd_congr hbytes,
            wholeHeaders_congr hbytes, if_pos hend, if_pos hend']
        exact iff_of_true (processPacket_congr hbytes hlin hlin' hh s direction ktime (some re))
          (iff_of_true hend hend')
      · exact iff_of_false
          (processPacket_ne_of_split hbytes hlin hlin' hend hend' s direction ktime re)
          fun hiff => hend' (hiff.mp hend)
      · have hsame : headerEnd skb' = headerEnd skb := headerEnd_congr hbytes
        have hne := processPacket_ne_of_split hbytes.symm hlin' hlin (by rwa [hsame])
          (by rwa [hsame]) s direction ktime re
        exact iff_of_false hne.symm fun hiff => hend (hiff.mpr hend')
      · have hh : headers skb' = headers skb := by
          rw [headers_whole hlin, headers_whole hlin', headerEnd_congr hbytes, if_neg hend,
            if_neg hend']
        exact iff_of_true (processPacket_congr hbytes hlin hlin' hh s direction ktime (some re))
          (iff_of_false hend hend')

/-- `paddedAck` with no linear part but the Ethernet header. -/
def pagedAck : Skb := ⟨paddedAck.bytes, 14, by decide, by decide⟩

/-- The linear frame is submitted and the paged one is not. -/
theorem pagedAck_lost :
    pagedAck.bytes = paddedAck.bytes ∧
      (processPacket .zero (receivedCall paddedAck)).2.length = 1 ∧
      (processPacket .zero (receivedCall pagedAck)).2 = [] := by
  exact ⟨rfl, by decide +kernel, by decide +kernel⟩

theorem layout_independent_iff_pagedAck :
    (processPacket .zero (receivedCall pagedAck)).2 =
        (processPacket .zero (receivedCall paddedAck)).2 ↔
      (some Event.zero = none) ∨
        (headerEnd paddedAck ≤ paddedAck.linear ↔ headerEnd paddedAck ≤ pagedAck.linear) :=
  @layout_independent_iff paddedAck pagedAck rfl (by decide) (by decide) .zero DIR_INGRESS 0
    (some .zero)

end EbpfTools.Pksniff

import EbpfTools.Pksniff.Lemmas.Events

/-!
# Frames that differ behind the IP header
-/

namespace EbpfTools.Pksniff
open EbpfTools.Lib EbpfTools.Bpf

/-- The flags and the fragment offset of the IP header. -/
def fragField (skb : Skb) : Nat := skb.be16 20

theorem toNat_ipFlags (s : Event) (c : Call) (l4Off : Nat) (l4 : L4)
    (packet : Buf MAX_CAPTURE_BYTES) :
    (ipv4Event s c l4Off l4 packet).ipFlags.toNat = fragField c.skb / 4096 % 8 := by
  have hlt : fragField c.skb < 65536 := be16_lt c.skb.bytes 20
  have hfield : (UInt16.ofNat (fragField c.skb)).toNat = fragField c.skb := by
    rw [UInt16.toNat_ofNat']
    omega
  show (UInt16.ofNat (fragField c.skb) >>> 12 &&& 0x07).toUInt8.toNat = _
  rw [UInt16.toNat_toUInt8, UInt16.toNat_and, UInt16.toNat_shiftRight, hfield,
    Nat.shiftRight_eq_div_pow]
  show (fragField c.skb / 4096 &&& 2 ^ 3 - 1) % 2 ^ 8 = _
  rw [Nat.and_two_pow_sub_one_eq_mod]
  omega

/-! ## Packets without ports -/

theorem l4Header_other {skb : Skb} (htcp : skb.ipProtocol ≠ IPPROTO_TCP)
    (hudp : skb.ipProtocol ≠ IPPROTO_UDP) (l4Off : Nat) :
    l4Header skb l4Off = some ⟨0, 0, 0, l4Off⟩ := by
  rw [l4Header, if_neg htcp, if_neg hudp]

theorem hint_other {skb : Skb} (htcp : skb.ipProtocol ≠ IPPROTO_TCP)
    (hudp : skb.ipProtocol ≠ IPPROTO_UDP) (direction : UInt8) (l4 : L4) :
    hint skb direction l4 =
      ⟨if skb.ipProtocol = IPPROTO_ICMP then APP_ICMP else APP_NONE, [], [], []⟩ := by
  rw [hint, if_neg htcp, if_neg hudp]
  split <;> rfl

theorem hint_tcp_zero {skb : Skb} (htcp : skb.ipProtocol = IPPROTO_TCP) (direction : UInt8)
    {l4 : L4} (hsrc : l4.srcPort = 0) (hdst : l4.dstPort = 0) :
    (hint skb direction l4).tag ≠ APP_TLS := by
  have hicmp : skb.ipProtocol ≠ IPPROTO_ICMP := by rw [htcp]; decide
  have hudp : skb.ipProtocol ≠ IPPROTO_UDP := by rw [htcp]; decide
  have hport : ¬ (l4.srcPort = 443 ∨ l4.dstPort = 443) := by
    rw [hsrc, hdst]
    decide
  rw [hint, if_neg hicmp, if_neg hudp, if_pos htcp, if_neg hport]
  split
  · exact (by decide : APP_HTTP ≠ APP_TLS)
  · exact (by decide : APP_NONE ≠ APP_TLS)

theorem hint_tcp_https {skb : Skb} (htcp : skb.ipProtocol = IPPROTO_TCP) (direction : UInt8)
    {l4 : L4} (hsrc : l4.srcPort = 443) : (hint skb direction l4).tag = APP_TLS := by
  have hicmp : skb.ipProtocol ≠ IPPROTO_ICMP := by rw [htcp]; decide
  have hudp : skb.ipProtocol ≠ IPPROTO_UDP := by rw [htcp]; decide
  rw [hint, if_neg hicmp, if_neg hudp, if_pos htcp, if_pos (Or.inl hsrc)]
  split <;> rfl

theorem hint_udp_zero {skb : Skb} (hudp : skb.ipProtocol = IPPROTO_UDP) (direction : UInt8)
    {l4 : L4} (hsrc : l4.srcPort = 0) (hdst : l4.dstPort = 0) :
    (hint skb direction l4).tag ≠ APP_DNS := by
  have hicmp : skb.ipProtocol ≠ IPPROTO_ICMP := by rw [hudp]; decide
  have hport : ¬ (l4.srcPort = 53 ∨ l4.dstPort = 53) := by
    rw [hsrc, hdst]
    decide
  rw [hint, if_neg hicmp, if_pos hudp, if_neg hport]
  decide

theorem hint_udp_dns {skb : Skb} (hudp : skb.ipProtocol = IPPROTO_UDP) (direction : UInt8)
    {l4 : L4} (hsrc : l4.srcPort = 53) : (hint skb direction l4).tag = APP_DNS := by
  have hicmp : skb.ipProtocol ≠ IPPROTO_ICMP := by rw [hudp]; decide
  rw [hint, if_neg hicmp, if_pos hudp, if_pos (Or.inl hsrc)]

/-! ## Changing the first two bytes of the IP payload -/

def withSrcPort (skb : Skb) (l4Off : Nat) (high low : UInt8) : Skb where
  bytes := (skb.bytes.set l4Off high).set (l4Off + 1) low
  linear := skb.linear
  linear_le := by
    rw [List.length_set, List.length_set]
    exact skb.linear_le
  len_lt := by
    rw [List.length_set, List.length_set]
    exact skb.len_lt

section
variable {skb : Skb} {l4Off : Nat} {high low : UInt8}

theorem byte_withSrcPort {i : Nat} (h : i < l4Off ∨ l4Off + 1 < i) :
    (withSrcPort skb l4Off high low).byte i = skb.byte i := by
  have h₀ : l4Off ≠ i := by omega
  have h₁ : l4Off + 1 ≠ i := by omega
  simp only [Skb.byte, withSrcPort, List.getD_eq_getElem?_getD, List.getElem?_set_ne h₁,
    List.getElem?_set_ne h₀]

theorem be16_withSrcPort {i : Nat} (h : i + 1 < l4Off ∨ l4Off + 1 < i) :
    (withSrcPort skb l4Off high low).be16 i = skb.be16 i := by
  show ((withSrcPort skb l4Off high low).byte i).toNat * 256 +
      ((withSrcPort skb l4Off high low).byte (i + 1)).toNat = _
  rw [byte_withSrcPort (by omega), byte_withSrcPort (by omega)]
  rfl

theorem be16_withSrcPort_self (h : l4Off + 1 < skb.len) :
    (withSrcPort skb l4Off high low).be16 l4Off = high.toNat * 256 + low.toNat := by
  have hlen : l4Off + 1 < skb.bytes.length := h
  have h₀ : (withSrcPort skb l4Off high low).byte l4Off = high := by
    simp only [Skb.byte, withSrcPort, List.getD_eq_getElem?_getD]
    rw [List.getElem?_set_ne (by omega), List.getElem?_set_self (by omega)]
    rfl
  have h₁ : (withSrcPort skb l4Off high low).byte (l4Off + 1) = low := by
    simp only [Skb.byte, withSrcPort, List.getD_eq_getElem?_getD]
    rw [List.getElem?_set_self (by rw [List.length_set]; exact hlen)]
    rfl
  show ((withSrcPort skb l4Off high low).byte l4Off).toNat * 256 +
      ((withSrcPort skb l4Off high low).byte (l4Off + 1)).toNat = _
  rw [h₀, h₁]

theorem take_withSrcPort :
    (withSrcPort skb l4Off high low).bytes.take l4Off = skb.bytes.take l4Off := by
  show ((skb.bytes.set l4Off high).set (l4Off + 1) low).take l4Off = _
  rw [List.take_set_of_le (by omega), List.take_set_of_le (by omega)]

theorem ipProtocol_withSrcPort (h : 34 ≤ l4Off) :
    (withSrcPort skb l4Off high low).ipProtocol = skb.ipProtocol :=
  byte_withSrcPort (by omega)

/-- Only the source port of the L4 header changes. -/
theorem l4Header_withSrcPort {l4 : L4} (hoff : 34 ≤ l4Off)
    (hproto : skb.ipProtocol = IPPROTO_TCP ∨ skb.ipProtocol = IPPROTO_UDP)
    (h : l4Header skb l4Off = some l4) :
    l4Header (withSrcPort skb l4Off high low) l4Off =
      some { l4 with srcPort := .ofNat (high.toNat * 256 + low.toNat) } := by
  have hlinear : skb.linear ≤ skb.len := skb.linear_le
  have hprotocol : (withSrcPort skb l4Off high low).ipProtocol = skb.ipProtocol :=
    ipProtocol_withSrcPort hoff
  have hhdr : (withSrcPort skb l4Off high low).tcpHdrLen l4Off = skb.tcpHdrLen l4Off := by
    rw [Skb.tcpHdrLen, byte_withSrcPort (by omega)]
    rfl
  have hflags : (withSrcPort skb l4Off high low).byte (l4Off + 13) = skb.byte (l4Off + 13) :=
    byte_withSrcPort (by omega)
  have hdst : (withSrcPort skb l4Off high low).be16 (l4Off + 2) = skb.be16 (l4Off + 2) :=
    be16_withSrcPort (by omega)
  have hlin : (withSrcPort skb l4Off high low).linear = skb.linear := rfl
  unfold l4Header at h ⊢
  simp only [hprotocol, hhdr, hflags, hdst, hlin]
  rcases hproto with htcp | hudp
  · rw [if_pos htcp] at h ⊢
    split at h
    · cases h
    split at h
    · cases h
    · rename_i hfixed hwhole
      cases h
      rw [if_neg hfixed, if_neg hwhole, be16_withSrcPort_self (by omega)]
  · have htcp : skb.ipProtocol ≠ IPPROTO_TCP := by
      rw [hudp]
      decide
    rw [if_neg htcp, if_pos hudp] at h ⊢
    split at h
    · cases h
    · rename_i hwhole
      cases h
      rw [if_neg hwhole, be16_withSrcPort_self (by omega)]

theorem headers_withSrcPort {l4 : L4} (h : headers skb = some (.ipv4 l4Off l4))
    (hproto : skb.ipProtocol = IPPROTO_TCP ∨ skb.ipProtocol = IPPROTO_UDP) :
    headers (withSrcPort skb l4Off high low) =
      some (.ipv4 l4Off { l4 with srcPort := .ofNat (high.toNat * 256 + low.toNat) }) := by
  obtain ⟨heth, len, hlen, rfl, hl4⟩ := headers_eq_ipv4_iff.mp h
  obtain ⟨hge, -, -⟩ := ipHdrLen_bounds hlen
  refine headers_eq_ipv4_iff.mpr ⟨?_, len, ?_, rfl, ?_⟩
  · rw [Skb.ethProto, be16_withSrcPort (by omega)]
    exact heth
  · rw [Skb.ipHdrLen, byte_withSrcPort (by omega)]
    exact hlen
  · exact l4Header_withSrcPort (by omega) hproto hl4

end

/-- The packet with another source port is submitted with the tag of that port. -/
theorem exists_withSrcPort (s : Event) {c : Call} {l4Off : Nat} {l4 : L4}
    (hh : headers c.skb = some (.ipv4 l4Off l4))
    (hproto : c.skb.ipProtocol = IPPROTO_TCP ∨ c.skb.ipProtocol = IPPROTO_UDP) (high low : UInt8) :
    ∃ c' : Call, c'.skb.bytes.take l4Off = c.skb.bytes.take l4Off ∧ c'.direction = c.direction ∧
      ∃ ev' ∈ (processPacket s c').2, ev'.appTag =
        (hint (withSrcPort c.skb l4Off high low) c.direction
          { l4 with srcPort := .ofNat (high.toNat * 256 + low.toNat) }).tag := by
  let c' : Call := ⟨withSrcPort c.skb l4Off high low, c.direction, 0, some .zero⟩
  obtain ⟨packet, hmem⟩ := @ipv4Event_mem s c' _ _ _ (headers_withSrcPort hh hproto) rfl
  exact ⟨c', take_withSrcPort, rfl, _, hmem, rfl⟩

/-- A TCP or UDP packet without ports has another tag when its first bytes are those of a port. -/
theorem exists_other_tag (s : Event) {c : Call} {l4Off : Nat} {l4 : L4}
    (hh : headers c.skb = some (.ipv4 l4Off l4)) (hsrc : l4.srcPort = 0) (hdst : l4.dstPort = 0)
    (hproto : c.skb.ipProtocol = IPPROTO_TCP ∨ c.skb.ipProtocol = IPPROTO_UDP) :
    ∃ c' : Call, c'.skb.bytes.take l4Off = c.skb.bytes.take l4Off ∧ c'.direction = c.direction ∧
      ∃ ev' ∈ (processPacket s c').2, ev'.appTag ≠ (hint c.skb c.direction l4).tag := by
  obtain ⟨-, len, hlen, hoff, -⟩ := headers_eq_ipv4_iff.mp hh
  obtain ⟨hge, -, -⟩ := ipHdrLen_bounds hlen
  have hle : 34 ≤ l4Off := by omega
  rcases hproto with htcp | hudp
  · obtain ⟨c', htake, hdir, ev', hmem, htag⟩ := exists_withSrcPort s hh (Or.inl htcp) 1 0xBB
    have htls := htag.trans
      (hint_tcp_https ((ipProtocol_withSrcPort hle).trans htcp) c.direction rfl)
    exact ⟨c', htake, hdir, ev', hmem, fun he =>
      hint_tcp_zero htcp c.direction hsrc hdst (he.symm.trans htls)⟩
  · obtain ⟨c', htake, hdir, ev', hmem, htag⟩ := exists_withSrcPort s hh (Or.inr hudp) 0 53
    have hdns := htag.trans
      (hint_udp_dns ((ipProtocol_withSrcPort hle).trans hudp) c.direction rfl)
    exact ⟨c', htake, hdir, ev', hmem, fun he =>
      hint_udp_zero hudp c.direction hsrc hdst (he.symm.trans hdns)⟩

end EbpfTools.Pksniff

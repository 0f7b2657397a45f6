import EbpfTools.Pksniff.Lemmas.Shown

/-!
# The event of an IPv4 frame
-/

namespace EbpfTools.Pksniff
open EbpfTools.Lib EbpfTools.Bpf

/-! ## Headers -/

theorem ipHdrLen_bounds {skb : Skb} {len : Nat} (h : skb.ipHdrLen = some len) :
    20 ≤ len ∧ len ≤ 60 ∧ 14 + len ≤ skb.linear := by
  have hihl : (skb.byte 14 &&& 0x0F).toNat ≤ 15 := by
    rw [UInt8.toNat_and]
    exact Nat.and_le_right
  unfold Skb.ipHdrLen at h
  dsimp only at h
  split at h
  · cases h
  split at h
  · cases h
  split at h
  · cases h
  · cases h
    omega

theorem tcpHdrLen_bounds (skb : Skb) (l4Off : Nat) :
    20 ≤ skb.tcpHdrLen l4Off ∧ skb.tcpHdrLen l4Off ≤ 60 := by
  have hdoff : (skb.byte (l4Off + 12) >>> 4).toNat ≤ 15 := by
    have hbyte := (skb.byte (l4Off + 12)).toNat_lt
    rw [UInt8.toNat_shiftRight, Nat.shiftRight_eq_div_pow]
    show _ / 16 ≤ 15
    omega
  unfold Skb.tcpHdrLen
  dsimp only
  split <;> omega

theorem l4Header_bounds {skb : Skb} {l4Off : Nat} {l4 : L4} (h : l4Header skb l4Off = some l4)
    (hlin : l4Off ≤ skb.linear) :
    l4Off ≤ l4.payloadOff ∧ l4.payloadOff ≤ l4Off + 60 ∧ l4.payloadOff ≤ skb.linear := by
  have htcp := tcpHdrLen_bounds skb l4Off
  unfold l4Header at h
  split at h
  · split at h
    · cases h
    split at h
    · cases h
    · cases h
      dsimp only
      omega
  · split at h
    · split at h
      · cases h
      · cases h
        dsimp only
        omega
    · cases h
      dsimp only
      omega

theorem headers_eq_ipv4_iff {skb : Skb} {l4Off : Nat} {l4 : L4} :
    headers skb = some (.ipv4 l4Off l4) ↔
      skb.ethProto = ETH_P_IP ∧
        ∃ len, skb.ipHdrLen = some len ∧ l4Off = 14 + len ∧ l4Header skb l4Off = some l4 := by
  unfold headers
  constructor
  · intro h
    split at h
    · cases h
    split at h
    · cases h
    · rename_i hip
      simp only [Option.bind_eq_bind, Option.bind_eq_some_iff] at h
      obtain ⟨len, hlen, l4', hl4, he⟩ := h
      cases he
      exact ⟨Decidable.not_not.mp hip, len, hlen, rfl, hl4⟩
  · rintro ⟨heth, len, hlen, rfl, hl4⟩
    have harp : skb.ethProto ≠ ETH_P_ARP := by
      rw [heth]
      decide
    rw [if_neg harp, if_neg (fun h => h heth), hlen]
    simp only [Option.bind_eq_bind, Option.bind_some, hl4]
    rfl

/-- The payload begins behind an IP header of 20 to 60 bytes and at most as much of the L4 header,
all of it in the linear part. -/
theorem payloadOff_bounds {skb : Skb} {l4Off : Nat} {l4 : L4}
    (h : headers skb = some (.ipv4 l4Off l4)) :
    34 ≤ l4.payloadOff ∧ l4.payloadOff ≤ 134 ∧ l4.payloadOff ≤ skb.len := by
  obtain ⟨-, len, hlen, rfl, hl4⟩ := headers_eq_ipv4_iff.mp h
  obtain ⟨hge, hle, hlin⟩ := ipHdrLen_bounds hlen
  obtain ⟨hlow, hhigh, hend⟩ := l4Header_bounds hl4 hlin
  have hlinear : skb.linear ≤ skb.len := skb.linear_le
  omega

theorem headers_of_ipv4 {skb : Skb} {h : Headers} (heth : skb.ethProto = ETH_P_IP)
    (hh : headers skb = some h) : ∃ l4Off l4, h = .ipv4 l4Off l4 := by
  cases h with
  | ipv4 l4Off l4 => exact ⟨l4Off, l4, rfl⟩
  | arp =>
      have hne : skb.ethProto ≠ ETH_P_ARP := by
        rw [heth]
        decide
      rw [headers, if_neg hne, heth, if_neg (fun h => h rfl)] at hh
      simp only [Option.bind_eq_bind, Option.bind_eq_some_iff] at hh
      obtain ⟨_, _, _, _, he⟩ := hh
      cases he

/-! ## The submitted event -/

/-- What is submitted for an IPv4 frame with the headers `l4` and the frame bytes `packet`. -/
def ipv4Event (s : Event) (c : Call) (l4Off : Nat) (l4 : L4) (packet : Buf MAX_CAPTURE_BYTES) :
    Event :=
  { fillIpv4 (resetScratch s c.direction c.ktime) c.skb l4Off l4 with
    appTag := (hint c.skb c.direction l4).tag
    dnsName := (s.dnsName.store (0, 0)).stores (hint c.skb c.direction l4).dns
    httpInfo := (s.httpInfo.store (0, 0)).stores (hint c.skb c.direction l4).http
    tlsSni := (s.tlsSni.store (0, 0)).stores (hint c.skb c.direction l4).sni
    reserved := .zero _
    capLen := .ofNat (roundedCapLen c.skb)
    packet := packet }

theorem fill_ipv4 (s : Event) (c : Call) (l4Off : Nat) (l4 : L4)
    (packet : Buf MAX_CAPTURE_BYTES) :
    { fill (resetScratch s c.direction c.ktime) c (.ipv4 l4Off l4) with
      reserved := .zero _, capLen := .ofNat (roundedCapLen c.skb), packet := packet } =
      ipv4Event s c l4Off l4 packet := by
  have hnone : (fillIpv4 (resetScratch s c.direction c.ktime) c.skb l4Off l4).appTag = APP_NONE :=
    rfl
  rw [fill, appHint_eq hnone]
  rfl

/-- A frame with complete headers is submitted when the ring buffer has room. -/
theorem processPacket_ne_nil (s : Event) {c : Call} {hd : Headers} {re : Event}
    (hlin : 14 ≤ c.skb.linear) (hh : headers c.skb = some hd) (hslot : c.slot = some re) :
    (processPacket s c).2 ≠ [] := by
  obtain ⟨packet, hcap, -⟩ :=
    captureBytes_eq_some c.skb (fill (resetScratch s c.direction c.ktime) c hd) re
  simp only [processPacket, if_neg (Nat.not_lt.mpr hlin), hh, hslot, hcap, Option.toList_some]
  exact List.cons_ne_nil _ _

theorem mem_processPacket {s ev : Event} {c : Call} (h : ev ∈ (processPacket s c).2) :
    ∃ hd packet, headers c.skb = some hd ∧
      ev = { fill (resetScratch s c.direction c.ktime) c hd with
        reserved := .zero _, capLen := .ofNat (roundedCapLen c.skb), packet := packet } := by
  rcases processPacket_cases s c with hnone | ⟨hd, re, packet, -, hh, -, hcall, -⟩
  · rw [hnone] at h
    cases h
  · rw [hcall] at h
    exact ⟨hd, packet, hh, List.mem_singleton.mp h⟩

theorem mem_processPacket_ipv4 {s ev : Event} {c : Call} (h : ev ∈ (processPacket s c).2)
    (heth : c.skb.ethProto = ETH_P_IP) :
    ∃ l4Off l4 packet, headers c.skb = some (.ipv4 l4Off l4) ∧
      ev = ipv4Event s c l4Off l4 packet := by
  obtain ⟨hd, packet, hh, he⟩ := mem_processPacket h
  obtain ⟨l4Off, l4, rfl⟩ := headers_of_ipv4 heth hh
  exact ⟨l4Off, l4, packet, hh, he.trans (fill_ipv4 s c l4Off l4 packet)⟩

/-- An IPv4 frame with complete headers is submitted when the ring buffer has room. -/
theorem ipv4Event_mem (s : Event) {c : Call} {l4Off : Nat} {l4 : L4} {re : Event}
    (hh : headers c.skb = some (.ipv4 l4Off l4)) (hslot : c.slot = some re) :
    ∃ packet, ipv4Event s c l4Off l4 packet ∈ (processPacket s c).2 := by
  obtain ⟨heth, len, hlen, -, -⟩ := headers_eq_ipv4_iff.mp hh
  obtain ⟨-, -, hlin⟩ := ipHdrLen_bounds hlen
  obtain ⟨ev, hev⟩ := List.exists_mem_of_ne_nil _
    (processPacket_ne_nil s (Nat.le_of_add_right_le hlin) hh hslot)
  obtain ⟨l4Off', l4', packet, hh', rfl⟩ := mem_processPacket_ipv4 hev heth
  cases hh.symm.trans hh'
  exact ⟨packet, hev⟩

theorem toNat_payloadOff {skb : Skb} {l4Off : Nat} {l4 : L4}
    (h : headers skb = some (.ipv4 l4Off l4)) :
    (UInt16.ofNat l4.payloadOff).toNat = l4.payloadOff := by
  have := payloadOff_bounds h
  rw [UInt16.toNat_ofNat']
  omega

/-! ## HTTP -/

theorem hint_http {skb : Skb} {direction : UInt8} {l4 : L4}
    (h : (hint skb direction l4).tag = APP_HTTP) :
    isHttp skb l4.payloadOff skb.len ∧
      (hint skb direction l4).http = parseHttpInfo skb l4.payloadOff skb.len := by
  unfold hint at h ⊢
  split at h
  · cases h
  split at h
  · split at h <;> cases h
  split at h
  · split at h
    · split at h <;> cases h
    split at h
    · rename_i hicmp hudp htcp hport hhttp
      rw [if_neg hicmp, if_neg hudp, if_pos htcp, if_neg hport, if_pos hhttp]
      exact ⟨hhttp, rfl⟩
    · cases h
  · cases h

/-- An event tagged HTTP holds what `parse_http_info` stores for its payload. -/
theorem httpInfo_of_tag {s ev : Event} {c : Call} (h : ev ∈ (processPacket s c).2)
    (htag : ev.appTag = APP_HTTP) :
    ∃ l4 : L4, ev.payloadOff.toNat = l4.payloadOff ∧
      ev.httpInfo =
        (s.httpInfo.store (0, 0)).stores (parseHttpInfo c.skb l4.payloadOff c.skb.len) := by
  obtain ⟨hd, packet, hh, he⟩ := mem_processPacket h
  cases hd with
  | arp =>
      rw [he] at htag
      cases htag
  | ipv4 l4Off l4 =>
      obtain rfl := he.trans (fill_ipv4 s c l4Off l4 packet)
      refine ⟨l4, toNat_payloadOff hh, ?_⟩
      rw [ipv4Event, (hint_http htag).2]

end EbpfTools.Pksniff

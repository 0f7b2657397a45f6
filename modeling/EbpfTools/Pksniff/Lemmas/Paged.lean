import EbpfTools.Pksniff.Lemmas.Events
import EbpfTools.Pksniff.Loads

/-!
# Frames with a paged part

The linear part of a frame decides only whether its headers can be read.
-/

namespace EbpfTools.Pksniff
open EbpfTools.Lib EbpfTools.Bpf

/-! ## Headers -/

-- `ip_hdr_len`, whether or not the header is complete
def ihlBytes (skb : Skb) : Nat := (skb.byte 14 &&& 0x0F).toNat * 4

/-- The end of the headers that are read by direct access. -/
def headerEnd (skb : Skb) : Nat :=
  if skb.ethProto ≠ ETH_P_IP ∨ ihlBytes skb < 20 then 14
  else if skb.ipProtocol = IPPROTO_TCP then
    14 + ihlBytes skb + skb.tcpHdrLen (14 + ihlBytes skb)
  else if skb.ipProtocol = IPPROTO_UDP then 14 + ihlBytes skb + 8
  else 14 + ihlBytes skb

/-- The L4 header of a frame that is linear up to its end. -/
def wholeL4 (skb : Skb) (l4Off : Nat) : L4 :=
  if skb.ipProtocol = IPPROTO_TCP then
    ⟨.ofNat (skb.be16 l4Off), .ofNat (skb.be16 (l4Off + 2)), packTcpFlags (skb.byte (l4Off + 13)),
      l4Off + skb.tcpHdrLen l4Off⟩
  else if skb.ipProtocol = IPPROTO_UDP then
    ⟨.ofNat (skb.be16 l4Off), .ofNat (skb.be16 (l4Off + 2)), 0, l4Off + 8⟩
  else ⟨0, 0, 0, l4Off⟩

def wholeHeaders (skb : Skb) : Option Headers :=
  if skb.ethProto = ETH_P_ARP then some .arp
  else if skb.ethProto ≠ ETH_P_IP then none
  else if ihlBytes skb < 20 then none
  else some (.ipv4 (14 + ihlBytes skb) (wholeL4 skb (14 + ihlBytes skb)))

theorem ipHdrLen_eq {skb : Skb} (h : ¬ ihlBytes skb < 20) :
    skb.ipHdrLen = if 14 + ihlBytes skb ≤ skb.linear then some (ihlBytes skb) else none := by
  have hlen : (skb.byte 14 &&& 0x0F).toNat * 4 = ihlBytes skb := rfl
  unfold Skb.ipHdrLen
  simp only [hlen, if_neg h]
  split
  · rw [if_neg (by omega)]
  split
  · rw [if_neg (by omega)]
  · rw [if_pos (by omega)]

theorem l4Header_whole {skb : Skb} (heth : skb.ethProto = ETH_P_IP) (h : ¬ ihlBytes skb < 20)
    (hlin : 14 + ihlBytes skb ≤ skb.linear) :
    l4Header skb (14 + ihlBytes skb) =
      if headerEnd skb ≤ skb.linear then some (wholeL4 skb (14 + ihlBytes skb)) else none := by
  have hip : ¬ (skb.ethProto ≠ ETH_P_IP ∨ ihlBytes skb < 20) := not_or.mpr ⟨fun hne => hne heth, h⟩
  have hdoff := (tcpHdrLen_bounds skb (14 + ihlBytes skb)).1
  unfold l4Header headerEnd wholeL4
  rw [if_neg hip]
  split
  · split
    · rw [if_neg (by omega)]
    split
    · rw [if_neg (by omega)]
    · rw [if_pos (by omega)]
  · split
    · split
      · rw [if_neg (by omega)]
      · rw [if_pos (by omega)]
    · rfl

/-- The headers are used exactly when they end in the linear part. -/
theorem headers_whole {skb : Skb} (hlin : 14 ≤ skb.linear) :
    headers skb = if headerEnd skb ≤ skb.linear then wholeHeaders skb else none := by
  unfold headers wholeHeaders
  split
  · rename_i harp
    have hne : skb.ethProto ≠ ETH_P_IP := by
      rw [harp]
      decide
    rw [headerEnd, if_pos (Or.inl hne), if_pos hlin]
  split
  · rw [ite_self]
  · rename_i heth
    have heth : skb.ethProto = ETH_P_IP := Decidable.not_not.mp heth
    by_cases hlong : ihlBytes skb < 20
    · have hnone : skb.ipHdrLen = none := by
        have hlen : (skb.byte 14 &&& 0x0F).toNat * 4 < 20 := hlong
        unfold Skb.ipHdrLen
        simp only [if_pos hlen, ite_self]
      rw [hnone, if_pos hlong, ite_self]
      rfl
    · rw [ipHdrLen_eq hlong, if_neg hlong]
      by_cases hend : 14 + ihlBytes skb ≤ skb.linear
      · rw [if_pos hend]
        simp only [Option.bind_eq_bind, Option.bind_some, l4Header_whole heth hlong hend]
        split <;> rfl
      · have hge : 14 + ihlBytes skb ≤ headerEnd skb := by
          rw [headerEnd, if_neg (not_or.mpr ⟨fun hne => hne heth, hlong⟩)]
          split
          · omega
          split <;> omega
        rw [if_neg hend, if_neg (by omega)]
        rfl

theorem wholeHeaders_of_lt {skb : Skb} (h : 14 < headerEnd skb) :
    ∃ hd, wholeHeaders skb = some hd := by
  unfold headerEnd at h
  split at h
  · exact absurd h (Nat.lt_irrefl 14)
  · rename_i hip
    obtain ⟨heth, hlong⟩ := not_or.mp hip
    have heth : skb.ethProto = ETH_P_IP := Decidable.not_not.mp heth
    have harp : skb.ethProto ≠ ETH_P_ARP := by
      rw [heth]
      decide
    rw [wholeHeaders, if_neg harp, if_neg (fun hne => hne heth), if_neg hlong]
    exact ⟨_, rfl⟩

/-! ## Frames with the same bytes -/

section
variable {skb skb' : Skb}

theorem loadBytes_congr (h : skb'.bytes = skb.bytes) : skb'.loadBytes = skb.loadBytes :=
  Skb.congr_bytes (fun _ _ _ _ _ _ => rfl) h

theorem headerEnd_congr (h : skb'.bytes = skb.bytes) : headerEnd skb' = headerEnd skb :=
  Skb.congr_bytes (fun _ _ _ _ _ _ => rfl) h

theorem wholeHeaders_congr (h : skb'.bytes = skb.bytes) : wholeHeaders skb' = wholeHeaders skb :=
  Skb.congr_bytes (fun _ _ _ _ _ _ => rfl) h

theorem fillArp_congr (h : skb'.bytes = skb.bytes) (e : Event) : fillArp e skb' = fillArp e skb :=
  Skb.congr_bytes (fun _ _ _ _ _ _ => rfl) h

theorem fillIpv4_congr (h : skb'.bytes = skb.bytes) (e : Event) (l4Off : Nat) (l4 : L4) :
    fillIpv4 e skb' l4Off l4 = fillIpv4 e skb l4Off l4 :=
  @Skb.congr_bytes _ (fillIpv4 e · l4Off l4) (fun _ _ _ _ _ _ => rfl) _ _ h

theorem roundedCapLen_congr (h : skb'.bytes = skb.bytes) :
    roundedCapLen skb' = roundedCapLen skb :=
  Skb.congr_bytes (fun _ _ _ _ _ _ => rfl) h

theorem hint_congr (h : skb'.bytes = skb.bytes) (direction : UInt8) (l4 : L4) :
    hint skb' direction l4 = hint skb direction l4 := by
  have hloads : hintLoads skb' direction l4 = hintLoads skb direction l4 :=
    @Skb.congr_bytes _ (hintLoads · direction l4) (fun _ _ _ _ _ _ => rfl) _ _ h
  rw [← run_hintLoads, ← run_hintLoads, loadBytes_congr h, hloads]

theorem copyChunks_congr (h : skb'.bytes = skb.bytes) (capLen left off : Nat)
    (packet : Buf MAX_CAPTURE_BYTES) :
    copyChunks skb' capLen left off packet = copyChunks skb capLen left off packet := by
  induction left generalizing off packet with
  | zero => rfl
  | succ left ih => simp only [copyChunks, loadBytes_congr h, ih]

theorem captureBytes_congr (h : skb'.bytes = skb.bytes) (e re : Event) :
    captureBytes skb' e re = captureBytes skb e re := by
  rw [captureBytes, captureBytes, roundedCapLen_congr h, copyChunks_congr h]

theorem fill_congr (h : skb'.bytes = skb.bytes) (s : Event) (direction : UInt8) (ktime : UInt64)
    (slot : Option Event) (hd : Headers) :
    fill (resetScratch s direction ktime) ⟨skb', direction, ktime, slot⟩ hd =
      fill (resetScratch s direction ktime) ⟨skb, direction, ktime, slot⟩ hd := by
  cases hd with
  | arp => exact fillArp_congr h _
  | ipv4 l4Off l4 =>
      have hnone : (fillIpv4 (resetScratch s direction ktime) skb l4Off l4).appTag = APP_NONE := rfl
      simp only [fill, fillIpv4_congr h, appHint_eq hnone, hint_congr h]

theorem processPacket_congr (h : skb'.bytes = skb.bytes) (hlin : 14 ≤ skb.linear)
    (hlin' : 14 ≤ skb'.linear) (hh : headers skb' = headers skb) (s : Event) (direction : UInt8)
    (ktime : UInt64) (slot : Option Event) :
    (processPacket s ⟨skb', direction, ktime, slot⟩).2 =
      (processPacket s ⟨skb, direction, ktime, slot⟩).2 := by
  unfold processPacket
  simp only [if_neg (Nat.not_lt.mpr hlin), if_neg (Nat.not_lt.mpr hlin'), hh]
  cases headers skb with
  | none => rfl
  | some hd =>
      cases slot with
      | none => rfl
      | some re => simp only [fill_congr h, captureBytes_congr h]

theorem processPacket_of_none {c : Call} (h : headers c.skb = none) (s : Event) :
    (processPacket s c).2 = [] := by
  unfold processPacket
  rw [h]
  split <;> rfl

theorem processPacket_of_no_slot {c : Call} (h : c.slot = none) (s : Event) :
    (processPacket s c).2 = [] := by
  rcases processPacket_cases s c with hnone | ⟨hd, re, packet, -, -, hslot, -⟩
  · exact hnone
  · rw [h] at hslot
    cases hslot

/-- A frame whose headers end in the linear part is submitted, and one with a shorter linear part
is not. -/
theorem processPacket_ne_of_split (h : skb'.bytes = skb.bytes) (hlin : 14 ≤ skb.linear)
    (hlin' : 14 ≤ skb'.linear) (hend : headerEnd skb ≤ skb.linear)
    (hend' : ¬ headerEnd skb ≤ skb'.linear) (s : Event) (direction : UInt8) (ktime : UInt64)
    (re : Event) :
    (processPacket s ⟨skb', direction, ktime, some re⟩).2 ≠
      (processPacket s ⟨skb, direction, ktime, some re⟩).2 := by
  obtain ⟨hd, hhd⟩ := wholeHeaders_of_lt (show 14 < headerEnd skb by omega)
  have hh : headers skb = some hd := by rw [headers_whole hlin, if_pos hend, hhd]
  have hh' : headers skb' = none := by
    rw [headers_whole hlin', headerEnd_congr h, if_neg hend']
  rw [@processPacket_of_none ⟨skb', direction, ktime, some re⟩ hh']
  exact (@processPacket_ne_nil s ⟨skb, direction, ktime, some re⟩ hd re hlin hh rfl).symm

end

end EbpfTools.Pksniff

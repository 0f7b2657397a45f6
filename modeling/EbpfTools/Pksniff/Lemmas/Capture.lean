import EbpfTools.Pksniff.ProcessPacket

/-!
# What the ring-buffer record captures
-/

namespace EbpfTools.Pksniff
open EbpfTools.Lib EbpfTools.Bpf

/-! ## The chunk loop -/

/-- From a chunk boundary on, the loop replaces the bytes up to `capLen` by those of the frame. -/
theorem copyChunks_eq_some {skb : Skb} {capLen : Nat} (hdvd : 16 ∣ capLen)
    (hlen : capLen ≤ skb.len) (hcap : capLen ≤ MAX_CAPTURE_BYTES) {left off : Nat}
    {packet : Buf MAX_CAPTURE_BYTES} (hoff : 16 ∣ off) (hle : off ≤ capLen)
    (hleft : capLen ≤ off + 16 * left) :
    ∃ p, copyChunks skb capLen left off packet = some p ∧
      p.bytes = packet.bytes.take off ++ (skb.bytes.drop off).take (capLen - off) ++
        packet.bytes.drop capLen := by
  induction left generalizing off packet with
  | zero =>
      obtain rfl : off = capLen := by omega
      exact ⟨packet, rfl, by simp⟩
  | succ left ih =>
      rw [copyChunks]
      split
      · obtain rfl : off = capLen := by omega
        exact ⟨packet, rfl, by simp⟩
      · have hnext : off + 16 ≤ capLen := by omega
        have hload := Skb.loadBytes_eq_some (le_trans hnext hlen)
        have htmp := (Skb.loadBytes_length hload).1
        have hsplit : (skb.bytes.drop off).take (capLen - off) =
            (skb.bytes.drop off).take 16 ++
              (skb.bytes.drop (off + 16)).take (capLen - (off + 16)) := by
          rw [show capLen - off = 16 + (capLen - (off + 16)) by omega, List.take_add,
            List.drop_drop]
        rw [hload, hsplit]
        generalize (skb.bytes.drop off).take 16 = tmp at htmp ⊢
        have htake : (packet.memcpy off tmp).bytes.take (off + 16) = packet.bytes.take off ++ tmp :=
          htmp ▸ packet.take_memcpy (by omega)
        have hdrop : (packet.memcpy off tmp).bytes.drop capLen = packet.bytes.drop capLen :=
          packet.drop_memcpy (by omega) (by omega)
        obtain ⟨p, hcopy, hbytes⟩ := @ih (off + 16) (packet.memcpy off tmp)
          (Nat.dvd_add hoff (Nat.dvd_refl 16)) hnext (by omega)
        refine ⟨p, hcopy, ?_⟩
        rw [hbytes, htake, hdrop, List.append_assoc (packet.bytes.take off)]

theorem roundedCapLen_eq (skb : Skb) :
    roundedCapLen skb = min skb.len MAX_CAPTURE_BYTES / 16 * 16 := by
  rw [roundedCapLen]
  congr 2
  split <;> omega

theorem roundedCapLen_le (skb : Skb) :
    roundedCapLen skb ≤ skb.len ∧ roundedCapLen skb ≤ MAX_CAPTURE_BYTES := by
  rw [roundedCapLen_eq]
  omega

/-- No load of the chunk loop fails, so no record is discarded. -/
theorem captureBytes_eq_some (skb : Skb) (e re : Event) :
    ∃ packet : Buf MAX_CAPTURE_BYTES,
      captureBytes skb e re = some
        { e with reserved := .zero _, capLen := .ofNat (roundedCapLen skb), packet := packet } ∧
      packet.bytes =
        skb.bytes.take (roundedCapLen skb) ++ re.packet.bytes.drop (roundedCapLen skb) := by
  obtain ⟨hlen, hcap⟩ := roundedCapLen_le skb
  obtain ⟨p, hcopy, hbytes⟩ := @copyChunks_eq_some skb (roundedCapLen skb) (Dvd.intro_left _ rfl)
    hlen hcap 16 0 re.packet (dvd_zero 16) (Nat.zero_le _) (by omega)
  refine ⟨p, by rw [captureBytes, hcopy]; rfl, ?_⟩
  simpa using hbytes

/-! ## Submitted records -/

/-- A call submits no record, or one with everything but the frame bytes taken from the scratch
event that the call leaves. -/
theorem processPacket_cases (e : Event) (c : Call) :
    (processPacket e c).2 = [] ∨
      ∃ h re packet, 14 ≤ c.skb.linear ∧ headers c.skb = some h ∧ c.slot = some re ∧
        processPacket e c = (fill (resetScratch e c.direction c.ktime) c h,
          [{ fill (resetScratch e c.direction c.ktime) c h with
             reserved := .zero _, capLen := .ofNat (roundedCapLen c.skb), packet := packet }]) ∧
        packet.bytes =
          c.skb.bytes.take (roundedCapLen c.skb) ++ re.packet.bytes.drop (roundedCapLen c.skb) := by
  unfold processPacket
  split
  · exact Or.inl rfl
  · rename_i hlin
    cases hh : headers c.skb with
    | none => exact Or.inl rfl
    | some h =>
        cases hs : c.slot with
        | none => exact Or.inl rfl
        | some re =>
            obtain ⟨packet, hcap, hbytes⟩ :=
              captureBytes_eq_some c.skb (fill (resetScratch e c.direction c.ktime) c h) re
            refine Or.inr ⟨h, re, packet, by omega, rfl, rfl, ?_, hbytes⟩
            simp only [hcap, Option.toList_some]

theorem packetLen_fill (e : Event) (c : Call) (h : Headers) :
    (fill e c h).packetLen = .ofNat c.skb.len := by
  cases h with
  | arp => rfl
  | ipv4 l4Off l4 =>
      simp only [fill, appHint, httpHint]
      split
      · rfl
      split
      · split <;> rfl
      split
      · split
        · split <;> rfl
        · split <;> rfl
      · rfl

/-- A submitted record holds the frame length and the first `cap_len` bytes of the frame, where
`cap_len` is the rounded one. -/
theorem of_mem_processPacket {e ev : Event} {c : Call} (h : ev ∈ (processPacket e c).2) :
    ev.packetLen.toNat = c.skb.len ∧ ev.capLen.toNat = roundedCapLen c.skb ∧
      ev.packet.bytes.take (roundedCapLen c.skb) = c.skb.bytes.take (roundedCapLen c.skb) := by
  have hlen : c.skb.len < 2 ^ 32 := c.skb.len_lt
  have hround := roundedCapLen_le c.skb
  have hdef : c.skb.len = c.skb.bytes.length := rfl
  rcases processPacket_cases e c with hnone | ⟨hd, re, packet, -, -, -, hcall, hbytes⟩
  · rw [hnone] at h
    cases h
  · rw [hcall] at h
    obtain rfl := List.mem_singleton.mp h
    refine ⟨?_, ?_, ?_⟩
    · simp only [packetLen_fill, UInt32.toNat_ofNat']
      exact Nat.mod_eq_of_lt hlen
    · simp only [UInt32.toNat_ofNat']
      exact Nat.mod_eq_of_lt (lt_of_le_of_lt hround.1 hlen)
    · have htake : (c.skb.bytes.take (roundedCapLen c.skb)).length = roundedCapLen c.skb := by
        rw [List.length_take]
        omega
      simp only [hbytes]
      rw [List.take_left' htake]

end EbpfTools.Pksniff

import EbpfTools.Lib.Run
import EbpfTools.Pksniff.Lemmas.Shown
import EbpfTools.Pksniff.Theorems.Sni

/-!
# What a submitted event holds
-/

namespace EbpfTools.Pksniff
open EbpfTools.Lib EbpfTools.Bpf

/-! ## Packets before it -/

/-- An event shows what it would show after no packet at all, exactly when the copied host name
covers what an earlier packet left in `tls_sni`: the terminator is always at index 15, not behind
the name. -/
theorem shown_processPacket_iff {s : Event} {c : Call} (h : (processPacket s c).2 ≠ []) :
    (processPacket s c).2.map Event.shown = (processPacket .zero c).2.map Event.shown ↔
      NameCovers s c := by
  rcases processPacket_cases s c with hs | ⟨hd, re, packet, hlin, hh, hslot, hs, -⟩
  · exact absurd hs h
  rcases processPacket_cases .zero c with hz | ⟨hd', re', packet', -, hh', -, hz, -⟩
  · obtain ⟨p, hp, -⟩ := captureBytes_eq_some c.skb
      (fill (resetScratch .zero c.direction c.ktime) c hd) re
    simp [processPacket, show ¬ 14 > c.skb.linear by omega, hh, hslot, hp] at hz
  obtain rfl : hd = hd' := Option.some.inj (hh.symm.trans hh')
  obtain ⟨hdns, hhttp⟩ := terminated_hintOf c hd
  rw [hs, hz, fill_reset s c hd, fill_reset .zero c hd]
  simp only [List.map_cons, List.map_nil, Event.shown, List.cons.injEq, Prod.mk.injEq, and_true,
    true_and, hdns.str_eq s.dnsName Event.zero.dnsName,
    hhttp.str_eq s.httpInfo Event.zero.httpInfo, hintOf_sni hh]
  cases hname : copiedName c with
  | none =>
      have hempty : ∀ b : Buf MAX_TLS_SNI, ((b.store (0, 0)).stores []).str =
          (((Buf.zero MAX_TLS_SNI).store (0, 0)).stores []).str :=
        fun b => Terminated.str_eq (Or.inl rfl) b (Buf.zero MAX_TLS_SNI)
      refine iff_of_true (hempty s.tlsSni) fun name he => ?_
      rw [hname] at he
      cases he
  | some name =>
      obtain ⟨hpos, hle⟩ := length_copiedName hname
      refine (str_store_name_iff s.tlsSni hpos hle).trans ?_
      simp [NameCovers, hname]

def shortHello : ClientHello :=
  helloOf [serverNameOf "a.io" (by decide)] (by decide)

def shortFrame : Skb :=
  ⟨tlsHeaders ++ (shortHello.encode ++ [7, 7]), 54, by decide +kernel, by decide +kernel⟩

def sentCall (skb : Skb) : Call := ⟨skb, DIR_EGRESS, 0, some .zero⟩

/-- After a ClientHello for www.example.org, one for a.io is shown with the end of the first
name. -/
theorem shown_shortFrame :
    (processPacket (runState processPacket .zero [sentCall exampleFrame])
        (sentCall shortFrame)).2.map (fun e => e.tlsSni.str) = [ascii "a.ioexample.org"] ∧
      (processPacket .zero (sentCall shortFrame)).2.map (fun e => e.tlsSni.str) =
        [ascii "a.io"] := by
  refine ⟨by decide +kernel, by decide +kernel⟩

theorem shown_processPacket_iff_shortFrame :
    (processPacket (runState processPacket .zero [sentCall exampleFrame])
        (sentCall shortFrame)).2.map Event.shown =
        (processPacket .zero (sentCall shortFrame)).2.map Event.shown ↔
      NameCovers (runState processPacket .zero [sentCall exampleFrame]) (sentCall shortFrame) :=
  shown_processPacket_iff (by decide +kernel)

/-! ## The captured bytes -/

/-- A record holds the first `cap_len` bytes of the frame, and `cap_len` is the length cut to 256
and rounded down to whole chunks of 16 bytes. -/
theorem captured_of_mem {e ev : Event} {c : Call} (h : ev ∈ (processPacket e c).2) :
    ev.capLen.toNat = min c.skb.len MAX_CAPTURE_BYTES / 16 * 16 ∧
      ev.packet.bytes.take ev.capLen.toNat = c.skb.bytes.take ev.capLen.toNat := by
  obtain ⟨-, hcap, hbytes⟩ := of_mem_processPacket h
  rw [hcap]
  exact ⟨roundedCapLen_eq c.skb, hbytes⟩

def arpFrame : Skb :=
  ⟨List.replicate 12 0xFF ++ [0x08, 0x06] ++ List.replicate 46 0, 60, by decide, by decide⟩

/-- A frame of 60 bytes is captured up to byte 48. -/
theorem capLen_arpFrame :
    (processPacket .zero (sentCall arpFrame)).2.map (fun e => (e.packetLen, e.capLen)) =
        [(60, 48)] ∧
      min arpFrame.len MAX_CAPTURE_BYTES = 60 := by
  refine ⟨by decide +kernel, by decide⟩

def arpEvent : Event :=
  { Event.zero with
    l4Off := 14, payloadOff := 14, packetLen := 60, capLen := 48, direction := DIR_EGRESS
    packet := (Buf.zero _).memcpy 0 (arpFrame.bytes.take 48) }

theorem captured_arpEvent :
    arpEvent.capLen.toNat = min arpFrame.len MAX_CAPTURE_BYTES / 16 * 16 ∧
      arpEvent.packet.bytes.take arpEvent.capLen.toNat =
        arpFrame.bytes.take arpEvent.capLen.toNat :=
  @captured_of_mem .zero arpEvent (sentCall arpFrame) (by decide +kernel)

end EbpfTools.Pksniff

import EbpfTools.Pksniff.Lemmas.DnsName
import EbpfTools.Pksniff.Lemmas.Events
import EbpfTools.Pksniff.Lemmas.Shown
import EbpfTools.Pksniff.Theorems.Capture

/-!
# The name strings of an event
-/

namespace EbpfTools.Pksniff
open EbpfTools.Lib EbpfTools.Bpf

/-! ## DNS -/

/-- What `parse_dns_name` leaves in `out` for a message at `off` that asks for `labels`. -/
theorem str_parseDnsName {skb : Skb} {off pktEnd : Nat} {labels : List DnsLabel}
    {rest : List UInt8} (h : skb.At (off + 12) (encodeName labels ++ rest))
    (hend : off + 12 + (encodeName labels).length ≤ pktEnd) (hlen : labels.length ≤ 8)
    (hnul : ∀ l ∈ labels, 0 ∉ l.text) (out : Buf MAX_DNS_NAME) :
    (out.stores (parseDnsName skb off pktEnd)).str =
      dotted (labels.map fun l => l.text.take 4) := by
  rw [encodeName, List.append_assoc] at h
  rw [encodeName, List.length_append, List.length_singleton] at hend
  have hroom : 0 + 5 * labels.length < MAX_DNS_NAME - 1 := by
    show 0 + 5 * labels.length < 63
    omega
  have hloop := @dnsLabels_eq skb pktEnd 8 0 (off + 12) 0 labels rest h (by omega) hlen hroom
  have hshort := length_dnsText_le 0 labels
  have hlt : (dnsText 0 labels).length < MAX_DNS_NAME := by omega
  have hnot : 0 ∉ dnsText 0 labels := by
    rw [dnsText_zero]
    refine not_mem_dotted (by decide) ?_
    rw [List.forall_mem_map]
    intro l hl hm
    exact hnul l hl (List.mem_of_mem_take hm)
  simp only [parseDnsName, hloop, Nat.zero_add, if_pos hlt]
  rw [Buf.str_stores_terminated out hlt, cstr_eq_self hnot, dnsText_zero]

/-- A complete name is reported exactly when no label is longer than the four characters that are
copied of it. -/
theorem parseDnsName_complete_iff {skb : Skb} {off pktEnd : Nat} {labels : List DnsLabel}
    {rest : List UInt8} (h : skb.At (off + 12) (encodeName labels ++ rest))
    (hend : off + 12 + (encodeName labels).length ≤ pktEnd) (hlen : labels.length ≤ 8)
    (hnul : ∀ l ∈ labels, 0 ∉ l.text) (out : Buf MAX_DNS_NAME) :
    (out.stores (parseDnsName skb off pktEnd)).str =
        (dotted (labels.map DnsLabel.text)).take (MAX_DNS_NAME - 1) ↔
      ∀ l ∈ labels, l.text.length ≤ 4 := by
  have hcut : labels.map (fun l => l.text.take 4) =
      (labels.map DnsLabel.text).map (List.take 4) := by
    rw [List.map_map]
    rfl
  have hroom : (dotted (labels.map fun l => l.text.take 4)).length < MAX_DNS_NAME - 1 := by
    have hshort := length_dnsText_le 0 labels
    rw [dnsText_zero] at hshort
    show _ < 63
    omega
  rw [str_parseDnsName h hend hlen hnul out]
  constructor
  · intro he l hl
    by_contra hlong
    have hlt := @length_dotted_take_lt (labels.map DnsLabel.text) 4 l.text
      (List.mem_map_of_mem hl) (Nat.lt_of_not_le hlong)
    have hlengths := congrArg List.length he
    rw [List.length_take] at hlengths
    rw [← hcut] at hlt
    omega
  · intro hall
    have hwhole : labels.map (fun l => l.text.take 4) = labels.map DnsLabel.text :=
      List.map_congr_left fun l hl => List.take_of_length_le (hall l hl)
    rw [hwhole] at hroom ⊢
    exact (List.take_of_length_le (Nat.le_of_lt hroom)).symm

def exampleLabels : List DnsLabel :=
  [⟨ascii "www", by decide, by decide⟩, ⟨ascii "example", by decide, by decide⟩]

-- Ethernet, IPv4 and UDP headers of a datagram of 49 bytes to port 53
def dnsHeaders : List UInt8 :=
  List.replicate 12 0 ++ [0x08, 0x00] ++ [0x45, 0, 0, 57] ++ List.replicate 4 0 ++ [64, 17] ++
    List.replicate 10 0 ++ [0xC0, 0x00, 0, 53, 0, 37, 0, 0]

/-- A query for `www.example`. -/
def dnsQuery : Skb :=
  ⟨dnsHeaders ++ List.replicate 12 0 ++ (encodeName exampleLabels ++ [0, 1, 0, 1]), 71,
    by decide +kernel, by decide +kernel⟩

theorem dnsQuery_cut :
    ((Buf.zero MAX_DNS_NAME).stores (parseDnsName dnsQuery 42 dnsQuery.len)).str =
        ascii "www.exam" ∧
      ascii "www.exam" ≠ (dotted (exampleLabels.map DnsLabel.text)).take (MAX_DNS_NAME - 1) := by
  exact ⟨by decide +kernel, by decide +kernel⟩

theorem parseDnsName_complete_iff_dnsQuery :
    ((Buf.zero MAX_DNS_NAME).stores (parseDnsName dnsQuery 42 dnsQuery.len)).str =
        (dotted (exampleLabels.map DnsLabel.text)).take (MAX_DNS_NAME - 1) ↔
      ∀ l ∈ exampleLabels, l.text.length ≤ 4 :=
  @parseDnsName_complete_iff dnsQuery 42 dnsQuery.len exampleLabels [0, 1, 0, 1]
    ⟨by decide +kernel, by decide +kernel⟩ (by decide +kernel) (by decide) (by decide) (.zero _)

/-! ## HTTP -/

/-- The start of a message with CR and LF replaced by spaces. -/
def httpLine (payload : List UInt8) : List UInt8 :=
  (payload.take (MAX_HTTP_INFO - 1)).map fun c => if c = 0x0D ∨ c = 0x0A then 0x20 else c

theorem length_httpLine (payload : List UInt8) :
    (httpLine payload).length = min (MAX_HTTP_INFO - 1) payload.length := by
  rw [httpLine, List.length_map, List.length_take]

theorem zero_not_mem_httpLine {payload : List UInt8}
    (h : 0 ∉ payload.take (MAX_HTTP_INFO - 1)) : 0 ∉ httpLine payload := by
  rw [httpLine, List.mem_map]
  rintro ⟨c, hc, he⟩
  split at he
  · cases he
  · exact h (he ▸ hc)

theorem parseHttpInfo_of_long {skb : Skb} {payloadOff : Nat} {payload : List UInt8}
    (h : skb.At payloadOff payload) (hlen : MAX_HTTP_INFO - 1 ≤ payload.length) :
    parseHttpInfo skb payloadOff skb.len =
      storesAt 0 (httpLine payload) ++ [((httpLine payload).length, 0)] := by
  have hend := h.pos_add_length
  have hload : skb.loadBytes payloadOff (MAX_HTTP_INFO - 1) =
      some (payload.take (MAX_HTTP_INFO - 1)) := by
    rw [Skb.loadBytes_eq_some (by omega), h.drop_eq]
  have hroom : ¬ payloadOff + (MAX_HTTP_INFO - 1) > skb.len := by omega
  rw [length_httpLine, Nat.min_eq_left hlen]
  simp only [parseHttpInfo, if_neg hroom, hload]
  rfl

/-- The load is always of 47 bytes, so nothing is written for a shorter message. -/
theorem parseHttpInfo_of_short {skb : Skb} {payloadOff : Nat} {payload : List UInt8}
    (h : skb.At payloadOff payload) (hlen : payload.length < MAX_HTTP_INFO - 1) :
    parseHttpInfo skb payloadOff skb.len = [] := by
  have hend := h.pos_add_length
  have hload : skb.loadBytes payloadOff (MAX_HTTP_INFO - 1) = none :=
    Skb.loadBytes_eq_none (by omega)
  simp only [parseHttpInfo, hload, ite_self]

theorem str_parseHttpInfo {skb : Skb} {payloadOff : Nat} {payload : List UInt8}
    (h : skb.At payloadOff payload) (hnul : 0 ∉ payload.take (MAX_HTTP_INFO - 1))
    {out : Buf MAX_HTTP_INFO} (hempty : out.str = []) :
    (out.stores (parseHttpInfo skb payloadOff skb.len)).str =
      if MAX_HTTP_INFO - 1 ≤ payload.length then httpLine payload else [] := by
  split
  · rename_i hlong
    have hlt : (httpLine payload).length < MAX_HTTP_INFO := by
      rw [length_httpLine, Nat.min_eq_left hlong]
      decide
    rw [parseHttpInfo_of_long h hlong, Buf.str_stores_terminated out hlt,
      cstr_eq_self (zero_not_mem_httpLine hnul)]
  · rename_i hshort
    rw [parseHttpInfo_of_short h (Nat.lt_of_not_le hshort)]
    exact hempty

theorem httpLine_ne_nil {skb : Skb} {payloadOff : Nat} {payload : List UInt8}
    (h : skb.At payloadOff payload) (hhttp : isHttp skb payloadOff skb.len) :
    httpLine payload ≠ [] := by
  have hend := h.pos_add_length
  have hlen : payloadOff + 8 ≤ skb.len := by
    by_contra hshort
    rw [isHttp, if_pos (Nat.lt_of_not_le hshort)] at hhttp
    cases hhttp
  intro hnil
  have hzero := congrArg List.length hnil
  rw [length_httpLine, List.length_nil] at hzero
  have hmax : MAX_HTTP_INFO - 1 = 47 := rfl
  omega

/-- The start of an HTTP message is shown, and no event tagged HTTP has an empty string, exactly
for messages of at least the 47 bytes that are loaded. -/
theorem httpInfo_complete_iff {skb : Skb} {payloadOff : Nat} {payload : List UInt8}
    (h : skb.At payloadOff payload) (hhttp : isHttp skb payloadOff skb.len)
    (hnul : 0 ∉ payload.take (MAX_HTTP_INFO - 1)) {out : Buf MAX_HTTP_INFO}
    (hempty : out.str = []) :
    ((out.stores (parseHttpInfo skb payloadOff skb.len)).str = httpLine payload ↔
        MAX_HTTP_INFO - 1 ≤ payload.length) ∧
      ∀ s c, c.skb = skb → ∀ ev ∈ (processPacket s c).2, ev.appTag = APP_HTTP →
        ev.payloadOff.toNat = payloadOff →
        (ev.httpInfo.str ≠ [] ↔ MAX_HTTP_INFO - 1 ≤ payload.length) := by
  have hne := httpLine_ne_nil h hhttp
  constructor
  · rw [str_parseHttpInfo h hnul hempty]
    split
    · rename_i hlong
      exact iff_of_true rfl hlong
    · rename_i hshort
      exact iff_of_false hne.symm hshort
  · rintro s c rfl ev hev htag hoff
    obtain ⟨l4, hl4, hinfo⟩ := httpInfo_of_tag hev htag
    obtain rfl : l4.payloadOff = payloadOff := hl4.symm.trans hoff
    rw [hinfo, str_parseHttpInfo h hnul (Buf.str_store_zero s.httpInfo)]
    split
    · rename_i hlong
      exact iff_of_true hne hlong
    · rename_i hshort
      exact iff_of_false (fun h => h rfl) hshort

-- Ethernet, IPv4 and TCP headers of a datagram of `totLen` bytes to port 80
def httpHeaders (totLen : UInt8) : List UInt8 :=
  List.replicate 12 0 ++ [0x08, 0x00] ++ [0x45, 0, 0, totLen] ++ List.replicate 4 0 ++ [64, 6] ++
    List.replicate 10 0 ++ [0xC0, 0x00, 0, 80] ++ List.replicate 8 0 ++ [0x50, 0x18] ++
    List.replicate 6 0

def shortRequest : List UInt8 := ascii "GET / HTTP/1.0\r\n\r\n"

def shortRequestFrame : Skb :=
  ⟨httpHeaders 58 ++ shortRequest, 72, by decide +kernel, by decide +kernel⟩

/-- A whole request of 18 bytes is tagged HTTP with an empty string. -/
theorem shortRequestFrame_empty :
    (processPacket .zero (sentCall shortRequestFrame)).2.map (fun e => (e.appTag, e.httpInfo.str)) =
        [(APP_HTTP, [])] ∧
      ((Buf.zero MAX_HTTP_INFO).stores
          (parseHttpInfo shortRequestFrame 54 shortRequestFrame.len)).str ≠
        httpLine shortRequest := by
  exact ⟨by decide +kernel, by decide +kernel⟩

theorem httpInfo_complete_iff_shortRequestFrame :
    (((Buf.zero MAX_HTTP_INFO).stores
          (parseHttpInfo shortRequestFrame 54 shortRequestFrame.len)).str =
        httpLine shortRequest ↔
        MAX_HTTP_INFO - 1 ≤ shortRequest.length) ∧
      ∀ s c, c.skb = shortRequestFrame → ∀ ev ∈ (processPacket s c).2, ev.appTag = APP_HTTP →
        ev.payloadOff.toNat = 54 →
        (ev.httpInfo.str ≠ [] ↔ MAX_HTTP_INFO - 1 ≤ shortRequest.length) :=
  @httpInfo_complete_iff shortRequestFrame 54 shortRequest ⟨by decide +kernel, by decide +kernel⟩
    (by decide +kernel) (by decide +kernel) (.zero _) (cstr_replicate MAX_HTTP_INFO)

/-! ## Bounds -/

/-- The parsers store to their own arrays only, and every submitted event holds three strings,
whatever the scratch event held. -/
theorem strings_inBounds :
    (∀ skb payloadOff pktEnd,
      InBounds MAX_DNS_NAME (parseDnsName skb payloadOff pktEnd) ∧
        InBounds MAX_HTTP_INFO (parseHttpInfo skb payloadOff pktEnd) ∧
        InBounds MAX_TLS_SNI (parseTlsSni skb payloadOff pktEnd)) ∧
      ∀ s c, ∀ ev ∈ (processPacket s c).2,
        0 ∈ ev.dnsName.bytes ∧ 0 ∈ ev.httpInfo.bytes ∧ 0 ∈ ev.tlsSni.bytes := by
  refine ⟨fun skb payloadOff pktEnd => ⟨?_, ?_, ?_⟩, fun s c ev hev => ?_⟩
  · exact (terminated_parseDnsName skb payloadOff pktEnd).inBounds
  · exact (terminated_parseHttpInfo skb payloadOff pktEnd).inBounds
  · exact inBounds_parseTlsSni skb payloadOff pktEnd
  · obtain ⟨hd, packet, hh, rfl⟩ := mem_processPacket hev
    obtain ⟨hdns, hhttp⟩ := terminated_hintOf c hd
    rw [fill_reset]
    exact ⟨hdns.nul (by decide) _, hhttp.nul (by decide) _, nul_hintOf_sni hh _⟩

/-- A scratch event without a NUL in its strings. -/
def unterminated : Event :=
  { Event.zero with
    dnsName := ⟨List.replicate MAX_DNS_NAME 0xFF, List.length_replicate⟩
    httpInfo := ⟨List.replicate MAX_HTTP_INFO 0xFF, List.length_replicate⟩
    tlsSni := ⟨List.replicate MAX_TLS_SNI 0xFF, List.length_replicate⟩ }

theorem strings_inBounds_unterminated :
    ∃ ev ∈ (processPacket unterminated (sentCall dnsQuery)).2,
      0 ∈ ev.dnsName.bytes ∧ 0 ∈ ev.httpInfo.bytes ∧ 0 ∈ ev.tlsSni.bytes := by
  have hne : (processPacket unterminated (sentCall dnsQuery)).2 ≠ [] := by decide +kernel
  obtain ⟨ev, hev⟩ := List.exists_mem_of_ne_nil _ hne
  exact ⟨ev, hev, strings_inBounds.2 unterminated (sentCall dnsQuery) ev hev⟩

end EbpfTools.Pksniff

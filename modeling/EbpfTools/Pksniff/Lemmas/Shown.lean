import EbpfTools.Pksniff.Lemmas.Capture
import EbpfTools.Pksniff.Lemmas.Sni

/-!
# What an event shows of the packets before it

The scratch event enters a record through its three strings only, and the DNS and HTTP strings are
rewritten as a whole.
-/

namespace EbpfTools.Pksniff
open EbpfTools.Lib EbpfTools.Bpf

/-- The scalar fields of an event and its three strings. -/
def Event.shown (e : Event) : Event × List UInt8 × List UInt8 × List UInt8 :=
  ({ e with dnsName := .zero _, httpInfo := .zero _, tlsSni := .zero _, packet := .zero _ },
    e.dnsName.str, e.httpInfo.str, e.tlsSni.str)

/-! ## What a packet writes to the scratch event -/

structure Hint where
  tag : UInt8
  dns : Stores
  http : Stores
  sni : Stores

/-- The tag and the stores to the three strings. -/
def hint (skb : Skb) (direction : UInt8) (l4 : L4) : Hint :=
  if skb.ipProtocol = IPPROTO_ICMP then ⟨APP_ICMP, [], [], []⟩
  else if skb.ipProtocol = IPPROTO_UDP then
    if l4.srcPort = 53 ∨ l4.dstPort = 53 then
      ⟨APP_DNS, parseDnsName skb l4.payloadOff skb.len, [], []⟩
    else ⟨APP_NONE, [], [], []⟩
  else if skb.ipProtocol = IPPROTO_TCP then
    if l4.srcPort = 443 ∨ l4.dstPort = 443 then
      if tlsOutbound direction l4 then
        ⟨APP_TLS, [], [], parseTlsSni skb l4.payloadOff skb.len⟩
      else ⟨APP_TLS, [], [], []⟩
    else if isHttp skb l4.payloadOff skb.len then
      ⟨APP_HTTP, [], parseHttpInfo skb l4.payloadOff skb.len, []⟩
    else ⟨APP_NONE, [], [], []⟩
  else ⟨APP_NONE, [], [], []⟩

def hintOf (c : Call) : Headers → Hint
  | .arp => ⟨APP_NONE, [], [], []⟩
  | .ipv4 _ l4 => hint c.skb c.direction l4

theorem appHint_eq {e : Event} (h : e.appTag = APP_NONE) (skb : Skb) (direction : UInt8)
    (l4 : L4) :
    appHint e skb direction l4 =
      { e with
        appTag := (hint skb direction l4).tag
        dnsName := e.dnsName.stores (hint skb direction l4).dns
        httpInfo := e.httpInfo.stores (hint skb direction l4).http
        tlsSni := e.tlsSni.stores (hint skb direction l4).sni } := by
  have hnone : e = { e with appTag := APP_NONE } := by rw [← h]
  unfold appHint hint httpHint
  split
  · rfl
  split
  · split
    · rfl
    · exact hnone
  split
  · split
    · split <;> rfl
    · split
      · rfl
      · exact hnone
  · exact hnone

/-- Two scratch events are filled alike up to the strings, `reserved` and the frame bytes. -/
theorem fill_reset (s : Event) (c : Call) (h : Headers) :
    fill (resetScratch s c.direction c.ktime) c h =
      { fill (resetScratch .zero c.direction c.ktime) c h with
        reserved := s.reserved
        dnsName := (s.dnsName.store (0, 0)).stores (hintOf c h).dns
        httpInfo := (s.httpInfo.store (0, 0)).stores (hintOf c h).http
        tlsSni := (s.tlsSni.store (0, 0)).stores (hintOf c h).sni
        packet := s.packet } := by
  cases h with
  | arp => rfl
  | ipv4 l4Off l4 =>
      have hs : ∀ s, (fillIpv4 (resetScratch s c.direction c.ktime) c.skb l4Off l4).appTag =
          APP_NONE := fun _ => rfl
      simp only [fill, hintOf, appHint_eq (hs _)]
      rfl

theorem terminated_hintOf (c : Call) (h : Headers) :
    Terminated MAX_DNS_NAME (hintOf c h).dns ∧ Terminated MAX_HTTP_INFO (hintOf c h).http := by
  have hnil : ∀ n, Terminated n [] := fun _ => Or.inl rfl
  cases h with
  | arp => exact ⟨hnil _, hnil _⟩
  | ipv4 l4Off l4 =>
      simp only [hintOf, hint]
      split
      · exact ⟨hnil _, hnil _⟩
      split
      · split
        · exact ⟨terminated_parseDnsName _ _ _, hnil _⟩
        · exact ⟨hnil _, hnil _⟩
      split
      · split
        · split <;> exact ⟨hnil _, hnil _⟩
        · split
          · exact ⟨hnil _, terminated_parseHttpInfo _ _ _⟩
          · exact ⟨hnil _, hnil _⟩
      · exact ⟨hnil _, hnil _⟩

/-! ## The host name -/

/-- The characters that a call copies to `tls_sni`: at most 16 of the host name in the ClientHello
that is sent on port 443, `none` if there is none. -/
def copiedName (c : Call) : Option (List UInt8) :=
  match headers c.skb with
  | some (.ipv4 _ l4) =>
      if c.skb.ipProtocol = IPPROTO_TCP ∧ (l4.srcPort = 443 ∨ l4.dstPort = 443) ∧
          tlsOutbound c.direction l4 then
        (locateSni c.skb l4.payloadOff c.skb.len).map fun p =>
          (c.skb.bytes.drop p.1).take (min 16 p.2)
      else none
  | _ => none

/-- Nothing that `tls_sni` held before is left in the string: no name is copied, its 15 characters
fill the string or contain a NUL, or the character behind it is a NUL already. -/
def NameCovers (s : Event) (c : Call) : Prop :=
  ∀ name, copiedName c = some name →
    15 ≤ name.length ∨ 0 ∈ name ∨ s.tlsSni.bytes.getD name.length 0 = 0

theorem length_copiedName {c : Call} {name : List UInt8} (h : copiedName c = some name) :
    1 ≤ name.length ∧ name.length ≤ 16 := by
  unfold copiedName at h
  split at h
  · split at h
    · obtain ⟨⟨start, nameLen⟩, hloc, rfl⟩ := Option.map_eq_some_iff.mp h
      obtain ⟨hpos, hend⟩ := locateSni_bounds hloc
      have hlen : c.skb.len = c.skb.bytes.length := rfl
      rw [List.length_take, List.length_drop]
      simp only
      omega
    · cases h
  · cases h

theorem hint_sni (skb : Skb) (direction : UInt8) (l4 : L4) :
    (hint skb direction l4).sni =
      if skb.ipProtocol = IPPROTO_TCP ∧ (l4.srcPort = 443 ∨ l4.dstPort = 443) ∧
          tlsOutbound direction l4 then
        parseTlsSni skb l4.payloadOff skb.len
      else [] := by
  unfold hint
  by_cases hp : skb.ipProtocol = IPPROTO_TCP
  · have hicmp : skb.ipProtocol ≠ IPPROTO_ICMP := by rw [hp]; decide
    have hudp : skb.ipProtocol ≠ IPPROTO_UDP := by rw [hp]; decide
    simp only [if_neg hicmp, if_neg hudp, if_pos hp]
    by_cases hport : l4.srcPort = 443 ∨ l4.dstPort = 443
    · by_cases hout : tlsOutbound direction l4
      · simp only [hp, hport, hout, and_self, if_true]
      · simp only [hp, hport, hout, and_false, if_true, if_false]
    · simp only [hport, false_and, and_false, if_false]
      split <;> rfl
  · simp only [hp, false_and, if_false]
    split
    · rfl
    split
    · split <;> rfl
    · rfl

theorem hintOf_sni {c : Call} {h : Headers} (hh : headers c.skb = some h) :
    (hintOf c h).sni =
      match copiedName c with
      | none => []
      | some name => storesAt 0 name ++ [(15, 0)] := by
  unfold copiedName
  rw [hh]
  cases h with
  | arp => rfl
  | ipv4 l4Off l4 =>
      simp only [hintOf, hint_sni]
      by_cases hp : c.skb.ipProtocol = IPPROTO_TCP ∧ (l4.srcPort = 443 ∨ l4.dstPort = 443) ∧
          tlsOutbound c.direction l4
      · rw [if_pos hp, if_pos hp]
        cases hloc : locateSni c.skb l4.payloadOff c.skb.len with
        | none => rw [parseTlsSni, hloc]; rfl
        | some p => exact parseTlsSni_eq hloc
      · rw [if_neg hp, if_neg hp]

theorem nul_hintOf_sni {c : Call} {h : Headers} (hh : headers c.skb = some h)
    (b : Buf MAX_TLS_SNI) : 0 ∈ ((b.store (0, 0)).stores (hintOf c h).sni).bytes := by
  rw [hintOf_sni hh]
  cases copiedName c with
  | none => exact b.mem_store (by decide) 0
  | some name => exact Buf.mem_stores_concat _ _ (by decide) 0

/-- What the string shows after a name of `1` to `16` characters was copied to it. -/
theorem str_store_name (b : Buf MAX_TLS_SNI) {name : List UInt8} (hpos : 1 ≤ name.length)
    (hle : name.length ≤ 16) :
    ((b.store (0, 0)).stores (storesAt 0 name ++ [(15, 0)])).str =
      cstr ((name ++ b.bytes.drop name.length).take 15) := by
  have hdrop : (b.store (0, 0)).bytes.drop name.length = b.bytes.drop name.length :=
    List.drop_set_of_lt (by omega)
  rw [str_stores_name _ hle, hdrop]

theorem str_store_name_iff (b : Buf MAX_TLS_SNI) {name : List UInt8} (hpos : 1 ≤ name.length)
    (hle : name.length ≤ 16) :
    ((b.store (0, 0)).stores (storesAt 0 name ++ [(15, 0)])).str =
        (((Buf.zero MAX_TLS_SNI).store (0, 0)).stores (storesAt 0 name ++ [(15, 0)])).str ↔
      15 ≤ name.length ∨ 0 ∈ name ∨ b.bytes.getD name.length 0 = 0 := by
  rw [str_store_name b hpos hle, str_store_name _ hpos hle, List.take_append, List.take_append]
  by_cases hlong : 15 ≤ name.length
  · rw [Nat.sub_eq_zero_of_le hlong]
    exact iff_of_true rfl (Or.inl hlong)
  · rw [List.take_of_length_le (show name.length ≤ 15 by omega)]
    by_cases hnul : 0 ∈ name
    · rw [cstr_append_of_mem _ hnul, cstr_append_of_mem _ hnul]
      exact iff_of_true rfl (Or.inr (Or.inl hnul))
    · have hzero : cstr (((Buf.zero MAX_TLS_SNI).bytes.drop name.length).take
          (15 - name.length)) = [] := by
        rw [Buf.zero_bytes, List.drop_replicate, List.take_replicate, cstr_replicate]
      have hlt : name.length < b.bytes.length := by
        rw [b.size_eq]
        exact lt_of_le_of_lt hle (by decide)
      obtain ⟨k, hk⟩ : ∃ k, 15 - name.length = k + 1 := ⟨14 - name.length, by omega⟩
      rw [cstr_append_of_not_mem _ hnul, cstr_append_of_not_mem _ hnul, hzero,
        List.append_cancel_left_eq, hk, List.drop_eq_getElem_cons hlt, List.take_succ_cons]
      have hget : b.bytes.getD name.length 0 = b.bytes[name.length] := by
        simp [List.getD_eq_getElem?_getD, hlt]
      rw [hget]
      constructor
      · intro h
        refine Or.inr (Or.inr ?_)
        by_contra hne
        simp [cstr, hne] at h
      · rintro (h | h | h)
        · exact absurd h hlong
        · exact absurd h hnul
        · rw [h, cstr_zero_cons]

end EbpfTools.Pksniff

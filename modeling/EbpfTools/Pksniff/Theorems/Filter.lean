import EbpfTools.Pksniff.Lemmas.FilterAddress
import EbpfTools.Pksniff.Lemmas.FilterBar

/-!
# What a filter string selects
-/

namespace EbpfTools.Pksniff
open EbpfTools.Lib EbpfTools.Bpf

/-! ## Tokens -/

/-- The filter of several tokens selects what the tokens select together exactly if no address
contains the address text that counts, or the values given for each key agree. -/
theorem tokens_and_iff {toks : List (List UInt8)} (h : ∀ t ∈ toks, IsToken t)
    (hlen : ([32].intercalate toks).length ≤ 127) :
    (∀ e, eventMatches (parseFilterStr ([32].intercalate toks)) e = true ↔
        ∀ t ∈ toks, eventMatches (parseFilterStr t) e = true) ↔
      (∀ x, ¬ strstr (ipStr x) (Key.ip.last toks)) ∨ Agree toks := by
  have hfilter : ∀ e, eventMatches (parseFilterStr ([32].intercalate toks)) e = true ↔
      ∀ k : Key, k.Accepts (k.last toks) (e.aspect k) := by
    intro e
    rw [parseFilterStr_intercalate h hlen, eventMatches_iff]
    simp only [value_foldl]
  simp only [hfilter, eventMatches_tokens_iff h hlen]
  rw [← exists_unaccepted_iff, agree_iff]
  exact last_iff_all (fun k x => accepts_any k x) exists_event

/-- Two ports exclude each other, and the filter selects the events of the second one. -/
theorem tokens_and_iff_ports :
    ¬ ∀ e, eventMatches (parseFilterStr (ascii "port:80 port:443")) e = true ↔
      ∀ t ∈ [ascii "port:80", ascii "port:443"], eventMatches (parseFilterStr t) e = true := by
  have htoks : ∀ t ∈ [ascii "port:80", ascii "port:443"], IsToken t := by decide
  have hsome : strstr (ipStr 0) (Key.ip.last [ascii "port:80", ascii "port:443"]) := by decide
  have hagree : ¬ Agree [ascii "port:80", ascii "port:443"] :=
    fun h => absurd (h.port 80 (by decide)) (by decide)
  intro hall
  cases (tokens_and_iff htoks (by decide)).mp hall with
  | inl hnone => exact hnone 0 hsome
  | inr h => exact hagree h

/-- A packet to port 443 passes "port:80 port:443" and not "port:80". -/
theorem portPair_selects_second :
    ¬ ∀ toks : List (List UInt8), (∀ t ∈ toks, IsToken t) →
      ([32].intercalate toks).length ≤ 127 →
      ∀ e, eventMatches (parseFilterStr ([32].intercalate toks)) e = true ↔
        ∀ t ∈ toks, eventMatches (parseFilterStr t) e = true := by
  intro h
  have hboth := (h [ascii "port:80", ascii "port:443"] (by decide) (by decide)
    { Event.zero with srcPort := 40000, dstPort := 443 }).mp (by decide)
  exact absurd (hboth (ascii "port:80") (by decide)) (by decide)

/-! ## Addresses -/

/-- The filter of an address selects the addresses whose text contains its text, and these are the
address alone exactly if its first octet has three digits and no octet starts with its last one. -/
theorem address_filter_iff (a : UInt32) :
    (∀ e, eventMatches (parseFilterStr (ascii "ip:" ++ ipStr a)) e = true ↔
      Extends a e.srcIp ∨ Extends a e.dstIp) ∧
    ((∀ e, eventMatches (parseFilterStr (ascii "ip:" ++ ipStr a)) e = true ↔
        e.srcIp = a ∨ e.dstIp = a) ↔
      100 ≤ octet a 0 ∧ (octet a 3 = 0 ∨ 26 ≤ octet a 3)) := by
  refine ⟨eventMatches_address_iff a, ?_⟩
  rw [← extends_only_iff]
  simp only [eventMatches_address_iff]
  constructor
  · intro h x hx
    have hboth := (h { Event.zero with srcIp := x, dstIp := x }).mp (Or.inl hx)
    exact hboth.elim id id
  · intro h e
    constructor
    · exact fun he => he.imp (h _) (h _)
    · rintro (he | he)
      · exact Or.inl (he ▸ extends_refl a)
      · exact Or.inr (he ▸ extends_refl a)

/-- The filter of 10.0.0.1 selects the packets of 10.0.0.12. -/
theorem addressFilter_selects_longer :
    ¬ ∀ a e, eventMatches (parseFilterStr (ascii "ip:" ++ ipStr a)) e = true ↔
      e.srcIp = a ∨ e.dstIp = a := by
  intro h
  have hsel := (h 0x0100000A { Event.zero with srcIp := 0x0C00000A, dstIp := 0x0101A8C0 }).mp
    (by decide)
  exact absurd hsel (by decide)

/-! ## Ports -/

/-- The filter of a port numeral selects the events of this port, unless the numeral is above
65535 and either its value in a `long` is a multiple of 65536 or the event has a port that is equal
to it modulo 65536. -/
theorem port_filter_iff {ds : List UInt8} (hds : ∀ d ∈ ds, isDigit d) (hpos : 1 ≤ digitsValue ds)
    (hlen : (ascii "port:" ++ ds).length ≤ 127) :
    let n := digitsValue ds
    let w := min n LONG_MAX % 65536
    (∀ e, (eventMatches (parseFilterStr (ascii "port:" ++ ds)) e = true ↔
        e.srcPort.toNat = n ∨ e.dstPort.toNat = n) ↔
      n ≤ 65535 ∨ w ≠ 0 ∧ e.srcPort.toNat ≠ w ∧ e.dstPort.toNat ≠ w) ∧
    ((∀ e, eventMatches (parseFilterStr (ascii "port:" ++ ds)) e = true ↔
        e.srcPort.toNat = n ∨ e.dstPort.toNat = n) ↔ n ≤ 65535) := by
  intro n w
  have hevent : ∀ e, (eventMatches (parseFilterStr (ascii "port:" ++ ds)) e = true ↔
      e.srcPort.toNat = n ∨ e.dstPort.toNat = n) ↔
        n ≤ 65535 ∨ w ≠ 0 ∧ e.srcPort.toNat ≠ w ∧ e.dstPort.toNat ≠ w := by
    intro e
    have hsrc := e.srcPort.toNat_lt
    have hdst := e.dstPort.toNat_lt
    rw [eventMatches_port_iff hds hlen]
    by_cases hn : n ≤ 65535
    · have hw : w = n := by
        simp only [w, LONG_MAX]
        omega
      change (w = 0 ∨ e.srcPort.toNat = w ∨ e.dstPort.toNat = w ↔ _) ↔ _
      have hne : n ≠ 0 := Nat.one_le_iff_ne_zero.mp hpos
      simp [hw, hne, hn]
    · change (w = 0 ∨ e.srcPort.toNat = w ∨ e.dstPort.toNat = w ↔ _) ↔ _
      omega
  refine ⟨hevent, ?_⟩
  simp only [hevent]
  constructor
  · intro h
    have hports := h { Event.zero with srcPort := .ofNat w, dstPort := .ofNat w }
    have hw : (UInt16.ofNat w).toNat = w := by
      rw [UInt16.toNat_ofNat', Nat.mod_eq_of_lt (Nat.mod_lt _ (by decide))]
    simpa [hw] using hports
  · exact fun h e => Or.inl h

/-- Port 443 is selected as such. -/
theorem port_filter_iff_https :
    eventMatches (parseFilterStr (ascii "port:443"))
        { Event.zero with srcPort := 40000, dstPort := 443 } = true ∧
      eventMatches (parseFilterStr (ascii "port:443"))
        { Event.zero with srcPort := 40000, dstPort := 80 } ≠ true := by
  have hds : (ascii "443").all isDigit := by decide
  have hiff := (port_filter_iff (List.all_eq_true.mp hds) (by decide) (by decide)).2.mpr (by decide)
  exact ⟨(hiff _).mpr (by decide), fun h => absurd ((hiff _).mp h) (by decide)⟩

/-- The numeral 65616 selects port 80. -/
theorem portFilter_wraps :
    ¬ ∀ ds : List UInt8, (∀ d ∈ ds, isDigit d) → 1 ≤ digitsValue ds →
      (ascii "port:" ++ ds).length ≤ 127 →
      ∀ e, eventMatches (parseFilterStr (ascii "port:" ++ ds)) e = true ↔
        e.srcPort.toNat = digitsValue ds ∨ e.dstPort.toNat = digitsValue ds := by
  intro h
  have hds : (ascii "65616").all isDigit := by decide
  have hsel := (h (ascii "65616") (List.all_eq_true.mp hds) (by decide) (by decide)
    { Event.zero with srcPort := 40000, dstPort := 80 }).mp (by decide)
  exact absurd hsel (by decide)

/-! ## The filter bar -/

/-- Whatever string is entered, the filter that is shown for it is the one that is active. -/
theorem parseFilterStr_filterSummary {s : List UInt8} (h : 0 ∉ s) :
    parseFilterStr (filterSummary (parseFilterStr s)) = parseFilterStr s := by
  have hshows := shows_filterSummary (readable_parseFilterStr h)
  have hlen : (filterSummary (parseFilterStr s)).length ≤ 127 := hshows.length_le.trans (by decide)
  rw [parseFilterStr, List.take_of_length_le hlen]
  exact hshows.foldl_eq

theorem parseFilterStr_filterSummary_webFilter :
    parseFilterStr (filterSummary
        (parseFilterStr (ascii "proto:Tcp  ip:192.168.100.200.9 port:0443 app:smtp dir:OUT"))) =
      parseFilterStr (ascii "proto:Tcp  ip:192.168.100.200.9 port:0443 app:smtp dir:OUT") :=
  parseFilterStr_filterSummary (by decide)

example : filterSummary (parseFilterStr (ascii "proto:Tcp  ip:10.0.0.1 port:0443 dir:OUT")) =
    ascii "ip:10.0.0.1 port:443 proto:TCP dir:out" := by
  decide +kernel

end EbpfTools.Pksniff

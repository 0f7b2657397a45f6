import EbpfTools.Lib.Fields
import EbpfTools.Pksniff.Lemmas.FilterTokens

/-!
# Addresses and ports as text
-/

namespace EbpfTools.Pksniff
open EbpfTools.Lib EbpfTools.Bpf

/-! ## Filters of one token -/

/-- A token that sets one key puts the condition of this key only. -/
theorem eventMatches_token_iff {k : Key} {text : List UInt8} {v : k.Value}
    (htok : IsToken (k.word ++ text)) (hlen : (k.word ++ text).length ≤ 127)
    (hread : k.read text = some v) (e : Event) :
    eventMatches (parseFilterStr (k.word ++ text)) e = true ↔ k.Accepts v (e.aspect k) := by
  have hword : k.word.isPrefixOf (k.word ++ text) :=
    List.isPrefixOf_iff_prefix.mpr (List.prefix_append _ _)
  have hself : k.setting (k.word ++ text) = some v := by
    rw [Key.setting, if_pos hword, List.drop_left, hread]
  have hne : ∀ j : Key, j ≠ k → j.setting (k.word ++ text) = none := by
    intro j hj
    rw [Key.setting, if_neg fun h => hj (word_unique h hword)]
  rw [parseFilterStr_token htok hlen, eventMatches_iff]
  simp only [value_parseToken terminated_any]
  constructor
  · intro h
    simpa [hself] using h k
  · intro h j
    by_cases hj : j = k
    · subst hj
      simpa [hself] using h
    · rw [hne j hj]
      exact accepts_any j _

/-! ## Octets in decimal -/

def digit (d : Nat) : UInt8 := UInt8.ofNat (0x30 + d % 10)

theorem digit_inj {a b : Nat} : digit a = digit b ↔ a % 10 = b % 10 := by
  rw [digit, digit, ← UInt8.toNat_inj, UInt8.toNat_ofNat', UInt8.toNat_ofNat']
  omega

theorem toNat_digit (d : Nat) : (digit d).toNat = 48 + d % 10 := by
  rw [digit, UInt8.toNat_ofNat']
  omega

theorem decimal_eq (n : Nat) :
    decimal n = if n < 10 then [digit n] else if n < 100 then [digit (n / 10), digit n]
      else [digit (n / 100), digit (n / 10), digit n] := rfl

/-- The characters of a number are digits. -/
theorem digit_of_mem_decimal {n : Nat} {c : UInt8} (h : c ∈ decimal n) : ∃ d, c = digit d := by
  rw [decimal_eq] at h
  split_ifs at h <;> simp at h
  · exact ⟨_, h⟩
  · exact h.elim (fun h => ⟨_, h⟩) fun h => ⟨_, h⟩
  · exact h.elim (fun h => ⟨_, h⟩) fun h => h.elim (fun h => ⟨_, h⟩) fun h => ⟨_, h⟩

theorem not_mem_decimal {c : UInt8} (h : c.toNat < 48) (n : Nat) : c ∉ decimal n := by
  intro hm
  obtain ⟨d, rfl⟩ := digit_of_mem_decimal hm
  rw [toNat_digit] at h
  omega

theorem length_decimal (n : Nat) :
    (decimal n).length = if n < 10 then 1 else if n < 100 then 2 else 3 := by
  rw [decimal_eq]
  split_ifs <;> rfl

theorem length_decimal_le (n : Nat) : (decimal n).length ≤ 3 := by
  rw [length_decimal]
  split_ifs <;> decide

theorem decimal_inj {a b : Nat} (ha : a < 256) (hb : b < 256) (h : decimal a = decimal b) :
    a = b := by
  have hlen := congrArg List.length h
  rw [length_decimal, length_decimal] at hlen
  rw [decimal_eq, decimal_eq] at h
  split_ifs at h hlen <;> simp [digit_inj] at h hlen <;> omega

/-- No octet ends with another one of three digits, and every shorter one is the end of another
octet. -/
theorem decimal_suffix_iff {a : Nat} (ha : a < 256) :
    (∀ b, b < 256 → decimal a <:+ decimal b → b = a) ↔ 100 ≤ a := by
  constructor
  · intro h
    by_contra hlt
    by_cases hten : a < 10
    · have hsuf : decimal a <:+ decimal (10 + a) := by
        have heq : decimal (10 + a) = [digit ((10 + a) / 10)] ++ decimal a := by
          rw [decimal_eq, decimal_eq, if_neg (by omega), if_pos (by omega), if_pos hten]
          simp [digit_inj]
        exact ⟨_, heq.symm⟩
      have := h (10 + a) (by omega) hsuf
      omega
    · have hsuf : decimal a <:+ decimal (100 + a) := by
        have heq : decimal (100 + a) = [digit ((100 + a) / 100)] ++ decimal a := by
          rw [decimal_eq, decimal_eq, if_neg (by omega), if_neg (by omega), if_neg hten,
            if_pos (by omega)]
          simp [digit_inj]
          omega
        exact ⟨_, heq.symm⟩
      have := h (100 + a) (by omega) hsuf
      omega
  · intro h b hb hsuf
    have hlen : (decimal b).length ≤ (decimal a).length := by
      rw [length_decimal a, if_neg (by omega), if_neg (by omega)]
      exact length_decimal_le b
    exact (decimal_inj ha hb (hsuf.eq_of_length_le hlen)).symm

/-- The octets that no other one starts with. -/
theorem decimal_prefix_iff {a : Nat} (ha : a < 256) :
    (∀ b, b < 256 → decimal a <+: decimal b → b = a) ↔ a = 0 ∨ 26 ≤ a := by
  constructor
  · intro h
    by_contra hno
    -- the number with a zero behind it is an octet, too
    have hpre : decimal a <+: decimal (10 * a) := by
      have heq : decimal (10 * a) = decimal a ++ [digit 0] := by
        rw [decimal_eq, decimal_eq]
        split_ifs <;> simp [digit_inj] <;> omega
      exact ⟨_, heq.symm⟩
    have := h (10 * a) (by omega) hpre
    omega
  · rintro h b hb ⟨t, ht⟩
    by_contra hne
    have hlen := congrArg List.length ht
    rw [List.length_append, length_decimal, length_decimal] at hlen
    rw [decimal_eq, decimal_eq] at ht
    split_ifs at ht hlen <;> simp [digit_inj] at ht hlen <;> omega

/-! ## Addresses -/

/-- The octets in the order in which they are written. -/
def octet (ip : UInt32) (i : Nat) : Nat := ip.toNat / 256 ^ i % 256

theorem octet_lt (ip : UInt32) (i : Nat) : octet ip i < 256 := Nat.mod_lt _ (by decide)

theorem octet_inj {x y : UInt32} (h : ∀ i, i < 4 → octet x i = octet y i) : x = y := by
  have hx := x.toNat_lt
  have hy := y.toNat_lt
  have h0 := h 0 (by decide)
  have h1 := h 1 (by decide)
  have h2 := h 2 (by decide)
  have h3 := h 3 (by decide)
  simp only [octet] at h0 h1 h2 h3
  rw [← UInt32.toNat_inj]
  omega

/-- An address with given octets. -/
theorem exists_octets {a b c d : Nat} (ha : a < 256) (hb : b < 256) (hc : c < 256)
    (hd : d < 256) :
    ∃ x : UInt32, octet x 0 = a ∧ octet x 1 = b ∧ octet x 2 = c ∧ octet x 3 = d := by
  refine ⟨.ofNat (a + 256 * b + 65536 * c + 16777216 * d), ?_⟩
  simp only [octet, UInt32.toNat_ofNat']
  omega

theorem ipStr_eq (ip : UInt32) :
    ipStr ip = [46].intercalate (decimal (octet ip 0) ::
      ([decimal (octet ip 1), decimal (octet ip 2)] ++ [decimal (octet ip 3)])) := by
  have hlast : ip.toNat / 2 ^ 24 = octet ip 3 := by
    have := ip.toNat_lt
    simp only [octet]
    omega
  rw [ipStr, hlast]
  simp [octet]

theorem length_ipStr_le (ip : UInt32) : (ipStr ip).length ≤ 15 := by
  have h := fun i => length_decimal_le (octet ip i)
  have h0 := h 0
  have h1 := h 1
  have h2 := h 2
  have h3 := h 3
  simp only [ipStr_eq, List.cons_append, List.nil_append, List.intercalate_cons_cons,
    List.intercalate_singleton, List.length_append, List.length_cons, List.length_nil]
  omega

theorem not_mem_ipStr {c : UInt8} (h : c.toNat < 48) (hdot : c ≠ 46) (ip : UInt32) :
    c ∉ ipStr ip := by
  simp [ipStr, not_mem_decimal h, hdot]

/-- The texts of the addresses that contain the text of `a`: the first octet ends with that of `a`,
the last one starts with it, and the octets between are the same. -/
def Extends (a x : UInt32) : Prop :=
  decimal (octet a 0) <:+ decimal (octet x 0) ∧ octet x 1 = octet a 1 ∧ octet x 2 = octet a 2 ∧
    decimal (octet a 3) <+: decimal (octet x 3)

theorem strstr_ipStr_iff (a x : UInt32) : strstr (ipStr x) (ipStr a) ↔ Extends a x := by
  have hdot : ∀ (ip : UInt32) t, t ∈ decimal (octet ip 0) ::
      ([decimal (octet ip 1), decimal (octet ip 2)] ++ [decimal (octet ip 3)]) → 46 ∉ t := by
    intro ip t ht
    simp only [List.cons_append, List.nil_append, List.mem_cons, List.not_mem_nil, or_false] at ht
    rcases ht with rfl | rfl | rfl | rfl <;> exact not_mem_decimal (by decide) _
  have hlen : [decimal (octet a 1), decimal (octet a 2)].length =
      [decimal (octet x 1), decimal (octet x 2)].length := rfl
  rw [strstr, decide_eq_true_eq, ipStr_eq, ipStr_eq,
    infix_intercalate_iff hlen (hdot a) (hdot x), Extends]
  simp only [List.cons.injEq, and_true]
  constructor
  · rintro ⟨hfirst, ⟨h1, h2⟩, hlast⟩
    exact ⟨hfirst, (decimal_inj (octet_lt a 1) (octet_lt x 1) h1).symm,
      (decimal_inj (octet_lt a 2) (octet_lt x 2) h2).symm, hlast⟩
  · rintro ⟨hfirst, h1, h2, hlast⟩
    exact ⟨hfirst, ⟨by rw [h1], by rw [h2]⟩, hlast⟩

theorem extends_refl (a : UInt32) : Extends a a :=
  ⟨List.suffix_rfl, rfl, rfl, List.prefix_rfl⟩

/-- The addresses whose text no other address contains. -/
theorem extends_only_iff (a : UInt32) :
    (∀ x, Extends a x → x = a) ↔ 100 ≤ octet a 0 ∧ (octet a 3 = 0 ∨ 26 ≤ octet a 3) := by
  rw [← decimal_suffix_iff (octet_lt a 0), ← decimal_prefix_iff (octet_lt a 3)]
  constructor
  · intro h
    constructor
    · intro b hb hsuf
      obtain ⟨x, h0, h1, h2, h3⟩ := exists_octets hb (octet_lt a 1) (octet_lt a 2) (octet_lt a 3)
      have hx := h x ⟨by rwa [h0], h1, h2, by rw [h3]⟩
      rw [← h0, hx]
    · intro b hb hpre
      obtain ⟨x, h0, h1, h2, h3⟩ := exists_octets (octet_lt a 0) (octet_lt a 1) (octet_lt a 2) hb
      have hx := h x ⟨by rw [h0], h1, h2, by rwa [h3]⟩
      rw [← h3, hx]
  · rintro ⟨hfirst, hlast⟩ x ⟨hsuf, h1, h2, hpre⟩
    have h0 := hfirst _ (octet_lt x 0) hsuf
    have h3 := hlast _ (octet_lt x 3) hpre
    refine octet_inj fun i hi => ?_
    match i, hi with
    | 0, _ => exact h0
    | 1, _ => exact h1
    | 2, _ => exact h2
    | 3, _ => exact h3

/-- The filter of one address. -/
theorem eventMatches_address_iff (a : UInt32) (e : Event) :
    eventMatches (parseFilterStr (ascii "ip:" ++ ipStr a)) e = true ↔
      Extends a e.srcIp ∨ Extends a e.dstIp := by
  have hlen := length_ipStr_le a
  have htok : IsToken (Key.ip.word ++ ipStr a) := by
    refine ⟨by simp [Key.word, ascii], ?_⟩
    rw [List.mem_append, not_or]
    exact ⟨by decide, not_mem_ipStr (by decide) (by decide) a⟩
  have hread : Key.ip.read (ipStr a) = some (ipStr a) := by
    rw [Key.read, show INET_ADDRSTRLEN - 1 = 15 from rfl, List.take_of_length_le hlen,
      cstr_eq_self (not_mem_ipStr (by decide) (by decide) a)]
  have hword : (Key.ip.word ++ ipStr a).length ≤ 127 := by
    rw [List.length_append, show Key.ip.word.length = 3 from rfl]
    omega
  have hkey := eventMatches_token_iff htok hword hread e
  rwa [Key.Accepts, strstr_ipStr_iff, strstr_ipStr_iff] at hkey

/-! ## Ports -/

/-- The filter of one port numeral: the value that fits a `long` is cut to 16 bits. -/
theorem eventMatches_port_iff {ds : List UInt8} (hds : ∀ d ∈ ds, isDigit d)
    (hlen : (ascii "port:" ++ ds).length ≤ 127) (e : Event) :
    eventMatches (parseFilterStr (ascii "port:" ++ ds)) e = true ↔
      min (digitsValue ds) LONG_MAX % 65536 = 0 ∨
      e.srcPort.toNat = min (digitsValue ds) LONG_MAX % 65536 ∨
      e.dstPort.toNat = min (digitsValue ds) LONG_MAX % 65536 := by
  have htok : IsToken (Key.port.word ++ ds) := by
    refine ⟨by simp [Key.word, ascii], ?_⟩
    rw [List.mem_append, not_or]
    exact ⟨by decide, fun h => absurd (hds 32 h) (by decide)⟩
  have hvalue : (atoi ds).toUInt32.toUInt16.toNat = min (digitsValue ds) LONG_MAX % 65536 := by
    rw [atoi, strtol_of_digits hds, toNat_toUInt16_ofInt]
  have hkey := eventMatches_token_iff (v := (atoi ds).toUInt32.toUInt16) htok hlen rfl e
  rw [Key.Accepts, ← UInt16.toNat_inj, ← UInt16.toNat_inj, ← UInt16.toNat_inj, hvalue] at hkey
  exact hkey

end EbpfTools.Pksniff

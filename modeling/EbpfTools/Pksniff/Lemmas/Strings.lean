import EbpfTools.Pksniff.ProcessPacket

/-!
# What the parsers store

The DNS and HTTP parsers write a string from the start of its array and terminate it; the TLS
parser writes up to 16 characters of a host name and a NUL at index 15.
-/

namespace EbpfTools.Pksniff
open EbpfTools.Lib EbpfTools.Bpf

/-- Stores that leave the array alone or hold a terminated string in it. -/
def Terminated (n : Nat) (ws : Stores) : Prop :=
  ws = [] ∨ ∃ cs : List UInt8, cs.length < n ∧ ws = storesAt 0 cs ++ [(cs.length, 0)]

theorem Terminated.str_eq {n : Nat} {ws : Stores} (h : Terminated n ws) (b₁ b₂ : Buf n) :
    ((b₁.store (0, 0)).stores ws).str = ((b₂.store (0, 0)).stores ws).str := by
  rcases h with rfl | ⟨cs, hlen, rfl⟩
  · rw [Buf.stores_nil, Buf.stores_nil, Buf.str_store_zero, Buf.str_store_zero]
  · rw [Buf.str_stores_terminated _ hlen, Buf.str_stores_terminated _ hlen]

theorem Terminated.inBounds {n : Nat} {ws : Stores} (h : Terminated n ws) : InBounds n ws := by
  rcases h with rfl | ⟨cs, hlen, rfl⟩
  · exact inBounds_nil n
  · exact (inBounds_storesAt (by omega)).concat hlen 0

/-- An array that starts with a NUL holds one after such stores. -/
theorem Terminated.nul {n : Nat} {ws : Stores} (h : Terminated n ws) (hn : 0 < n) (b : Buf n) :
    0 ∈ ((b.store (0, 0)).stores ws).bytes := by
  rcases h with rfl | ⟨cs, hlen, rfl⟩
  · exact b.mem_store hn 0
  · exact Buf.mem_stores_concat _ _ hlen 0

/-! ## DNS -/

/-- At most `k` characters appended at `outPos`. -/
def Appends (outPos k : Nat) (r : Stores × Nat) : Prop :=
  ∃ cs : List UInt8, cs.length ≤ k ∧ r = (storesAt outPos cs, outPos + cs.length)

theorem Appends.nil (outPos k : Nat) : Appends outPos k ([], outPos) :=
  ⟨[], Nat.zero_le k, rfl⟩

theorem Appends.mono {outPos k k' : Nat} {r : Stores × Nat} (h : Appends outPos k r)
    (hk : k ≤ k') : Appends outPos k' r := by
  obtain ⟨cs, hlen, he⟩ := h
  exact ⟨cs, le_trans hlen hk, he⟩

theorem Appends.append {outPos k k' : Nat} {r r' : Stores × Nat} (h : Appends outPos k r)
    (h' : Appends r.2 k' r') : Appends outPos (k + k') (r.1 ++ r'.1, r'.2) := by
  obtain ⟨cs, hlen, rfl⟩ := h
  obtain ⟨cs', hlen', rfl⟩ := h'
  refine ⟨cs ++ cs', ?_, ?_⟩
  · rw [List.length_append]
    omega
  · simp only [storesAt_append, List.length_append, Nat.add_assoc]

theorem appends_dnsChar (skb : Skb) (pos outPos : Nat) (copied : Bool) :
    Appends outPos 1 (dnsChar skb pos outPos copied) := by
  unfold dnsChar
  split
  · split
    · rename_i ch _
      exact ⟨[ch], le_refl 1, rfl⟩
    · exact Appends.nil outPos 1
  · exact Appends.nil outPos 1

theorem appends_dnsLabel (skb : Skb) (pos len outPos : Nat) :
    Appends outPos 4 (dnsLabel skb pos len outPos) :=
  (((appends_dnsChar skb pos outPos _).append (appends_dnsChar skb (pos + 1) _ _)).append
    (appends_dnsChar skb (pos + 2) _ _)).append (appends_dnsChar skb (pos + 3) _ _)

/-- A label adds at most a dot and four characters. -/
theorem appends_dnsLabels (skb : Skb) (pktEnd left label pos outPos : Nat) :
    Appends outPos (5 * left) (dnsLabels skb pktEnd left label pos outPos) := by
  induction left generalizing label pos outPos with
  | zero => exact Appends.nil outPos 0
  | succ left ih =>
      let dot : Stores := if label > 0 ∧ outPos < MAX_DNS_NAME - 1 then [(outPos, 0x2E)] else []
      have hdot : Appends outPos 1 (dot, outPos + dot.length) := by
        simp only [dot]
        split
        · exact ⟨[0x2E], le_refl 1, rfl⟩
        · exact Appends.nil outPos 1
      rw [dnsLabels]
      split
      · exact Appends.nil _ _
      split
      · exact Appends.nil _ _
      split
      · exact Appends.nil _ _
      split
      · exact Appends.nil _ _
      rename_i len _ _ _
      by_cases hend : pos + 1 + len.toNat > pktEnd
      · rw [if_pos hend]
        exact hdot.mono (by omega)
      · rw [if_neg hend]
        have hlabel := hdot.append (appends_dnsLabel skb (pos + 1) len.toNat _)
        exact (hlabel.append (ih (label + 1) (pos + 1 + len.toNat) _)).mono (by omega)

theorem terminated_parseDnsName (skb : Skb) (off pktEnd : Nat) :
    Terminated MAX_DNS_NAME (parseDnsName skb off pktEnd) := by
  obtain ⟨cs, hlen, he⟩ := appends_dnsLabels skb pktEnd 8 0 (off + 12) 0
  have hlt : cs.length < MAX_DNS_NAME := lt_of_le_of_lt hlen (by decide)
  refine Or.inr ⟨cs, hlt, ?_⟩
  simp only [parseDnsName, he, Nat.zero_add, if_pos hlt]

/-! ## HTTP -/

theorem terminated_parseHttpInfo (skb : Skb) (payloadOff pktEnd : Nat) :
    Terminated MAX_HTTP_INFO (parseHttpInfo skb payloadOff pktEnd) := by
  unfold parseHttpInfo
  dsimp only
  generalize (if payloadOff + (MAX_HTTP_INFO - 1) > pktEnd then u32sub pktEnd payloadOff
    else MAX_HTTP_INFO - 1) = copy
  split
  · exact Or.inl rfl
  split
  · exact Or.inl rfl
  · rename_i tmp hload
    obtain ⟨hlen, -⟩ := Skb.loadBytes_length hload
    refine Or.inr ⟨tmp.map fun c => if c = 0x0D ∨ c = 0x0A then 0x20 else c, ?_, ?_⟩
    · rw [List.length_map, hlen]
      decide
    · rw [List.length_map, hlen]

end EbpfTools.Pksniff

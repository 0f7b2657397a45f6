import EbpfTools.Pksniff.Lemmas.Strings

/-!
# The host name that is copied
-/

namespace EbpfTools.Pksniff
open EbpfTools.Lib EbpfTools.Bpf

/-! ## Where the host name is -/

theorem sniHostName_bounds {skb : Skb} {pos extEnd start nameLen : Nat}
    (h : sniHostName skb pos extEnd = some (start, nameLen)) :
    1 ≤ nameLen ∧ start + nameLen ≤ extEnd := by
  simp only [sniHostName, Option.bind_eq_bind, Option.bind_eq_some_iff, Option.guard_eq_some'] at h
  obtain ⟨-, -, sniHdr, -, -, hne, -, hend, he⟩ := h
  obtain ⟨rfl, rfl⟩ := Prod.mk.inj (Option.some.inj he)
  refine ⟨?_, hend⟩
  split
  · decide
  · omega

theorem sniWalk_bounds {skb : Skb} {extEnd left pos start nameLen : Nat}
    (h : sniWalk skb extEnd left pos = some (start, nameLen)) :
    1 ≤ nameLen ∧ start + nameLen ≤ extEnd := by
  induction left generalizing pos with
  | zero => cases h
  | succ left ih =>
      rw [sniWalk] at h
      split at h
      · cases h
      split at h
      · cases h
      split at h
      · exact sniHostName_bounds h
      · exact ih h

theorem tlsExtensions_le {skb : Skb} {payloadOff pktEnd pos extEnd : Nat}
    (h : tlsExtensions skb payloadOff pktEnd = some (pos, extEnd)) : extEnd ≤ pktEnd := by
  simp only [tlsExtensions, Option.bind_eq_bind, Option.bind_eq_some_iff, Option.guard_eq_some'] at h
  obtain ⟨_, _, _, _, _, _, _, _, _, _, _, _, _, _, _, _, _, _, _, _, _, _, he⟩ := h
  obtain ⟨rfl, rfl⟩ := Prod.mk.inj (Option.some.inj he)
  split <;> omega

/-- A host name is not empty and lies before the end of the packet. -/
theorem locateSni_bounds {skb : Skb} {payloadOff pktEnd start nameLen : Nat}
    (h : locateSni skb payloadOff pktEnd = some (start, nameLen)) :
    1 ≤ nameLen ∧ start + nameLen ≤ pktEnd := by
  obtain ⟨⟨pos, extEnd⟩, hext, hwalk⟩ := Option.bind_eq_some_iff.mp h
  obtain ⟨hpos, hend⟩ := sniWalk_bounds hwalk
  exact ⟨hpos, le_trans hend (tlsExtensions_le hext)⟩

/-! ## The copy -/

theorem sniCopy_eq (skb : Skb) (start nameLen left c : Nat) :
    sniCopy skb start nameLen left c =
      storesAt c ((skb.bytes.drop (start + c)).take (min left (nameLen - c))) := by
  induction left generalizing c with
  | zero => simp [sniCopy, storesAt]
  | succ left ih =>
      rw [sniCopy]
      split
      · rw [show min (left + 1) (nameLen - c) = 0 by omega]
        rfl
      · by_cases hlt : start + c < skb.len
        · rw [Skb.loadByte_eq_some hlt, ih (c + 1), Skb.drop_eq_cons hlt,
            show min (left + 1) (nameLen - c) = min left (nameLen - (c + 1)) + 1 by omega]
          rfl
        · have hdef : skb.len = skb.bytes.length := rfl
          have hnone : skb.loadByte (start + c) = none := by
            rw [Skb.loadByte, Skb.loadBytes_eq_none (by omega)]
            rfl
          rw [hnone, List.drop_eq_nil_of_le (by omega), List.take_nil]
          rfl

theorem parseTlsSni_eq {skb : Skb} {payloadOff pktEnd start nameLen : Nat}
    (h : locateSni skb payloadOff pktEnd = some (start, nameLen)) :
    parseTlsSni skb payloadOff pktEnd =
      storesAt 0 ((skb.bytes.drop start).take (min 16 nameLen)) ++ [(15, 0)] := by
  rw [parseTlsSni, h]
  simp only [sniCopy_eq, Nat.add_zero, Nat.sub_zero]

/-- The copy stops after 16 characters, whatever the length of the name. -/
theorem inBounds_parseTlsSni (skb : Skb) (payloadOff pktEnd : Nat) :
    InBounds MAX_TLS_SNI (parseTlsSni skb payloadOff pktEnd) := by
  cases h : locateSni skb payloadOff pktEnd with
  | none =>
      rw [parseTlsSni, h]
      exact inBounds_nil MAX_TLS_SNI
  | some p =>
      have hlen : ((skb.bytes.drop p.1).take (min 16 p.2)).length ≤ 16 :=
        le_trans (List.length_take_le _ _) (Nat.min_le_left _ _)
      rw [parseTlsSni_eq h]
      refine (inBounds_storesAt ?_).concat (by decide) 0
      exact le_trans (by omega) (show 16 ≤ MAX_TLS_SNI by decide)

/-- A name of at most 16 characters is followed by what the array held before, up to index 15. -/
theorem str_stores_name (b : Buf MAX_TLS_SNI) {name : List UInt8} (h : name.length ≤ 16) :
    (b.stores (storesAt 0 name ++ [(15, 0)])).str =
      cstr ((name ++ b.bytes.drop name.length).take 15) := by
  have hname : (b.stores (storesAt 0 name)).bytes = name ++ b.bytes.drop name.length := by
    rw [Buf.stores_storesAt b 0 name (le_trans (by omega) (show 16 ≤ MAX_TLS_SNI by decide))]
    simp
  have hlen : 15 < (name ++ b.bytes.drop name.length).length := by
    rw [← hname, (b.stores (storesAt 0 name)).size_eq]
    decide
  have hset : (b.stores (storesAt 0 name ++ [(15, 0)])).bytes =
      (name ++ b.bytes.drop name.length).set 15 0 := by
    rw [Buf.stores_append, ← hname]
    rfl
  rw [Buf.str, hset, List.set_eq_take_append_cons_drop, if_pos hlen, cstr_append_zero]

/-! ## A zeroed array -/

theorem str_parseTlsSni_of_none {skb : Skb} {payloadOff pktEnd : Nat}
    (h : locateSni skb payloadOff pktEnd = none) :
    ((Buf.zero MAX_TLS_SNI).stores (parseTlsSni skb payloadOff pktEnd)).str = [] := by
  rw [parseTlsSni, h]
  exact cstr_replicate MAX_TLS_SNI

theorem str_parseTlsSni_of_some {skb : Skb} {payloadOff pktEnd start nameLen : Nat}
    (h : locateSni skb payloadOff pktEnd = some (start, nameLen)) :
    ((Buf.zero MAX_TLS_SNI).stores (parseTlsSni skb payloadOff pktEnd)).str =
      cstr (((skb.bytes.drop start).take (min 16 nameLen)).take 15) := by
  have hle : ((skb.bytes.drop start).take (min 16 nameLen)).length ≤ 16 :=
    le_trans (List.length_take_le _ _) (Nat.min_le_left _ _)
  rw [parseTlsSni_eq h, str_stores_name _ hle, List.take_append, Buf.zero_bytes,
    List.drop_replicate, List.take_replicate, cstr_append_replicate]

end EbpfTools.Pksniff

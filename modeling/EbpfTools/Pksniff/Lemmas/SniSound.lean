import EbpfTools.Lib.ClientHello
import EbpfTools.Pksniff.Lemmas.Sni

/-!
# Where a reported host name comes from

What the TLS parser reads of a payload that need not be well formed, in terms of the payload bytes.
-/

namespace EbpfTools.Pksniff
open EbpfTools.Lib EbpfTools.Bpf

variable {skb : Skb} {off pktEnd : Nat}

/-- The bytes of a segment behind its headers. -/
def payload (skb : Skb) (off : Nat) : List UInt8 := skb.bytes.drop off

/-! ## Loads -/

theorem getD_payload (skb : Skb) (off i : Nat) : (payload skb off).getD i 0 = skb.byte (off + i) := by
  rw [payload, Skb.byte, List.getD_eq_getElem?_getD, List.getElem?_drop,
    List.getD_eq_getElem?_getD]

theorem getD_loadBytes {pos n : Nat} {bs : List UInt8} (h : skb.loadBytes pos n = some bs) {i : Nat}
    (hi : i < n) : bs.getD i 0 = skb.byte (pos + i) := by
  obtain ⟨-, hle⟩ := Skb.loadBytes_length h
  rw [Skb.loadBytes_eq_some hle] at h
  cases h
  rw [List.getD_eq_getElem?_getD, List.getElem?_take_of_lt hi, List.getElem?_drop, Skb.byte,
    List.getD_eq_getElem?_getD]

theorem be16_loadBytes {i n : Nat} {bs : List UInt8} (h : skb.loadBytes (off + i) n = some bs)
    {k : Nat} (hk : k + 1 < n) : be16 bs k = be16 (payload skb off) (i + k) := by
  rw [be16, be16, getD_loadBytes h (by omega), getD_loadBytes h hk, getD_payload, getD_payload]
  simp only [Nat.add_assoc]

theorem loadByte_eq {i : Nat} {b : UInt8} (h : skb.loadByte (off + i) = some b) :
    b = (payload skb off).getD i 0 := by
  obtain ⟨bs, hload, rfl⟩ := Option.map_eq_some_iff.mp h
  rw [getD_loadBytes hload Nat.one_pos, getD_payload]
  rfl

/-! ## The length fields -/

theorem tlsExtensions_eq_some {pos extEnd : Nat}
    (h : tlsExtensions skb off pktEnd = some (pos, extEnd)) :
    (payload skb off).getD 0 0 = 0x16 ∧ (payload skb off).getD 5 0 = 0x01 ∧
      pos = off + extensionsAt (payload skb off) ∧
      extEnd ≤ off + extensionsEnd (payload skb off) := by
  simp only [tlsExtensions, Option.bind_eq_bind, Option.bind_eq_some_iff, Option.guard_eq_some',
    exists_and_left, exists_const] at h
  obtain ⟨-, hdr, hhdr, ⟨h₀, h₅⟩, -, sid, hsid, -, cs, hcs, -, cm, hcm, -, tot, htot, he⟩ := h
  have hpos₀ : off + 5 + 4 + 2 + 32 = off + 43 := rfl
  rw [hpos₀] at hsid
  have hpos₁ : off + 5 + 4 + 2 + 32 + (1 + sid.toNat) = off + (44 + sid.toNat) := by omega
  rw [hpos₁] at hcs
  have hlen₁ : be16 cs 0 = be16 (payload skb off) (44 + sid.toNat) :=
    be16_loadBytes hcs Nat.one_lt_two
  have hpos₂ : off + (44 + sid.toNat) + (2 + be16 cs 0) =
      off + (44 + sid.toNat + 2 + be16 cs 0) := by omega
  rw [hpos₁, hpos₂] at hcm
  have hpos₃ : off + (44 + sid.toNat + 2 + be16 cs 0) + (1 + cm.toNat) =
      off + (44 + sid.toNat + 2 + be16 cs 0 + 1 + cm.toNat) := by omega
  rw [hpos₁, hpos₂, hpos₃] at htot he
  have hlen₂ : be16 tot 0 =
      be16 (payload skb off) (44 + sid.toNat + 2 + be16 cs 0 + 1 + cm.toNat) :=
    be16_loadBytes htot Nat.one_lt_two
  obtain ⟨rfl, rfl⟩ := Prod.mk.inj (Option.some.inj he)
  have hstart : extensionsAt (payload skb off) =
      44 + sid.toNat + 2 + be16 cs 0 + 1 + cm.toNat + 2 := by
    rw [extensionsAt, ← loadByte_eq hsid, ← hlen₁, ← loadByte_eq hcm]
  refine ⟨?_, ?_, by rw [hstart]; rfl, ?_⟩
  · rw [getD_payload, ← h₀, getD_loadBytes hhdr (by omega)]
  · rw [getD_payload, ← h₅, getD_loadBytes hhdr (by omega)]
  · rw [extensionsEnd, hstart, Nat.add_sub_cancel, ← hlen₂]
    split <;> omega

/-! ## The extension walk -/

/-- A host name is taken from five bytes behind the start of the extension data, if the frame and
the extension block both hold these and the name, or 63 bytes of it. -/
theorem sniHostName_eq_some_iff {i extEnd start nameLen : Nat} :
    sniHostName skb (off + i) extEnd = some (start, nameLen) ↔
      off + (i + 5) ≤ skb.len ∧ be16 (payload skb off) (i + 3) ≠ 0 ∧
        nameLen = min (be16 (payload skb off) (i + 3)) (MAX_TLS_SNI - 1) ∧
        start = off + (i + 5) ∧ start + nameLen ≤ extEnd := by
  have hmin : ∀ n, (if n ≥ MAX_TLS_SNI then MAX_TLS_SNI - 1 else n) = min n (MAX_TLS_SNI - 1) := by
    intro n
    split <;> omega
  simp only [sniHostName, hmin, Option.bind_eq_bind, Option.bind_eq_some_iff, Option.guard_eq_some',
    exists_and_left, exists_const]
  constructor
  · rintro ⟨-, hdr, hload, hne, hend, he⟩
    obtain ⟨rfl, rfl⟩ := Prod.mk.inj (Option.some.inj he)
    have hlen : be16 hdr 3 = be16 (payload skb off) (i + 3) := be16_loadBytes hload (by omega)
    obtain ⟨-, hframe⟩ := Skb.loadBytes_length hload
    rw [hlen] at hne hend ⊢
    exact ⟨by omega, hne, rfl, by omega, hend⟩
  · rintro ⟨hframe, hne, rfl, rfl, hend⟩
    have hload := Skb.loadBytes_eq_some (show off + i + 5 ≤ skb.len by omega)
    have hlen := @be16_loadBytes skb off i 5 _ hload 3 (by omega)
    refine ⟨by omega, _, hload, ?_⟩
    rw [hlen]
    exact ⟨hne, by omega, by rw [Nat.add_assoc]; rfl⟩

theorem sniWalk_eq_some {extEnd left i start nameLen : Nat}
    (h : sniWalk skb extEnd left (off + i) = some (start, nameLen)) :
    ∃ j, LeadsToWithin (payload skb off) left i j ∧ be16 (payload skb off) j = 0 ∧
      sniHostName skb (off + (j + 4)) extEnd = some (start, nameLen) := by
  induction left generalizing i with
  | zero => cases h
  | succ left ih =>
      rw [sniWalk] at h
      split at h
      · cases h
      split at h
      · cases h
      rename_i etype hload
      have htype : be16 etype 0 = be16 (payload skb off) i := be16_loadBytes hload (by omega)
      have hlen : be16 etype 2 = be16 (payload skb off) (i + 2) := be16_loadBytes hload (by omega)
      split at h
      · rename_i hzero
        exact ⟨i, .here left i, htype.symm.trans hzero, h⟩
      · rename_i hne
        rw [htype] at hne
        rw [hlen, show off + i + 4 + be16 (payload skb off) (i + 2) =
          off + (i + 4 + be16 (payload skb off) (i + 2)) by omega] at h
        obtain ⟨j, hj, hname⟩ := ih h
        exact ⟨j, .skip hne hj, hname⟩

/-- The walk comes to the extension at `j` if the frame and the block hold what is before it. -/
theorem sniWalk_of_leadsTo {extEnd left i j : Nat} (h : LeadsToWithin (payload skb off) left i j)
    (hzero : be16 (payload skb off) j = 0) (hend : off + j + 4 ≤ extEnd)
    (hframe : off + j + 4 ≤ skb.len) :
    sniWalk skb extEnd left (off + i) = sniHostName skb (off + (j + 4)) extEnd := by
  induction h with
  | here left i =>
      have hload := Skb.loadBytes_eq_some hframe
      have htype := @be16_loadBytes skb off i 4 _ hload 0 (by omega)
      rw [Nat.add_zero, hzero] at htype
      rw [sniWalk, if_neg (by omega), hload]
      simp only [htype, if_true]
      rfl
  | @skip left i j hne hj ih =>
      have hle := hj.le
      have hload := Skb.loadBytes_eq_some (show off + i + 4 ≤ skb.len by omega)
      have htype := @be16_loadBytes skb off i 4 _ hload 0 (by omega)
      have hlen := @be16_loadBytes skb off i 4 _ hload 2 (by omega)
      rw [Nat.add_zero] at htype
      rw [sniWalk, if_neg (by omega), hload]
      simp only [htype, hlen, if_neg hne]
      rw [← ih hzero hend hframe]
      congr 1
      omega

/-- The host name that is located is that of the first server_name extension. -/
theorem locateSni_eq_some {start nameLen : Nat}
    (h : locateSni skb off pktEnd = some (start, nameLen)) :
    ∃ j, ServerNameAt (payload skb off) j ∧ j + 9 ≤ (payload skb off).length ∧
      j + 9 ≤ extensionsEnd (payload skb off) ∧ start = off + (j + 9) ∧
      nameLen ≤ be16 (payload skb off) (j + 7) := by
  obtain ⟨⟨pos, extEnd⟩, hext, hwalk⟩ := Option.bind_eq_some_iff.mp h
  obtain ⟨h₀, h₅, rfl, hend⟩ := tlsExtensions_eq_some hext
  obtain ⟨j, hreach, htype, hname⟩ := sniWalk_eq_some hwalk
  obtain ⟨hframe, -, rfl, rfl, hblock⟩ := sniHostName_eq_some_iff.mp hname
  have hdef : skb.len = skb.bytes.length := rfl
  refine ⟨j, ⟨h₀, h₅, hreach.leadsTo, htype⟩, ?_, by omega, by omega, Nat.min_le_left _ _⟩
  rw [payload, List.length_drop]
  omega

/-! ## The reported name -/

/-- What `parse_tls_sni` leaves in a zeroed array. -/
def reportedSni (skb : Skb) (off pktEnd : Nat) : List UInt8 :=
  ((Buf.zero MAX_TLS_SNI).stores (parseTlsSni skb off pktEnd)).str

theorem reportedSni_of_none (h : locateSni skb off pktEnd = none) :
    reportedSni skb off pktEnd = [] :=
  str_parseTlsSni_of_none h

theorem reportedSni_of_some {start nameLen : Nat}
    (h : locateSni skb off pktEnd = some (start, nameLen)) :
    reportedSni skb off pktEnd <+: (skb.bytes.drop start).take nameLen := by
  rw [reportedSni, str_parseTlsSni_of_some h]
  refine (List.takeWhile_prefix _).trans ((List.take_prefix 15 _).trans ?_)
  exact List.take_prefix_take_left (Nat.min_le_right 16 nameLen)

theorem showsHostName_iff {start nameLen j : Nat}
    (h : locateSni skb off pktEnd = some (start, nameLen)) (hj : ServerNameAt (payload skb off) j) :
    ShowsHostName (payload skb off) (reportedSni skb off pktEnd) ↔
      HostNameInside (payload skb off) j := by
  constructor
  · intro hshows
    by_contra hn
    exact not_showsHostName hj hn hshows
  · intro hinside
    obtain ⟨k, hk, hframe, hblock, rfl, hlen⟩ := locateSni_eq_some h
    obtain rfl := hj.unique hk
    refine ⟨j, hj, hframe, hblock, hinside, (reportedSni_of_some h).trans ?_⟩
    rw [payload, List.drop_drop]
    exact List.take_prefix_take_left hlen

end EbpfTools.Pksniff

import EbpfTools.Pksniff.Lemmas.SniSound

/-!
# The TLS parser on a ClientHello
-/

namespace EbpfTools.Pksniff
open EbpfTools.Lib EbpfTools.Bpf

/-! ## The fields of variable length -/

/-- What is taken for the extension block at `pos`. -/
def blockAt (skb : Skb) (pos : Nat) : Option (Nat × Nat) := do
  guard (pos + 2 ≤ skb.len)
  let extTot ← skb.loadBytes pos 2
  let extEnd := pos + 2 + be16 extTot 0
  return (pos + 2, if extEnd > skb.len then skb.len else extEnd)

/-- The four length fields lead from the record to where its extension block is, or would be. -/
theorem tlsExtensions_eq {skb : Skb} {payloadOff : Nat} {m : ClientHello} {trailing : List UInt8}
    (h : skb.At payloadOff (m.encode ++ trailing)) :
    ∃ pos, tlsExtensions skb payloadOff skb.len = blockAt skb pos ∧
      skb.At pos (encodeBlock m.block ++ trailing) := by
  -- the record header and the handshake type, then the fixed part of the message
  let hdr := [0x16] ++ beBytes 2 m.recordVersion.toNat ++ beBytes 2 (4 + m.body.length) ++ [0x01]
  let fixed := beBytes 3 m.body.length ++ (beBytes 2 m.version.toNat ++ m.random)
  have hdr_length : hdr.length = 6 := rfl
  have fixed_length : fixed.length = 37 := by
    simp only [fixed, List.length_append, length_beBytes, m.random_length]
  have hsplit : m.encode ++ trailing = hdr ++ (fixed ++ (m.tail ++ trailing)) := by
    simp only [ClientHello.encode, ClientHello.body, hdr, fixed, List.append_assoc]
  rw [hsplit] at h
  have h₀ := (h.advance hdr_length).advance fixed_length
  rw [show payloadOff + 6 + 37 = payloadOff + 5 + 4 + 2 + 32 by omega, ClientHello.tail] at h₀
  simp only [List.append_assoc] at h₀
  have hsuites : m.suites.length < 2 ^ 16 := by
    rw [m.length_suites]
    exact m.cipherSuites_lt
  have hrecord := h.le_len hdr_length
  simp only [tlsExtensions]
  rw [guard_bind (by omega), h.load hdr_length, some_bind, guard_bind ⟨rfl, rfl⟩]
  generalize payloadOff + 5 + 4 + 2 + 32 = p at h₀ ⊢
  -- each length field is loaded from where the previous part ends
  have h₁ := (h₀.advance (n := 1) rfl).advance rfl
  rw [Nat.add_assoc] at h₁
  rw [guard_bind (h₀.le_len (n := 1) rfl), h₀.loadByte, some_bind, toNat_ofNat_of_lt m.sessionId_lt]
  generalize p + (1 + m.sessionId.length) = p₁ at h₁ ⊢
  have h₂ := (h₁.advance (length_beBytes 2 _)).advance rfl
  rw [Nat.add_assoc] at h₂
  rw [guard_bind (h₁.le_len (length_beBytes 2 _)), h₁.load (length_beBytes 2 _), some_bind,
    be16_beBytes_self hsuites]
  generalize p₁ + (2 + m.suites.length) = p₂ at h₂ ⊢
  have h₃ := (h₂.advance (n := 1) rfl).advance rfl
  rw [Nat.add_assoc] at h₃
  rw [guard_bind (h₂.le_len (n := 1) rfl), h₂.loadByte, some_bind, toNat_ofNat_of_lt m.compression_lt]
  generalize p₂ + (1 + m.compression.length) = p₃ at h₃ ⊢
  exact ⟨p₃, rfl, h₃⟩

theorem blockAt_eq {skb : Skb} {pos : Nat} {xs : List TlsExtension} {trailing : List UInt8}
    (h : skb.At pos (encodeBlock (some xs) ++ trailing))
    (hlt : (encodeExtensions xs).length < 2 ^ 16) :
    blockAt skb pos = some (pos + 2, pos + 2 + (encodeExtensions xs).length) ∧
      skb.At (pos + 2) (encodeExtensions xs ++ trailing) := by
  rw [encodeBlock, List.append_assoc] at h
  have hxs := h.advance (length_beBytes 2 _)
  have hend := hxs.le_len rfl
  refine ⟨?_, hxs⟩
  simp only [blockAt]
  rw [guard_bind (h.le_len (length_beBytes 2 _)), h.load (length_beBytes 2 _), some_bind,
    be16_beBytes_self hlt, if_neg (by omega)]
  rfl

/-! ## The extension walk -/

/-- The first name is taken, of whatever type it is. -/
theorem sniHostName_eq {skb : Skb} {pos extEnd : Nat} {n : ServerName} {ns : List ServerName}
    {rest : List UInt8} (h : skb.At pos (serverNames (n :: ns) ++ rest))
    (hend : pos + (serverNames (n :: ns)).length ≤ extEnd) :
    sniHostName skb pos extEnd =
        (if n.name = [] then none else some (pos + 5, min n.name.length (MAX_TLS_SNI - 1))) ∧
      skb.At (pos + 5) (n.name ++ (ns.flatMap ServerName.encode ++ rest)) := by
  let sniHdr := beBytes 2 ((n :: ns).flatMap ServerName.encode).length ++ [n.type] ++
    beBytes 2 n.name.length
  have hdr_length : sniHdr.length = 5 := rfl
  have hcons : serverNames (n :: ns) = sniHdr ++ (n.name ++ ns.flatMap ServerName.encode) := by
    simp only [serverNames, sniHdr, ServerName.encode, List.flatMap_cons, List.append_assoc]
  have hsplit : serverNames (n :: ns) ++ rest =
      sniHdr ++ (n.name ++ (ns.flatMap ServerName.encode ++ rest)) := by
    rw [hcons, List.append_assoc sniHdr, List.append_assoc n.name]
  have hname : be16 sniHdr 3 = n.name.length := by
    rw [← be16_beBytes_self n.name_lt]
    rfl
  rw [hsplit] at h
  rw [hcons, List.length_append, hdr_length, List.length_append] at hend
  refine ⟨?_, h.advance hdr_length⟩
  simp only [sniHostName]
  rw [guard_bind (by omega), h.load hdr_length, some_bind, hname]
  by_cases hnil : n.name = []
  · rw [if_pos hnil, hnil]
    rfl
  · have hpos : n.name.length ≠ 0 := fun he => hnil (List.length_eq_zero_iff.mp he)
    have hmin : (if n.name.length ≥ MAX_TLS_SNI then MAX_TLS_SNI - 1 else n.name.length) =
        min n.name.length (MAX_TLS_SNI - 1) := by
      split <;> omega
    rw [if_neg hnil, guard_bind hpos, hmin, guard_bind (by omega)]
    rfl

/-- One step of the walk: the extension at the front is the server_name extension, or it is
skipped. -/
theorem sniWalk_cons {skb : Skb} {x : TlsExtension} {rest : List UInt8} {extEnd pos : Nat}
    (left : Nat) (h : skb.At pos (x.encode ++ rest)) (hend : pos + x.encode.length ≤ extEnd) :
    sniWalk skb extEnd (left + 1) pos =
        (if x.type = 0 then sniHostName skb (pos + 4) extEnd
          else sniWalk skb extEnd left (pos + x.encode.length)) ∧
      skb.At (pos + 4) (x.data ++ rest) := by
  let etype := beBytes 2 x.type.toNat ++ beBytes 2 x.data.length
  have etype_length : etype.length = 4 := rfl
  have hsplit : x.encode ++ rest = etype ++ (x.data ++ rest) := by
    simp only [TlsExtension.encode, etype, List.append_assoc]
  rw [x.length_encode] at hend ⊢
  rw [hsplit] at h
  have htype : be16 etype 0 = x.type.toNat := be16_beBytes x.type.toNat_lt _
  have hdata : be16 etype 2 = x.data.length := by
    rw [← be16_beBytes_self x.data_lt]
    rfl
  refine ⟨?_, h.advance etype_length⟩
  rw [sniWalk, if_neg (by omega), h.load etype_length]
  simp only [htype, hdata, Nat.add_assoc]
  by_cases hx : x.type = 0
  · rw [if_pos hx, if_pos (by rw [hx]; rfl)]
  have hne : x.type.toNat ≠ 0 := fun he => hx (UInt16.toNat_inj.mp he)
  rw [if_neg hx, if_neg hne]

/-- The walk over the encoded extensions reads the first one of type 0, if it is among the first
`left`. -/
theorem sniWalk_of_mem {skb : Skb} {pre post : List TlsExtension} {x : TlsExtension}
    {trailing : List UInt8} {extEnd left pos : Nat}
    (h : skb.At pos (encodeExtensions (pre ++ x :: post) ++ trailing))
    (hend : pos + (encodeExtensions (pre ++ x :: post)).length ≤ extEnd)
    (hpre : ∀ y ∈ pre, y.type ≠ 0) (hx : x.type = 0) (hleft : pre.length < left) :
    ∃ posData rest, sniWalk skb extEnd left pos = sniHostName skb posData extEnd ∧
      posData + x.data.length ≤ extEnd ∧ skb.At posData (x.data ++ rest) := by
  induction pre generalizing left pos with
  | nil =>
      obtain ⟨left, rfl⟩ : ∃ l, left = l + 1 := ⟨left - 1, by simp at hleft; omega⟩
      rw [List.nil_append, encodeExtensions_cons, List.length_append] at hend
      rw [List.nil_append, encodeExtensions_cons, List.append_assoc] at h
      obtain ⟨hwalk, hdata⟩ := @sniWalk_cons skb _ _ extEnd pos left h (by omega)
      rw [if_pos hx] at hwalk
      rw [x.length_encode] at hend
      exact ⟨pos + 4, _, hwalk, by omega, hdata⟩
  | cons y pre ih =>
      obtain ⟨left, rfl⟩ : ∃ l, left = l + 1 := ⟨left - 1, by simp at hleft; omega⟩
      rw [List.cons_append, encodeExtensions_cons, List.length_append] at hend
      rw [List.cons_append, encodeExtensions_cons, List.append_assoc] at h
      obtain ⟨hwalk, -⟩ := @sniWalk_cons skb _ _ extEnd pos left h (by omega)
      rw [if_neg (hpre y List.mem_cons_self)] at hwalk
      rw [hwalk]
      exact ih (h.advance rfl) (by omega) (fun z hz => hpre z (List.mem_cons_of_mem y hz))
        (by simpa using hleft)

theorem sniWalk_of_not_mem {skb : Skb} {xs : List TlsExtension} {trailing : List UInt8}
    {left pos : Nat} (h : skb.At pos (encodeExtensions xs ++ trailing))
    (hxs : ∀ y ∈ xs.take left, y.type ≠ 0) :
    sniWalk skb (pos + (encodeExtensions xs).length) left pos = none := by
  induction xs generalizing left pos with
  | nil =>
      cases left with
      | zero => rfl
      | succ left => rw [sniWalk, if_pos (by simp)]
  | cons x xs ih =>
      cases left with
      | zero => rfl
      | succ left =>
          rw [encodeExtensions_cons, List.append_assoc] at h
          have hend : pos + x.encode.length ≤ pos + (encodeExtensions (x :: xs)).length := by
            rw [encodeExtensions_cons, List.length_append]
            omega
          rw [(sniWalk_cons left h hend).1, if_neg (hxs x (by simp)), encodeExtensions_cons,
            List.length_append, ← Nat.add_assoc]
          exact ih (h.advance rfl) fun y hy => hxs y (by simp [hy])

/-! ## What follows a hello without an extension block -/

/-- Bytes that read as an extension block with a server name to copy: the first extension of type 0
is one of the first 16, its name is not empty and does not begin with a NUL, and the block and the
bytes hold its header and the part of the name that is considered. -/
def ReadsAsName (p : List UInt8) : Prop :=
  ∃ j, LeadsToWithin p 16 2 j ∧ be16 p j = 0 ∧ be16 p (j + 7) ≠ 0 ∧
    j + 9 + min (be16 p (j + 7)) (MAX_TLS_SNI - 1) ≤ min p.length (2 + be16 p 0) ∧
    p.getD (j + 9) 0 ≠ 0

variable {skb : Skb} {off pos : Nat} {p : List UInt8}

theorem blockAt_eq_some_iff (h : skb.At pos p) {start extEnd : Nat} :
    blockAt skb pos = some (start, extEnd) ↔
      2 ≤ p.length ∧ start = pos + 2 ∧ extEnd = pos + min p.length (2 + be16 p 0) := by
  have hlen := h.pos_add_length
  have hp : payload skb pos = p := h.drop_eq
  have hend : ∀ n, (if pos + 2 + n > skb.len then skb.len else pos + 2 + n) =
      pos + min p.length (2 + n) := by
    intro n
    split <;> omega
  simp only [blockAt, Option.bind_eq_bind, Option.bind_eq_some_iff, Option.guard_eq_some',
    exists_and_left, exists_const]
  constructor
  · rintro ⟨hle, tot, htot, he⟩
    obtain ⟨rfl, rfl⟩ := Prod.mk.inj (Option.some.inj he)
    have hval := @be16_loadBytes skb pos 0 2 tot htot 0 (by omega)
    rw [hp] at hval
    exact ⟨by omega, rfl, by rw [hend, hval]⟩
  · rintro ⟨hle, rfl, rfl⟩
    have htot := Skb.loadBytes_eq_some (show pos + 2 ≤ skb.len by omega)
    have hval := @be16_loadBytes skb pos 0 2 _ htot 0 (by omega)
    rw [hp] at hval
    exact ⟨by omega, _, htot, by rw [hend, hval]; rfl⟩

/-- The first character that is copied of the name in the block at `pos`. -/
theorem readsAsName_iff (h : skb.At pos p) :
    ReadsAsName p ↔ ∃ start nameLen,
      ((blockAt skb pos).bind fun q => sniWalk skb q.2 16 q.1) = some (start, nameLen) ∧
        skb.byte start ≠ 0 := by
  have hlen := h.pos_add_length
  have hp : payload skb pos = p := h.drop_eq
  constructor
  · rintro ⟨j, hj, hzero, hname, hend, hchar⟩
    refine ⟨pos + (j + 9), min (be16 p (j + 7)) (MAX_TLS_SNI - 1), ?_, ?_⟩
    · rw [(blockAt_eq_some_iff h).mpr ⟨by omega, rfl, rfl⟩, Option.bind_some]
      rw [← hp] at hj hzero
      rw [sniWalk_of_leadsTo hj hzero (by omega) (by omega), sniHostName_eq_some_iff, hp]
      exact ⟨by omega, hname, rfl, rfl, by omega⟩
    · rwa [← getD_payload, hp]
  · rintro ⟨start, nameLen, hwalk, hchar⟩
    obtain ⟨⟨first, extEnd⟩, hblock, hwalk⟩ := Option.bind_eq_some_iff.mp hwalk
    obtain ⟨-, rfl, rfl⟩ := (blockAt_eq_some_iff h).mp hblock
    obtain ⟨j, hj, hzero, hname⟩ := sniWalk_eq_some hwalk
    obtain ⟨-, hne, rfl, rfl, hend⟩ := sniHostName_eq_some_iff.mp hname
    rw [hp] at hj hzero hne hend
    rw [← getD_payload, hp] at hchar
    rw [show j + 4 + 3 = j + 7 from rfl] at hne hend
    exact ⟨j, hj, hzero, hne, by omega, hchar⟩

end EbpfTools.Pksniff

import EbpfTools.Pksniff.Lemmas.ClientHello
import EbpfTools.Pksniff.Lemmas.SniSound

/-!
# The host name of a ClientHello
-/

namespace EbpfTools.Pksniff
open EbpfTools.Lib EbpfTools.Bpf

/-- What `parse_tls_sni` leaves in a zeroed array. -/
def sniString (skb : Skb) (payloadOff : Nat) : List UInt8 :=
  ((Buf.zero MAX_TLS_SNI).stores (parseTlsSni skb payloadOff skb.len)).str

theorem sniString_of_locateSni_none {skb : Skb} {payloadOff : Nat}
    (h : locateSni skb payloadOff skb.len = none) : sniString skb payloadOff = [] :=
  str_parseTlsSni_of_none h

theorem sniString_eq_nil_iff (skb : Skb) (payloadOff : Nat) :
    sniString skb payloadOff = [] ↔
      ¬ ∃ start nameLen, locateSni skb payloadOff skb.len = some (start, nameLen) ∧
        skb.byte start ≠ 0 := by
  cases hloc : locateSni skb payloadOff skb.len with
  | none => simp [sniString_of_locateSni_none hloc]
  | some q =>
      obtain ⟨start, nameLen⟩ := q
      obtain ⟨hpos, hend⟩ := locateSni_bounds hloc
      obtain ⟨k, hk⟩ : ∃ k, min 16 nameLen = k + 1 := ⟨min 16 nameLen - 1, by omega⟩
      rw [sniString, str_parseTlsSni_of_some hloc, Skb.drop_eq_cons (by omega), hk]
      simp [cstr, List.takeWhile_cons]

section Hello
variable {skb : Skb} {payloadOff : Nat} {m : ClientHello} {trailing : List UInt8}

/-- A hello with an extension block is walked over its extensions. -/
theorem locateSni_of_block (hm : skb.At payloadOff (m.encode ++ trailing))
    (hblock : m.block ≠ none) :
    ∃ pos, skb.At pos (encodeExtensions m.extensions ++ trailing) ∧
      locateSni skb payloadOff skb.len =
        sniWalk skb (pos + (encodeExtensions m.extensions).length) 16 pos := by
  obtain ⟨xs, hxs⟩ := Option.ne_none_iff_exists'.mp hblock
  have hext : m.extensions = xs := by rw [ClientHello.extensions, hxs, Option.getD_some]
  have hlt := m.extensions_lt
  rw [hxs, Option.getD_some] at hlt
  obtain ⟨pos, htls, hat⟩ := tlsExtensions_eq hm
  rw [hxs] at hat
  obtain ⟨hread, hat⟩ := blockAt_eq hat hlt
  refine ⟨pos + 2, hext ▸ hat, ?_⟩
  rw [locateSni, htls, hread, hext]
  rfl

/-- What is reported of a list of names is its first name, of whatever type. -/
theorem sniString_of_names (hm : skb.At payloadOff (m.encode ++ trailing)) {n : ServerName}
    {ns : List ServerName} (hnames : m.Names (n :: ns)) :
    sniString skb payloadOff = cstr (n.name.take 15) := by
  obtain ⟨pre, x, post, hext, hpre, hlen, hx, hdata⟩ := hnames
  have hblock : m.block ≠ none := by
    intro hnone
    rw [ClientHello.extensions, hnone, Option.getD_none] at hext
    exact absurd hext (by simp)
  obtain ⟨pos, hat, hloc⟩ := locateSni_of_block hm hblock
  rw [hext] at hat hloc
  obtain ⟨posData, rest, hwalk, hend, hdat⟩ :=
    sniWalk_of_mem hat (Nat.le_refl _) hpre hx hlen
  rw [hdata] at hend hdat
  obtain ⟨hname, hathost⟩ := sniHostName_eq hdat hend
  rw [hwalk, hname] at hloc
  by_cases hnil : n.name = []
  · rw [if_pos hnil] at hloc
    rw [sniString_of_locateSni_none hloc, hnil]
    rfl
  · rw [if_neg hnil] at hloc
    have htaken : (skb.bytes.drop (posData + 5)).take
        (min 16 (min n.name.length (MAX_TLS_SNI - 1))) = n.name.take 16 := by
      have hmax : MAX_TLS_SNI = 64 := rfl
      rw [hathost.drop_eq, List.take_append_of_le_length (by omega)]
      by_cases hlong : 16 ≤ n.name.length
      · rw [show min 16 (min n.name.length (MAX_TLS_SNI - 1)) = 16 by omega]
      · rw [List.take_of_length_le (by omega), List.take_of_length_le (by omega)]
    rw [sniString, str_parseTlsSni_of_some hloc, htaken, List.take_take,
      show min 15 16 = 15 from rfl]

/-- Without an extension block, what follows the record in the packet is read as one. -/
theorem sniString_of_no_block (hm : skb.At payloadOff (m.encode ++ trailing))
    (hblock : m.block = none) : sniString skb payloadOff = [] ↔ ¬ ReadsAsName trailing := by
  obtain ⟨pos, htls, hat⟩ := tlsExtensions_eq hm
  rw [hblock, encodeBlock, List.nil_append] at hat
  rw [sniString_eq_nil_iff, readsAsName_iff hat, locateSni, htls]

theorem sniString_of_no_name (hm : skb.At payloadOff (m.encode ++ trailing))
    (hblock : m.block ≠ none) (hnone : ∀ y ∈ m.extensions.take 16, y.type ≠ 0) :
    sniString skb payloadOff = [] := by
  obtain ⟨pos, hat, hloc⟩ := locateSni_of_block hm hblock
  exact sniString_of_locateSni_none (hloc.trans (sniWalk_of_not_mem hat hnone))

end Hello

/-- Of a ClientHello at `payloadOff` the first 15 characters of the host name are reported, if the
first extension of type 0 is one of the first 16 and holds one, and nothing if none of these is of
type 0. -/
structure Decodes (skb : Skb) (payloadOff : Nat) (m : ClientHello) : Prop where
  host : ∀ ns host, m.Names ns → hostName ns = some host → host ≠ [] → 0 ∉ host →
    sniString skb payloadOff = host.take (min host.length 15)
  none : (∀ y ∈ m.extensions.take 16, y.type ≠ 0) → sniString skb payloadOff = []

/-- A ClientHello record inside the packet is decoded exactly when the host name is the first name
of its list, or the first name reads like it up to 15 characters or a NUL, and when a hello without
an extension block is not followed by bytes that read as one with a server name. -/
theorem decodes_iff {skb : Skb} {payloadOff : Nat} {m : ClientHello} {trailing : List UInt8}
    (hm : skb.At payloadOff (m.encode ++ trailing)) :
    Decodes skb payloadOff m ↔
      (∀ ns host, m.Names ns → hostName ns = some host → host ≠ [] → 0 ∉ host →
          ∃ n rest, ns = n :: rest ∧ (n.type = 0 ∨ cstr (n.name.take 15) = host.take 15)) ∧
        (m.block = none → ¬ ReadsAsName trailing) := by
  have htake : ∀ host : List UInt8, host.take (min host.length 15) = host.take 15 := by
    intro host
    rw [Nat.min_comm, ← List.take_take, List.take_length]
  constructor
  · intro h
    refine ⟨?_, fun hblock => ?_⟩
    · intro ns host hnames hhost hne hnul
      cases ns with
      | nil => cases hhost
      | cons n rest =>
          refine ⟨n, rest, rfl, Or.inr ?_⟩
          rw [← sniString_of_names hm hnames, h.host _ _ hnames hhost hne hnul, htake]
    · have hext : m.extensions = [] := by rw [ClientHello.extensions, hblock, Option.getD_none]
      refine (sniString_of_no_block hm hblock).mp (h.none fun y hy => ?_)
      rw [hext] at hy
      cases hy
  · rintro ⟨hfirst, hbare⟩
    refine ⟨?_, fun hnone => ?_⟩
    · intro ns host hnames hhost hne hnul
      obtain ⟨n, rest, rfl, hn⟩ := hfirst ns host hnames hhost hne hnul
      have hnot : 0 ∉ host.take 15 := fun hmem => hnul (List.mem_of_mem_take hmem)
      rw [sniString_of_names hm hnames, htake]
      rcases hn with htype | hreads
      · have hsame : n.name = host := by simpa [hostName, htype] using hhost
        rw [hsame, cstr_eq_self hnot]
      · exact hreads
    · by_cases hblock : m.block = none
      · exact (sniString_of_no_block hm hblock).mpr (hbare hblock)
      · exact sniString_of_no_name hm hblock hnone

def helloOf (extensions : List TlsExtension)
    (h : (encodeExtensions extensions).length < 2 ^ 16) : ClientHello where
  recordVersion := 0x0301
  version := 0x0303
  random := List.replicate 32 0xAB
  random_length := rfl
  sessionId := [1, 2, 3, 4]
  sessionId_lt := by decide
  cipherSuites := [0x1301, 0xC02F]
  cipherSuites_lt := by decide
  compression := [0]
  compression_lt := by decide
  block := some extensions
  extensions_lt := h

def supportedVersions : TlsExtension := ⟨43, [2, 3, 4], by decide⟩

/-- A server_name extension that holds these names. -/
def namesOf (ns : List ServerName) (h : (serverNames ns).length < 2 ^ 16) : TlsExtension :=
  ⟨0, serverNames ns, h⟩

section ServerNameOf
variable {host : String} (h : (ascii host).length + 5 < 65536)

include h

theorem hostName_lt : (ascii host).length < 2 ^ 16 := by omega

theorem serverNames_lt : (serverNames [⟨0, ascii host, hostName_lt h⟩]).length < 2 ^ 16 := by
  simp only [serverNames, List.flatMap_cons, List.flatMap_nil, ServerName.encode,
    List.length_append, length_beBytes, List.length_singleton, List.length_nil]
  omega

end ServerNameOf

def serverNameOf (host : String) (h : (ascii host).length + 5 < 65536) : TlsExtension :=
  namesOf [⟨0, ascii host, hostName_lt h⟩] (serverNames_lt h)

def exampleHello : ClientHello :=
  helloOf [supportedVersions, serverNameOf "www.example.org" (by decide)] (by decide)

-- Ethernet, IPv4 and TCP headers of a segment to port 443
def tlsHeaders : List UInt8 :=
  List.replicate 12 0 ++ [0x08, 0x00] ++ [0x45] ++ List.replicate 8 0 ++ [6] ++
    List.replicate 10 0 ++ [0xC0, 0x00, 0x01, 0xBB] ++ List.replicate 8 0 ++ [0x50] ++
    List.replicate 7 0

def exampleFrame : Skb :=
  ⟨tlsHeaders ++ (exampleHello.encode ++ [7, 7]), 54, by decide +kernel, by decide +kernel⟩

/-- The host name is behind a name of another type. -/
def namesHello : ClientHello :=
  helloOf [namesOf [⟨1, ascii "name", by decide⟩, ⟨0, ascii "a.io", by decide⟩] (by decide)]
    (by decide)

def namesFrame : Skb := ⟨tlsHeaders ++ namesHello.encode, 54, by decide +kernel, by decide +kernel⟩

/-- A hello without extensions, and behind its record the bytes of a block with a server name. -/
def bareHello : ClientHello :=
  { exampleHello with
    block := none
    extensions_lt := by decide }

def bareFrame : Skb :=
  ⟨tlsHeaders ++ (bareHello.encode ++
      encodeBlock (some [serverNameOf "evil" (by decide)])), 54, by decide +kernel, by decide +kernel⟩

/-- A name of another type is reported, and one that is in no ClientHello. -/
theorem namesFrame_misread :
    (sniString namesFrame 54 = ascii "name" ∧ ¬ Decodes namesFrame 54 namesHello) ∧
      (sniString bareFrame 54 = ascii "evil" ∧ ¬ Decodes bareFrame 54 bareHello) := by
  have hnames : sniString namesFrame 54 = ascii "name" := by decide +kernel
  have hbare : sniString bareFrame 54 = ascii "evil" := by decide +kernel
  refine ⟨⟨hnames, fun h => ?_⟩, ⟨hbare, fun h => ?_⟩⟩
  · have hhost := h.host [⟨1, ascii "name", by decide⟩, ⟨0, ascii "a.io", by decide⟩] (ascii "a.io")
      ⟨[], _, [], rfl, by simp, by decide, rfl, rfl⟩ rfl (by decide) (by decide)
    exact absurd (hnames.symm.trans hhost) (by decide)
  · have hnil := h.none fun y hy => by cases hy
    exact absurd (hbare.symm.trans hnil) (by decide)

theorem decodes_iff_exampleFrame :
    Decodes exampleFrame 54 exampleHello ↔
      (∀ ns host, exampleHello.Names ns → hostName ns = some host → host ≠ [] → 0 ∉ host →
          ∃ n rest, ns = n :: rest ∧ (n.type = 0 ∨ cstr (n.name.take 15) = host.take 15)) ∧
        (exampleHello.block = none → ¬ ReadsAsName [7, 7]) :=
  @decodes_iff exampleFrame 54 exampleHello [7, 7] ⟨by decide +kernel, rfl⟩

/-! ## Arbitrary payloads -/

/-- An empty server_name extension, and behind it one of another type with 256 bytes. -/
def spoofedHello : ClientHello :=
  helloOf
    [⟨0, [], by decide⟩, ⟨0x0A0A, 4 :: ascii "evil" ++ List.replicate 251 0, by decide +kernel⟩]
    (by decide +kernel)

def spoofedFrame : Skb :=
  ⟨tlsHeaders ++ spoofedHello.encode, 54, by decide +kernel, by decide +kernel⟩

/-- The name type 1 is not that of a host name. -/
def otherTypeHello : ClientHello :=
  helloOf [⟨0, [0, 7, 1, 0, 4] ++ ascii "name", by decide⟩] (by decide)

def otherTypeFrame : Skb :=
  ⟨tlsHeaders ++ otherTypeHello.encode, 54, by decide +kernel, by decide +kernel⟩

end EbpfTools.Pksniff

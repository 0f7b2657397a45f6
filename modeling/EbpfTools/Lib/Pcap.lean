import EbpfTools.Lib.Wire

/-!
# The pcap file format

Little-endian pcap files: a global header of 24 bytes, then records with a header of 16 bytes and
`incl_len` bytes of data.
-/

namespace EbpfTools.Lib

structure PcapHeader where
  versionMajor : Nat
  versionMinor : Nat
  thiszone : Nat
  sigfigs : Nat
  snaplen : Nat
  network : Nat

structure PcapRecord where
  tsSec : Nat
  tsUsec : Nat
  origLen : Nat
  data : List UInt8

def readPcapHeader (bs : List UInt8) : Option (PcapHeader × List UInt8) := do
  let (magic, bs) ← readLe 4 bs
  guard (magic = 0xa1b2c3d4)
  let (versionMajor, bs) ← readLe 2 bs
  let (versionMinor, bs) ← readLe 2 bs
  let (thiszone, bs) ← readLe 4 bs
  let (sigfigs, bs) ← readLe 4 bs
  let (snaplen, bs) ← readLe 4 bs
  let (network, bs) ← readLe 4 bs
  return (⟨versionMajor, versionMinor, thiszone, sigfigs, snaplen, network⟩, bs)

def readPcapRecord (bs : List UInt8) : Option (PcapRecord × List UInt8) := do
  let (tsSec, bs) ← readLe 4 bs
  let (tsUsec, bs) ← readLe 4 bs
  let (inclLen, bs) ← readLe 4 bs
  let (origLen, bs) ← readLe 4 bs
  let (data, bs) ← takeBytes inclLen bs
  return (⟨tsSec, tsUsec, origLen, data⟩, bs)

/-- The records of a file, if it consists of a header and complete records. -/
def readPcap (bs : List UInt8) : Option (PcapHeader × List PcapRecord) := do
  let (h, bs) ← readPcapHeader bs
  let rs ← readAll readPcapRecord bs.length bs
  return (h, rs)

theorem readPcapHeader_append (vmaj vmin tz sf snap net : Nat) (rest : List UInt8) :
    readPcapHeader (leBytes 4 0xa1b2c3d4 ++ leBytes 2 vmaj ++ leBytes 2 vmin ++ leBytes 4 tz ++
        leBytes 4 sf ++ leBytes 4 snap ++ leBytes 4 net ++ rest) =
      some (⟨vmaj % 256 ^ 2, vmin % 256 ^ 2, tz % 256 ^ 4, sf % 256 ^ 4, snap % 256 ^ 4,
        net % 256 ^ 4⟩, rest) := by
  simp [readPcapHeader, readLe_append, guard]

theorem readPcapRecord_append {tsSec tsUsec origLen : Nat} {data : List UInt8}
    (hlen : data.length < 256 ^ 4) (rest : List UInt8) :
    readPcapRecord (leBytes 4 tsSec ++ leBytes 4 tsUsec ++ leBytes 4 data.length ++
        leBytes 4 origLen ++ data ++ rest) =
      some (⟨tsSec % 256 ^ 4, tsUsec % 256 ^ 4, origLen % 256 ^ 4, data⟩, rest) := by
  have hmod : data.length % 4294967296 = data.length := Nat.mod_eq_of_lt hlen
  have htake : takeBytes data.length (data ++ rest) = some (data, rest) := takeBytes_append rfl rest
  simp [readPcapRecord, readLe_append, hmod, htake]

/-- A file of a header and encoded records is read back. -/
theorem readPcap_append {α : Type} {header : List UInt8} {h : PcapHeader}
    {enc : α → List UInt8} {val : α → PcapRecord} {xs : List α}
    (hheader : ∀ rest, readPcapHeader (header ++ rest) = some (h, rest))
    (henc : ∀ x ∈ xs, ∀ rest, readPcapRecord (enc x ++ rest) = some (val x, rest))
    (hne : ∀ x ∈ xs, enc x ≠ []) :
    readPcap (header ++ xs.flatMap enc) = some (h, xs.map val) := by
  rw [readPcap, hheader, some_bind]
  simp only [readAll_flatMap henc hne (length_le_length_flatMap hne), some_bind]
  rfl

end EbpfTools.Lib

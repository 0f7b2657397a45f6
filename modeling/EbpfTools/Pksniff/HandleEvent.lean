import EbpfTools.Lib.RingBuf
import EbpfTools.Lib.Wire
import EbpfTools.Pksniff.Filter
import EbpfTools.Pksniff.Stats

/-!
# The packet ring and its readers

`handle_event` of `Pksniff.c`, the loops over the ring in `draw_packet_list`, `draw_detail`,
`handle_input_normal` and `save_filtered_pcap`, and what is written to pcap files.
-/

namespace EbpfTools.Pksniff
open EbpfTools.Lib

/-! ## Writing pcap files

`pcap_write_global_header` and `pcap_write_record`: the bytes they append to the file on a
little-endian CPU. -/

/-- What `gettimeofday` returns. -/
structure Timeval where
  tvSec : UInt64
  tvUsec : UInt64

def pcapGlobalHeader : List UInt8 :=
  leBytes 4 0xa1b2c3d4 ++ leBytes 2 2 ++ leBytes 2 4 ++ leBytes 4 0 ++ leBytes 4 0 ++
    leBytes 4 MAX_CAPTURE_BYTES ++ leBytes 4 1

/-- The record header and the first `incl_len` bytes of `packet`. -/
def pcapRecord (tv : Timeval) (e : Event) : List UInt8 :=
  leBytes 4 tv.tvSec.toUInt32.toNat ++ leBytes 4 tv.tvUsec.toUInt32.toNat ++
    leBytes 4 e.capLen.toNat ++ leBytes 4 e.packetLen.toNat ++ e.packet.bytes.take e.capLen.toNat

/-! ## The ring -/

abbrev MAX_PACKETS : Nat := 8192

/-- `pkt_ring` with `pkt_head` and `pkt_count`, `g_paused`, the bytes written to `g_pcap_fp` if it
is open, and the statistics. -/
structure State where
  pktRing : RingBuf Event
  paused : Bool
  pcap : Option (List UInt8)
  stats : Stats

/-- The state when the ring buffer is set up, with or without a `-o` file. -/
def State.init (pcap : Bool) : State :=
  ⟨⟨fun _ => .zero, 0, 0⟩, false, if pcap then some pcapGlobalHeader else none, .init⟩

-- the clocks read while an event is handled
structure Now where
  tv : Timeval
  time : Int

def handleEvent (s : State) (e : Event) (now : Now) : State :=
  if s.paused then s
  else
    { s with
      pcap := s.pcap.map (· ++ pcapRecord now.tv e)
      pktRing := s.pktRing.push MAX_PACKETS e
      stats := updateStats s.stats e now.time }

def handleEvents (s : State) (xs : List (Event × Now)) : State :=
  xs.foldl (fun s x => handleEvent s x.1 x.2) s

/-! ## The readers

Each loop runs `i` from 0 to `total` with `left` iterations to go. -/

def ringIdx (r : RingBuf Event) (i : Nat) : Int := r.index MAX_PACKETS i

/-- `draw_packet_list`: the array `visible` from entry `vcount` on. -/
def visibleLoop (f : Filter) (r : RingBuf Event) : (left i vcount : Nat) → List Int
  | 0, _, _ => []
  | left + 1, i, vcount =>
      if vcount < MAX_PACKETS then
        if eventMatches f (r.slots (ringIdx r i)) then
          ringIdx r i :: visibleLoop f r left (i + 1) (vcount + 1)
        else visibleLoop f r left (i + 1) vcount
      else []

def drawPacketListVisible (f : Filter) (r : RingBuf Event) : List Int :=
  visibleLoop f r r.count.toNat 0 0

/-- `handle_input_normal`: the loop that counts `vcount`. -/
def vcountLoop (f : Filter) (r : RingBuf Event) : (left i vcount : Nat) → Nat
  | 0, _, vcount => vcount
  | left + 1, i, vcount =>
      vcountLoop f r left (i + 1)
        (if eventMatches f (r.slots (ringIdx r i)) then vcount + 1 else vcount)

def handleInputNormalVcount (f : Filter) (r : RingBuf Event) : Nat :=
  vcountLoop f r r.count.toNat 0 0

/-- `draw_detail`: the loop that looks for `sel_idx`, `none` for -1. -/
def selIdxLoop (f : Filter) (r : RingBuf Event) (selected : Int) : (left i vcount : Nat) → Option Int
  | 0, _, _ => none
  | left + 1, i, vcount =>
      if eventMatches f (r.slots (ringIdx r i)) then
        if vcount = selected then some (ringIdx r i)
        else selIdxLoop f r selected left (i + 1) (vcount + 1)
      else selIdxLoop f r selected left (i + 1) vcount

def drawDetailSelIdx (f : Filter) (r : RingBuf Event) (selected : Int) : Option Int :=
  selIdxLoop f r selected r.count.toNat 0 0

/-- `save_filtered_pcap`: the records it writes; `tvs k` is the time read for record `k`. -/
def saveLoop (f : Filter) (r : RingBuf Event) (tvs : Nat → Timeval) :
    (left i written : Nat) → List UInt8
  | 0, _, _ => []
  | left + 1, i, written =>
      if eventMatches f (r.slots (ringIdx r i)) then
        pcapRecord (tvs written) (r.slots (ringIdx r i)) ++
          saveLoop f r tvs left (i + 1) (written + 1)
      else saveLoop f r tvs left (i + 1) written

/-- The file `save_filtered_pcap` leaves. -/
def saveFilteredPcap (f : Filter) (r : RingBuf Event) (tvs : Nat → Timeval) : List UInt8 :=
  pcapGlobalHeader ++ saveLoop f r tvs r.count.toNat 0 0

end EbpfTools.Pksniff

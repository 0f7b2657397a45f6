import Mathlib.Logic.Function.Basic
import EbpfTools.Lib.Double
import EbpfTools.Lib.Scan
import EbpfTools.Lib.Window
import EbpfTools.Pksniff.Filter

/-!
# The statistics

`update_stats` and `draw_stats` of `Pksniff.c`.
-/

namespace EbpfTools.Pksniff
open EbpfTools.Lib

abbrev MAX_TALKERS : Nat := 5
def STATS_INTERVAL : Int := 1

structure Talker where
  ip : UInt32
  bytes : UInt64
  pkts : UInt64
  deriving DecidableEq

def Talker.zero : Talker := ⟨0, 0, 0⟩

/-- The `g_` variables of the statistics. The rates are the integers that are converted to
`double`, and `talkers` is indexed by 0 to 255. -/
structure Stats where
  totalPkts : UInt64
  totalBytes : UInt64
  lastPkts : UInt64
  lastBytes : UInt64
  pps : UInt64
  bps : UInt64
  talkers : Nat → Talker
  top : List Talker
  lastStatsTs : Int

def Stats.init : Stats :=
  ⟨0, 0, 0, 0, 0, 0, fun _ => .zero, List.replicate MAX_TALKERS .zero, 0⟩

/-- `src_ip & 0xFF`, the first octet on a little-endian CPU. -/
def talkerSlot (ip : UInt32) : Nat := (ip &&& 0xFF).toNat

def countTalker (talkers : Nat → Talker) (e : Event) : Nat → Talker :=
  let t := talkers (talkerSlot e.srcIp)
  if t.ip = 0 ∨ t.ip = e.srcIp then
    Function.update talkers (talkerSlot e.srcIp)
      ⟨e.srcIp, t.bytes + e.packetLen.toUInt64, t.pkts + 1⟩
  else talkers

-- `for (int k = MAX_TALKERS - 1; k > j; k--) g_top[k] = g_top[k-1]`, from `k = j + left` on
def shiftDown (j : Nat) : (left : Nat) → List Talker → List Talker
  | 0, top => top
  | left + 1, top => shiftDown j left (top.set (j + left + 1) (top.getD (j + left) .zero))

/-- The loop that finds the place of one talker, from `j` on with `left` iterations to go. -/
def insertTop (t : Talker) : (left j : Nat) → List Talker → List Talker
  | 0, _, top => top
  | left + 1, j, top =>
      if t.bytes > (top.getD j .zero).bytes then
        (shiftDown j (MAX_TALKERS - 1 - j) top).set j t
      else insertTop t left (j + 1) top

/-- One pass over the 256 slots. -/
def findTop (talkers : Nat → Talker) : List Talker :=
  (List.range 256).foldl
    (fun top i => if (talkers i).ip = 0 then top else insertTop (talkers i) MAX_TALKERS 0 top)
    (List.replicate MAX_TALKERS .zero)

def updateStats (s : Stats) (e : Event) (now : Int) : Stats :=
  let s := { s with
    totalPkts := s.totalPkts + 1
    totalBytes := s.totalBytes + e.packetLen.toUInt64
    talkers := countTalker s.talkers e }
  if now - s.lastStatsTs ≥ STATS_INTERVAL then
    { s with
      pps := s.totalPkts - s.lastPkts
      bps := s.totalBytes - s.lastBytes
      lastPkts := s.totalPkts
      lastBytes := s.totalBytes
      lastStatsTs := now
      top := findTop s.talkers }
  else s

/-- The values of `g_pps` and `g_bps`, which `draw_stats` prints as `pkt/s` and `B/s`. -/
def drawStatsRate (s : Stats) : Nat × Nat := (toDouble s.pps.toNat, toDouble s.bps.toNat)

/-- The entries that the loop of `draw_stats` comes to: it stops at the first without an address. -/
def drawStatsTop (top : List Talker) : List Talker := top.takeWhile fun t => t.ip ≠ 0

-- `stats_h`, the rows that `layout_windows` gives `w_stats`
abbrev STATS_H : Nat := 8

-- `"%-16s  %6llu pkts  %8llu B"`
def talkerText (t : Talker) : List UInt8 :=
  padRight 16 (ipStr t.ip) ++ ascii "  " ++ padLeft 6 (printDecimal t.pkts.toNat) ++
    ascii " pkts  " ++ padLeft 8 (printDecimal t.bytes.toNat) ++ ascii " B"

/-- The window after the loop of `draw_stats`, which prints entry `i` at row `4 + i`. -/
def drawStats (w : Window) (top : List Talker) : Window :=
  w.addLines 4 ((drawStatsTop top).zipIdx.map fun p => (4 + p.2, talkerText p.1))

/-- The statistics after events with the clock reading of each. -/
def runStats (xs : List (Event × Int)) : Stats :=
  xs.foldl (fun s x => updateStats s x.1 x.2) .init

end EbpfTools.Pksniff

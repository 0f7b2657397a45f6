import EbpfTools.Lib.Hex
import EbpfTools.Lib.Scan
import EbpfTools.Lib.Window
import EbpfTools.Pksniff.Event

/-!
# The hex dump of the detail panel

The dump that `draw_detail` of `Pksniff.c` prints below its heading.
-/

namespace EbpfTools.Pksniff
open EbpfTools.Lib

/-- `snprintf(buf + off, sizeof(buf) - off, …)`: the part of `text` that fits and a NUL. -/
def snprintfAt {n : Nat} (buf : Buf n) (off : Nat) (text : List UInt8) : Buf n :=
  if off < n then buf.memcpy off (text.take (n - off - 1) ++ [0]) else buf

/-- `bytes_per_row` for a panel of `cols` columns. -/
def bytesPerRow (cols : Int) : Nat :=
  let n := (cols - 6).tdiv 3
  let n := if n < 8 then 8 else n
  (if n > 16 then 16 else n).toNat

-- the character shown for a byte
def shownAs (byte : UInt8) : UInt8 := if byte ≥ 32 ∧ byte < 127 then byte else 46

structure DumpRow where
  hex : Buf 64
  asc : Buf 20
  hl : Nat
  al : Nat

/-- The loop over `b`, with `left` iterations to go. -/
def dumpLoop (e : Event) (off : Nat) : (left b : Nat) → DumpRow → DumpRow
  | 0, _, r => r
  | left + 1, b, r =>
      if off + b < e.capLen.toNat then
        let byte := e.packet.bytes.getD (off + b) 0
        let text := printHex byte ++ [32]
        dumpLoop e off left (b + 1)
          ⟨snprintfAt r.hex r.hl text, r.asc.store (r.al, shownAs byte), r.hl + text.length, r.al + 1⟩
      else r

/-- The text of the row at `off`. -/
def dumpText (e : Event) (bytesPerRow off : Nat) : List UInt8 :=
  let r := dumpLoop e off bytesPerRow 0 ⟨.zero _, .zero _, 0, 0⟩
  let asc := r.asc.store (r.al, 0)
  printHexPad 4 off ++ ascii "  " ++ padRight (bytesPerRow * 3) r.hex.str ++ ascii "  " ++ asc.str

/-- The loop over `off` from `row` on, with `left` rows to go. -/
def dumpRows (e : Event) (bytesPerRow : Nat) : (left : Nat) → (row : Int) → (off : Nat) →
    List (Int × List UInt8)
  | 0, _, _ => []
  | left + 1, row, off =>
      if off < e.capLen.toNat then
        (row, dumpText e bytesPerRow off) ::
          dumpRows e bytesPerRow left (row + 1) ((off + bytesPerRow) % 2 ^ 32)
      else []

/-- What is printed from `row` on in a panel of `rows` rows and `cols` columns; `row < rows - 1` is
checked before each row. -/
def hexDump (e : Event) (rows cols row : Int) : List (Int × List UInt8) :=
  dumpRows e (bytesPerRow cols) (rows - 1 - row).toNat row 0

/-- The panel after the dump, which is printed from column 1 on. -/
def drawHexDump (w : Window) (e : Event) (row : Int) : Window :=
  w.addLines 1 (hexDump e w.rows w.cols row)

end EbpfTools.Pksniff

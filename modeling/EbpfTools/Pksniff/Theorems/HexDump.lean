import EbpfTools.Pksniff.Lemmas.HexDump
import EbpfTools.Pksniff.Theorems.Capture

/-!
# The hex dump of the detail panel
-/

namespace EbpfTools.Pksniff
open EbpfTools.Lib EbpfTools.Bpf

/-- In a panel of at least 73 columns, whatever it showed before and wherever the dump starts in it,
the rows of the dump of a captured frame are read back as the first bytes of the frame: all that
were captured, or as many as the rows above the frame of the panel hold. The other cells are left
alone. -/
theorem hexDump_shows_frame {s e : Event} {c : Call} (h : e ∈ (processPacket s c).2) {w : Window}
    (hcols : 73 ≤ w.cols) {row : Int} (hrow : 0 ≤ row) :
    ∃ ls : List DumpLine,
      (∀ l ∈ ls, l.row < w.rows - 1 ∧
        readDumpLine 16 l.row ((drawHexDump w e row).textAt l.row.toNat 1 72) = some l) ∧
      Consecutive 16 row 0 ls ∧
      ls.flatMap DumpLine.bytes =
        c.skb.bytes.take (min ((w.rows - 1 - row).toNat * 16) (min c.skb.len 256 / 16 * 16)) ∧
      ∀ i j : Nat, (∀ l ∈ ls, (i : Int) ≠ l.row) ∨ j = 0 ∨ 73 ≤ j →
        (drawHexDump w e row).cell i j = w.cell i j := by
  obtain ⟨-, hcap, hbytes⟩ := of_mem_processPacket h
  have hle : e.capLen.toNat ≤ MAX_CAPTURE_BYTES := by
    rw [hcap]
    exact (roundedCapLen_le c.skb).2
  obtain ⟨ls, hread, hcons, hflat, hother⟩ := drawHexDump_eq hle hcols hrow
  refine ⟨ls, hread, hcons, ?_, hother⟩
  rw [hflat, hcap, hbytes, List.take_take, roundedCapLen_eq]

/-- In a panel of 24 rows and 80 columns the dump from row 21 on has room for two lines. -/
theorem hexDump_shows_frame_arpEvent :
    let w : Window := ⟨24, 80, fun _ _ => 32⟩
    ∃ ls : List DumpLine,
      (∀ l ∈ ls, l.row < 24 - 1 ∧
        readDumpLine 16 l.row ((drawHexDump w arpEvent 21).textAt l.row.toNat 1 72) = some l) ∧
      Consecutive 16 21 0 ls ∧
      ls.flatMap DumpLine.bytes =
        arpFrame.bytes.take (min ((24 - 1 - 21 : Int).toNat * 16) (min arpFrame.len 256 / 16 * 16)) ∧
      ∀ i j : Nat, (∀ l ∈ ls, (i : Int) ≠ l.row) ∨ j = 0 ∨ 73 ≤ j →
        (drawHexDump w arpEvent 21).cell i j = w.cell i j :=
  @hexDump_shows_frame .zero arpEvent (sentCall arpFrame) (by decide +kernel)
    ⟨24, 80, fun _ _ => 32⟩ (by decide) 21 (by decide)

end EbpfTools.Pksniff

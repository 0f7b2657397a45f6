import EbpfTools.Pksniff.DrawDetail

/-!
# What the hex dump of the detail panel shows
-/

namespace EbpfTools.Pksniff
open EbpfTools.Lib

/-! ## Reading a line of the dump -/

/-- What a line of the dump says. -/
structure DumpLine where
  row : Int
  off : Nat
  bytes : List UInt8
  ascii : List UInt8
  deriving DecidableEq

/-- The line that a row of the panel shows; it may be followed by other characters. -/
def readDumpLine (bytesPerRow : Nat) (row : Int) (text : List UInt8) : Option DumpLine := do
  let off ← readHexNat (text.take 4)
  let text ← expect (ascii "  ") (text.drop 4)
  let bytes ← readHexCells (text.take (bytesPerRow * 3))
  let asc ← expect (ascii "  ") (text.drop (bytesPerRow * 3))
  return ⟨row, off, bytes, asc.take bytes.length⟩

/-! ## One row -/

/-- The arrays after the bytes `bs` of a row. -/
structure DumpRow.Holds (r : DumpRow) (bs : List UInt8) : Prop where
  hex : r.hex.bytes = hexCells bs ++ List.replicate (64 - 3 * bs.length) 0
  asc : r.asc.bytes = bs.map shownAs ++ List.replicate (20 - bs.length) 0
  hl : r.hl = 3 * bs.length
  al : r.al = bs.length

theorem snprintfAt_bytes {n : Nat} {buf : Buf n} {front text : List UInt8} {k : Nat}
    (h : buf.bytes = front ++ List.replicate k 0) (hlen : text.length + 1 ≤ k) :
    (snprintfAt buf front.length text).bytes =
      front ++ text ++ List.replicate (k - text.length) 0 := by
  have hsize := congrArg List.length h
  rw [buf.size_eq, List.length_append, List.length_replicate] at hsize
  have htext : text.take (n - front.length - 1) = text := List.take_of_length_le (by omega)
  have hfit : front.length + (text ++ [0]).length ≤ n := by
    rw [List.length_append, List.length_singleton]
    omega
  have hdrop : (front ++ List.replicate k (0 : UInt8)).drop (front.length + (text ++ [0]).length) =
      List.replicate (k - text.length - 1) 0 := by
    rw [List.drop_append, List.drop_eq_nil_of_le (by omega), List.nil_append, List.drop_replicate,
      List.length_append, List.length_singleton]
    congr 1
    omega
  have hlast : List.replicate (k - text.length) (0 : UInt8) =
      0 :: List.replicate (k - text.length - 1) 0 := by
    rw [← List.replicate_succ]
    congr 1
    omega
  rw [snprintfAt, if_pos (by omega), htext, Buf.memcpy_bytes buf hfit, h, List.take_left, hdrop,
    hlast]
  simp

theorem store_bytes {n : Nat} {buf : Buf n} {front : List UInt8} {k : Nat} {c : UInt8}
    (h : buf.bytes = front ++ List.replicate (k + 1) 0) :
    (buf.store (front.length, c)).bytes = front ++ [c] ++ List.replicate k 0 := by
  have hset : (buf.store (front.length, c)).bytes = buf.bytes.set front.length c := rfl
  rw [hset, h, List.set_append_right _ _ (le_refl _), Nat.sub_self, List.replicate_succ]
  simp

/-- `shownAs` gives no NUL. -/
theorem shownAs_ne_zero (byte : UInt8) : shownAs byte ≠ 0 := by
  rw [shownAs]
  split
  · rename_i h
    rintro rfl
    exact absurd h.1 (by decide)
  · decide

theorem DumpRow.Holds.push {r : DumpRow} {bs : List UInt8} (h : r.Holds bs) (hlen : bs.length < 16)
    (c : UInt8) :
    DumpRow.Holds ⟨snprintfAt r.hex r.hl (printHex c ++ [32]), r.asc.store (r.al, shownAs c),
      r.hl + (printHex c ++ [32]).length, r.al + 1⟩ (bs ++ [c]) := by
  have htext : (printHex c ++ [32]).length = 3 := rfl
  have hcells : hexCells (bs ++ [c]) = hexCells bs ++ (printHex c ++ [32]) := by
    rw [hexCells_append]
    rfl
  have hconcat : (bs ++ [c]).length = bs.length + 1 := by
    rw [List.length_append, List.length_singleton]
  refine ⟨?_, ?_, ?_, ?_⟩
  · have hoff : r.hl = (hexCells bs).length := by rw [h.hl, length_hexCells]
    have hwritten := @snprintfAt_bytes 64 r.hex _ (printHex c ++ [32]) _ h.hex (by omega)
    rw [hoff, hwritten, hcells, htext, hconcat]
    congr 2
  · have hoff : r.al = (bs.map shownAs).length := by rw [h.al, List.length_map]
    have hasc := h.asc
    rw [show 20 - bs.length = 19 - bs.length + 1 by omega] at hasc
    rw [hoff, store_bytes hasc, hconcat, List.map_append]
    congr 2
    omega
  · change r.hl + (printHex c ++ [32]).length = 3 * (bs ++ [c]).length
    rw [h.hl, htext, hconcat, Nat.mul_succ]
  · change r.al + 1 = (bs ++ [c]).length
    rw [h.al, hconcat]

/-- The loop over the bytes of a row, as long as the row has room for them. -/
theorem holds_dumpLoop {e : Event} (hcap : e.capLen.toNat ≤ MAX_CAPTURE_BYTES) {off left b : Nat}
    {r : DumpRow} (hroom : b + left ≤ 16)
    (h : r.Holds (((e.packet.bytes.take e.capLen.toNat).drop off).take b))
    (hb : b ≤ e.capLen.toNat - off) :
    (dumpLoop e off left b r).Holds
      (((e.packet.bytes.take e.capLen.toNat).drop off).take (b + left)) := by
  have hsize : ((e.packet.bytes.take e.capLen.toNat).drop off).length = e.capLen.toNat - off := by
    rw [List.length_drop, List.length_take, e.packet.size_eq]
    omega
  induction left generalizing b r with
  | zero => exact h
  | succ left ih =>
      rw [dumpLoop]
      generalize hdata : (e.packet.bytes.take e.capLen.toNat).drop off = data at *
      have hlen : (data.take b).length = b := by
        rw [List.length_take]
        omega
      split
      · have hin : b < data.length := by omega
        have hpos : off + b < e.packet.bytes.length := by
          rw [e.packet.size_eq]
          omega
        have hbyte : e.packet.bytes.getD (off + b) 0 = data[b] := by
          have hget : data[b] = e.packet.bytes[off + b] := by simp [← hdata]
          rw [hget]
          simp [hpos]
        have hnext : data.take (b + 1) = data.take b ++ [data[b]] :=
          (List.take_concat_get' data b hin).symm
        have hpush := h.push (by omega) data[b]
        rw [← hnext] at hpush
        rw [hbyte, show b + (left + 1) = b + 1 + left by omega]
        exact ih (by omega) hpush (by omega)
      · have hall : data.take b = data.take (b + (left + 1)) := by
          rw [List.take_of_length_le (by omega), List.take_of_length_le (by omega)]
        rw [← hall]
        exact h

/-- The line of the dump at `off`. -/
def lineAt (e : Event) (width : Nat) (row : Int) (off : Nat) : DumpLine :=
  let bytes := ((e.packet.bytes.take e.capLen.toNat).drop off).take width
  ⟨row, off, bytes, bytes.map shownAs⟩

theorem dumpText_eq {e : Event} (hcap : e.capLen.toNat ≤ MAX_CAPTURE_BYTES) {width off : Nat}
    (hwidth : width ≤ 16) :
    let bytes := ((e.packet.bytes.take e.capLen.toNat).drop off).take width
    dumpText e width off = printHexPad 4 off ++ (ascii "  " ++
      (hexCells bytes ++ List.replicate (3 * (width - bytes.length)) 32 ++
        (ascii "  " ++ bytes.map shownAs))) := by
  intro bytes
  have hempty : DumpRow.Holds ⟨.zero _, .zero _, 0, 0⟩ [] := ⟨rfl, rfl, rfl, rfl⟩
  have hloop : (dumpLoop e off width 0 ⟨.zero _, .zero _, 0, 0⟩).Holds bytes := by
    have hall := @holds_dumpLoop e hcap off width 0 _ (by omega) hempty (by omega)
    rw [Nat.zero_add] at hall
    exact hall
  have hlen : bytes.length ≤ width := List.length_take_le _ _
  rw [dumpText]
  generalize dumpLoop e off width 0 ⟨.zero _, .zero _, 0, 0⟩ = r at hloop
  have hhex : r.hex.str = hexCells bytes := by
    rw [Buf.str, hloop.hex, cstr_append_replicate, cstr_eq_self (not_mem_hexCells bytes)]
  have hasc : (r.asc.store (r.al, 0)).str = bytes.map shownAs := by
    have hstored : r.asc.bytes = bytes.map shownAs ++ List.replicate (19 - bytes.length + 1) 0 := by
      rw [hloop.asc]
      congr 2
      omega
    have hal : r.al = (bytes.map shownAs).length := by rw [hloop.al, List.length_map]
    have hzero : 0 ∉ bytes.map shownAs := by
      intro hmem
      obtain ⟨c, -, hc⟩ := List.mem_map.mp hmem
      exact shownAs_ne_zero c hc
    rw [hal, Buf.str, store_bytes hstored, List.append_assoc, cstr_append_of_not_mem _ hzero]
    simp
  have hpad : padRight (width * 3) r.hex.str =
      hexCells bytes ++ List.replicate (3 * (width - bytes.length)) 32 := by
    rw [padRight, hhex, length_hexCells]
    congr 2
    omega
  rw [hasc, hpad]
  simp only [List.append_assoc]

section Line
variable {e : Event} {width off : Nat}

theorem length_offset (hcap : e.capLen.toNat ≤ MAX_CAPTURE_BYTES) (hoff : off < e.capLen.toNat) :
    (printHexPad 4 off).length = 4 :=
  length_printHexPad ((Nat.digits_length_le_iff (by decide) off).mpr
    (lt_of_lt_of_le hoff (hcap.trans (by decide))))

theorem length_field {bytes : List UInt8} (h : bytes.length ≤ width) :
    (hexCells bytes ++ List.replicate (3 * (width - bytes.length)) (32 : UInt8)).length =
      width * 3 := by
  rw [List.length_append, length_hexCells, List.length_replicate]
  omega

theorem length_dumpText_le (hcap : e.capLen.toNat ≤ MAX_CAPTURE_BYTES) (hwidth : width ≤ 16)
    (hoff : off < e.capLen.toNat) : (dumpText e width off).length ≤ 8 + 4 * width := by
  have hlen := List.length_take_le width ((e.packet.bytes.take e.capLen.toNat).drop off)
  have hblanks : (ascii "  ").length = 2 := rfl
  rw [dumpText_eq hcap hwidth]
  simp only [List.length_append, length_offset hcap hoff, length_hexCells, List.length_replicate,
    List.length_map, hblanks]
  omega

/-- The line at `off` is read back as the bytes of the packet there, whatever follows it. -/
theorem readDumpLine_dumpText (hcap : e.capLen.toNat ≤ MAX_CAPTURE_BYTES) (hwidth : width ≤ 16)
    (hoff : off < e.capLen.toNat) (row : Int) (rest : List UInt8) :
    readDumpLine width row (dumpText e width off ++ rest) = some (lineAt e width row off) := by
  rw [dumpText_eq hcap hwidth, lineAt]
  generalize hbytes : ((e.packet.bytes.take e.capLen.toNat).drop off).take width = bytes
  have hlen : bytes.length ≤ width := hbytes ▸ List.length_take_le _ _
  have hfield := @length_field width bytes hlen
  have hfour := length_offset hcap hoff
  rw [readDumpLine]
  simp only [List.append_assoc]
  rw [List.take_left' hfour, List.drop_left' hfour, readHexNat_printHexPad, expect_append]
  simp only [some_bind]
  rw [← List.append_assoc, List.take_left' hfield, List.drop_left' hfield, readHexCells_hexCells,
    expect_append]
  simp only [some_bind]
  rw [List.take_left' (List.length_map shownAs)]
  rfl

end Line

/-! ## All rows -/

/-- The lines at `row`, `row + 1`, … say where they start, show what the bytes in them are, and
hold `width` bytes each, but for the last one. -/
def Consecutive (width : Nat) : (row : Int) → (off : Nat) → List DumpLine → Prop
  | _, _, [] => True
  | row, off, l :: ls =>
      l.row = row ∧ l.off = off ∧ l.ascii = l.bytes.map shownAs ∧
        (l.bytes.length = width ∨ ls = []) ∧ Consecutive width (row + 1) (off + width) ls

theorem dumpRows_past {e : Event} {width off : Nat} (h : e.capLen.toNat ≤ off) (left : Nat)
    (row : Int) : dumpRows e width left row off = [] := by
  cases left with
  | zero => rfl
  | succ left => rw [dumpRows, if_neg (by omega)]

theorem Consecutive.le_row {width : Nat} {row : Int} {off : Nat} {ls : List DumpLine}
    (h : Consecutive width row off ls) : ∀ l ∈ ls, row ≤ l.row := by
  induction ls generalizing row off with
  | nil => exact fun l hl => absurd hl List.not_mem_nil
  | cons k ls ih =>
      obtain ⟨hrow, -, -, -, hrest⟩ := h
      intro l hl
      rcases List.mem_cons.mp hl with rfl | hl
      · exact hrow.ge
      · have := ih hrest l hl
        omega

theorem Consecutive.pairwise {width : Nat} {row : Int} {off : Nat} {ls : List DumpLine}
    (h : Consecutive width row off ls) : ls.Pairwise fun k l => k.row ≠ l.row := by
  induction ls generalizing row off with
  | nil => exact List.Pairwise.nil
  | cons k ls ih =>
      obtain ⟨hrow, -, -, -, hrest⟩ := h
      refine List.pairwise_cons.mpr ⟨fun l hl => ?_, ih hrest⟩
      have := hrest.le_row l hl
      omega

/-- The rows that are printed, as lines of the dump. -/
theorem dumpRows_eq {e : Event} (hcap : e.capLen.toNat ≤ MAX_CAPTURE_BYTES) {width : Nat}
    (hwidth : width ≤ 16) (left : Nat) (row : Int) (off : Nat) :
    ∃ ls : List DumpLine,
      dumpRows e width left row off = ls.map (fun l => (l.row, dumpText e width l.off)) ∧
      (∀ l ∈ ls, l = lineAt e width l.row l.off ∧ l.off < e.capLen.toNat ∧ l.row < row + left) ∧
      Consecutive width row off ls ∧
      ls.flatMap DumpLine.bytes =
        ((e.packet.bytes.take e.capLen.toNat).drop off).take (left * width) := by
  have hmax : MAX_CAPTURE_BYTES = 256 := rfl
  have hsize : ∀ off, ((e.packet.bytes.take e.capLen.toNat).drop off).length =
      e.capLen.toNat - off := by
    intro off
    rw [List.length_drop, List.length_take, e.packet.size_eq]
    omega
  induction left generalizing row off with
  | zero => exact ⟨[], rfl, fun l hl => absurd hl List.not_mem_nil, trivial, by simp⟩
  | succ left ih =>
      by_cases hoff : off < e.capLen.toNat
      · have hmod : (off + width) % 2 ^ 32 = off + width := Nat.mod_eq_of_lt (by omega)
        obtain ⟨ls, hrows, hls, hcons, hbytes⟩ := ih (row + 1) (off + width)
        have hfull : (lineAt e width row off).bytes.length = width ∨ ls = [] := by
          rw [lineAt, List.length_take, hsize]
          by_cases hlast : width ≤ e.capLen.toNat - off
          · exact Or.inl (Nat.min_eq_left hlast)
          · right
            rw [dumpRows_past (by omega)] at hrows
            exact List.map_eq_nil_iff.mp hrows.symm
        refine ⟨lineAt e width row off :: ls, ?_, ?_, ⟨rfl, rfl, rfl, hfull, hcons⟩, ?_⟩
        · rw [dumpRows, if_pos hoff, hmod, hrows]
          rfl
        · refine List.forall_mem_cons.mpr ⟨⟨rfl, hoff, ?_⟩, fun l hl => ?_⟩
          · show row < row + (left + 1 : Nat)
            omega
          · obtain ⟨hline, hl, hlt⟩ := hls l hl
            exact ⟨hline, hl, by push_cast; omega⟩
        · rw [List.flatMap_cons, hbytes, lineAt, ← List.drop_drop, Nat.succ_mul,
            Nat.add_comm (left * width), List.take_add]
      · refine ⟨[], by rw [dumpRows_past (by omega)]; rfl, fun l hl => absurd hl List.not_mem_nil,
          trivial, ?_⟩
        have hnil : ((e.packet.bytes.take e.capLen.toNat).drop off) = [] :=
          List.eq_nil_of_length_eq_zero (by rw [hsize]; omega)
        rw [List.flatMap_nil, hnil, List.take_nil]

/-! ## The panel -/

theorem bytesPerRow_of_le {cols : Int} (h : 73 ≤ cols) : bytesPerRow cols = 16 := by
  have hdiv : (cols - 6).tdiv 3 = (cols - 6) / 3 := Int.tdiv_eq_ediv_of_nonneg (by omega)
  simp only [bytesPerRow, hdiv]
  split_ifs <;> omega

/-- In a panel that is wide enough each line is read back where it was printed. -/
theorem drawHexDump_eq {e : Event} (hcap : e.capLen.toNat ≤ MAX_CAPTURE_BYTES) {w : Window}
    (hcols : 73 ≤ w.cols) {row : Int} (hrow : 0 ≤ row) :
    ∃ ls : List DumpLine,
      (∀ l ∈ ls, l.row < w.rows - 1 ∧
        readDumpLine 16 l.row ((drawHexDump w e row).textAt l.row.toNat 1 72) = some l) ∧
      Consecutive 16 row 0 ls ∧
      ls.flatMap DumpLine.bytes =
        (e.packet.bytes.take e.capLen.toNat).take ((w.rows - 1 - row).toNat * 16) ∧
      ∀ i j : Nat, (∀ l ∈ ls, (i : Int) ≠ l.row) ∨ j = 0 ∨ 73 ≤ j →
        (drawHexDump w e row).cell i j = w.cell i j := by
  obtain ⟨ls, hrows, hls, hcons, hbytes⟩ :=
    dumpRows_eq hcap (le_refl 16) (w.rows - 1 - row).toNat row 0
  have hdraw : drawHexDump w e row =
      w.addLines 1 (ls.map fun l => (l.row, dumpText e 16 l.off)) := by
    rw [drawHexDump, hexDump, bytesPerRow_of_le (by omega), hrows]
  have hlen : ∀ l ∈ ls, (dumpText e 16 l.off).length ≤ 72 := fun l hl =>
    length_dumpText_le hcap (le_refl 16) (hls l hl).2.1
  have hin : ∀ l ∈ ls, row ≤ l.row ∧ l.row < w.rows - 1 := by
    intro l hl
    have hge := hcons.le_row l hl
    obtain ⟨-, -, hlt⟩ := hls l hl
    omega
  have hfits : w.Fits 1 (ls.map fun l => (l.row, dumpText e 16 l.off)) := by
    intro p hp
    obtain ⟨l, hl, rfl⟩ := List.mem_map.mp hp
    have hl₁ := hin l hl
    have hl₂ := hlen l hl
    refine ⟨by omega, ?_⟩
    show 1 + (dumpText e 16 l.off).length ≤ w.cols
    omega
  refine ⟨ls, fun l hl => ⟨(hin l hl).2, ?_⟩, hcons, by rw [hbytes, List.drop_zero], ?_⟩
  · obtain ⟨hline, hoff, -⟩ := hls l hl
    have hshown := Window.textAt_addLines hfits
      (List.pairwise_map.mpr hcons.pairwise) (List.mem_map_of_mem hl) (by
        have := (hin l hl).2
        omega)
    have hrest : 72 = (dumpText e 16 l.off).length + (72 - (dumpText e 16 l.off).length) := by
      have := hlen l hl
      omega
    rw [hdraw, hrest, Window.textAt_add, hshown, readDumpLine_dumpText hcap (le_refl 16) hoff,
      ← hline]
  · intro i j hout
    rw [hdraw]
    refine Window.cell_addLines hfits fun p hp => ?_
    obtain ⟨l, hl, rfl⟩ := List.mem_map.mp hp
    have hl₂ := hlen l hl
    rcases hout with hi | hj
    · exact Or.inl (hi l hl)
    · show _ ∨ _ ∨ j < 1 ∨ 1 + (dumpText e 16 l.off).length ≤ j
      omega

end EbpfTools.Pksniff

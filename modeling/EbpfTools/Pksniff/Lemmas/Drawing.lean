import EbpfTools.Lib.SlidingView
import EbpfTools.Pksniff.Lemmas.Readers
import EbpfTools.Pksniff.Ui

/-!
# What the windows show after a redraw
-/

namespace EbpfTools.Pksniff
open EbpfTools.Lib

/-! ## The two traversals of the ring -/

/-- The array `visible` is the view of the ring under the filter. -/
theorem drawPacketListVisible_eq (f : Filter) {r : RingBuf Event}
    (h : r.count ≤ MAX_PACKETS) :
    drawPacketListVisible f r = r.view MAX_PACKETS (eventMatches f) := by
  rw [drawPacketListVisible, visibleLoop_eq f r (by omega), RingBuf.view, List.range_eq_range']
  rfl

theorem selIdxLoop_neg (f : Filter) (r : RingBuf Event) {selected : Int} (h : selected < 0)
    (left i vcount : Nat) : selIdxLoop f r selected left i vcount = none := by
  induction left generalizing i vcount with
  | zero => rfl
  | succ left ih =>
      rw [selIdxLoop, if_neg (show ¬ (vcount : Int) = selected by omega), ih, ih, ite_self]

/-- `visible[vi]` and the packet at the index that `draw_detail` finds are the same. -/
theorem drawDetailSelIdx_eq (f : Filter) {r : RingBuf Event} (h : r.count ≤ MAX_PACKETS)
    (selected : Int) :
    ((drawDetailSelIdx f r selected).map fun idx => Entry.mk idx (r.slots idx)) =
      entryAt r (drawPacketListVisible f r) selected := by
  rw [entryAt]
  split
  · rename_i hs
    obtain ⟨n, rfl⟩ := Int.eq_ofNat_of_zero_le hs
    rw [drawDetailSelIdx, selIdxLoop_eq f r (Nat.zero_le n), drawPacketListVisible,
      visibleLoop_eq f r (by omega)]
    rfl
  · rw [drawDetailSelIdx, selIdxLoop_neg f r (by omega)]
    rfl

/-! ## The highlighted row -/

/-- The rows with the colour of the selection. -/
def highlightedRows (rows : List Row) : List Row := rows.filter (·.highlighted)

section Rows
variable (r : RingBuf Event) (visible : List Int) {selected scrollTop : Int}

theorem highlightedRows_past {left : Nat} {row : Int} (h : selected < scrollTop + row - 1) :
    highlightedRows (drawRows r visible selected scrollTop left row) = [] := by
  induction left generalizing row with
  | zero => rfl
  | succ left ih =>
      rw [drawRows]
      split
      · rfl
      · have hne : ¬ scrollTop + row - 1 = selected := by omega
        rw [highlightedRows, List.filter_cons_of_neg (by simpa using hne)]
        exact ih (by omega)

/-- The selected entry is highlighted on its row if that is one of the rows drawn. -/
theorem highlightedRows_drawRows {left : Nat} {row : Int} (hle : scrollTop + row - 1 ≤ selected)
    (hlt : selected < scrollTop + row - 1 + left) (hv : selected < visible.length) :
    highlightedRows (drawRows r visible selected scrollTop left row) =
      [⟨selected - scrollTop + 1, selected, entryAt r visible selected, true⟩] := by
  induction left generalizing row with
  | zero => omega
  | succ left ih =>
      rw [drawRows]
      rw [if_neg (by omega)]
      by_cases he : scrollTop + row - 1 = selected
      · have hrow : row = selected - scrollTop + 1 := by omega
        rw [highlightedRows, List.filter_cons_of_pos (by simpa using he), he]
        have hpast : highlightedRows (drawRows r visible selected scrollTop left (row + 1)) = [] :=
          highlightedRows_past r visible (by omega)
        rw [highlightedRows] at hpast
        rw [hpast, hrow]
        simp
      · rw [highlightedRows, List.filter_cons_of_neg (by simpa using he)]
        exact ih (by omega) (by omega)

theorem entry_of_mem_drawRows {left : Nat} {row : Int} {x : Row}
    (h : x ∈ drawRows r visible selected scrollTop left row) : x.entry = entryAt r visible x.vi := by
  induction left generalizing row with
  | zero => cases h
  | succ left ih =>
      rw [drawRows] at h
      split at h
      · cases h
      · rcases List.mem_cons.mp h with rfl | h
        · rfl
        · exact ih h

theorem entryAt_nil (vi : Int) : entryAt r [] vi = none := by
  rw [entryAt]
  split <;> rfl

end Rows

/-! ## A redraw -/

def Ui.visible (ui : Ui) : List Int := drawPacketListVisible ui.filter ui.pktRing

/-- The packet that is highlighted. -/
def Ui.highlight (ui : Ui) : Option Entry := (highlightedRows ui.wList).head?.bind (·.entry)

/-- The selection after the repair in `draw_packet_list`. -/
def clampSelected (selected vcount : Int) : Int :=
  if selected ≥ vcount then (if vcount > 0 then vcount - 1 else 0) else selected

def clampScrollTop (scrollTop selected rows : Int) : Int :=
  let scrollTop := if scrollTop > selected then selected else scrollTop
  if selected ≥ scrollTop + rows - 1 then selected - rows + 2 else scrollTop

theorem drawPacketList_eq (ui : Ui) :
    let selected := clampSelected ui.selected ui.visible.length
    let scrollTop := clampScrollTop ui.scrollTop selected ui.listRows
    drawPacketList ui =
      { ui with
        selected := selected
        scrollTop := scrollTop
        wList := drawRows ui.pktRing ui.visible selected scrollTop (ui.listRows - 1).toNat 1 } :=
  rfl

theorem redrawAll_eq (ui : Ui) :
    redrawAll ui =
      { drawPacketList ui with
        wDetail :=
          if ui.detailMode then (drawDetail (drawPacketList ui)).wDetail else ui.wDetail } := by
  rw [redrawAll]
  dsimp only
  change (if ui.detailMode = true then _ else _) = _
  split
  · rfl
  · rfl

theorem clampScrollTop_le {scrollTop selected rows : Int} (h : 2 ≤ rows) :
    clampScrollTop scrollTop selected rows ≤ selected ∧
      selected < clampScrollTop scrollTop selected rows + rows - 1 := by
  rw [clampScrollTop]
  split_ifs <;> omega

theorem clampScrollTop_nonneg {scrollTop selected rows : Int} (hs : 0 ≤ selected)
    (ht : 0 ≤ scrollTop) (h : 2 ≤ rows) : 0 ≤ clampScrollTop scrollTop selected rows := by
  rw [clampScrollTop]
  split_ifs <;> omega

theorem clampSelected_nonneg {selected : Int} (h : 0 ≤ selected) (vcount : Nat) :
    0 ≤ clampSelected selected vcount := by
  rw [clampSelected]
  split_ifs <;> omega

theorem clampSelected_lt (selected : Int) {vcount : Nat} (h : 0 < vcount) :
    clampSelected selected vcount < vcount := by
  rw [clampSelected]
  split_ifs <;> omega

theorem clampSelected_zero {selected : Int} (h : 0 ≤ selected) : clampSelected selected 0 = 0 := by
  rw [clampSelected, if_pos h]
  rfl

/-- The entry at a selection that was moved back into the list. -/
theorem entryAt_clampSelected (r : RingBuf Event) (visible : List Int) {selected : Int}
    (h : 0 ≤ selected) :
    entryAt r visible (clampSelected selected visible.length) =
      visible[min selected.toNat (visible.length - 1)]?.map fun idx => ⟨idx, r.slots idx⟩ := by
  have hpos : clampSelected selected visible.length =
      (min selected.toNat (visible.length - 1) : Nat) := by
    rw [clampSelected]
    split_ifs <;> omega
  rw [entryAt, if_pos (clampSelected_nonneg h _), hpos, Int.toNat_natCast]

@[simp] theorem redrawAll_pktRing (ui : Ui) : (redrawAll ui).pktRing = ui.pktRing := by
  rw [redrawAll_eq]
  rfl

@[simp] theorem redrawAll_pcap (ui : Ui) : (redrawAll ui).pcap = ui.pcap := by
  rw [redrawAll_eq]
  rfl

@[simp] theorem redrawAll_filter (ui : Ui) : (redrawAll ui).filter = ui.filter := by
  rw [redrawAll_eq]
  rfl

@[simp] theorem redrawAll_detailMode (ui : Ui) :
    (redrawAll ui).detailMode = ui.detailMode := by
  rw [redrawAll_eq]
  rfl

@[simp] theorem redrawAll_listRows (ui : Ui) : (redrawAll ui).listRows = ui.listRows := by
  rw [redrawAll_eq]
  rfl

@[simp] theorem redrawAll_visible (ui : Ui) : (redrawAll ui).visible = ui.visible := by
  rw [Ui.visible, redrawAll_filter, redrawAll_pktRing]
  rfl

theorem redrawAll_selected (ui : Ui) :
    (redrawAll ui).selected = clampSelected ui.selected ui.visible.length := by
  rw [redrawAll_eq]
  rfl

theorem redrawAll_scrollTop (ui : Ui) :
    (redrawAll ui).scrollTop =
      clampScrollTop ui.scrollTop (redrawAll ui).selected ui.listRows := by
  rw [redrawAll_eq]
  rfl

theorem redrawAll_wList (ui : Ui) :
    (redrawAll ui).wList =
      drawRows ui.pktRing ui.visible (redrawAll ui).selected (redrawAll ui).scrollTop
        (ui.listRows - 1).toNat 1 := by
  rw [redrawAll_eq]
  rfl

theorem highlightedRows_redrawAll {ui : Ui} (hrows : 2 ≤ ui.listRows) (hv : ui.visible ≠ []) :
    highlightedRows (redrawAll ui).wList =
      [⟨(redrawAll ui).selected - (redrawAll ui).scrollTop + 1, (redrawAll ui).selected,
        entryAt ui.pktRing ui.visible (redrawAll ui).selected, true⟩] := by
  have hlt := clampSelected_lt ui.selected (List.length_pos_iff.mpr hv)
  rw [← redrawAll_selected] at hlt
  obtain ⟨hle, hrow⟩ := @clampScrollTop_le ui.scrollTop (redrawAll ui).selected _ hrows
  rw [← redrawAll_scrollTop] at hle hrow
  rw [redrawAll_wList]
  exact highlightedRows_drawRows _ _ (by omega) (by omega) hlt

/-- The packet of the selected entry is highlighted if the list has a row for it. -/
theorem highlight_redrawAll {ui : Ui} (hrows : 2 ≤ ui.listRows) :
    (redrawAll ui).highlight = entryAt ui.pktRing ui.visible (redrawAll ui).selected := by
  rw [Ui.highlight]
  by_cases hv : ui.visible = []
  · rw [hv, entryAt_nil, Option.bind_eq_none_iff]
    intro row hrow
    have hmem : row ∈ (redrawAll ui).wList := List.mem_of_mem_filter (List.mem_of_mem_head? hrow)
    rw [redrawAll_wList] at hmem
    rw [entry_of_mem_drawRows _ _ hmem, hv, entryAt_nil]
  · rw [highlightedRows_redrawAll hrows hv]
    rfl

theorem listRows_of_highlight {ui : Ui} {e : Entry} (h : (redrawAll ui).highlight = some e) :
    2 ≤ ui.listRows := by
  by_contra hrows
  have hnone : (ui.listRows - 1).toNat = 0 := by omega
  rw [Ui.highlight, redrawAll_wList, hnone] at h
  cases h

/-- The detail panel shows the packet of the selected entry. -/
theorem wDetail_redrawAll {ui : Ui} (hring : ui.pktRing.count ≤ MAX_PACKETS)
    (hpanel : ui.wDetail.isSome) (hmode : ui.detailMode) :
    (redrawAll ui).wDetail =
      some ⟨entryAt ui.pktRing ui.visible (redrawAll ui).selected⟩ := by
  obtain ⟨panel, hp⟩ := Option.isSome_iff_exists.mp hpanel
  rw [redrawAll_selected, redrawAll_eq]
  dsimp only
  rw [if_pos hmode, drawPacketList_eq, drawDetail]
  dsimp only
  rw [drawDetailSelIdx_eq _ hring, hp]
  rfl

end EbpfTools.Pksniff

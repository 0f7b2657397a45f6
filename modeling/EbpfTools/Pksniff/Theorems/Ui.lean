import EbpfTools.Pksniff.Lemmas.FilterLine

/-!
# The selection and the filter line
-/

namespace EbpfTools.Pksniff
open EbpfTools.Lib

/-! ## List and detail panel -/

/-- The selection is an entry of the filtered view, it is the one highlighted row of the list, and
the detail panel, if it is open, shows the packet of this row. -/
structure Ui.Consistent (ui : Ui) : Prop where
  scrollTop_nonneg : 0 ≤ ui.scrollTop
  scrollTop_le : ui.scrollTop ≤ ui.selected
  selected_lt : ui.visible ≠ [] → ui.selected < ui.visible.length
  selected_eq : ui.visible = [] → ui.selected = 0
  row : ∀ idx, ui.visible[ui.selected.toNat]? = some idx → ∃ row, 1 ≤ row ∧ row < ui.listRows ∧
    highlightedRows ui.wList = [⟨row, ui.selected, some ⟨idx, ui.pktRing.slots idx⟩, true⟩]
  panel : ui.detailMode = true → ui.wDetail = some ⟨ui.highlight⟩

theorem consistent_redrawAll {ui : Ui} (h : ui.Sound) : (redrawAll ui).Consistent where
  scrollTop_nonneg := (sound_redrawAll h).scrollTop_nonneg
  scrollTop_le := by
    rw [redrawAll_scrollTop]
    exact (clampScrollTop_le h.listRows_ge).1
  selected_lt hv := by
    rw [redrawAll_visible] at hv ⊢
    rw [redrawAll_selected]
    exact clampSelected_lt ui.selected (List.length_pos_iff.mpr hv)
  selected_eq hv := by
    rw [redrawAll_visible] at hv
    rw [redrawAll_selected, hv]
    exact clampSelected_zero h.selected_nonneg
  row idx hidx := by
    rw [redrawAll_visible] at hidx
    have hv : ui.visible ≠ [] := by
      intro hv
      rw [hv] at hidx
      cases hidx
    have hentry : entryAt ui.pktRing ui.visible (redrawAll ui).selected =
        some ⟨idx, ui.pktRing.slots idx⟩ := by
      rw [entryAt, if_pos (sound_redrawAll h).selected_nonneg, hidx]
      rfl
    have hrow := @clampScrollTop_le ui.scrollTop (redrawAll ui).selected _ h.listRows_ge
    rw [← redrawAll_scrollTop] at hrow
    refine ⟨(redrawAll ui).selected - (redrawAll ui).scrollTop + 1, by omega, ?_, ?_⟩
    · rw [redrawAll_listRows]
      omega
    · rw [highlightedRows_redrawAll h.listRows_ge hv, hentry, redrawAll_pktRing]
  panel hmode := by
    rw [redrawAll_detailMode] at hmode
    rw [highlight_redrawAll h.listRows_ge]
    exact wDetail_redrawAll h.toBase.count_le (h.panel.trans hmode) hmode

/-- After every redraw of every run in which the list keeps two rows, the list and the detail panel
agree on the selection. -/
theorem consistent_run (pcap : Bool) (rows : Int) {turns : List Turn}
    (h : ∀ t ∈ turns, t.Roomy) : (runState turn (start pcap rows) turns).Consistent := by
  obtain ⟨ui, hui, he⟩ := runState_sound pcap rows h
  rw [he]
  exact consistent_redrawAll hui

/-- Three packets arrive, the last one is selected, and the panel is opened on a small screen. -/
theorem consistent_run_lastOfThree :
    (runState turn (start false 24)
      [⟨[(.zero, ⟨⟨0, 0⟩, 0⟩), (.zero, ⟨⟨0, 0⟩, 0⟩), (.zero, ⟨⟨0, 0⟩, 0⟩)], none, some KEY_END, 24⟩,
        ⟨[], some 2, some (chr 'd'), 14⟩]).Consistent :=
  consistent_run false 24 (by
    intro t ht h hh
    simp only [List.mem_cons, List.not_mem_nil, or_false] at ht
    rcases ht with rfl | rfl
    · cases hh
    · cases hh
      exact le_refl 2)

/-! ## The selected packet -/

/-- The states that the screen shows. -/
def Ui.Reachable (ui : Ui) : Prop :=
  ∃ pcap rows turns, ui = runState turn (start pcap rows) turns

/-- The packet of `e` is highlighted, and the detail panel shows it if it is open. -/
def Ui.Selects (ui : Ui) (e : Entry) : Prop :=
  ui.highlight = some e ∧ (ui.detailMode = true → ui.wDetail = some ⟨some e⟩)

theorem selects_redrawAll {ui : Ui} (h : ui.Base) (hrows : 2 ≤ ui.listRows) (e : Entry) :
    (redrawAll ui).Selects e ↔
      entryAt ui.pktRing ui.visible (clampSelected ui.selected ui.visible.length) = some e := by
  rw [Ui.Selects, highlight_redrawAll hrows, redrawAll_detailMode, redrawAll_selected,
    and_iff_left_iff_imp]
  intro he hmode
  rw [wDetail_redrawAll h.count_le (h.panel.trans hmode) hmode, redrawAll_selected, he]

section Arrivals
variable {ui : Ui} {xs : List (Event × Now)} {rows : Int} {e : Entry}

/-- What becomes of the selection on the screen when events arrive. -/
theorem selects_arrivals_iff (h : ui.Base) (hrun : (redrawAll ui).running = true)
    (he : (redrawAll ui).highlight = some e) (hkept : e.idx ∉ (redrawAll ui).overwritten xs) :
    (turn (redrawAll ui) (.arrivals xs rows)).1.Selects e ↔
      (∀ idx ∈ (redrawAll ui).overwritten xs, idx ∉ (redrawAll ui).visible) ∨
        (redrawAll ui).visible.getLast? = some e.idx ∧
          ∀ x ∈ (redrawAll ui).stored xs, eventMatches (redrawAll ui).filter x = false := by
  have hrows := listRows_of_highlight he
  have hentry : entryAt (redrawAll ui).pktRing (redrawAll ui).visible (redrawAll ui).selected =
      some e := by
    rw [redrawAll_pktRing, redrawAll_visible, ← highlight_redrawAll hrows, he]
  have hs : 0 ≤ (redrawAll ui).selected := by
    by_contra hneg
    rw [entryAt, if_neg hneg] at hentry
    cases hentry
  have hrows' : 2 ≤ (input (redrawAll ui) (.arrivals xs rows)).listRows := by
    change 2 ≤ (redrawAll ui).listRows
    rw [redrawAll_listRows]
    exact hrows
  have hbase := base_input (base_redrawAll h) (.arrivals xs rows)
  rw [turn_of_running hrun, selects_redrawAll hbase hrows']
  exact selected_stays_iff (base_redrawAll h) hs hentry hkept

/-- The highlighted packet, while it is stored, stays the highlighted one over the arrival of events
exactly if no event of the filtered view is overwritten, or if it is the last one of the view and no
event is added to the view. -/
theorem selection_stays_iff (h : ui.Reachable) (hrun : ui.running = true)
    (he : ui.highlight = some e) (hkept : e.idx ∉ ui.overwritten xs) :
    (turn ui (.arrivals xs rows)).1.Selects e ↔
      (∀ idx ∈ ui.overwritten xs, idx ∉ ui.visible) ∨
        ui.visible.getLast? = some e.idx ∧
          ∀ x ∈ ui.stored xs, eventMatches ui.filter x = false := by
  obtain ⟨pcap, rows₀, turns, rfl⟩ := h
  obtain ⟨ui, hui, hdrawn⟩ := runState_base pcap rows₀ turns
  rw [hdrawn] at hrun he hkept ⊢
  exact selects_arrivals_iff hui hrun he hkept

end Arrivals

def noClock : Now := ⟨⟨0, 0⟩, 0⟩

/-- Two packets, of which the second one is selected. -/
def secondOfTwo : Ui :=
  runState turn (start false 24)
    [⟨[(.zero, noClock), (.zero, noClock)], none, some (chr 'j'), 24⟩]

theorem selection_stays_iff_secondOfTwo :
    (turn secondOfTwo (.arrivals [(.zero, noClock)] 24)).1.Selects ⟨1, .zero⟩ :=
  (selection_stays_iff ⟨_, _, _, rfl⟩ rfl rfl (by decide)).mpr (Or.inl (by decide))

-- the packets that arrive then
def laterPackets : List (Event × Now) :=
  List.replicate 8191 ({ Event.zero with ktimeNs := 1 }, noClock)

theorem stored_laterPackets :
    secondOfTwo.stored laterPackets = List.replicate 8191 { Event.zero with ktimeNs := 1 } := by
  rw [State.stored, show secondOfTwo.paused = false from rfl]
  exact List.map_replicate

theorem mem_overwritten_laterPackets (idx : Int) :
    idx ∈ secondOfTwo.overwritten laterPackets ↔
      ∃ i : Nat, i < 8191 ∧ (2 + i : Int).tmod 8192 = idx := by
  rw [Ui.overwritten, stored_laterPackets, List.length_replicate, RingBuf.overwritten,
    List.mem_map]
  simp only [List.mem_range]
  rfl

/-- After 8191 more packets the first one is overwritten and the third one is selected. -/
theorem secondOfTwo_drifts :
    ¬ ∀ (ui : Ui) (xs : List (Event × Now)) (rows : Int) (e : Entry), ui.Reachable →
      ui.running = true → ui.highlight = some e → e.idx ∉ ui.overwritten xs →
      (turn ui (.arrivals xs rows)).1.Selects e := by
  intro h
  have hlight : secondOfTwo.highlight = some ⟨1, .zero⟩ := rfl
  have hgone : (0 : Int) ∈ secondOfTwo.overwritten laterPackets :=
    (mem_overwritten_laterPackets 0).mpr ⟨8190, by decide, by decide⟩
  have hkept : (1 : Int) ∉ secondOfTwo.overwritten laterPackets := by
    rw [mem_overwritten_laterPackets]
    rintro ⟨i, hi, he⟩
    rw [Int.tmod_eq_emod_of_nonneg (by omega)] at he
    omega
  have hnew : { Event.zero with ktimeNs := 1 } ∈ secondOfTwo.stored laterPackets := by
    rw [stored_laterPackets, List.mem_replicate]
    exact ⟨by decide, rfl⟩
  have hsel := h secondOfTwo laterPackets 24 _ ⟨_, _, _, rfl⟩ rfl hlight hkept
  have hshown : (0 : Int) ∈ secondOfTwo.visible := by decide
  have hmatch : eventMatches secondOfTwo.filter { Event.zero with ktimeNs := 1 } = true := by decide
  obtain ⟨ui, hui, hdrawn⟩ : ∃ ui : Ui, ui.Base ∧ secondOfTwo = redrawAll ui :=
    runState_base false 24 _
  have hrun : secondOfTwo.running = true := rfl
  rw [hdrawn] at hsel hlight hgone hkept hnew hshown hmatch hrun
  rcases (selects_arrivals_iff hui hrun hlight hkept).mp hsel with hnone | ⟨-, hnone⟩
  · exact hnone 0 hgone hshown
  · rw [hnone _ hnew] at hmatch
    cases hmatch

/-! ## The filter line -/

/-- After any keys the buffer of the filter line is a terminated string with the cursor in it, text
and cursor are those of the line editor, and the filter changes only when the line is applied or
the filter reset. -/
theorem filterLine_refines (pcap : Bool) (rows : Int) (turns : List Turn) :
    let ui := runState turn (start pcap rows) turns
    let a := turns.foldl Editor.next .init
    (0 ∈ ui.filterBuf.bytes ∧ ui.filterCursor ≤ ui.filterBuf.str.length ∧
        ui.filterBuf.str.length ≤ FILTER_BUF - 1) ∧
      (ui.filterMode = a.editing ∧ ui.filterBuf.str = a.line.text ∧
        ui.filterCursor = a.line.cursor) ∧
      ∀ t, (turn ui t).1.filter = ui.filter ∨ ∃ ch ∈ t.key,
        ui.filterMode = true ∧ (ch = chr '\n' ∨ ch = KEY_ENTER) ∧
            (turn ui t).1.filter = parseFilterStr ui.filterBuf.str ∨
          ui.filterMode = false ∧ (ch = chr 'r' ∨ ch = chr 'R') ∧
            (turn ui t).1.filter = .any := by
  intro ui a
  have h : Refines ui a := refines_run pcap rows turns
  have hstr := h.buf.str_eq
  refine ⟨⟨h.buf.zero_mem, ?_, ?_⟩, ⟨h.editing, hstr, h.cursor⟩, fun t => ?_⟩
  · rw [hstr, h.cursor]
    exact a.line.cursor_le
  · rw [hstr]
    exact Nat.le_sub_one_of_lt h.buf.length_lt
  · rw [(refines_turn ui a t h).filter, h.filter, h.editing, hstr]
    refine (a.filter_next t).imp_right ?_
    rintro ⟨ch, hkey, hsets⟩
    refine ⟨ch, hkey, ?_⟩
    generalize (a.next t).filter = f at hsets
    cases hsets with
    | apply mode key => exact Or.inl ⟨mode, key, rfl⟩
    | reset mode key => exact Or.inr ⟨mode, key, rfl⟩

def keyTurn (ch : Int) : Turn := ⟨[], none, some ch, 24⟩

example : (runState turn (start false 24)
    ([chr 'f', chr 'a', chr 'b', KEY_LEFT, chr 'c'].map keyTurn)).filterBuf.str = ascii "acb" := by
  decide +kernel

end EbpfTools.Pksniff

import EbpfTools.Lib.Viewport
import EbpfTools.Pksniff.Lemmas.UiRun

/-!
# Scrolling through the packet list
-/

namespace EbpfTools.Pksniff
open EbpfTools.Lib

/-! ## The packets that a list shows -/

/-- A row of the list shows the entry at position `vi` of the filtered view. -/
def Ui.ShowsAt (ui : Ui) (vi : Int) (e : Entry) : Prop :=
  ∃ row ∈ ui.wList, row.vi = vi ∧ row.entry = some e

theorem entryAt_eq_none (r : RingBuf Event) {visible : List Int} {vi : Int}
    (h : (visible.length : Int) ≤ vi) : entryAt r visible vi = none := by
  rw [entryAt, if_pos (by omega), List.getElem?_eq_none (by omega)]
  rfl

theorem drawRows_shows (r : RingBuf Event) (visible : List Int) (selected scrollTop : Int)
    {left : Nat} {row vi : Int} {e : Entry} :
    (∃ x ∈ drawRows r visible selected scrollTop left row, x.vi = vi ∧ x.entry = some e) ↔
      InWindow (scrollTop + row - 1) left vi ∧ entryAt r visible vi = some e := by
  induction left generalizing row with
  | zero =>
      rw [InWindow]
      constructor
      · rintro ⟨x, hx, -⟩
        cases hx
      · rintro ⟨⟨hge, hlt⟩, -⟩
        omega
  | succ left ih =>
      rw [drawRows]
      split
      · rename_i hend
        constructor
        · rintro ⟨x, hx, -⟩
          cases hx
        · rintro ⟨⟨hge, -⟩, he⟩
          rw [entryAt_eq_none r (by omega)] at he
          cases he
      · have hrow : (∃ x ∈ (⟨row, scrollTop + row - 1, entryAt r visible (scrollTop + row - 1),
              scrollTop + row - 1 = selected⟩ : Row) ::
                drawRows r visible selected scrollTop left (row + 1), x.vi = vi ∧ x.entry = some e) ↔
            (scrollTop + row - 1 = vi ∧ entryAt r visible vi = some e) ∨
              InWindow (scrollTop + (row + 1) - 1) left vi ∧ entryAt r visible vi = some e := by
          rw [← ih, List.exists_mem_cons_iff]
          refine or_congr_left (and_congr_right ?_)
          rintro rfl
          rfl
        rw [hrow, ← or_and_right]
        refine and_congr_left fun _ => ?_
        rw [InWindow, InWindow]
        omega

/-- The rows that a list shows below its header. -/
def Ui.height (ui : Ui) : Int := ui.listRows - 1

theorem height_redrawAll (ui : Ui) : (redrawAll ui).height = ui.height := by
  rw [Ui.height, redrawAll_listRows, Ui.height]

theorem showsAt_redrawAll {ui : Ui} (hrows : 2 ≤ ui.listRows) {vi : Int} {e : Entry} :
    (redrawAll ui).ShowsAt vi e ↔
      InWindow (redrawAll ui).scrollTop ui.height vi ∧ entryAt ui.pktRing ui.visible vi = some e := by
  rw [Ui.ShowsAt, redrawAll_wList, drawRows_shows, Ui.height, InWindow, InWindow]
  refine and_congr_left fun _ => ?_
  omega

theorem redrawAll_scrollTop_eq_follow (ui : Ui) :
    (redrawAll ui).scrollTop = follow ui.height ui.scrollTop (redrawAll ui).selected := by
  rw [redrawAll_scrollTop, clampScrollTop, follow, Ui.height]
  split_ifs <;> omega

/-! ## Turns that move the selection -/

/-- No event is stored in the turn and the list keeps its height. -/
def Ui.Still (ui : Ui) (t : Turn) : Prop := ui.stored t.events = [] ∧ t.resized = none

theorem handleEvents_of_stored {s : State} {xs : List (Event × Now)} (h : s.stored xs = []) :
    handleEvents s xs = s := by
  rw [State.stored] at h
  split at h
  · exact handleEvents_of_paused ‹_› xs
  · rw [List.map_eq_nil_iff.mp h]
    rfl

/-- A state drawn from one with a list of at least two rows that waits for the keys of the normal
mode. -/
structure Ui.Waits (ui : Ui) : Prop where
  running : ui.running = true
  filterMode : ui.filterMode = false
  drawn : ∃ ui₀ : Ui, ui₀.Sound ∧ ui = redrawAll ui₀

theorem redrawAll_running (ui : Ui) : (redrawAll ui).running = ui.running := by
  rw [redrawAll_eq]
  rfl

theorem redrawAll_filterMode (ui : Ui) : (redrawAll ui).filterMode = ui.filterMode := by
  rw [redrawAll_eq]
  rfl

theorem redrawAll_toState (ui : Ui) : (redrawAll ui).toState = ui.toState := by
  rw [redrawAll_eq]
  rfl

section Drawn
variable {ui : Ui}

theorem Ui.Waits.sound (h : ui.Waits) : ui.Sound := by
  obtain ⟨ui₀, h₀, rfl⟩ := h.drawn
  exact sound_redrawAll h₀

theorem Ui.Waits.selected_lt (h : ui.Waits) :
    ui.selected < ui.visible.length ∨ ui.selected = 0 ∧ ui.visible = [] := by
  obtain ⟨ui₀, h₀, rfl⟩ := h.drawn
  rw [redrawAll_visible, redrawAll_selected]
  by_cases hv : ui₀.visible = []
  · right
    rw [hv]
    exact ⟨clampSelected_zero h₀.selected_nonneg, rfl⟩
  · exact Or.inl (clampSelected_lt _ (List.length_pos_iff.mpr hv))

theorem Ui.Waits.inWindow (h : ui.Waits) : InWindow ui.scrollTop ui.height ui.selected := by
  obtain ⟨ui₀, h₀, rfl⟩ := h.drawn
  have hrows := h₀.listRows_ge
  rw [redrawAll_scrollTop_eq_follow, height_redrawAll]
  refine follow_inWindow ?_
  rw [Ui.height]
  omega

theorem Ui.Waits.showsAt_iff (h : ui.Waits) {vi : Int} {e : Entry} :
    ui.ShowsAt vi e ↔
      InWindow ui.scrollTop ui.height vi ∧ entryAt ui.pktRing ui.visible vi = some e := by
  obtain ⟨ui₀, h₀, rfl⟩ := h.drawn
  rw [showsAt_redrawAll h₀.listRows_ge, height_redrawAll, redrawAll_pktRing, redrawAll_visible]

theorem Ui.Waits.handleKey_eq (h : ui.Waits) {t : Turn} {ch : Int} (hkey : t.key = some ch) :
    handleKey ui t = handleInputNormal ui ch t.rows := by
  rw [handleKey, hkey]
  dsimp only
  rw [h.filterMode, if_neg Bool.false_ne_true]

theorem input_of_still {t : Turn} (h : ui.Still t) : input ui t = handleKey ui t := by
  rw [input, handleEvents_of_stored h.1, h.2]
  rfl

/-- A key that moves the selection to `selected`, as long as no event is stored. -/
def Ui.MovesTo (ui : Ui) (t : Turn) (selected : Int) : Prop :=
  ui.Still t ∧ handleKey ui t = { ui with selected := selected } ∧ 0 ≤ selected

/-- The parts of the state that such a turn keeps. -/
structure Ui.SameView (ui ui' : Ui) : Prop where
  toState : ui'.toState = ui.toState
  filter : ui'.filter = ui.filter
  listRows : ui'.listRows = ui.listRows

theorem Ui.SameView.refl (ui : Ui) : ui.SameView ui := ⟨rfl, rfl, rfl⟩

theorem Ui.SameView.trans {ui' ui'' : Ui} (h : ui.SameView ui') (h' : ui'.SameView ui'') :
    ui.SameView ui'' :=
  ⟨h'.toState.trans h.toState, h'.filter.trans h.filter, h'.listRows.trans h.listRows⟩

theorem Ui.SameView.visible {ui' : Ui} (h : ui.SameView ui') : ui'.visible = ui.visible := by
  rw [Ui.visible, Ui.visible, h.filter, h.toState]

theorem Ui.SameView.height {ui' : Ui} (h : ui.SameView ui') : ui'.height = ui.height := by
  rw [Ui.height, Ui.height, h.listRows]

theorem Ui.SameView.still {ui' : Ui} (h : ui.SameView ui') {t : Turn} (ht : ui.Still t) :
    ui'.Still t := by
  rw [Ui.Still, h.toState]
  exact ht

/-- The turn of a key that moves the selection. -/
theorem turn_of_movesTo (h : ui.Waits) {t : Turn} {selected : Int} (hmove : ui.MovesTo t selected) :
    let ui' := (turn ui t).1
    ui'.Waits ∧ ui.SameView ui' ∧
      ui'.selected = clampSelected selected ui.visible.length ∧
      ui'.scrollTop = follow ui.height ui.scrollTop ui'.selected := by
  obtain ⟨hstill, hkey, hnonneg⟩ := hmove
  have hs := h.sound
  have hturn : (turn ui t).1 = redrawAll { ui with selected := selected } := by
    rw [turn_of_running h.running, input_of_still hstill, hkey]
  have hsound : Ui.Sound { ui with selected := selected } :=
    ⟨⟨hs.ring, hs.panel⟩, hs.listRows_ge, hnonneg, hs.scrollTop_nonneg⟩
  rw [hturn]
  refine ⟨⟨?_, ?_, _, hsound, rfl⟩, ⟨?_, ?_, ?_⟩, ?_, ?_⟩
  · rw [redrawAll_running]
    exact h.running
  · rw [redrawAll_filterMode]
    exact h.filterMode
  · rw [redrawAll_toState]
  · rw [redrawAll_filter]
  · rw [redrawAll_listRows]
  · rw [redrawAll_selected]
    rfl
  · rw [redrawAll_scrollTop_eq_follow]
    rfl

end Drawn

/-! ## The arrow and page keys -/

/-- The key of the turn, if there is one, is an arrow or a page key. -/
def Turn.Scrolls (t : Turn) : Prop :=
  ∀ ch ∈ t.key, normalKey ch = .up ∨ normalKey ch = .down ∨ normalKey ch = .ppage ∨
    normalKey ch = .npage

theorem handleInputNormalVcount_eq {ui : Ui} (h : ui.Base) :
    handleInputNormalVcount ui.filter ui.pktRing = ui.visible.length := by
  have hlen := congrArg List.length (visibleLoop_map ui.filter ui.pktRing
    (show 0 + ui.pktRing.count.toNat ≤ MAX_PACKETS by have := h.count_le; omega) (i := 0))
  rw [List.length_map] at hlen
  rw [handleInputNormalVcount, vcountLoop_eq, Nat.zero_add, ← hlen]
  rfl

/-- An arrow or page key moves the selection by less than the height of the list. -/
theorem movesTo_of_scrolls {ui : Ui} (h : ui.Waits) {t : Turn} (hstill : ui.Still t)
    (ht : t.Scrolls) : ∃ selected, ui.MovesTo t selected ∧
      (clampSelected selected ui.visible.length - ui.selected).natAbs ≤ ui.height := by
  have hs := h.sound
  have hrows := hs.listRows_ge
  have hsel := hs.selected_nonneg
  have hlt := h.selected_lt
  have hlen : ui.visible = [] → ui.visible.length = 0 := fun he => by rw [he]; rfl
  rw [Ui.height]
  have hkeep : handleKey ui t = ui → ∃ selected, ui.MovesTo t selected ∧
      (clampSelected selected ui.visible.length - ui.selected).natAbs ≤ ui.listRows - 1 := by
    intro hk
    refine ⟨ui.selected, ⟨hstill, hk, hsel⟩, ?_⟩
    rw [clampSelected]
    split_ifs <;> omega
  cases hch : t.key with
  | none =>
      refine hkeep ?_
      rw [handleKey, hch]
  | some ch =>
      have hkey := h.handleKey_eq hch
      rw [handleInputNormal, handleInputNormalVcount_eq hs.toBase] at hkey
      rcases ht ch (by rw [hch]; rfl) with hk | hk | hk | hk
      · rw [hk] at hkey
        dsimp only at hkey
        split_ifs at hkey
        · refine ⟨_, ⟨hstill, hkey, by omega⟩, ?_⟩
          rw [clampSelected]
          split_ifs <;> omega
        · exact hkeep hkey
      · rw [hk] at hkey
        dsimp only at hkey
        split_ifs at hkey
        · refine ⟨_, ⟨hstill, hkey, by omega⟩, ?_⟩
          rw [clampSelected]
          split_ifs <;> omega
        · exact hkeep hkey
      · rw [hk] at hkey
        refine ⟨_, ⟨hstill, hkey, ?_⟩, ?_⟩
        · split_ifs <;> omega
        · rw [clampSelected]
          split_ifs <;> omega
      · rw [hk] at hkey
        refine ⟨_, ⟨hstill, hkey, ?_⟩, ?_⟩
        · split_ifs <;> omega
        · rw [clampSelected]
          split_ifs <;> omega

/-! ## Runs of scrolling turns -/

section Runs
variable {ui : Ui} {ts : List Turn}

theorem waits_scroll (h : ui.Waits) (hts : ∀ t ∈ ts, ui.Still t ∧ t.Scrolls) :
    (runState turn ui ts).Waits ∧ ui.SameView (runState turn ui ts) := by
  have hstep : ∀ pre t post, ts = pre ++ t :: post →
      (runState turn ui pre).Waits ∧ ui.SameView (runState turn ui pre) →
        (turn (runState turn ui pre) t).1.Waits ∧
          ui.SameView (turn (runState turn ui pre) t).1 := by
    rintro pre t post rfl ⟨hw, hsame⟩
    obtain ⟨hstill, hscrolls⟩ := hts t (by simp)
    obtain ⟨selected, hmove, -⟩ := movesTo_of_scrolls hw (hsame.still hstill) hscrolls
    obtain ⟨hw', hsame', -, -⟩ := turn_of_movesTo hw hmove
    exact ⟨hw', hsame.trans hsame'⟩
  let kept (_ : List Turn) (s : Ui) : Prop := s.Waits ∧ ui.SameView s
  have hstart : kept [] ui := ⟨h, .refl ui⟩
  exact run_invariant hstart hstep

/-- Arrow and page keys show every entry between the selections before and after them. -/
theorem shown_of_scroll (h : ui.Waits) (hts : ∀ t ∈ ts, ui.Still t ∧ t.Scrolls) {vi : Int}
    {e : Entry} (he : entryAt ui.pktRing ui.visible vi = some e)
    (hvi : Between ui.selected (runState turn ui ts).selected vi) :
    ∃ pre, pre <+: ts ∧ (runState turn ui pre).ShowsAt vi e := by
  have hentry : ∀ pre, pre <+: ts → (runState turn ui pre).Waits ∧
      entryAt (runState turn ui pre).pktRing (runState turn ui pre).visible vi = some e := by
    intro pre hpre
    obtain ⟨hw, hsame⟩ := waits_scroll h fun t ht => hts t (hpre.mem ht)
    exact ⟨hw, by rw [hsame.visible, hsame.toState, he]⟩
  let shows (s : Ui) (i : Int) : Prop := InWindow s.scrollTop s.height i
  have hshown : ∃ pre, pre <+: ts ∧ shows (runState turn ui pre) vi := by
    refine shown_between h.inWindow (fun pre t post hsplit i hi hne => ?_) hvi
    have hpre : pre <+: ts := ⟨t :: post, hsplit.symm⟩
    obtain ⟨hw, hsame⟩ := waits_scroll h fun t' ht' => hts t' (hpre.mem ht')
    obtain ⟨hstill, hscrolls⟩ := hts t (by simp [hsplit])
    obtain ⟨selected, hmove, hnear⟩ := movesTo_of_scrolls hw (hsame.still hstill) hscrolls
    obtain ⟨-, hsame', hsel, htop⟩ := turn_of_movesTo hw hmove
    rw [runState_concat] at hi ⊢
    rw [← hsel] at hnear
    change InWindow _ _ i
    rw [htop, hsame'.height]
    exact inWindow_of_between hw.inWindow hnear hi hne
  obtain ⟨pre, hpre, hin⟩ := hshown
  obtain ⟨hw, he'⟩ := hentry pre hpre
  exact ⟨pre, hpre, hw.showsAt_iff.mpr ⟨hin, he'⟩⟩

end Runs

end EbpfTools.Pksniff

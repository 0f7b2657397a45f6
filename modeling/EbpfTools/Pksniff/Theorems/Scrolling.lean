import EbpfTools.Pksniff.Lemmas.Scrolling

/-!
# Reading through the packet list
-/

namespace EbpfTools.Pksniff
open EbpfTools.Lib

theorem waits_run (pcap : Bool) (rows : Int) {turns : List Turn} (h : ∀ t ∈ turns, t.Roomy)
    (hrun : (runState turn (start pcap rows) turns).running = true)
    (hmode : (runState turn (start pcap rows) turns).filterMode = false) :
    (runState turn (start pcap rows) turns).Waits :=
  ⟨hrun, hmode, runState_sound pcap rows h⟩

/-- While no packet is stored, no sequence of arrow and page keys skips a packet: each entry of the
filtered view between the first and the last selection is on the screen after one of the keys. -/
theorem scrolling_skips_nothing (pcap : Bool) (rows : Int) {turns ts : List Turn}
    (h : ∀ t ∈ turns, t.Roomy) :
    let ui := runState turn (start pcap rows) turns
    ui.running = true → ui.filterMode = false → (∀ t ∈ ts, ui.Still t ∧ t.Scrolls) →
      ∀ vi e, entryAt ui.pktRing ui.visible vi = some e →
        Between ui.selected (runState turn ui ts).selected vi →
          ∃ pre, pre <+: ts ∧ (runState turn ui pre).ShowsAt vi e := by
  intro ui hrun hmode hts vi e he hvi
  exact shown_of_scroll (waits_run pcap rows h hrun hmode) hts he hvi

/-- Three packets in a list with one row below its header. -/
def shortList : List Turn :=
  [⟨List.replicate 3 (.zero, ⟨⟨0, 0⟩, 0⟩), some 2, none, 24⟩]

theorem roomy_shortList : ∀ t ∈ shortList, t.Roomy := by
  intro t ht n hn
  rw [shortList, List.mem_singleton] at ht
  subst ht
  rw [← Option.some_inj.mp hn]

theorem scrolling_skips_nothing_shortList :
    let ui := runState turn (start false 24) shortList
    ∃ pre, pre <+: [⟨[], none, some KEY_DOWN, 24⟩, ⟨[], none, some (chr 'j'), 24⟩] ∧
      (runState turn ui pre).ShowsAt 1 ⟨1, .zero⟩ := by
  refine scrolling_skips_nothing false 24 roomy_shortList rfl rfl ?_ 1 _ (by decide +kernel)
    ⟨by decide +kernel, by decide +kernel⟩
  intro t ht
  simp only [List.mem_cons, List.not_mem_nil, or_false] at ht
  rcases ht with rfl | rfl
  · refine ⟨⟨rfl, rfl⟩, fun ch hch => ?_⟩
    rw [← Option.some_inj.mp hch]
    exact Or.inr (Or.inl rfl)
  · refine ⟨⟨rfl, rfl⟩, fun ch hch => ?_⟩
    rw [← Option.some_inj.mp hch]
    exact Or.inr (Or.inl rfl)

/-! ## Page by page -/

section Pages
variable {ui : Ui} {ts : List Turn}

-- the entries that one page key moves the selection by
def Ui.page (ui : Ui) : Int := ui.listRows - 2

theorem normalKey_npage : normalKey KEY_NPAGE = .npage := rfl

theorem normalKey_home : normalKey KEY_HOME = .home := rfl

theorem movesTo_home (h : ui.Waits) {t : Turn} (hstill : ui.Still t) (hkey : t.key = some KEY_HOME) :
    ui.MovesTo t 0 := by
  refine ⟨hstill, ?_, le_refl 0⟩
  rw [h.handleKey_eq hkey, handleInputNormal, normalKey_home]

theorem movesTo_npage (h : ui.Waits) {t : Turn} (hstill : ui.Still t)
    (hkey : t.key = some KEY_NPAGE) :
    ui.MovesTo t (clampSelected (ui.selected + ui.page) ui.visible.length) := by
  have hs := h.sound
  have hrows := hs.listRows_ge
  have hsel := hs.selected_nonneg
  refine ⟨hstill, ?_, clampSelected_nonneg (by rw [Ui.page]; omega) _⟩
  rw [h.handleKey_eq hkey, handleInputNormal, normalKey_npage, handleInputNormalVcount_eq hs.toBase]
  rfl

/-- The selection and the first row after HOME and `k` times PAGE DOWN. -/
structure Ui.OnPage (ui : Ui) (k : Nat) : Prop where
  selected : ui.selected = max 0 (min (k * ui.page) (ui.visible.length - 1))
  scrollTop : ui.scrollTop = max 0 (ui.selected - ui.page)

theorem onPage_home (h : ui.Waits) {t : Turn} (hstill : ui.Still t) (hkey : t.key = some KEY_HOME) :
    let ui' := (turn ui t).1
    ui'.Waits ∧ ui.SameView ui' ∧ ui'.OnPage 0 := by
  intro ui'
  obtain ⟨hw, hsame, hsel, htop⟩ := turn_of_movesTo h (movesTo_home h hstill hkey)
  have hrows := h.sound.listRows_ge
  have hnonneg := h.sound.scrollTop_nonneg
  have hzero : ui'.selected = 0 := by
    rw [hsel, clampSelected]
    split_ifs <;> omega
  refine ⟨hw, hsame, ?_, ?_⟩
  · rw [hzero]
    omega
  · rw [htop, hzero, follow, Ui.height, Ui.page, hsame.listRows]
    split_ifs <;> omega

theorem onPage_npage (h : ui.Waits) {k : Nat} (hk : ui.OnPage k) {t : Turn} (hstill : ui.Still t)
    (hkey : t.key = some KEY_NPAGE) :
    let ui' := (turn ui t).1
    ui'.Waits ∧ ui.SameView ui' ∧ ui'.OnPage (k + 1) := by
  intro ui'
  obtain ⟨hw, hsame, hsel, htop⟩ := turn_of_movesTo h (movesTo_npage h hstill hkey)
  change ui'.scrollTop = follow ui.height ui.scrollTop ui'.selected at htop
  have hrows := h.sound.listRows_ge
  have hpage : ui'.page = ui.page := by rw [Ui.page, hsame.listRows, Ui.page]
  have hheight : ui.height = ui.page + 1 := by
    rw [Ui.height, Ui.page]
    omega
  have hge : 0 ≤ ui.page := by
    rw [Ui.page]
    omega
  have hmul : ((k + 1 : Nat) : Int) * ui.page = k * ui.page + ui.page := by
    push_cast
    ring
  have hpos : 0 ≤ (k : Int) * ui.page := Int.mul_nonneg (by omega) hge
  have hbefore := hk.selected
  have hsel' : ui'.selected = max 0 (min ((k + 1 : Nat) * ui.page) (ui.visible.length - 1)) := by
    rw [hsel, hmul, clampSelected, clampSelected]
    split_ifs <;> omega
  refine ⟨hw, hsame, ?_, ?_⟩
  · rw [hpage, hsame.visible]
    exact hsel'
  · rw [htop, hpage, follow, hheight, hk.scrollTop]
    rw [hmul] at hsel'
    split_ifs <;> omega

theorem onPage_run (h : ui.Waits) (hpage : ui.OnPage 0)
    (hts : ∀ t ∈ ts, ui.Still t ∧ t.key = some KEY_NPAGE) :
    let ui' := runState turn ui ts
    ui'.Waits ∧ ui.SameView ui' ∧ ui'.OnPage ts.length := by
  let onPage (pre : List Turn) (s : Ui) : Prop := s.Waits ∧ ui.SameView s ∧ s.OnPage pre.length
  have hstart : onPage [] ui := ⟨h, .refl ui, hpage⟩
  refine run_invariant hstart ?_
  rintro pre t post rfl ⟨hw, hsame, hk⟩
  obtain ⟨hstill, hkey⟩ := hts t (by simp)
  obtain ⟨hw', hsame', hk'⟩ := onPage_npage hw hk (hsame.still hstill) hkey
  exact ⟨hw', hsame.trans hsame', by rw [List.length_append]; exact hk'⟩

theorem scrolls_of_npage {t : Turn} (h : t.key = some KEY_NPAGE) : t.Scrolls := by
  intro ch hch
  rw [h, Option.mem_some_iff] at hch
  rw [← hch, normalKey_npage]
  exact Or.inr (Or.inr (Or.inr rfl))

theorem entryAt_bounds {r : RingBuf Event} {visible : List Int} {vi : Int} {e : Entry}
    (h : entryAt r visible vi = some e) : 0 ≤ vi ∧ vi < visible.length := by
  by_contra hout
  rw [entryAt] at h
  split at h
  · rw [List.getElem?_eq_none (by omega)] at h
    cases h
  · cases h

/-- The entries that the lists show while PAGE DOWN is pressed `n` times from the first entry on. -/
theorem shown_on_pages (h : ui.Waits) (hpage : ui.OnPage 0)
    (hts : ∀ t ∈ ts, ui.Still t ∧ t.key = some KEY_NPAGE) {vi : Int} {e : Entry} :
    (∃ pre, pre <+: ts ∧ (runState turn ui pre).ShowsAt vi e) ↔
      entryAt ui.pktRing ui.visible vi = some e ∧ vi ≤ max 1 (ts.length : Int) * ui.page := by
  have hrows := h.sound.listRows_ge
  have hge : 0 ≤ ui.page := by
    rw [Ui.page]
    omega
  have hheight : ui.height = ui.page + 1 := by
    rw [Ui.height, Ui.page]
    omega
  have hfirst : (1 : Int) * ui.page ≤ max 1 (ts.length : Int) * ui.page :=
    mul_le_mul_of_nonneg_right (le_max_left _ _) hge
  constructor
  · rintro ⟨pre, hpre, hshown⟩
    obtain ⟨hw, hsame, hsel, htop⟩ := onPage_run h hpage fun t ht => hts t (hpre.mem ht)
    obtain ⟨⟨hle, hlt⟩, he⟩ := hw.showsAt_iff.mp hshown
    rw [hsame.visible, hsame.toState] at he
    refine ⟨he, ?_⟩
    have hsame' : (runState turn ui pre).page = ui.page := by rw [Ui.page, hsame.listRows, Ui.page]
    rw [hsame'] at hsel htop
    rw [hsame.height] at hlt
    have hlen : (pre.length : Int) * ui.page ≤ max 1 (ts.length : Int) * ui.page :=
      mul_le_mul_of_nonneg_right (le_max_of_le_right (by exact_mod_cast hpre.length_le)) hge
    omega
  · rintro ⟨he, hvi⟩
    have hin := entryAt_bounds he
    obtain ⟨-, hsame, hsel, -⟩ := onPage_run h hpage hts
    have hsame' : (runState turn ui ts).page = ui.page := by rw [Ui.page, hsame.listRows, Ui.page]
    rw [hsame', hsame.visible] at hsel
    have hstart := hpage.selected
    have htop := hpage.scrollTop
    by_cases hreach : vi ≤ (runState turn ui ts).selected
    · refine shown_of_scroll h (fun t ht => ⟨(hts t ht).1, scrolls_of_npage (hts t ht).2⟩) he ?_
      rw [Between, hstart]
      omega
    · refine ⟨[], List.nil_prefix, h.showsAt_iff.mpr ⟨?_, he⟩⟩
      have hnone : ts.length = 0 := by
        by_contra hsome
        rw [max_eq_right (by omega)] at hvi
        omega
      have hvi : vi ≤ ui.page := by simpa [hnone] using hvi
      have hzero : ((0 : Nat) : Int) * ui.page = 0 := by simp
      rw [InWindow, hheight, htop, hstart]
      omega

end Pages

/-- HOME and `n` times PAGE DOWN show exactly the first `max 1 n * (rows - 2) + 1` entries of the
filtered view, where `rows` is the height of the list. With at least two rows for packets, as many
pages as there are further entries show every packet. -/
theorem pages_show_iff (pcap : Bool) (rows : Int) {turns ts : List Turn} {home : Turn}
    (h : ∀ t ∈ turns, t.Roomy) :
    let ui := runState turn (start pcap rows) turns
    ui.running = true → ui.filterMode = false → ui.Still home → home.key = some KEY_HOME →
      (∀ t ∈ ts, ui.Still t ∧ t.key = some KEY_NPAGE) →
        (∀ vi e, (∃ pre, pre <+: ts ∧ (runState turn ui (home :: pre)).ShowsAt vi e) ↔
          entryAt ui.pktRing ui.visible vi = some e ∧
            vi ≤ max 1 (ts.length : Int) * (ui.listRows - 2)) ∧
        (3 ≤ ui.listRows → ui.visible.length ≤ ts.length + 1 →
          ∀ vi e, entryAt ui.pktRing ui.visible vi = some e →
            ∃ pre, pre <+: ts ∧ (runState turn ui (home :: pre)).ShowsAt vi e) := by
  intro ui hrun hmode hstill hhome hts
  obtain ⟨hw, hsame, hpage⟩ := onPage_home (waits_run pcap rows h hrun hmode) hstill hhome
  have hall : ∀ vi e, (∃ pre, pre <+: ts ∧ (runState turn ui (home :: pre)).ShowsAt vi e) ↔
      entryAt ui.pktRing ui.visible vi = some e ∧
        vi ≤ max 1 (ts.length : Int) * (ui.listRows - 2) := by
    intro vi e
    have hshown := @shown_on_pages _ ts hw hpage
      (fun t ht => ⟨hsame.still (hts t ht).1, (hts t ht).2⟩) vi e
    rw [hsame.visible, hsame.toState, Ui.page, hsame.listRows] at hshown
    exact hshown
  refine ⟨hall, fun hrows henough vi e he => (hall vi e).mpr ⟨he, ?_⟩⟩
  have hlt := (entryAt_bounds he).2
  have hstep : max 1 (ts.length : Int) * 1 ≤ max 1 (ts.length : Int) * (ui.listRows - 2) :=
    mul_le_mul_of_nonneg_left (by omega) (by omega)
  omega

/-- Six packets in a list with three rows below its header. -/
def tallList : List Turn :=
  [⟨List.replicate 6 (.zero, ⟨⟨0, 0⟩, 0⟩), some 4, none, 24⟩]

theorem roomy_tallList : ∀ t ∈ tallList, t.Roomy := by
  intro t ht n hn
  rw [tallList, List.mem_singleton] at ht
  subst ht
  rw [← Option.some_inj.mp hn]
  decide

theorem pages_show_iff_tallList :
    let ui := runState turn (start false 24) tallList
    let home : Turn := ⟨[], none, some KEY_HOME, 24⟩
    let pages : List Turn := List.replicate 5 ⟨[], none, some KEY_NPAGE, 24⟩
    (∀ vi e, (∃ pre, pre <+: pages ∧ (runState turn ui (home :: pre)).ShowsAt vi e) ↔
        entryAt ui.pktRing ui.visible vi = some e ∧ vi ≤ max 1 5 * (ui.listRows - 2)) ∧
      ∀ vi e, entryAt ui.pktRing ui.visible vi = some e →
        ∃ pre, pre <+: pages ∧ (runState turn ui (home :: pre)).ShowsAt vi e := by
  intro ui home pages
  have hpages : ∀ t ∈ pages, ui.Still t ∧ t.key = some KEY_NPAGE := by
    intro t ht
    rw [List.eq_of_mem_replicate ht]
    exact ⟨⟨rfl, rfl⟩, rfl⟩
  obtain ⟨hshown, hall⟩ :=
    pages_show_iff false 24 roomy_tallList rfl rfl (⟨rfl, rfl⟩ : ui.Still home) rfl hpages
  exact ⟨hshown, hall (by decide +kernel) (by decide +kernel)⟩

end EbpfTools.Pksniff

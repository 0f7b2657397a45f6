import EbpfTools.Lib.Run
import EbpfTools.Pksniff.Lemmas.Drawing

/-!
# Runs of the event loop
-/

namespace EbpfTools.Pksniff
open EbpfTools.Lib

/-! ## Events -/

/-- The events of `xs` that are stored: none while the display is paused. -/
def State.stored (s : State) (xs : List (Event × Now)) : List Event :=
  if s.paused then [] else xs.map Prod.fst

theorem handleEvents_of_paused {s : State} (h : s.paused = true) (xs : List (Event × Now)) :
    handleEvents s xs = s := by
  induction xs with
  | nil => rfl
  | cons x xs ih =>
      have hsame : handleEvent s x.1 x.2 = s := by
        rw [handleEvent, h]
        rfl
      rw [handleEvents_cons, hsame, ih]

theorem handleEvents_stored (s : State) (xs : List (Event × Now)) :
    (handleEvents s xs).pktRing = (s.stored xs).foldl (RingBuf.push MAX_PACKETS) s.pktRing := by
  rw [State.stored]
  cases hp : s.paused with
  | true =>
      rw [handleEvents_of_paused hp]
      rfl
  | false => exact handleEvents_pktRing hp xs

/-! ## Keys -/

/-- What any key does: of what the events change it changes `g_paused` only, there is a window for
the details in the detail mode, and no key moves the selection in front of the first entry. -/
structure KeyStep (ui ui' : Ui) : Prop where
  toState_eq : ui'.toState = { ui.toState with paused := ui'.paused }
  panel : ui.wDetail.isSome = ui.detailMode → ui'.wDetail.isSome = ui'.detailMode
  listRows : ui'.listRows = ui.listRows ∨ 4 ≤ ui'.listRows
  selected : 0 ≤ ui.selected → 2 ≤ ui.listRows → 0 ≤ ui'.selected
  scrollTop : ui'.scrollTop = ui.scrollTop ∨ ui'.scrollTop = 0

theorem KeyStep.refl (ui : Ui) : KeyStep ui ui := ⟨rfl, id, Or.inl rfl, fun h _ => h, Or.inl rfl⟩

/-- A key that only moves the selection. -/
theorem KeyStep.select (ui : Ui) {selected : Int}
    (h : 0 ≤ ui.selected → 2 ≤ ui.listRows → 0 ≤ selected) :
    KeyStep ui { ui with selected := selected } :=
  ⟨rfl, id, Or.inl rfl, h, Or.inl rfl⟩

theorem KeyStep.ite {ui ui' : Ui} (c : Prop) [Decidable c] (h : KeyStep ui ui') :
    KeyStep ui (if c then ui' else ui) := by
  split
  · exact h
  · exact .refl ui

theorem keyStep_layoutWindows (ui : Ui) (detailMode : Bool) (rows : Int) :
    KeyStep ui (layoutWindows rows { ui with detailMode := detailMode }) where
  toState_eq := rfl
  panel _ := by
    rw [layoutWindows]
    cases detailMode <;> rfl
  listRows := by
    right
    rw [layoutWindows]
    dsimp only
    split <;> omega
  selected h _ := h
  scrollTop := Or.inl rfl

theorem last_nonneg (vcount : Nat) : 0 ≤ if (vcount : Int) > 0 then (vcount : Int) - 1 else 0 := by
  split <;> omega

theorem keyStep_handleInputNormal (ui : Ui) (ch rows : Int) :
    KeyStep ui (handleInputNormal ui ch rows) := by
  have hlast := last_nonneg (handleInputNormalVcount ui.filter ui.pktRing)
  rw [handleInputNormal]
  cases normalKey ch with
  | quit => exact ⟨rfl, id, Or.inl rfl, fun h _ => h, Or.inl rfl⟩
  | pause => exact ⟨rfl, id, Or.inl rfl, fun h _ => h, Or.inl rfl⟩
  | filter => exact ⟨rfl, id, Or.inl rfl, fun h _ => h, Or.inl rfl⟩
  | detail => exact keyStep_layoutWindows ui (!ui.detailMode) rows
  | reset => exact ⟨rfl, id, Or.inl rfl, fun h _ => h, Or.inl rfl⟩
  | save => exact .refl ui
  | up =>
      dsimp only
      split
      · exact .select ui (by omega)
      · exact .refl ui
  | down =>
      refine .ite _ (.select ui fun hs _ => ?_)
      omega
  | ppage =>
      refine .select ui fun _ _ => ?_
      split <;> omega
  | npage =>
      refine .select ui fun _ _ => ?_
      split
      · exact hlast
      · omega
  | home => exact .select ui fun _ _ => le_refl 0
  | last => exact .select ui fun _ _ => hlast
  | resize => exact keyStep_layoutWindows ui ui.detailMode rows
  | other => exact .refl ui

theorem keyStep_handleInputFilter (ui : Ui) (ch : Int) :
    KeyStep ui (handleInputFilter ui ch) := by
  have hedit : ∀ buf cursor, KeyStep ui { ui with filterBuf := buf, filterCursor := cursor } :=
    fun _ _ => ⟨rfl, id, Or.inl rfl, fun h _ => h, Or.inl rfl⟩
  rw [handleInputFilter]
  cases filterKey ch with
  | cancel => exact ⟨rfl, id, Or.inl rfl, fun h _ => h, Or.inl rfl⟩
  | apply => exact ⟨rfl, id, Or.inl rfl, fun _ _ => le_refl 0, Or.inr rfl⟩
  | backspace => exact .ite _ (hedit _ _)
  | left => exact .ite _ (hedit _ _)
  | right => exact .ite _ (hedit _ _)
  | delete => exact .ite _ (hedit _ _)
  | char c => exact .ite _ (hedit _ _)
  | other => exact .refl ui

theorem keyStep_handleKey (ui : Ui) (t : Turn) : KeyStep ui (handleKey ui t) := by
  rw [handleKey]
  cases t.key with
  | none => exact .refl ui
  | some ch =>
      dsimp only
      split
      · exact keyStep_handleInputFilter ui ch
      · exact keyStep_handleInputNormal ui ch t.rows

theorem input_toState (ui : Ui) (t : Turn) :
    (input ui t).toState =
      { handleEvents ui.toState t.events with paused := (input ui t).paused } :=
  (keyStep_handleKey _ t).toState_eq

theorem input_pktRing (ui : Ui) (t : Turn) :
    (input ui t).pktRing = (handleEvents ui.toState t.events).pktRing := by
  rw [input_toState]

theorem input_pcap (ui : Ui) (t : Turn) :
    (input ui t).pcap = (handleEvents ui.toState t.events).pcap := by
  rw [input_toState]

/-! ## Invariants -/

/-- The ring holds the last events, and there is a window for the details in the detail mode. -/
structure Ui.Base (ui : Ui) : Prop where
  ring : ∃ es, ui.pktRing.Holds MAX_PACKETS es
  panel : ui.wDetail.isSome = ui.detailMode

theorem Ui.Base.count_le {ui : Ui} (h : ui.Base) : ui.pktRing.count ≤ MAX_PACKETS := by
  obtain ⟨es, hes⟩ := h.ring
  rw [hes.count_eq]
  omega

theorem base_input {ui : Ui} (h : ui.Base) (t : Turn) : (input ui t).Base where
  ring := by
    obtain ⟨es, hes⟩ := h.ring
    refine ⟨es ++ ui.stored t.events, ?_⟩
    rw [input_pktRing, handleEvents_stored]
    exact hes.foldl _
  panel := (keyStep_handleKey _ t).panel h.panel

theorem base_redrawAll {ui : Ui} (h : ui.Base) : (redrawAll ui).Base where
  ring := by
    rw [redrawAll_pktRing]
    exact h.ring
  panel := by
    rw [redrawAll_detailMode, ← h.panel, redrawAll_eq, drawDetail]
    dsimp only
    split
    · exact Option.isSome_map
    · rfl

/-- With a list of at least two rows the selection and the first row are never negative. -/
structure Ui.Sound (ui : Ui) : Prop extends Ui.Base ui where
  listRows_ge : 2 ≤ ui.listRows
  selected_nonneg : 0 ≤ ui.selected
  scrollTop_nonneg : 0 ≤ ui.scrollTop

/-- The height that ncurses gives the list, if it does, is at least 2. -/
def Turn.Roomy (t : Turn) : Prop := ∀ h ∈ t.resized, 2 ≤ h

theorem sound_input {ui : Ui} (h : ui.Sound) {t : Turn} (ht : t.Roomy) : (input ui t).Sound where
  toBase := base_input h.toBase t
  listRows_ge := by
    have hrows : 2 ≤ t.resized.getD ui.listRows := by
      cases hr : t.resized with
      | none => exact h.listRows_ge
      | some n => exact ht n hr
    rcases (keyStep_handleKey _ t).listRows with he | hge
    · rw [input, he]
      exact hrows
    · rw [input]
      omega
  selected_nonneg := by
    refine (keyStep_handleKey _ t).selected h.selected_nonneg ?_
    cases hr : t.resized with
    | none => exact h.listRows_ge
    | some n => exact ht n hr
  scrollTop_nonneg := by
    rcases (keyStep_handleKey _ t).scrollTop with he | he
    · rw [input, he]
      exact h.scrollTop_nonneg
    · rw [input, he]

theorem sound_redrawAll {ui : Ui} (h : ui.Sound) : (redrawAll ui).Sound where
  toBase := base_redrawAll h.toBase
  listRows_ge := by
    rw [redrawAll_listRows]
    exact h.listRows_ge
  selected_nonneg := by
    rw [redrawAll_selected]
    exact clampSelected_nonneg h.selected_nonneg _
  scrollTop_nonneg := by
    rw [redrawAll_scrollTop, redrawAll_selected]
    exact clampScrollTop_nonneg (clampSelected_nonneg h.selected_nonneg _) h.scrollTop_nonneg
      h.listRows_ge

/-! ## Runs -/

theorem turn_of_running {ui : Ui} (h : ui.running = true) (t : Turn) :
    turn ui t = (redrawAll (input ui t), t.events) := by
  rw [turn, if_pos h]

theorem turn_of_not_running {ui : Ui} (h : ui.running = false) (t : Turn) :
    turn ui t = (ui, []) := by
  rw [turn, if_neg (by simp [h])]

theorem start_eq (pcap : Bool) (rows : Int) :
    ∃ ui : Ui, ui.Sound ∧ start pcap rows = redrawAll ui :=
  ⟨_, ⟨⟨⟨[], RingBuf.holds_empty _⟩, rfl⟩, by
    rw [layoutWindows]
    dsimp only
    split <;> omega, le_refl 0, le_refl 0⟩, rfl⟩

/-- What is on the screen was drawn from a state with any property that holds at the start and is
kept by the turns. -/
theorem runState_eq_redrawAll {P : Ui → Prop} {s : Ui} {turns : List Turn}
    (hstart : ∃ ui, P ui ∧ s = redrawAll ui)
    (hstep : ∀ ui, P ui → ∀ t ∈ turns, P (input (redrawAll ui) t)) :
    ∃ ui, P ui ∧ runState turn s turns = redrawAll ui := by
  let drawn (_ : List Turn) (s : Ui) : Prop := ∃ ui, P ui ∧ s = redrawAll ui
  have hturn : ∀ pre t post, turns = pre ++ t :: post → drawn pre (runState turn s pre) →
      drawn (pre ++ [t]) (turn (runState turn s pre) t).1 := by
    rintro pre t post hsplit ⟨ui, hui, he⟩
    have ht : t ∈ turns := by simp [hsplit]
    rw [he]
    cases hr : (redrawAll ui).running with
    | true =>
        rw [turn_of_running hr]
        exact ⟨_, hstep ui hui t ht, rfl⟩
    | false =>
        rw [turn_of_not_running hr]
        exact ⟨ui, hui, rfl⟩
  exact run_invariant hstart hturn

theorem runState_base (pcap : Bool) (rows : Int) (turns : List Turn) :
    ∃ ui : Ui, ui.Base ∧ runState turn (start pcap rows) turns = redrawAll ui := by
  obtain ⟨ui, hui, he⟩ := start_eq pcap rows
  exact runState_eq_redrawAll ⟨ui, hui.toBase, he⟩ fun _ h t _ => base_input (base_redrawAll h) t

theorem runState_sound (pcap : Bool) (rows : Int) {turns : List Turn}
    (h : ∀ t ∈ turns, t.Roomy) :
    ∃ ui : Ui, ui.Sound ∧ runState turn (start pcap rows) turns = redrawAll ui :=
  runState_eq_redrawAll (start_eq pcap rows) fun _ hui t ht =>
    sound_input (sound_redrawAll hui) (h t ht)

/-! ## Turns without a key -/

/-- A turn in which only events arrive. -/
def Turn.arrivals (xs : List (Event × Now)) (rows : Int) : Turn := ⟨xs, none, none, rows⟩

/-- The slots that the events of `xs` are written to. -/
def Ui.overwritten (ui : Ui) (xs : List (Event × Now)) : List Int :=
  ui.pktRing.overwritten MAX_PACKETS (ui.stored xs).length

section Arrivals
variable {ui : Ui} {xs : List (Event × Now)} {rows : Int}

theorem visible_eq (h : ui.Base) :
    ui.visible = ui.pktRing.view MAX_PACKETS (eventMatches ui.filter) :=
  drawPacketListVisible_eq ui.filter h.count_le

theorem nodup_visible (h : ui.Base) : ui.visible.Nodup := by
  obtain ⟨es, hes⟩ := h.ring
  rw [visible_eq h]
  exact hes.nodup_view (by decide) _

/-- The filtered view before and after, if an entry of it is not overwritten. -/
theorem visible_split (h : ui.Base) {idx : Int} (hidx : idx ∈ ui.visible)
    (hkept : idx ∉ ui.overwritten xs) :
    let ui' := input ui (.arrivals xs rows)
    ∃ gone kept new, ui.visible = gone ++ kept ∧ ui'.visible = kept ++ new ∧ idx ∈ kept ∧
      ui'.pktRing.slots idx = ui.pktRing.slots idx ∧
      (gone = [] ↔ ∀ i ∈ ui.overwritten xs, i ∉ ui.visible) ∧
      (new = [] ↔ ∀ e ∈ ui.stored xs, eventMatches ui.filter e = false) := by
  intro ui'
  have hcap : 0 < MAX_PACKETS := by decide
  obtain ⟨es, hes⟩ := h.ring
  have hes' : ui'.pktRing.Holds MAX_PACKETS (es ++ ui.stored xs) := by
    rw [input_pktRing, Turn.arrivals, handleEvents_stored]
    exact hes.foldl _
  have hlen : (ui.stored xs).length ≤ MAX_PACKETS := by
    by_contra hlong
    rw [visible_eq h] at hidx
    exact hkept (hes.mem_overwritten_of_le hcap (by omega) hidx)
  obtain ⟨gone, kept, new, hold, hnew, hgone, hstay, hnil⟩ :=
    hes.view_split hes' hcap hlen (eventMatches ui.filter)
  rw [← visible_eq h] at hold
  have hin : idx ∈ kept := by
    rw [hold, List.mem_append] at hidx
    exact hidx.resolve_left fun hg => hkept (hgone idx hg)
  refine ⟨gone, kept, new, hold, ?_, hin, (hstay idx hin).2, ?_, hnil⟩
  · rw [visible_eq (base_input h (.arrivals xs rows))]
    exact hnew
  · constructor
    · rintro rfl i hi hik
      rw [hold, List.nil_append] at hik
      exact (hstay i hik).1 hi
    · intro hnone
      rw [List.eq_nil_iff_forall_not_mem]
      exact fun i hi => hnone i (hgone i hi) (by rw [hold]; exact List.mem_append_left _ hi)

/-- A selected entry that is not overwritten stays selected exactly if the view loses no entry, or
if it is the last one and the view gains none. -/
theorem selected_stays_iff (h : ui.Base) {e : Entry} (hs : 0 ≤ ui.selected)
    (he : entryAt ui.pktRing ui.visible ui.selected = some e) (hkept : e.idx ∉ ui.overwritten xs) :
    let ui' := input ui (.arrivals xs rows)
    entryAt ui'.pktRing ui'.visible (clampSelected ui.selected ui'.visible.length) = some e ↔
      (∀ idx ∈ ui.overwritten xs, idx ∉ ui.visible) ∨
        ui.visible.getLast? = some e.idx ∧ ∀ x ∈ ui.stored xs, eventMatches ui.filter x = false := by
  intro ui'
  rw [entryAt, if_pos hs] at he
  obtain ⟨idx, hidx, rfl⟩ := Option.map_eq_some_iff.mp he
  obtain ⟨gone, kept, new, hold, hnew, hin, hslot, hgone, hnil⟩ :=
    @visible_split ui xs rows h idx (List.mem_of_getElem? hidx) hkept
  have hnodup := nodup_visible h
  have hnodup' := nodup_visible (base_input h (.arrivals xs rows))
  rw [hold] at hnodup hidx
  rw [hnew] at hnodup'
  have hpos := getElem?_clamp_iff hnodup hnodup' hidx hin
  rw [entryAt_clampSelected _ _ hs, hnew, ← hgone, ← hnil, hold, ← hpos, Option.map_eq_some_iff]
  constructor
  · rintro ⟨i, hi, hie⟩
    rwa [show i = idx from congrArg Entry.idx hie] at hi
  · exact fun hi => ⟨idx, hi, by rw [hslot]⟩

end Arrivals

end EbpfTools.Pksniff

import EbpfTools.Lib.LineEditor
import EbpfTools.Pksniff.Lemmas.FilterTokens
import EbpfTools.Pksniff.Lemmas.UiRun

/-!
# The filter line as a line editor
-/

namespace EbpfTools.Pksniff
open EbpfTools.Lib

/-! ## The editor -/

/-- What the keys edit: the line, whether it takes the keys, and the filter that was set last. -/
structure Editor where
  running : Bool
  editing : Bool
  line : Line UInt8
  filter : Filter

namespace Editor

def init : Editor := ⟨true, false, .empty, .any⟩

/-- A key edits the line while it takes the keys, and starts, resets or leaves it otherwise. -/
def press (a : Editor) (ch : Int) : Editor :=
  if a.editing then
    if ch = 27 then { a with editing := false }
    else if ch = chr '\n' ∨ ch = KEY_ENTER then
      { a with editing := false, filter := parseFilterStr a.line.text }
    else if ch = KEY_BACKSPACE ∨ ch = 127 ∨ ch = 8 then { a with line := a.line.backspace }
    else if ch = KEY_DC then { a with line := a.line.delete }
    else if ch = KEY_LEFT then { a with line := a.line.left }
    else if ch = KEY_RIGHT then { a with line := a.line.right }
    else if 32 ≤ ch ∧ ch ≤ 126 then
      { a with line := a.line.insert (FILTER_BUF - 1) (.ofNat ch.toNat) }
    else a
  else if ch = chr 'f' ∨ ch = chr 'F' then { a with editing := true, line := a.line.toEnd }
  else if ch = chr 'r' ∨ ch = chr 'R' then { a with line := .empty, filter := .any }
  else if ch = chr 'q' ∨ ch = chr 'Q' then { a with running := false }
  else a

/-- One turn: a key, if there is one, until the program is left. -/
def next (a : Editor) (t : Turn) : Editor :=
  match t.key with
  | none => a
  | some ch => if a.running then a.press ch else a

end Editor

/-- The interface holds the line of the editor in its buffer. -/
structure Refines (ui : Ui) (a : Editor) : Prop where
  running : ui.running = a.running
  editing : ui.filterMode = a.editing
  buf : ui.filterBuf.Holds a.line.text
  cursor : ui.filterCursor = a.line.cursor
  filter : ui.filter = a.filter

section Refines
variable {ui : Ui} {a : Editor}

/-! ## Keys in the filter mode -/

theorem filterKey_char_ne_zero {ch : Int} {c : UInt8} (h : filterKey ch = .char c) : c ≠ 0 := by
  unfold filterKey at h
  split_ifs at h with _ _ _ _ _ _ hchar
  cases h
  rintro hzero
  have hnat := congrArg UInt8.toNat hzero
  rw [UInt8.toNat_ofNat'] at hnat
  simp only [UInt8.toNat_zero] at hnat
  omega

/-- A key that edits the line. -/
theorem Refines.edit (h : Refines ui a) {l : Line UInt8} {buf : Buf FILTER_BUF} {cursor : Nat}
    (hbuf : buf.Holds l.text) (hcursor : cursor = l.cursor) :
    Refines { ui with filterBuf := buf, filterCursor := cursor } { a with line := l } :=
  ⟨h.running, h.editing, hbuf, hcursor, h.filter⟩

/-- A key that has no effect at this position of the cursor. -/
theorem Refines.keep (h : Refines ui a) {l : Line UInt8} (htext : l.text = a.line.text)
    (hcursor : l.cursor = a.line.cursor) : Refines ui { a with line := l } :=
  ⟨h.running, h.editing, htext ▸ h.buf, h.cursor.trans hcursor.symm, h.filter⟩

theorem refines_backspace (h : Refines ui a) :
    Refines
      (if ui.filterCursor > 0 then
        { ui with
          filterBuf := memmove ui.filterBuf (ui.filterCursor - 1) ui.filterCursor
            (ui.filterBuf.str.length - ui.filterCursor + 1)
          filterCursor := ui.filterCursor - 1 }
      else ui)
      { a with line := a.line.backspace } := by
  have hle := a.line.cursor_le
  rw [h.buf.str_eq, h.cursor]
  split
  · rename_i hpos
    have htext : a.line.backspace.text = a.line.text.eraseIdx (a.line.cursor - 1) := if_pos hpos
    have hmoved := h.buf.erase (show a.line.cursor - 1 < a.line.text.length by omega)
    rw [Nat.sub_add_cancel hpos, ← htext] at hmoved
    rw [show a.line.text.length - a.line.cursor + 1 =
      a.line.text.length - (a.line.cursor - 1) by omega]
    exact h.edit hmoved rfl
  · rename_i hzero
    refine h.keep (if_neg hzero) ?_
    show a.line.cursor - 1 = a.line.cursor
    omega

theorem refines_delete (h : Refines ui a) :
    Refines
      (if ui.filterCursor < ui.filterBuf.str.length then
        { ui with
          filterBuf := memmove ui.filterBuf ui.filterCursor (ui.filterCursor + 1)
            (ui.filterBuf.str.length - ui.filterCursor) }
      else ui)
      { a with line := a.line.delete } := by
  rw [h.buf.str_eq, h.cursor]
  split
  · rename_i hlt
    exact ⟨h.running, h.editing, h.buf.erase hlt, rfl, h.filter⟩
  · rename_i hend
    exact h.keep (List.eraseIdx_of_length_le (Nat.le_of_not_lt hend)) rfl

theorem refines_char (h : Refines ui a) {c : UInt8} (hc : c ≠ 0) :
    Refines
      (if ui.filterBuf.str.length < FILTER_BUF - 1 then
        { ui with
          filterBuf := (memmove ui.filterBuf (ui.filterCursor + 1) ui.filterCursor
            (ui.filterBuf.str.length - ui.filterCursor + 1)).store (ui.filterCursor, c)
          filterCursor := ui.filterCursor + 1 }
      else ui)
      { a with line := a.line.insert (FILTER_BUF - 1) c } := by
  rw [h.buf.str_eq, h.cursor]
  unfold Line.insert
  split
  · rename_i hroom
    exact h.edit (h.buf.insert a.line.cursor_le (by omega) hc) rfl
  · exact h.keep rfl rfl

theorem press_of_editing (ha : a.editing = true) (ch : Int) :
    a.press ch =
      match filterKey ch with
      | .cancel => { a with editing := false }
      | .apply => { a with editing := false, filter := parseFilterStr a.line.text }
      | .backspace => { a with line := a.line.backspace }
      | .left => { a with line := a.line.left }
      | .right => { a with line := a.line.right }
      | .delete => { a with line := a.line.delete }
      | .char c => { a with line := a.line.insert (FILTER_BUF - 1) c }
      | .other => a := by
  have henter : chr '\n' = 10 := rfl
  rw [Editor.press, if_pos ha]
  unfold filterKey KEY_ENTER KEY_BACKSPACE KEY_DC KEY_LEFT KEY_RIGHT
  rw [henter]
  split_ifs <;> first | rfl | omega

theorem refines_handleInputFilter (h : Refines ui a) (ha : a.editing = true) (ch : Int) :
    Refines (handleInputFilter ui ch) (a.press ch) := by
  have hstr := h.buf.str_eq
  have hle := a.line.cursor_le
  rw [handleInputFilter, press_of_editing ha]
  cases hk : filterKey ch with
  | cancel => exact ⟨h.running, rfl, h.buf, h.cursor, h.filter⟩
  | apply => exact ⟨h.running, rfl, h.buf, h.cursor, congrArg parseFilterStr hstr⟩
  | backspace => exact refines_backspace h
  | left =>
      have hleft : a.line.left.cursor = a.line.cursor - 1 := rfl
      dsimp only
      rw [h.cursor]
      split
      · exact ⟨h.running, h.editing, h.buf, rfl, h.filter⟩
      · exact h.keep rfl (by omega)
  | right =>
      have hright : a.line.right.cursor = min (a.line.cursor + 1) a.line.text.length := rfl
      dsimp only
      rw [hstr, h.cursor]
      split
      · exact ⟨h.running, h.editing, h.buf, by dsimp only; omega, h.filter⟩
      · exact h.keep rfl (by omega)
  | delete => exact refines_delete h
  | char c => exact refines_char h (filterKey_char_ne_zero hk)
  | other => exact h

/-! ## Keys in the normal mode -/

theorem key_of_quit {ch : Int} : normalKey ch = .quit → ch = chr 'q' ∨ ch = chr 'Q' := by
  fun_cases normalKey ch with
  | case1 hkey => exact fun _ => hkey
  | _ => nofun

theorem key_of_filter {ch : Int} : normalKey ch = .filter → ch = chr 'f' ∨ ch = chr 'F' := by
  fun_cases normalKey ch with
  | case3 _ _ hkey => exact fun _ => hkey
  | _ => nofun

theorem key_of_reset {ch : Int} : normalKey ch = .reset → ch = chr 'r' ∨ ch = chr 'R' := by
  fun_cases normalKey ch with
  | case5 _ _ _ _ hkey => exact fun _ => hkey
  | _ => nofun

theorem press_of_not_editing (ha : a.editing = false) (ch : Int) :
    a.press ch =
      match normalKey ch with
      | .quit => { a with running := false }
      | .filter => { a with editing := true, line := a.line.toEnd }
      | .reset => { a with line := .empty, filter := .any }
      | _ => a := by
  have hmode : ¬ a.editing = true := by simp [ha]
  rw [Editor.press, if_neg hmode]
  split_ifs with hfilter hreset hquit
  · rcases hfilter with rfl | rfl <;> rfl
  · rcases hreset with rfl | rfl <;> rfl
  · rcases hquit with rfl | rfl <;> rfl
  · cases hk : normalKey ch with
    | quit => exact absurd (key_of_quit hk) hquit
    | filter => exact absurd (key_of_filter hk) hfilter
    | reset => exact absurd (key_of_reset hk) hreset
    | _ => rfl

theorem refines_handleInputNormal (h : Refines ui a) (ha : a.editing = false) (ch rows : Int) :
    Refines (handleInputNormal ui ch rows) (a.press ch) := by
  have hstr := h.buf.str_eq
  have hlt := h.buf.length_lt
  rw [handleInputNormal, press_of_not_editing ha]
  cases normalKey ch with
  | quit => exact ⟨rfl, h.editing, h.buf, h.cursor, h.filter⟩
  | filter =>
      have hcopy : (ui.filterBuf.memcpy 0 (strncpy ui.filterBuf.str FILTER_BUF)).bytes =
          strncpy a.line.text FILTER_BUF := by
        rw [hstr, Buf.memcpy_whole _ (length_strncpy _ _)]
      have hpad : strncpy a.line.text FILTER_BUF =
          a.line.text ++ 0 :: List.replicate (FILTER_BUF - 1 - a.line.text.length) 0 := by
        rw [strncpy, List.take_of_length_le (Nat.le_of_lt hlt), ← List.replicate_succ]
        congr 2
        omega
      exact ⟨h.running, rfl, ⟨h.buf.not_mem, _, hcopy.trans hpad⟩, congrArg List.length hstr,
        h.filter⟩
  | reset => exact ⟨h.running, h.editing, Buf.holds_clear (by decide), rfl, rfl⟩
  | up =>
      dsimp only
      split
      · exact ⟨h.running, h.editing, h.buf, h.cursor, h.filter⟩
      · exact h
  | down =>
      dsimp only
      split
      · exact ⟨h.running, h.editing, h.buf, h.cursor, h.filter⟩
      · exact h
  | _ => exact ⟨h.running, h.editing, h.buf, h.cursor, h.filter⟩

/-! ## Turns -/

theorem refines_redrawAll (h : Refines ui a) : Refines (redrawAll ui) a := by
  rw [redrawAll_eq]
  exact ⟨h.running, h.editing, h.buf, h.cursor, h.filter⟩

theorem refines_input (h : Refines ui a) {t : Turn} :
    Refines (input ui t) (match t.key with | none => a | some ch => a.press ch) := by
  have harrived : Refines
      { ui with
        toState := handleEvents ui.toState t.events
        listRows := t.resized.getD ui.listRows } a :=
    ⟨h.running, h.editing, h.buf, h.cursor, h.filter⟩
  rw [input, handleKey]
  cases t.key with
  | none => exact harrived
  | some ch =>
      cases ha : a.editing with
      | true =>
          dsimp only
          rw [if_pos (h.editing.trans ha)]
          exact refines_handleInputFilter harrived ha ch
      | false =>
          have hmode : ¬ ui.filterMode = true := by simp [h.editing, ha]
          dsimp only
          rw [if_neg hmode]
          exact refines_handleInputNormal harrived ha ch t.rows

end Refines

theorem refines_start (pcap : Bool) (rows : Int) : Refines (start pcap rows) .init :=
  refines_redrawAll ⟨rfl, rfl, Buf.holds_zero (by decide), rfl, rfl⟩

/-- Every turn does to the interface what it does to the editor. -/
theorem refines_turn (ui : Ui) (a : Editor) (t : Turn) (h : Refines ui a) :
    Refines (turn ui t).1 (a.next t) := by
  have hinput := @refines_input ui a h t
  unfold Editor.next
  cases hr : a.running with
  | true =>
      rw [turn_of_running (h.running.trans hr)]
      refine refines_redrawAll ?_
      cases hk : t.key with
      | none =>
          rw [hk] at hinput
          exact hinput
      | some ch =>
          rw [hk] at hinput
          exact hinput
  | false =>
      rw [turn_of_not_running (h.running.trans hr)]
      cases t.key with
      | none => exact h
      | some ch => exact h

theorem refines_run (pcap : Bool) (rows : Int) (turns : List Turn) :
    Refines (runState turn (start pcap rows) turns) (turns.foldl Editor.next .init) :=
  run_simulates refines_turn (refines_start pcap rows) turns

/-! ## The filter -/

/-- The key applies the line or resets the filter, which is `f` then. -/
inductive Editor.Sets (a : Editor) (ch : Int) : Filter → Prop
  | apply (mode : a.editing = true) (key : ch = chr '\n' ∨ ch = KEY_ENTER) :
      Sets a ch (parseFilterStr a.line.text)
  | reset (mode : a.editing = false) (key : ch = chr 'r' ∨ ch = chr 'R') : Sets a ch .any

theorem Editor.filter_press (a : Editor) (ch : Int) :
    (a.press ch).filter = a.filter ∨ a.Sets ch (a.press ch).filter := by
  unfold Editor.press
  split_ifs with hmode _ hkey
  any_goals exact Or.inl rfl
  · exact Or.inr (.apply hmode hkey)
  · rename_i hkey
    exact Or.inr (.reset (Bool.eq_false_iff.mpr hmode) hkey)

theorem Editor.filter_next (a : Editor) (t : Turn) :
    (a.next t).filter = a.filter ∨ ∃ ch ∈ t.key, a.Sets ch (a.next t).filter := by
  unfold Editor.next
  cases t.key with
  | none => exact Or.inl rfl
  | some ch =>
      dsimp only
      split
      · exact (a.filter_press ch).imp_right fun h => ⟨ch, rfl, h⟩
      · exact Or.inl rfl

end EbpfTools.Pksniff

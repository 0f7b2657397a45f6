import EbpfTools.Bpf.Tc
import EbpfTools.Pksniff.HandleEvent
import EbpfTools.Pksniff.Filter

/-!
# The user interface

The windows, the keys, the event loop and the TC part of `main` of `Pksniff.c`. Of the windows the
packets they show are kept, and of the list its height.
-/

namespace EbpfTools.Pksniff
open EbpfTools.Lib EbpfTools.Bpf

-- `sizeof(g_filter_buf)`
abbrev FILTER_BUF : Nat := 128

/-- A packet that a window shows, and its index in the ring. -/
structure Entry where
  idx : Int
  event : Event
  deriving DecidableEq

/-- A row of the packet list. No packet is known for a `vi` outside `visible`. -/
structure Row where
  row : Int
  vi : Int
  entry : Option Entry
  highlighted : Bool

structure Panel where
  entry : Option Entry

/-- The `g_` variables and the windows. `wDetail` is `none` for a null pointer. -/
structure Ui extends State where
  running : Bool
  filter : Filter
  filterMode : Bool
  filterBuf : Buf FILTER_BUF
  filterCursor : Nat
  selected : Int
  scrollTop : Int
  detailMode : Bool
  listRows : Int
  wList : List Row
  wDetail : Option Panel

/-! ## Windows -/

/-- `layout_windows` on a screen of `rows` rows: new windows, which are empty. -/
def layoutWindows (rows : Int) (ui : Ui) : Ui :=
  let statsH := 8
  let listRows := rows - 4 - statsH
  { ui with
    listRows := if listRows < 4 then 4 else listRows
    wList := []
    wDetail := if ui.detailMode then some ⟨none⟩ else none }

/-- `visible[vi]` and the packet there. -/
def entryAt (r : RingBuf Event) (visible : List Int) (vi : Int) : Option Entry :=
  if 0 ≤ vi then visible[vi.toNat]?.map fun idx => ⟨idx, r.slots idx⟩ else none

/-- The loop over the rows, with `left` iterations to go. -/
def drawRows (r : RingBuf Event) (visible : List Int) (selected scrollTop : Int) :
    (left : Nat) → (row : Int) → List Row
  | 0, _ => []
  | left + 1, row =>
      let vi := scrollTop + row - 1
      if vi ≥ visible.length then []
      else
        ⟨row, vi, entryAt r visible vi, vi = selected⟩ ::
          drawRows r visible selected scrollTop left (row + 1)

def drawPacketList (ui : Ui) : Ui :=
  let rows := ui.listRows
  let visible := drawPacketListVisible ui.filter ui.pktRing
  let vcount : Int := visible.length
  let selected :=
    if ui.selected ≥ vcount then (if vcount > 0 then vcount - 1 else 0) else ui.selected
  let scrollTop := if ui.scrollTop > selected then selected else ui.scrollTop
  let scrollTop := if selected ≥ scrollTop + rows - 1 then selected - rows + 2 else scrollTop
  { ui with
    selected := selected
    scrollTop := scrollTop
    wList := drawRows ui.pktRing visible selected scrollTop (rows - 1).toNat 1 }

def drawDetail (ui : Ui) : Ui :=
  { ui with
    wDetail := ui.wDetail.map fun _ =>
      ⟨(drawDetailSelIdx ui.filter ui.pktRing ui.selected).map fun idx =>
        ⟨idx, ui.pktRing.slots idx⟩⟩ }

def redrawAll (ui : Ui) : Ui :=
  let ui := drawPacketList ui
  if ui.detailMode then drawDetail ui else ui

/-! ## Keys

The labels of the two `switch` statements, with the key codes of ncurses. -/

def KEY_DOWN : Int := 258
def KEY_UP : Int := 259
def KEY_LEFT : Int := 260
def KEY_RIGHT : Int := 261
def KEY_HOME : Int := 262
def KEY_BACKSPACE : Int := 263
def KEY_DC : Int := 330
def KEY_NPAGE : Int := 338
def KEY_PPAGE : Int := 339
def KEY_ENTER : Int := 343
def KEY_END : Int := 360
def KEY_RESIZE : Int := 410

-- the code of a character key
def chr (c : Char) : Int := c.toNat

inductive NormalKey
  | quit
  | pause
  | filter
  | detail
  | reset
  | save
  | up
  | down
  | ppage
  | npage
  | home
  | last
  | resize
  | other

def normalKey (ch : Int) : NormalKey :=
  if ch = chr 'q' ∨ ch = chr 'Q' then .quit
  else if ch = chr 'p' ∨ ch = chr 'P' then .pause
  else if ch = chr 'f' ∨ ch = chr 'F' then .filter
  else if ch = chr 'd' ∨ ch = chr 'D' ∨ ch = chr '\n' ∨ ch = KEY_ENTER then .detail
  else if ch = chr 'r' ∨ ch = chr 'R' then .reset
  else if ch = chr 's' ∨ ch = chr 'S' then .save
  else if ch = KEY_UP ∨ ch = chr 'k' then .up
  else if ch = KEY_DOWN ∨ ch = chr 'j' then .down
  else if ch = KEY_PPAGE then .ppage
  else if ch = KEY_NPAGE then .npage
  else if ch = KEY_HOME then .home
  else if ch = KEY_END then .last
  else if ch = KEY_RESIZE then .resize
  else .other

/-- `handle_input_normal` on a screen of `rows` rows. The file that `save` writes is
`saveFilteredPcap`, and not the one of `-o`. -/
def handleInputNormal (ui : Ui) (ch rows : Int) : Ui :=
  let vcount : Int := handleInputNormalVcount ui.filter ui.pktRing
  match normalKey ch with
  | .quit => { ui with running := false }
  | .pause => { ui with paused := !ui.paused }
  | .filter =>
      { ui with
        filterMode := true
        filterBuf := ui.filterBuf.memcpy 0 (strncpy ui.filterBuf.str FILTER_BUF)
        filterCursor := ui.filterBuf.str.length }
  | .detail => layoutWindows rows { ui with detailMode := !ui.detailMode }
  | .reset =>
      { ui with filter := .any, filterBuf := ui.filterBuf.store (0, 0), filterCursor := 0 }
  | .save => ui
  | .up => if ui.selected > 0 then { ui with selected := ui.selected - 1 } else ui
  | .down => if ui.selected < vcount - 1 then { ui with selected := ui.selected + 1 } else ui
  | .ppage =>
      let selected := ui.selected - (ui.listRows - 2)
      { ui with selected := if selected < 0 then 0 else selected }
  | .npage =>
      let selected := ui.selected + (ui.listRows - 2)
      { ui with
        selected :=
          if selected ≥ vcount then (if vcount > 0 then vcount - 1 else 0) else selected }
  | .home => { ui with selected := 0 }
  | .last => { ui with selected := if vcount > 0 then vcount - 1 else 0 }
  | .resize => layoutWindows rows ui
  | .other => ui

inductive FilterKey
  | cancel
  | apply
  | backspace
  | left
  | right
  | delete
  | char (c : UInt8)
  | other

def filterKey (ch : Int) : FilterKey :=
  if ch = 27 then .cancel
  else if ch = chr '\n' ∨ ch = KEY_ENTER then .apply
  else if ch = KEY_BACKSPACE ∨ ch = 127 ∨ ch = 8 then .backspace
  else if ch = KEY_LEFT then .left
  else if ch = KEY_RIGHT then .right
  else if ch = KEY_DC then .delete
  else if ch ≥ 32 ∧ ch < 127 then .char (.ofNat ch.toNat)
  else .other

def memmove {n : Nat} (b : Buf n) (dst src len : Nat) : Buf n :=
  b.memcpy dst ((b.bytes.drop src).take len)

def handleInputFilter (ui : Ui) (ch : Int) : Ui :=
  let len := ui.filterBuf.str.length
  let cursor := ui.filterCursor
  match filterKey ch with
  | .cancel => { ui with filterMode := false }
  | .apply =>
      { ui with
        filter := parseFilterStr ui.filterBuf.str, selected := 0, scrollTop := 0
        filterMode := false }
  | .backspace =>
      if cursor > 0 then
        { ui with
          filterBuf := memmove ui.filterBuf (cursor - 1) cursor (len - cursor + 1)
          filterCursor := cursor - 1 }
      else ui
  | .left => if cursor > 0 then { ui with filterCursor := cursor - 1 } else ui
  | .right => if cursor < len then { ui with filterCursor := cursor + 1 } else ui
  | .delete =>
      if cursor < len then
        { ui with filterBuf := memmove ui.filterBuf cursor (cursor + 1) (len - cursor) }
      else ui
  | .char c =>
      if len < FILTER_BUF - 1 then
        { ui with
          filterBuf := (memmove ui.filterBuf (cursor + 1) cursor (len - cursor + 1)).store (cursor, c)
          filterCursor := cursor + 1 }
      else ui
  | .other => ui

/-! ## The event loop -/

/-- The state when the event loop starts on a screen of `rows` rows, with or without a `-o` file. -/
def start (pcap : Bool) (rows : Int) : Ui :=
  redrawAll <| layoutWindows rows
    { State.init pcap with
      running := true, filter := .any, filterMode := false, filterBuf := .zero _
      filterCursor := 0, selected := 0, scrollTop := 0, detailMode := false, listRows := 0
      wList := [], wDetail := none }

/-- What one turn of the loop meets: the events that `ring_buffer__poll` delivers, the height that
ncurses gives the list when the terminal is resized, what `getch` returns (`none` for `ERR`), and
the rows of the screen then. -/
structure Turn where
  events : List (Event × Now)
  resized : Option Int
  key : Option Int
  rows : Int

def handleKey (ui : Ui) (t : Turn) : Ui :=
  match t.key with
  | none => ui
  | some ch => if ui.filterMode then handleInputFilter ui ch else handleInputNormal ui ch t.rows

/-- The body of the event loop up to the redraw. -/
def input (ui : Ui) (t : Turn) : Ui :=
  handleKey
    { ui with
      toState := handleEvents ui.toState t.events
      listRows := t.resized.getD ui.listRows } t

/-- One turn of the event loop, with the events delivered in it. Once `g_running` is false there
are no more turns. -/
def turn (ui : Ui) (t : Turn) : Ui × List (Event × Now) :=
  if ui.running then (redrawAll (input ui t), t.events) else (ui, [])

/-! ## The TC part of `main`

From the loaded programs on. -/

/-- The state and the exit code. `fds` are the programs for ingress and egress, if they could be
loaded, `rb` tells whether the ring buffer could be created and `lastPoll` is `err` when the event
loop ends. -/
def main {σ : Type} (lib : Libbpf σ) (fds : Option (Int × Int)) (rb : Bool) (lastPoll : Int)
    (s : σ) : σ × Int :=
  match fds with
  | none => (s, 1)
  | some (fdIn, fdEg) =>
      let ingress := tcSetup lib s .ingress fdIn
      if ingress.attached then
        let egress := tcSetup lib ingress.state .egress fdEg
        if egress.attached then
          let err := if rb then lastPoll else egress.err
          let s := tcCleanup lib egress.state .egress egress.opts
          (tcCleanup lib s .ingress ingress.opts, exitCode err)
        else (tcCleanup lib egress.state .ingress ingress.opts, exitCode egress.err)
      else (ingress.state, exitCode ingress.err)

end EbpfTools.Pksniff

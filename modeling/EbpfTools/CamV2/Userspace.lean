import Mathlib.Data.Int.Notation
import EbpfTools.Lib.RingLog
import EbpfTools.CamV2.Kernel

/-!
# cam_v2: the event handler

`cam_identity.c`: delegation edges are kept in a table of 64 records, and calls and frame events are
looked up in it.
-/

namespace EbpfTools.CamV2
open EbpfTools.Lib

abbrev MAX_EDGES : Nat := 64
abbrev MAX_CMDLINE : Nat := 256
abbrev MAX_FOREGROUND : Nat := 128
def FOREGROUND_CACHE_NS : UInt64 := 1000000000
def CHAIN_WINDOW_NS : UInt64 := 2000000000

def INT_MAX : Int := 2147483647

structure EdgeRecord where
  ts : UInt64
  srcPid : UInt32
  dstPid : UInt32
  code : UInt32
  srcName : List UInt8
  dstName : List UInt8
  deriving DecidableEq

/-- `edges` with `edge_pos`, and `cached` with `cached_ts`. -/
structure State where
  edges : RingLog EdgeRecord
  cached : List UInt8
  cachedTs : UInt64

def State.init : State := ⟨⟨fun _ => ⟨0, 0, 0, 0, [], []⟩, 0⟩, [], 0⟩

-- what is read while an event is handled: `/proc/<pid>/cmdline` if it opens, the clock, and the
-- line that `dumpsys` prints, if any
structure Inputs where
  cmdline : Option (List UInt8)
  now : UInt64
  focusLine : Option (List UInt8)

-- the lines printed, with the values in them
inductive Line
  | delegation (sec ms : UInt64) (name : String) (src : List UInt8) (pid : UInt32) (code : UInt64)
  | binderCall (sec ms : UInt64) (name : String) (app : List UInt8) (pid : UInt32)
  | session (sec ms : UInt64) (name : String) (app : List UInt8) (pid : UInt32)
      (state age : UInt64)
  | frame (sec ms : UInt64) (name : String) (app : List UInt8) (pid : UInt32) (detail : List UInt8)
  | chain (foreground app : List UInt8)
  | link (src : List UInt8)
  deriving DecidableEq

/-- `strstr`: the text from the first occurrence on. -/
def strstr (text word : List UInt8) : Option (List UInt8) := text.tails.find? word.isPrefixOf

/-- `read_cmdline`: what it leaves in a buffer of `MAX_CMDLINE` bytes. -/
def readCmdline (pid : Int32) (cmdline : Option (List UInt8)) : List UInt8 :=
  match cmdline with
  | none => ascii ("<unknown:" ++ toString pid.toInt ++ ">")
  | some [] => ascii ("<empty:" ++ toString pid.toInt ++ ">")
  | some bytes => (bytes.take (MAX_CMDLINE - 1)).takeWhile fun b => b ≠ 0 ∧ b ≠ 32

/-- The package name after `u0 ` or `u0/` in the line. -/
def focusedPackage (line : List UInt8) : List UInt8 :=
  match (strstr line (ascii "u0 ")).or (strstr line (ascii "u0/")) with
  | some pkg =>
      ((pkg.drop 3).takeWhile fun b => b ≠ 0 ∧ b ≠ 47 ∧ b ≠ 32 ∧ b ≠ 125).take (MAX_FOREGROUND - 1)
  | none => ascii "<foreground-unknown>"

/-- `read_foreground_package` into a buffer of `MAX_FOREGROUND` bytes. -/
def readForegroundPackage (s : State) (i : Inputs) : State × List UInt8 :=
  if s.cached ≠ [] ∧ i.now - s.cachedTs < FOREGROUND_CACHE_NS then (s, s.cached)
  else
    match i.focusLine with
    | none => (s, ascii "<foreground-unknown>")
    | some line =>
        let buf := focusedPackage line
        (if buf ≠ [] then { s with cached := buf, cachedTs := i.now } else s, buf)

def eventName (eventType : UInt32) : String :=
  if eventType = EVENT_BINDER_CALL then "BINDER_CALL"
  else if eventType = EVENT_APP_SESSION then "CAM_SESSION"
  else if eventType = EVENT_FRAME_BUFFER_QBUF then "FRAME_QBUF"
  else if eventType = EVENT_FRAME_BUFFER_DQBUF then "FRAME_DQBUF"
  else if eventType = EVENT_FRAME_DONE then "FRAME_DONE"
  else if eventType = EVENT_CAPTURE_REQUEST then "CAPTURE_REQ"
  else if eventType = EVENT_DELEGATION_EDGE then "DELEGATION"
  else "UNKNOWN"

def edgeRecord (srcPid dstPid code : UInt32) (srcName dstName : Option (List UInt8))
    (ts : UInt64) : EdgeRecord :=
  { ts, srcPid, dstPid, code,
    srcName := (srcName.getD (ascii "<unknown>")).take (MAX_CMDLINE - 1)
    dstName := (dstName.getD (ascii "<unknown>")).take (MAX_CMDLINE - 1) }

/-- `remember_edge`; `none` is the undefined behaviour of `edge_pos++` at `INT_MAX`. -/
def rememberEdge (r : RingLog EdgeRecord) (srcPid dstPid code : UInt32)
    (srcName dstName : Option (List UInt8)) (ts : UInt64) : Option (RingLog EdgeRecord) :=
  if r.pos = INT_MAX then none
  else some (r.push MAX_EDGES (edgeRecord srcPid dstPid code srcName dstName ts))

/-- The loop of `find_recent_edge` at `i` with `left` iterations to go. -/
def findRecentEdgeLoop (r : RingLog EdgeRecord) (pid : UInt32) (ts : UInt64) :
    (left i : Nat) → Option EdgeRecord
  | 0, _ => none
  | left + 1, i =>
      let idx := r.pos - 1 - i
      if idx < 0 then none
      else
        let e := r.slots (idx.tmod MAX_EDGES)
        if e.srcPid ≠ pid then findRecentEdgeLoop r pid ts left (i + 1)
        else if ts ≥ e.ts ∧ ts - e.ts ≤ CHAIN_WINDOW_NS then some e
        else findRecentEdgeLoop r pid ts left (i + 1)

def findRecentEdge (r : RingLog EdgeRecord) (pid : UInt32) (ts : UInt64) : Option EdgeRecord :=
  findRecentEdgeLoop r pid ts MAX_EDGES 0

def appName (e : CamEvent) (i : Inputs) : List UInt8 :=
  if e.pid > 0 then readCmdline e.pid.toInt32 i.cmdline else ascii "<unknown>"

/-- `handle_event`: the state and the lines printed. -/
def handleEvent (s : State) (e : CamEvent) (i : Inputs) : Option (State × List Line) :=
  let sec := e.timestamp / 1000000000
  let ms := e.timestamp % 1000000000 / 1000000
  let name := eventName e.eventType
  let appname := appName e i
  let s' := (readForegroundPackage s i).1
  let fg := (readForegroundPackage s i).2
  if e.eventType = EVENT_DELEGATION_EDGE then
    (rememberEdge s'.edges e.pid e.extra1.toUInt32 e.extra2.toUInt32 (some appname)
      (some (ascii "cameraserver")) e.timestamp).map fun edges =>
        ({ s' with edges }, .delegation sec ms name appname e.pid e.extra2 ::
          if fg ≠ [] ∧ fg ≠ appname ∧ (strstr appname (ascii "gms.ui")).isSome then
            [.chain fg appname] else [])
  else if e.eventType = EVENT_BINDER_CALL then
    some (s', .binderCall sec ms name appname e.pid ::
      if (findRecentEdge s'.edges e.pid e.timestamp).isSome ∧ fg ≠ [] ∧ fg ≠ appname then
        [.chain fg appname] else [])
  else if e.eventType = EVENT_APP_SESSION then
    some (s', [.session sec ms name appname e.pid e.extra1 (e.extra2 / 1000000)])
  else if e.eventType = EVENT_CAPTURE_REQUEST ∨ e.eventType = EVENT_FRAME_DONE ∨
      e.eventType = EVENT_FRAME_BUFFER_QBUF ∨ e.eventType = EVENT_FRAME_BUFFER_DQBUF then
    some (s', .frame sec ms name appname e.pid e.entity ::
      match findRecentEdge s'.edges e.pid e.timestamp with
      | some edge => [.link edge.srcName]
      | none => [])
  else some (s', [])

/-- The events in the order the ring buffer delivers them; event number `k` is handled with
`env k`. -/
def handleEvents (env : Nat → Inputs) (es : List CamEvent) : Option State :=
  es.zipIdx.foldlM (fun s x => (handleEvent s x.1 (env x.2)).map Prod.fst) State.init

end EbpfTools.CamV2

import EbpfTools.Bpf.Tc
import EbpfTools.Lib.Hex
import EbpfTools.Lib.Scan
import EbpfTools.Pksniff.HandleEvent
import EbpfTools.Pktrace.Kernel

/-!
# The output of pktrace

`handle_event` and `main` of `pktrace.c`: what they write to the terminal, the log and the pcap file,
and what `main` does to the interface.
-/

namespace EbpfTools.Pktrace
open EbpfTools.Lib EbpfTools.Bpf
open EbpfTools.Pksniff (Timeval)

/-- `struct output_cfg` with the bytes written to each file that is open, and the terminal. -/
structure Output where
  stdout : List UInt8
  logf : Option (List UInt8)
  pcapf : Option (List UInt8)
  payloadPreview : Nat

def protoToStr (proto : UInt8) : List UInt8 :=
  if proto = 6 then ascii "TCP" else if proto = 17 then ascii "UDP" else ascii "OTHER"

-- `inet_ntop(AF_INET, …)`
def inetNtop (ip : UInt32) : List UInt8 := Pksniff.ipStr ip

/-- The loop of `print_hex_bytes` at `i` with `left` iterations to go. -/
def printHexLoop (data : List UInt8) (len : Nat) : (left i : Nat) → List UInt8
  | 0, _ => []
  | left + 1, i =>
      printHex (data.getD i 0) ++ (if i + 1 < len then [32] else []) ++
        printHexLoop data len left (i + 1)

def printHexBytes (data : List UInt8) (len : Nat) : List UInt8 := printHexLoop data len len 0

/-! ## The pcap file -/

-- `write_pcap_global_header`
def pcapGlobalHeader : List UInt8 :=
  leBytes 4 0xa1b2c3d4 ++ leBytes 2 2 ++ leBytes 2 4 ++ leBytes 4 0 ++ leBytes 4 0 ++
    leBytes 4 MAX_CAPTURE_BYTES ++ leBytes 4 1

-- `write_pcap_record`
def pcapRecord (tv : Timeval) (e : Event) : List UInt8 :=
  leBytes 4 tv.tvSec.toUInt32.toNat ++ leBytes 4 tv.tvUsec.toUInt32.toNat ++
    leBytes 4 e.capLen.toNat ++ leBytes 4 e.packetLen.toNat ++ e.packet.bytes.take e.capLen.toNat

/-! ## Lines -/

def payloadAvail (e : Event) : Nat :=
  if e.payloadOff.toNat < e.capLen.toNat then e.capLen.toNat - e.payloadOff.toNat else 0

def payloadShow (e : Event) (preview : Nat) : Nat :=
  if preview < payloadAvail e then preview else payloadAvail e

-- `char src_port_buf[16]`
def portBuf (port : UInt16) : List UInt8 :=
  if port ≠ 0 then (printDecimal port.toNat).take 15 else ascii "-"

/-- The line of an event, which is written to the terminal and to the log. -/
def eventLine (e : Event) (preview : Nat) : List UInt8 :=
  padRight 6 (protoToStr e.protocol) ++ ascii " " ++ inetNtop e.srcIp ++ ascii ":" ++
    padRight 5 (portBuf e.srcPort) ++ ascii " -> " ++ inetNtop e.dstIp ++ ascii ":" ++
    padRight 5 (portBuf e.dstPort) ++ ascii "  pkt=" ++ printDecimal e.packetLen.toNat ++
    ascii " cap=" ++ printDecimal e.capLen.toNat ++ ascii " payload=" ++
    printDecimal (payloadAvail e) ++
    (if payloadShow e preview > 0 then
      ascii "  data=" ++
        printHexBytes (e.packet.bytes.drop e.payloadOff.toNat) (payloadShow e preview)
    else []) ++ ascii "\n"

/-! ## Events -/

-- `printf("%-6s %-21s %s\n", …)`
def headingLine (proto src dst : String) : List UInt8 :=
  padRight 6 (ascii proto) ++ ascii " " ++ padRight 21 (ascii src) ++ ascii " " ++ ascii dst ++
    ascii "\n"

/-- What `main` prints before the event loop. -/
def startLines (ifname : List UInt8) : List UInt8 :=
  ascii "Tracing packets on " ++ ifname ++ ascii "... Ctrl-C to stop.\n\n" ++
    headingLine "PROTO" "SRC" "DST" ++ headingLine "-----" "---" "---"

/-- The terminal and the files when the event loop starts. -/
def Output.start (ifname : List UInt8) (log pcap : Bool) (preview : Nat) : Output where
  stdout := startLines ifname
  logf := if log then some [] else none
  pcapf := if pcap then some pcapGlobalHeader else none
  payloadPreview := preview

def handleEvent (out : Output) (e : Event) (tv : Timeval) : Output :=
  { out with
    stdout := out.stdout ++ eventLine e out.payloadPreview
    logf := out.logf.map (· ++ eventLine e out.payloadPreview)
    pcapf := out.pcapf.map (· ++ pcapRecord tv e) }

def handleEvents (out : Output) (xs : List (Event × Timeval)) : Output :=
  xs.foldl (fun out x => handleEvent out x.1 x.2) out

/-! ## The TC part of `main`

From the loaded program on. -/

/-- The state and the exit code. `fd` is the program, if it could be loaded, `rb` tells whether the
ring buffer could be created and `lastPoll` is `err` when the loop ends. -/
def main {σ : Type} (lib : Libbpf σ) (fd : Option Int) (rb : Bool) (lastPoll : Int) (s : σ) : σ × Int :=
  match fd with
  | none => (s, 0)
  | some fd =>
      let ingress := tcSetup lib s .ingress fd
      if ingress.attached then
        let err := if rb then lastPoll else ingress.err
        (tcCleanup lib ingress.state .ingress ingress.opts, exitCode err)
      else (ingress.state, exitCode ingress.err)

end EbpfTools.Pktrace

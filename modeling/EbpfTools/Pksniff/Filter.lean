import Mathlib.Algebra.Group.Nat.Defs
import Mathlib.Data.List.Infix
import EbpfTools.Bpf.Headers
import EbpfTools.Lib.Decimal
import EbpfTools.Lib.Numeral
import EbpfTools.Pksniff.Event

/-!
# The packet filter

`ip_str`, `event_matches`, `parse_filter_str`, `proto_str` and `app_str` of `Pksniff.c`, and the
summary that `draw_filter_bar` shows of the active filter.
-/

namespace EbpfTools.Pksniff
open EbpfTools.Lib EbpfTools.Bpf

abbrev INET_ADDRSTRLEN : Nat := 16

/-- `struct filter`; 0 and, for the direction, 0xFF stand for any. -/
structure Filter where
  ip : Buf INET_ADDRSTRLEN
  port : UInt16
  proto : UInt8
  appTag : UInt8
  direction : UInt8

/-- The filter at the start and after a reset. -/
def Filter.any : Filter := ⟨.zero _, 0, 0, 0, 0xFF⟩

def decimal (n : Nat) : List UInt8 :=
  let digit (d : Nat) : UInt8 := UInt8.ofNat (0x30 + d % 10)
  if n < 10 then [digit n]
  else if n < 100 then [digit (n / 10), digit n]
  else [digit (n / 100), digit (n / 10), digit n]

/-- `ip_str`: the dotted quad of an address in network byte order, read on a little-endian CPU. -/
def ipStr (ip : UInt32) : List UInt8 :=
  decimal (ip.toNat % 256) ++ [0x2E] ++ decimal (ip.toNat / 2 ^ 8 % 256) ++ [0x2E] ++
    decimal (ip.toNat / 2 ^ 16 % 256) ++ [0x2E] ++ decimal (ip.toNat / 2 ^ 24)

-- `strstr(s, t) != NULL`
def strstr (s t : List UInt8) : Bool := t <:+: s

def eventMatches (f : Filter) (e : Event) : Bool :=
  if f.ip.str ≠ [] ∧ ¬ strstr (ipStr e.srcIp) f.ip.str ∧ ¬ strstr (ipStr e.dstIp) f.ip.str then
    false
  else if f.port ≠ 0 ∧ e.srcPort ≠ f.port ∧ e.dstPort ≠ f.port then false
  else if f.proto ≠ 0 ∧ e.ipProto ≠ f.proto then false
  else if f.appTag ≠ 0 ∧ e.appTag ≠ f.appTag then false
  else if f.direction ≠ 0xFF ∧ e.direction ≠ f.direction then false
  else true

/-! ## Parsing filter strings -/

/-- The tokens that `strtok` with " " finds. -/
def strtok (buf : List UInt8) : List (List UInt8) := (buf.splitOn 32).filter fun t => t ≠ []

/-- What `strncpy` writes to an array of `n` bytes. -/
def strncpy (src : List UInt8) (n : Nat) : List UInt8 :=
  src.take n ++ List.replicate (n - src.length) 0

def toLower (c : UInt8) : UInt8 := if 65 ≤ c ∧ c ≤ 90 then c + 32 else c

-- `strcasecmp(s, t) == 0`
def strcaseeq (s t : List UInt8) : Bool := s.map toLower = t.map toLower

def parseIp (f : Filter) (text : List UInt8) : Filter :=
  { f with ip := f.ip.memcpy 0 (strncpy text (INET_ADDRSTRLEN - 1)) }

def parsePort (f : Filter) (text : List UInt8) : Filter :=
  { f with port := (atoi text).toUInt32.toUInt16 }

def parseProto (f : Filter) (p : List UInt8) : Filter :=
  if strcaseeq p (ascii "tcp") then { f with proto := IPPROTO_TCP }
  else if strcaseeq p (ascii "udp") then { f with proto := IPPROTO_UDP }
  else if strcaseeq p (ascii "icmp") then { f with proto := IPPROTO_ICMP }
  else f

def parseApp (f : Filter) (p : List UInt8) : Filter :=
  if strcaseeq p (ascii "dns") then { f with appTag := APP_DNS }
  else if strcaseeq p (ascii "http") then { f with appTag := APP_HTTP }
  else if strcaseeq p (ascii "tls") then { f with appTag := APP_TLS }
  else f

def parseDir (f : Filter) (p : List UInt8) : Filter :=
  if strcaseeq p (ascii "in") then { f with direction := DIR_INGRESS }
  else if strcaseeq p (ascii "out") then { f with direction := DIR_EGRESS }
  else f

/-- The body of the loop: `strncmp(tok, key, strlen(key)) == 0` picks the key. -/
def parseToken (f : Filter) (tok : List UInt8) : Filter :=
  if (ascii "ip:").isPrefixOf tok then parseIp f (tok.drop 3)
  else if (ascii "port:").isPrefixOf tok then parsePort f (tok.drop 5)
  else if (ascii "proto:").isPrefixOf tok then parseProto f (tok.drop 6)
  else if (ascii "app:").isPrefixOf tok then parseApp f (tok.drop 4)
  else if (ascii "dir:").isPrefixOf tok then parseDir f (tok.drop 4)
  else f

/-- `parse_filter_str`: the filter for the C string `s`, of which 127 bytes fit the copy. -/
def parseFilterStr (s : List UInt8) : Filter := (strtok (s.take 127)).foldl parseToken .any

/-! ## The filter bar -/

def protoStr (p : UInt8) : List UInt8 :=
  if p = IPPROTO_TCP then ascii "TCP"
  else if p = IPPROTO_UDP then ascii "UDP"
  else if p = IPPROTO_ICMP then ascii "ICMP"
  else ascii "???"

def appStr (t : UInt8) : List UInt8 :=
  if t = APP_DNS then ascii "DNS"
  else if t = APP_HTTP then ascii "HTTP"
  else if t = APP_TLS then ascii "TLS"
  else if t = APP_ICMP then ascii "ICMP"
  else []

/-- The string that `strncat(dst, src, n)` leaves in `dst`. -/
def strncat (dst src : List UInt8) (n : Nat) : List UInt8 := dst ++ src.take n

-- `char tmp[16]; snprintf(tmp, 16, …)`
def snprintfTmp (text : List UInt8) : List UInt8 := text.take 15

-- `strncat(summary, …, sizeof(summary) - strlen(summary) - 1)`
def catSummary (summary text : List UInt8) : List UInt8 :=
  strncat summary text (256 - summary.length - 1)

/-- `draw_filter_bar`: the string in `summary`. -/
def filterSummary (f : Filter) : List UInt8 :=
  let summary := []
  let summary :=
    if f.ip.str ≠ [] then catSummary (strncat summary (ascii "ip:") 3) f.ip.str else summary
  let summary :=
    if f.port ≠ 0 then
      catSummary summary (snprintfTmp (ascii " port:" ++ printDecimal f.port.toNat))
    else summary
  let summary :=
    if f.proto ≠ 0 then catSummary summary (snprintfTmp (ascii " proto:" ++ protoStr f.proto))
    else summary
  let summary :=
    if f.appTag ≠ 0 then catSummary summary (snprintfTmp (ascii " app:" ++ appStr f.appTag))
    else summary
  if f.direction ≠ 0xFF then
    catSummary summary (if f.direction = DIR_INGRESS then ascii " dir:in" else ascii " dir:out")
  else summary

end EbpfTools.Pksniff

import EbpfTools.Lib.Pcap
import EbpfTools.Pksniff.Lemmas.FilterAddress
import EbpfTools.Pktrace.Userspace

/-!
# What the records and the lines say about the frames
-/

namespace EbpfTools.Pktrace
open EbpfTools.Lib EbpfTools.Bpf
open EbpfTools.Pksniff (Timeval)

/-! ## Records -/

/-- The record of a frame with the headers `p`. -/
structure RecordOf (skb : Skb) (p : Nat × L4) (e : Event) : Prop where
  packetLen : e.packetLen.toNat = skb.len
  capLen : e.capLen.toNat = MAX_CAPTURE_BYTES
  srcIp : e.srcIp = .ofNat (skb.le32 26)
  dstIp : e.dstIp = .ofNat (skb.le32 30)
  srcPort : e.srcPort = p.2.srcPort
  dstPort : e.dstPort = p.2.dstPort
  payloadOff : e.payloadOff.toNat = p.2.payloadOff
  protocol : e.protocol = skb.ipProtocol
  packet : e.packet.bytes = skb.bytes.take MAX_CAPTURE_BYTES

theorem tcpHdrLen_le (skb : Skb) (l4Off : Nat) : skb.tcpHdrLen l4Off ≤ 1020 := by
  have hlt := (skb.byte (l4Off + 12) >>> 4).toNat_lt
  rw [Skb.tcpHdrLen]
  split <;> omega

/-- The payload starts at most 2^16 bytes behind the start of the frame. -/
theorem payloadOff_lt {skb : Skb} {p : Nat × L4} (h : headers skb = some p) :
    p.2.payloadOff < 2 ^ 16 := by
  rw [headers] at h
  split_ifs at h
  obtain ⟨len, hlen, h⟩ := Option.bind_eq_some_iff.mp h
  obtain ⟨l4, hl4, h⟩ := Option.bind_eq_some_iff.mp h
  have hp : (14 + len, l4) = p := Option.some.inj h
  have hle : len ≤ 1020 := by
    have hlt := (skb.byte 14 &&& 0x0F).toNat_lt
    rw [Skb.ipHdrLen] at hlen
    dsimp only at hlen
    split_ifs at hlen
    rw [Option.some_inj] at hlen
    omega
  have htcp := tcpHdrLen_le skb (14 + len)
  rw [l4Header] at hl4
  rw [← hp]
  split_ifs at hl4
  all_goals
    rw [Option.some_inj] at hl4
    rw [← hl4]
    dsimp only
    omega

/-- A record is submitted exactly for a frame of at least 64 bytes with valid headers, when there
is room in the ring buffer. -/
theorem pktraceFn_eq (skb : Skb) (slot : Option Event) :
    (∃ e, pktraceFn skb slot = some e ∧ ∃ p, headers skb = some p ∧ slot.isSome = true ∧
        MAX_CAPTURE_BYTES ≤ skb.len ∧ RecordOf skb p e) ∨
      pktraceFn skb slot = none ∧
        (headers skb = none ∨ slot = none ∨ skb.len < MAX_CAPTURE_BYTES) := by
  cases hh : headers skb with
  | none => exact Or.inr ⟨by simp [pktraceFn, hh], Or.inl rfl⟩
  | some p =>
      cases slot with
      | none => exact Or.inr ⟨by simp [pktraceFn, hh], Or.inr (Or.inl rfl)⟩
      | some e =>
          by_cases hlen : skb.len < MAX_CAPTURE_BYTES
          · have hload : skb.loadBytes 0 MAX_CAPTURE_BYTES = none :=
              Skb.loadBytes_eq_none (by omega)
            exact Or.inr ⟨by simp [pktraceFn, hh, hload], Or.inr (Or.inr hlen)⟩
          · have hload : skb.loadBytes 0 MAX_CAPTURE_BYTES =
                some (skb.bytes.take MAX_CAPTURE_BYTES) := Skb.loadBytes_eq_some (by omega)
            have htmp := (Skb.loadBytes_length hload).1
            have hoff := payloadOff_lt hh
            have hcap : (if skb.len > MAX_CAPTURE_BYTES then MAX_CAPTURE_BYTES else skb.len) =
                MAX_CAPTURE_BYTES := by
              split <;> omega
            refine Or.inl ⟨{ fill e skb p.1 p.2 with
                packet := e.packet.memcpy 0 (skb.bytes.take MAX_CAPTURE_BYTES) }, ?_, p, rfl, rfl,
              by omega, ?_, ?_, rfl, rfl, rfl, rfl, ?_, rfl, ?_⟩
            · simp only [pktraceFn, hh, hload]
              rfl
            · exact UInt32.toNat_ofNat'.trans (Nat.mod_eq_of_lt skb.len_lt)
            · rw [fill, hcap]
              rfl
            · exact UInt16.toNat_ofNat'.trans (Nat.mod_eq_of_lt hoff)
            · exact e.packet.memcpy_whole htmp

/-! ## Reading a line -/

/-- What a line of the log says. A port that is not printed is 0. -/
structure LogEntry where
  proto : List UInt8
  src : List UInt8
  srcPort : Nat
  dst : List UInt8
  dstPort : Nat
  packetLen : Nat
  capLen : Nat
  payload : Nat
  data : List UInt8
  deriving DecidableEq

def readPort (text : List UInt8) : Nat := if text = ascii "-" then 0 else digitsValue text

def readData (text : List UInt8) : Option (List UInt8) :=
  if text = [] then some [] else (expect (ascii "  data=") text).bind readHexText

def readLine (bs : List UInt8) : Option (LogEntry × List UInt8) := do
  let (proto, bs) ← readWord bs
  let (src, bs) ← upTo 58 bs
  let (srcPort, bs) ← readWord bs
  let bs ← expect (ascii "-> ") bs
  let (dst, bs) ← upTo 58 bs
  let (dstPort, bs) ← readWord bs
  let bs ← expect (ascii "pkt=") bs
  let (packetLen, bs) := readNumber bs
  let bs ← expect (ascii " cap=") bs
  let (capLen, bs) := readNumber bs
  let bs ← expect (ascii " payload=") bs
  let (payload, bs) := readNumber bs
  let (tail, bs) ← upTo 10 bs
  let data ← readData tail
  return (⟨proto, src, readPort srcPort, dst, readPort dstPort, packetLen, capLen, payload, data⟩,
    bs)

/-- The entries of a log that consists of complete lines. -/
def readLog (bs : List UInt8) : Option (List LogEntry) := readAll readLine bs.length bs

/-! ## Fields of a line -/

theorem not_mem_protoToStr (proto : UInt8) : 32 ∉ protoToStr proto := by
  rw [protoToStr]
  split_ifs <;> decide

theorem portBuf_eq (port : UInt16) :
    portBuf port = if port ≠ 0 then printDecimal port.toNat else ascii "-" := by
  have hlt : port.toNat < 65536 := port.toNat_lt
  have hlen : (printDecimal port.toNat).length ≤ 5 := length_printDecimal_le (by decide) (by omega)
  rw [portBuf, List.take_of_length_le (by omega)]

theorem not_mem_portBuf (port : UInt16) : 32 ∉ portBuf port := by
  rw [portBuf_eq]
  split
  · intro hmem
    exact absurd (isDigit_of_mem_printDecimal hmem) (by decide)
  · decide

theorem readPort_portBuf (port : UInt16) : readPort (portBuf port) = port.toNat := by
  rw [portBuf_eq, readPort]
  split
  · have hne : printDecimal port.toNat ≠ ascii "-" := by
      intro he
      have hmem : 45 ∈ printDecimal port.toNat := by
        rw [he]
        decide
      exact absurd (isDigit_of_mem_printDecimal hmem) (by decide)
    rw [if_neg hne, digitsValue_printDecimal]
  · rename_i hzero
    rw [if_pos rfl, not_not.mp hzero]
    rfl

theorem not_mem_inetNtop (ip : UInt32) : 58 ∉ inetNtop ip := by
  have hdec : ∀ n, (58 : UInt8) ∉ Pksniff.decimal n := by
    intro n hmem
    obtain ⟨d, hd⟩ := Pksniff.digit_of_mem_decimal hmem
    have hval := Pksniff.toNat_digit d
    rw [← hd] at hval
    change 58 = 48 + d % 10 at hval
    omega
  simp [inetNtop, Pksniff.ipStr, hdec]

theorem head?_inetNtop (ip : UInt32) (rest : List UInt8) : (inetNtop ip ++ rest).head? ≠ some 32 := by
  intro he
  cases hip : inetNtop ip with
  | nil => simp [inetNtop, Pksniff.ipStr] at hip
  | cons c cs =>
      rw [hip] at he
      obtain rfl : c = 32 := Option.some.inj he
      have hmem : 32 ∈ Pksniff.ipStr ip := by
        rw [inetNtop] at hip
        rw [hip]
        exact List.mem_cons_self
      exact Pksniff.not_mem_ipStr (by decide) (by decide) ip hmem

/-- Inside the array, the printed bytes are those from `i` on. -/
theorem printHexLoop_eq {data : List UInt8} {len left i : Nat} (h : len ≤ data.length)
    (hi : i + left = len) :
    printHexLoop data len left i = hexText ((data.drop i).take left) := by
  induction left generalizing i with
  | zero => rfl
  | succ left ih =>
      have hlt : i < data.length := by omega
      have hget : data.getD i 0 = data[i] := by simp [hlt]
      rw [printHexLoop, ih (by omega), hget, List.drop_eq_getElem_cons hlt, List.take_succ_cons]
      cases left with
      | zero =>
          rw [if_neg (by omega)]
          simp [hexText]
      | succ left =>
          have hnext : i + 1 < data.length := by omega
          rw [if_pos (by omega), List.drop_eq_getElem_cons hnext, List.take_succ_cons,
            hexText_cons_cons]
          simp

theorem printHexBytes_eq {data : List UInt8} {len : Nat} (h : len ≤ data.length) :
    printHexBytes data len = hexText (data.take len) := by
  rw [printHexBytes, printHexLoop_eq h (Nat.zero_add len), List.drop_zero]

/-! ## A line -/

/-- What the line of a frame says when `preview` bytes of the payload are asked for. -/
def entryOf (preview : Nat) (skb : Skb) (l4 : L4) : LogEntry where
  proto := protoToStr skb.ipProtocol
  src := inetNtop (.ofNat (skb.le32 26))
  srcPort := l4.srcPort.toNat
  dst := inetNtop (.ofNat (skb.le32 30))
  dstPort := l4.dstPort.toNat
  packetLen := skb.len
  capLen := MAX_CAPTURE_BYTES
  payload := MAX_CAPTURE_BYTES - l4.payloadOff
  data := ((skb.bytes.take MAX_CAPTURE_BYTES).drop l4.payloadOff).take preview

section Line
variable {skb : Skb} {p : Nat × L4} {e : Event} (h : RecordOf skb p e)
include h

theorem payloadAvail_of_record : payloadAvail e = MAX_CAPTURE_BYTES - p.2.payloadOff := by
  rw [payloadAvail, h.payloadOff, h.capLen]
  split <;> omega

/-- What follows the numbers of a line. -/
theorem tail_of_record (preview : Nat) :
    let data := ((skb.bytes.take MAX_CAPTURE_BYTES).drop p.2.payloadOff).take preview
    (if payloadShow e preview > 0 then
        ascii "  data=" ++
          printHexBytes (e.packet.bytes.drop e.payloadOff.toNat) (payloadShow e preview)
      else []) = if data = [] then [] else ascii "  data=" ++ hexText data := by
  intro data
  have hsize : (skb.bytes.take MAX_CAPTURE_BYTES).length = MAX_CAPTURE_BYTES := by
    rw [← h.packet, e.packet.size_eq]
  have hlen : ((skb.bytes.take MAX_CAPTURE_BYTES).drop p.2.payloadOff).length =
      MAX_CAPTURE_BYTES - p.2.payloadOff := by
    rw [List.length_drop, hsize]
  have hshow : payloadShow e preview = min preview (MAX_CAPTURE_BYTES - p.2.payloadOff) := by
    rw [payloadShow, payloadAvail_of_record h]
    split <;> omega
  have hdata : data.length = payloadShow e preview := by
    rw [List.length_take, hlen, hshow]
  by_cases hpos : payloadShow e preview > 0
  · have hne : data ≠ [] := List.length_pos_iff.mp (by omega)
    have htake : ((skb.bytes.take MAX_CAPTURE_BYTES).drop p.2.payloadOff).take
        (payloadShow e preview) = data := by
      rw [← hdata]
      exact (List.prefix_iff_eq_take.mp (List.take_prefix preview _)).symm
    rw [if_pos hpos, if_neg hne, h.packet, h.payloadOff, printHexBytes_eq (by omega), htake]
  · have hnil : data = [] := List.length_eq_zero_iff.mp (by omega)
    rw [if_neg hpos, if_pos hnil]

end Line

theorem readData_tail (data : List UInt8) :
    readData (if data = [] then [] else ascii "  data=" ++ hexText data) = some data := by
  by_cases hnil : data = []
  · rw [if_pos hnil, hnil]
    rfl
  · rw [if_neg hnil, readData, if_neg (by simp [ascii]), expect_append, Option.bind_some,
      readHexText_hexText]

theorem not_mem_tail (data : List UInt8) :
    10 ∉ if data = [] then [] else ascii "  data=" ++ hexText data := by
  split
  · exact List.not_mem_nil
  · intro hmem
    rcases List.mem_append.mp hmem with hmem | hmem
    · exact absurd hmem (by decide)
    · rcases toNat_of_mem_hexText hmem with he | hge
      · exact absurd he (by decide)
      · exact absurd hge (by decide)

theorem readLine_fields {proto src sport dst dport tail rest : List UInt8} {a b c : Nat}
    (hproto : 32 ∉ proto) (hsrc : 58 ∉ src) (hsport : 32 ∉ sport) (hdst : 58 ∉ dst)
    (hdport : 32 ∉ dport) (htail : 10 ∉ tail) (hhead : ∀ rest, (src ++ rest).head? ≠ some 32)
    (hstop : ∀ d, (tail ++ 10 :: rest).head? = some d → isDigit d = false) :
    readLine (padRight 6 proto ++ List.replicate (0 + 1) 32 ++ (src ++ 58 :: (padRight 5 sport ++
        List.replicate (0 + 1) 32 ++ (ascii "-> " ++ (dst ++ 58 :: (padRight 5 dport ++
        List.replicate (1 + 1) 32 ++ (ascii "pkt=" ++ (printDecimal a ++ (ascii " cap=" ++
        (printDecimal b ++ (ascii " payload=" ++ (printDecimal c ++
        (tail ++ 10 :: rest))))))))))))) =
      (readData tail).map fun data =>
        (⟨proto, src, readPort sport, dst, readPort dport, a, b, c, data⟩, rest) := by
  have hcap : ∀ (text : List UInt8) (d : UInt8), (ascii " cap=" ++ text).head? = some d →
      isDigit d = false := by
    rintro text d ⟨⟩
    rfl
  have hpayload : ∀ (text : List UInt8) (d : UInt8), (ascii " payload=" ++ text).head? = some d →
      isDigit d = false := by
    rintro text d ⟨⟩
    rfl
  rw [readLine, readWord_padRight hproto 6 (hhead _), some_bind]
  dsimp only
  rw [upTo_append hsrc, some_bind]
  dsimp only
  rw [readWord_padRight hsport 5 (by nofun), some_bind]
  dsimp only
  rw [expect_append, some_bind, upTo_append hdst, some_bind]
  dsimp only
  rw [readWord_padRight hdport 5 (by nofun), some_bind]
  dsimp only
  rw [expect_append, some_bind, readNumber_printDecimal a (hcap _)]
  dsimp only
  rw [expect_append, some_bind, readNumber_printDecimal b (hpayload _)]
  dsimp only
  rw [expect_append, some_bind, readNumber_printDecimal c hstop]
  dsimp only
  rw [upTo_append htail, some_bind]
  cases readData tail <;> rfl

/-- The line of a record is read back as what it says about the frame. -/
theorem readLine_eventLine {skb : Skb} {p : Nat × L4} {e : Event} (h : RecordOf skb p e)
    (preview : Nat) (rest : List UInt8) :
    readLine (eventLine e preview ++ rest) = some (entryOf preview skb p.2, rest) := by
  have htail := tail_of_record h preview
  dsimp only at htail
  generalize hdata : ((skb.bytes.take MAX_CAPTURE_BYTES).drop p.2.payloadOff).take preview = data
    at htail
  have hstop : ∀ c, ((if data = [] then [] else ascii "  data=" ++ hexText data) ++
      10 :: rest).head? = some c → isDigit c = false := by
    intro c hc
    split at hc
    · cases hc
      rfl
    · cases hc
      rfl
  have hfields := @readLine_fields _ _ _ _ _ _ rest e.packetLen.toNat e.capLen.toNat
    (payloadAvail e) (not_mem_protoToStr e.protocol) (not_mem_inetNtop e.srcIp)
    (not_mem_portBuf e.srcPort) (not_mem_inetNtop e.dstIp) (not_mem_portBuf e.dstPort)
    (not_mem_tail data) (head?_inetNtop e.srcIp) hstop
  rw [readData_tail, readPort_portBuf, readPort_portBuf, Option.map_some] at hfields
  have hblank : ascii " " = List.replicate (0 + 1) 32 := rfl
  have hcolon : ascii ":" = [58] := rfl
  have harrow : ascii " -> " = List.replicate (0 + 1) 32 ++ ascii "-> " := rfl
  have hpkt : ascii "  pkt=" = List.replicate (1 + 1) 32 ++ ascii "pkt=" := rfl
  have hline : ascii "\n" = [10] := rfl
  rw [eventLine, htail, hblank, hcolon, harrow, hpkt, hline]
  simp only [List.append_assoc, List.cons_append, List.nil_append] at hfields ⊢
  rw [hfields, entryOf, hdata, payloadAvail_of_record h, h.protocol, h.srcIp, h.dstIp, h.srcPort,
    h.dstPort, h.packetLen, h.capLen]

end EbpfTools.Pktrace

import Edos.Lib.Serial
import Edos.Net.Checksum

/-!
# TCP

The segment format and the connection state machine. Sequence numbers are 32-bit words and wrap;
they are compared as serial numbers. A function that reads the clock takes the time as an argument,
in nanoseconds. The wait queues, and the reference to the owning socket, are left out: they carry
no state of the connection.

`handle_segment` is cut into the pieces its branches are made of: `processAck` for the
acknowledgment, `acceptData` and `acceptFin` for the receive side of a connection that is open for
reading. Both directions of the connection are read off these pieces in `TcpReceive` and `TcpSend`.
-/

namespace Edos.Net

/-- A sequence number. -/
abbrev Seq := BitVec 32

/-- An IPv4 address, `[u8; 4]`. -/
abbrev Ip := Vector UInt8 4

/-! ## Flags and constants -/

def FIN : UInt8 := 0x01
def SYN : UInt8 := 0x02
def RST : UInt8 := 0x04
def PSH : UInt8 := 0x08
def ACK : UInt8 := 0x10

def defaultMss : BitVec 16 := 1460
def defaultWindow : BitVec 16 := 16384
def maxRxBuffer : ℕ := 65535

def initialRto : ℕ := 1000000000
def minRto : ℕ := 200000000
def maxRto : ℕ := 60000000000

/-! ## Segments -/

structure TcpHeader where
  srcPort : BitVec 16
  dstPort : BitVec 16
  seqNum : Seq
  ackNum : Seq
  /-- In 32-bit words. -/
  dataOffset : ℕ
  flags : UInt8
  window : BitVec 16
  deriving Repr, DecidableEq

/-- `flags & flag != 0`. -/
def TcpHeader.has (hdr : TcpHeader) (flag : UInt8) : Bool := hdr.flags &&& flag != 0

def TcpHeader.headerLen (hdr : TcpHeader) : ℕ := hdr.dataOffset * 4

/-- The loop of `parse_mss`, over the options from its index on. A padding option takes the byte
after it along, since the index is stepped both in its arm and after the match. -/
def parseMssOptions : List UInt8 → Option (BitVec 16)
  | [] => none
  | kind :: rest =>
    if kind = 0 then none
    else if kind = 1 then parseMssOptions (rest.drop 1)
    else if kind = 2 then
      match rest with
      | len :: hi :: lo :: _ => if len = 4 then some (BitVec.ofNat 16 (beNat [hi, lo])) else none
      | _ => none
    else
      match rest with
      | [] => none
      | len :: tail =>
        if len.toNat < 2 then none else parseMssOptions ((len :: tail).drop (len.toNat - 1))
termination_by opts => opts.length
decreasing_by
  all_goals
    simp only [List.length_drop, List.length_cons]
    omega

def parseMss (data : List UInt8) (dataOffset : ℕ) : Option (BitVec 16) :=
  if dataOffset * 4 ≤ 20 ∨ data.length < dataOffset * 4 then none
  else parseMssOptions (window data 20 (dataOffset * 4 - 20))

/-- `tcp_checksum`: over the pseudo-header and the segment. -/
def tcpChecksum (pkt : List UInt8) (srcIp dstIp : Ip) : BitVec 16 :=
  internetChecksum (srcIp.toList ++ dstIp.toList ++ [0, 6] ++ beBytes 2 pkt.length ++ pkt)

/-- `build`: a segment, with its checksum. -/
def build (srcPort dstPort : BitVec 16) (seq ack : Seq) (flags : UInt8) (window : BitVec 16)
    (srcIp dstIp : Ip) (options payload : List UInt8) : List UInt8 :=
  let dataOffset := UInt8.ofNat ((20 + options.length + 3) / 4)
  let hdr := beBytes 2 srcPort.toNat ++ beBytes 2 dstPort.toNat ++ beBytes 4 seq.toNat ++
    beBytes 4 ack.toNat ++ [dataOffset <<< 4, flags] ++ beBytes 2 window.toNat ++
    beBytes 2 0 ++ beBytes 2 0 ++ options
  let pkt := hdr ++ List.replicate (dataOffset.toNat * 4 - hdr.length) 0 ++ payload
  patch pkt 16 (beBytes 2 (tcpChecksum pkt srcIp dstIp).toNat)

def mssOption (mss : BitVec 16) : List UInt8 := [2, 4] ++ beBytes 2 mss.toNat

/-! ## The connection -/

inductive TcpState
  | closed
  | listen
  | synSent
  | synReceived
  | established
  | finWait1
  | finWait2
  | closeWait
  | closing
  | lastAck
  | timeWait
  deriving Repr, DecidableEq

structure RetransmitSegment where
  seq : Seq
  /-- The sequence space consumed. -/
  payloadLen : Seq
  data : List UInt8
  sentAt : ℕ
  retries : ℕ
  deriving Repr, DecidableEq

structure TcpConnection where
  state : TcpState
  localPort : BitVec 16
  remotePort : BitVec 16
  localIp : Ip
  remoteIp : Ip
  sndUna : Seq
  sndNxt : Seq
  sndWnd : BitVec 16
  iss : Seq
  rcvNxt : Seq
  rcvWnd : BitVec 16
  irs : Seq
  mss : BitVec 16
  rxBuffer : List UInt8
  retransmitQueue : List RetransmitSegment
  srtt : Option ℕ
  rttvar : ℕ
  rto : ℕ
  finSeq : Option Seq
  timeWaitUntil : Option ℕ
  deriving Repr, DecidableEq

namespace TcpConnection

/-- `TcpConnection::new`, with the initial sequence number that was drawn. -/
def new (iss : Seq) (localIp : Ip) (localPort : BitVec 16) (remoteIp : Ip)
    (remotePort : BitVec 16) : TcpConnection where
  state := .closed
  localPort := localPort
  remotePort := remotePort
  localIp := localIp
  remoteIp := remoteIp
  sndUna := iss
  sndNxt := iss
  sndWnd := 0
  iss := iss
  rcvNxt := 0
  rcvWnd := defaultWindow
  irs := 0
  mss := defaultMss
  rxBuffer := []
  retransmitQueue := []
  srtt := none
  rttvar := 0
  rto := initialRto
  finSeq := none
  timeWaitUntil := none

/-- A segment of this connection, from its next sequence number. -/
def segment (c : TcpConnection) (flags : UInt8) (payload : List UInt8) : List UInt8 :=
  build c.localPort c.remotePort c.sndNxt c.rcvNxt flags c.rcvWnd c.localIp c.remoteIp [] payload

def buildAck (c : TcpConnection) : List UInt8 := c.segment ACK []

def updateRcvWnd (c : TcpConnection) : TcpConnection :=
  { c with rcvWnd := BitVec.ofNat 16 (maxRxBuffer - c.rxBuffer.length) }

def updateRto (c : TcpConnection) (rtt : ℕ) : TcpConnection :=
  let (rttvar, srtt) := match c.srtt with
    | none => (rtt / 2, rtt)
    | some srtt => ((c.rttvar * 3 + (max srtt rtt - min srtt rtt)) / 4, (srtt * 7 + rtt) / 8)
  { c with
    rttvar := rttvar
    srtt := some srtt
    rto := max minRto (min maxRto (srtt + rttvar * 4)) }

/-- The round-trip samples an acknowledgment gives: of the segments it covers that were sent
once. -/
def samples (c : TcpConnection) (now : ℕ) (ack : Seq) : List ℕ :=
  (c.retransmitQueue.filter fun seg ↦
    seg.retries = 0 && serialLe (seg.seq + seg.payloadLen) ack).map fun seg ↦ now - seg.sentAt

def processAck (c : TcpConnection) (now : ℕ) (ack : Seq) (window : BitVec 16) : TcpConnection :=
  if serialGt ack c.sndUna && serialLe ack c.sndNxt then
    let c := { c with sndUna := ack, sndWnd := window }
    let c := match (c.samples now ack).max? with
      | some rtt => c.updateRto rtt
      | none => c
    { c with retransmitQueue := c.retransmitQueue.filter fun seg ↦
        serialGt (seg.seq + seg.payloadLen) ack }
  else c

def finAcked (c : TcpConnection) (ack : Seq) : Bool := c.finSeq.any fun fin ↦ serialGt ack fin

def enterTimeWait (c : TcpConnection) (now : ℕ) : TcpConnection :=
  { c with state := .timeWait, timeWaitUntil := some (now + 5000000000) }

/-- The data of a segment: whether it was in order (no data is), and the acknowledgment sent. -/
def acceptData (c : TcpConnection) (hdr : TcpHeader) (payload : List UInt8) :
    Bool × List (List UInt8) × TcpConnection :=
  if payload = [] then (true, [], c)
  else if hdr.seqNum = c.rcvNxt then
    let c := { c with
      rxBuffer := c.rxBuffer ++ payload
      rcvNxt := c.rcvNxt + BitVec.ofNat 32 payload.length }
    let c := c.updateRcvWnd
    (true, [c.buildAck], c)
  else (false, [c.buildAck], c)

/-- A `FIN` that follows data received in order. -/
def acceptFin (c : TcpConnection) (now : ℕ) (hdr : TcpHeader) : List (List UInt8) × TcpConnection :=
  let c := { c with rcvNxt := c.rcvNxt + 1 }
  let ack := c.buildAck
  match c.state with
  | .established => ([ack], { c with state := .closeWait })
  | .finWait1 =>
    if hdr.has ACK && c.finAcked hdr.ackNum then ([ack], c.enterTimeWait now)
    else ([ack], { c with state := .closing })
  | .finWait2 => ([ack], c.enterTimeWait now)
  | _ => ([ack], c)

/-- A segment on a connection that is open for reading. -/
def receive (c : TcpConnection) (now : ℕ) (hdr : TcpHeader) (payload : List UInt8) :
    List (List UInt8) × TcpConnection :=
  let c := if hdr.has ACK then c.processAck now hdr.ackNum hdr.window else c
  let (inOrder, responses, c) := c.acceptData hdr payload
  let (acks, c) := if hdr.has FIN && inOrder then c.acceptFin now hdr else ([], c)
  let c := if c.state = .finWait1 && hdr.has ACK && c.finAcked hdr.ackNum then
      { c with state := .finWait2 }
    else c
  (responses ++ acks, c)

/-- The answer to a `SYN`, in `SynSent`. -/
def connect (c : TcpConnection) (hdr : TcpHeader) (raw : List UInt8) :
    List (List UInt8) × TcpConnection :=
  if hdr.has SYN && hdr.has ACK && hdr.ackNum = c.sndNxt then
    let c := { c with
      irs := hdr.seqNum
      rcvNxt := hdr.seqNum + 1
      sndUna := hdr.ackNum
      sndWnd := hdr.window
      mss := (parseMss raw hdr.dataOffset).getD c.mss
      retransmitQueue := []
      state := .established }
    ([c.buildAck], c)
  else ([], c)

def handleSegment (c : TcpConnection) (now : ℕ) (hdr : TcpHeader) (payload raw : List UInt8) :
    List (List UInt8) × TcpConnection :=
  match c.state with
  | .synReceived =>
    if hdr.has RST then ([], { c with state := .closed })
    else if hdr.has ACK && hdr.ackNum = c.sndNxt then
      ([], { c with
        sndUna := hdr.ackNum
        sndWnd := hdr.window
        state := .established
        retransmitQueue := [] })
    else ([], c)
  | .synSent => if hdr.has RST then ([], { c with state := .closed }) else c.connect hdr raw
  | .established | .finWait1 | .finWait2 =>
    if hdr.has RST then ([], { c with state := .closed }) else c.receive now hdr payload
  | .closeWait =>
    ([], if hdr.has ACK then c.processAck now hdr.ackNum hdr.window else c)
  | .closing => ([], if hdr.has ACK && c.finAcked hdr.ackNum then c.enterTimeWait now else c)
  | .lastAck =>
    ([], if hdr.has ACK && c.finAcked hdr.ackNum then { c with state := .closed } else c)
  | .closed | .listen | .timeWait => ([], c)

/-! ## Sending -/

/-- Enter a segment that takes `len` of the sequence space into the retransmit queue. -/
def enqueue (c : TcpConnection) (now : ℕ) (seq : Seq) (len : ℕ) (data : List UInt8) :
    TcpConnection :=
  { c with
    sndNxt := seq + BitVec.ofNat 32 len
    retransmitQueue := c.retransmitQueue ++ [⟨seq, BitVec.ofNat 32 len, data, now, 0⟩] }

def buildSyn (c : TcpConnection) (now : ℕ) : List UInt8 × TcpConnection :=
  let c := { c with state := .synSent }
  let seg := build c.localPort c.remotePort c.iss 0 SYN c.rcvWnd c.localIp c.remoteIp
    (mssOption defaultMss) []
  (seg, c.enqueue now c.iss 1 seg)

def buildSynAck (c : TcpConnection) (now : ℕ) : List UInt8 × TcpConnection :=
  let c := { c with state := .synReceived }
  let seg := build c.localPort c.remotePort c.iss c.rcvNxt (SYN ||| ACK) c.rcvWnd c.localIp
    c.remoteIp (mssOption defaultMss) []
  (seg, c.enqueue now c.iss 1 seg)

/-- The end of `build_fin`, once the state allows it. -/
def sendFin (c : TcpConnection) (now : ℕ) : Option (List UInt8) × TcpConnection :=
  let seg := c.segment (FIN ||| ACK) []
  (some seg, { c with finSeq := some c.sndNxt }.enqueue now c.sndNxt 1 seg)

def buildFin (c : TcpConnection) (now : ℕ) : Option (List UInt8) × TcpConnection :=
  match c.state with
  | .established => { c with state := .finWait1 }.sendFin now
  | .closeWait => { c with state := .lastAck }.sendFin now
  | _ => (none, c)

/-- How much of the data the next segment takes: what the window and the MSS leave. -/
def chunkSize (c : TcpConnection) (data : List UInt8) : ℕ :=
  let inFlight := serialDist c.sndNxt c.sndUna
  if c.sndWnd.toNat ≤ inFlight then 0
  else min (min data.length c.mss.toNat) (c.sndWnd.toNat - inFlight)

theorem chunkSize_le (c : TcpConnection) (data : List UInt8) : c.chunkSize data ≤ data.length := by
  unfold chunkSize
  dsimp only
  split_ifs <;> omega

/-- One turn of the loop of `build_data_segments`. -/
def sendChunk (c : TcpConnection) (now : ℕ) (chunk : List UInt8) : List UInt8 × TcpConnection :=
  let seg := c.segment (ACK ||| PSH) chunk
  (seg, c.enqueue now c.sndNxt chunk.length seg)

/-- `build_data_segments`: the segments, and how many bytes of the data they took. -/
def buildDataSegments (c : TcpConnection) (now : ℕ) (data : List UInt8) :
    List (List UInt8) × ℕ × TcpConnection :=
  let n := c.chunkSize data
  if n = 0 then ([], 0, c)
  else
    let first := c.sendChunk now (data.take n)
    let rest := first.2.buildDataSegments now (data.drop n)
    (first.1 :: rest.1, n + rest.2.1, rest.2.2)
termination_by data.length
decreasing_by
  have hle := c.chunkSize_le data
  rw [List.length_drop]
  omega

/-- The pass of `check_retransmit` over the queue: the queue, what to resend, and whether a segment
has been sent too often, which ends the pass. -/
def checkQueue (now baseRto : ℕ) :
    List RetransmitSegment → List RetransmitSegment × List (List UInt8) × Bool
  | [] => ([], [], false)
  | seg :: rest =>
    if min (baseRto * 2 ^ min seg.retries 5) maxRto ≤ now - seg.sentAt then
      if 5 ≤ seg.retries then (seg :: rest, [], true)
      else
        let (queue, resends, dead) := checkQueue now baseRto rest
        ({ seg with retries := seg.retries + 1, sentAt := now } :: queue, seg.data :: resends, dead)
    else
      let (queue, resends, dead) := checkQueue now baseRto rest
      (seg :: queue, resends, dead)

def checkRetransmit (c : TcpConnection) (now : ℕ) : List (List UInt8) × TcpConnection :=
  let checked := checkQueue now c.rto c.retransmitQueue
  if checked.2.2 then
    let rst := build c.localPort c.remotePort c.sndNxt 0 RST 0 c.localIp c.remoteIp [] []
    (checked.2.1 ++ [rst], { c with state := .closed, retransmitQueue := [] })
  else (checked.2.1, { c with retransmitQueue := checked.1 })

end TcpConnection

end Edos.Net

import Edos.Lib.Worklist
import Edos.Net.Fragment

/-!
# The network stack

`handle_rx` and everything it dispatches to. Sockets and connections are shared by reference in the
source: here they are numbered, and the tables hold the numbers. Poll notifications and wake-ups
change nothing of this state and are left out. A function that reads the clock takes the time as an
argument; so does the initial sequence number that a new connection draws.

A packet to the local address or to a loopback address is not transmitted but queued as a received
frame. The queue is drained by the outermost `send_ip` only; while it is drained, `send_ip` just
adds to it. The handlers are therefore written over the function they send with: `sendIpInner`
while the queue is drained, `sendIp` at the outermost level.
-/

namespace Edos.Net

open Function

structure SocketAddr where
  ip : Ip
  port : BitVec 16
  deriving DecidableEq

inductive SocketState
  | unbound
  | bound
  | connecting
  | connected
  | closed
  deriving Repr, DecidableEq

/-- `Socket`, as far as the receive path reads or writes it. -/
structure Socket where
  state : SocketState
  localAddr : Option SocketAddr
  remoteAddr : Option SocketAddr
  rxQueue : List (List UInt8 × SocketAddr)
  closed : Bool
  tcpConn : Option ℕ
  acceptQueue : List ℕ
  listening : Bool
  backlog : ℕ

def Socket.newTcp : Socket := ⟨.unbound, none, none, [], false, none, [], false, 0⟩

/-- `PendingTx`, with the address it waits for. -/
structure PendingTx where
  ip : Ip
  packet : List UInt8
  queuedAt : ℕ

def pendingTxTtl : ℕ := 3000000000

/-- The order of addresses as keys of a map. -/
def Ip.key (ip : Ip) : ℕ := beNat ip.toList

structure ArpCache where
  entries : List (Ip × Mac)
  pendingTx : List PendingTx

namespace ArpCache

def lookup (c : ArpCache) (ip : Ip) : Option Mac := c.entries.lookup ip

/-- `insert`: a full cache drops its lowest address. -/
def insert (c : ArpCache) (ip : Ip) (mac : Mac) : ArpCache :=
  let entries :=
    if 256 ≤ c.entries.length ∧ c.entries.lookup ip = none then
      match (c.entries.map fun e ↦ Ip.key e.1).min? with
      | some lowest => c.entries.filter fun e ↦ Ip.key e.1 ≠ lowest
      | none => c.entries
    else c.entries
  { c with entries := (entries.filter fun e ↦ e.1 ≠ ip) ++ [(ip, mac)] }

/-- The packet that has waited longest; among several, that of the lowest address. -/
def oldest (pending : List PendingTx) : Option PendingTx :=
  pending.foldl (fun best e ↦ match best with
    | none => some e
    | some b =>
      if e.queuedAt < b.queuedAt ∨ e.queuedAt = b.queuedAt ∧ Ip.key e.ip < Ip.key b.ip then some e
      else some b) none

def queuePendingTx (c : ArpCache) (now : ℕ) (ip : Ip) (packet : List UInt8) : ArpCache :=
  let live := c.pendingTx.filter fun held ↦ now - held.queuedAt < pendingTxTtl
  let live :=
    if 16 ≤ live.length ∧ ¬live.any (fun held ↦ held.ip = ip) then
      match oldest live with
      | some old => live.filter fun held ↦ held.ip ≠ old.ip
      | none => live
    else live
  { c with pendingTx := (live.filter fun held ↦ held.ip ≠ ip) ++ [⟨ip, packet, now⟩] }

def takePendingTx (c : ArpCache) (now : ℕ) (ip : Ip) : Option (List UInt8) × ArpCache :=
  match c.pendingTx.find? fun held ↦ held.ip = ip with
  | none => (none, c)
  | some held =>
    (if now - held.queuedAt < pendingTxTtl then some held.packet else none,
      { c with pendingTx := c.pendingTx.filter fun held ↦ held.ip ≠ ip })

end ArpCache

structure PingWaiter where
  rttUs : Option ℕ
  sentAt : ℕ

/-- `NetStack`, with the sockets and connections it refers to, the port table, and the frames that
the device was given to transmit. -/
structure NetStack where
  mac : Mac
  localIp : Ip
  subnetMask : Ip
  gatewayIp : Ip
  arpCache : ArpCache
  pingWaiters : ℕ × ℕ → Option PingWaiter
  tcpConnections : SocketAddr × SocketAddr → Option ℕ
  ipIdCounter : BitVec 16
  reassembly : ReassemblyTable
  loopbackQueue : List (List UInt8)
  conns : ℕ → TcpConnection
  nextConn : ℕ
  sockets : ℕ → Socket
  nextSocket : ℕ
  portTable : UInt8 × BitVec 16 → Option ℕ
  wire : List (List UInt8)

namespace TcpConnection

/-- `Duration::MAX`, in nanoseconds. -/
def durationMax : ℕ := 2 ^ 64 * 1000000000 - 1

/-- Whether the arithmetic of `update_rto` overflows. -/
def rtoOverflows (c : TcpConnection) (rtt : ℕ) : Bool :=
  (c.srtt.any fun srtt ↦
    durationMax < c.rttvar * 3 + (max srtt rtt - min srtt rtt) || durationMax < srtt * 7 + rtt) ||
  durationMax < (c.updateRto rtt).srtt.getD rtt + (c.updateRto rtt).rttvar * 4

/-- Whether `process_ack` panics. -/
def ackOverflows (c : TcpConnection) (now : ℕ) (ack : Seq) : Bool :=
  serialGt ack c.sndUna && serialLe ack c.sndNxt && (c.samples now ack).max?.any c.rtoOverflows

/-- Whether `handle_segment` panics. The segments that it builds have no data: their checksums do
not overflow. -/
def segmentOverflows (c : TcpConnection) (now : ℕ) (hdr : TcpHeader) : Bool :=
  match c.state with
  | .established | .finWait1 | .finWait2 =>
    !hdr.has RST && hdr.has ACK && c.ackOverflows now hdr.ackNum
  | .closeWait => hdr.has ACK && c.ackOverflows now hdr.ackNum
  | _ => false

end TcpConnection

namespace NetStack

/-- `transmit`: a frame that is too large for the device is refused. -/
def transmit (s : NetStack) (frame : List UInt8) : NetStack :=
  if 1514 < frame.length then s else { s with wire := s.wire ++ [frame] }

/-! ## Sending -/

/-- Packets to this address stay on the host. -/
abbrev Loops (s : NetStack) (dstIp : Ip) : Prop := dstIp[0] = 127 ∨ dstIp = s.localIp

def sourceIpFor (s : NetStack) (dstIp : Ip) : Ip := if dstIp[0] = 127 then dstIp else s.localIp

def isLocalSubnet (s : NetStack) (ip : Ip) : Bool :=
  ((ip.toList.zip s.subnetMask.toList).zip s.localIp.toList).all fun o ↦
    o.1.1 &&& o.1.2 = o.2 &&& o.1.2

/-- An ARP packet of this host. -/
def arpPacket (s : NetStack) (oper : ℕ) (tha : Mac) (tpa : Ip) : Arp.ArpPacket :=
  ⟨1, 0x0800, 6, 4, oper, s.mac, s.localIp, tha, tpa⟩

def sendArpRequest (s : NetStack) (targetIp : Ip) : NetStack :=
  s.transmit (Ethernet.buildFrame Ethernet.broadcast s.mac Ethernet.arp
    (s.arpPacket Arp.request (Vector.replicate 6 0) targetIp).serialize)

def sendArpReply (s : NetStack) (targetMac : Mac) (targetIp : Ip) : NetStack :=
  s.transmit (Ethernet.buildFrame targetMac s.mac Ethernet.arp
    (s.arpPacket Arp.reply targetMac targetIp).serialize)

def nextIpId (s : NetStack) : NetStack := { s with ipIdCounter := s.ipIdCounter + 1 }

/-- The frame that stands for a packet to this host. -/
def loopbackFrame (s : NetStack) (dstIp : Ip) (protocol : IpProtocol) (payload : List UInt8) :
    List UInt8 :=
  Ethernet.buildFrame (Vector.replicate 6 0) (Vector.replicate 6 0) Ethernet.ipv4
    (Ipv4.build (s.sourceIpFor dstIp) dstIp protocol 64 s.ipIdCounter payload)

/-- `send_ip_inner`. What `transmit` answers is dropped by every caller on the receive path. -/
def sendIpInner (now : ℕ) (s : NetStack) (dstIp : Ip) (protocol : IpProtocol)
    (payload : List UInt8) : NetStack :=
  if dstIp[0] = 127 ∨ dstIp = s.localIp then
    { s.nextIpId with
      loopbackQueue := s.loopbackQueue ++ [s.loopbackFrame dstIp protocol payload] }
  else
    let resolveIp := if s.isLocalSubnet dstIp then dstIp else s.gatewayIp
    let ipPkt := Ipv4.build s.localIp dstIp protocol 64 s.ipIdCounter payload
    let s := s.nextIpId
    match s.arpCache.lookup resolveIp with
    | some dstMac => s.transmit (Ethernet.buildFrame dstMac s.mac Ethernet.ipv4 ipPkt)
    | none =>
      { s with arpCache := s.arpCache.queuePendingTx now resolveIp ipPkt }.sendArpRequest resolveIp

/-! ## Receiving -/

def handleArp (now : ℕ) (data : List UInt8) (s : NetStack) : Checked NetStack := do
  match ← Arp.parse data with
  | none => pure s
  | some pkt =>
    let taken := (s.arpCache.insert pkt.spa pkt.sha).takePendingTx now pkt.spa
    let s := { s with arpCache := taken.2 }
    let s := match taken.1 with
      | some ipPkt => s.transmit (Ethernet.buildFrame pkt.sha s.mac Ethernet.ipv4 ipPkt)
      | none => s
    pure (if pkt.oper = Arp.request ∧ pkt.tpa = s.localIp then s.sendArpReply pkt.sha pkt.spa
      else s)

def handleUdp (hdr : Ipv4Header) (data : List UInt8) (s : NetStack) : Checked NetStack := do
  match ← Udp.parse data hdr.srcAddr hdr.dstAddr with
  | none => pure s
  | some (udp, payload) =>
    match s.portTable (17, udp.dstPort) with
    | none => pure s
    | some id =>
      let sock := s.sockets id
      if sock.closed ∨ 128 ≤ sock.rxQueue.length then pure s
      else
        let sock := { sock with rxQueue := sock.rxQueue ++ [(payload, ⟨hdr.srcAddr, udp.srcPort⟩)] }
        pure { s with sockets := update s.sockets id sock }

/-- A function that sends a packet on. -/
abbrev Sender := NetStack → Ip → IpProtocol → List UInt8 → Checked NetStack

/-- A connection that has become established: the socket queued for it is marked. -/
def markConnected (s : NetStack) (port : BitVec 16) (conn : ℕ) : NetStack :=
  match s.portTable (6, port) with
  | none => s
  | some id =>
    if (s.sockets id).listening then
      match (s.sockets id).acceptQueue.find? fun q ↦ (s.sockets q).tcpConn = some conn with
      | some q =>
        { s with
          sockets := update s.sockets q { s.sockets q with state := .connected } }
      | none => s
    else s

/-- A segment of a known connection: the arithmetic of its round-trip estimate is checked. -/
def handleKnown (send : Sender) (now : ℕ) (remoteIp : Ip) (tcp : TcpHeader)
    (payload raw : List UInt8) (id : ℕ) (s : NetStack) : Checked NetStack := do
  if (s.conns id).segmentOverflows now tcp then throw .panic
  else
    let r := (s.conns id).handleSegment now tcp payload raw
    let s ← r.1.foldlM (fun s seg ↦ send s remoteIp .tcp seg)
      { s with conns := update s.conns id r.2 }
    pure (if (s.conns id).state = .established then s.markConnected tcp.dstPort id else s)

/-- The listener of a port, once the half-open entries of this peer are dropped from its accept
queue, and whether it takes another connection. -/
def listener (s : NetStack) (hdr : Ipv4Header) (tcp : TcpHeader) : Option (ℕ × Bool) × NetStack :=
  match s.portTable (6, tcp.dstPort) with
  | none => (none, s)
  | some id =>
    let sock := s.sockets id
    let sock := { sock with acceptQueue := sock.acceptQueue.filter fun q ↦
      (s.sockets q).state = .connected ||
        (s.sockets q).remoteAddr ≠ some ⟨hdr.srcAddr, tcp.srcPort⟩ }
    (some (id, sock.listening && sock.acceptQueue.length < sock.backlog),
      { s with sockets := update s.sockets id sock })

/-- The connection that answers a `SYN`, and its `SYN-ACK`. -/
def passiveOpen (now : ℕ) (isn : Seq) (hdr : Ipv4Header) (tcp : TcpHeader)
    (mss : Option (BitVec 16)) : List UInt8 × TcpConnection :=
  let c := TcpConnection.new isn hdr.dstAddr tcp.dstPort hdr.srcAddr tcp.srcPort
  { c with
    irs := tcp.seqNum
    rcvNxt := tcp.seqNum + 1
    mss := mss.getD c.mss
    sndWnd := tcp.window }.buildSynAck now

/-- Enter a half-open connection into the tables, and a socket for it into the accept queue. -/
def enterHalfOpen (s : NetStack) (listener : ℕ) (hdr : Ipv4Header) (tcp : TcpHeader)
    (c : TcpConnection) : NetStack :=
  let localAddr : SocketAddr := ⟨hdr.dstAddr, tcp.dstPort⟩
  let remoteAddr : SocketAddr := ⟨hdr.srcAddr, tcp.srcPort⟩
  let sock := { Socket.newTcp with
    localAddr := some localAddr, remoteAddr := some remoteAddr, tcpConn := some s.nextConn }
  let sockets := update s.sockets s.nextSocket sock
  let queue := (sockets listener).acceptQueue ++ [s.nextSocket]
  { s with
    conns := update s.conns s.nextConn c
    nextConn := s.nextConn + 1
    tcpConnections := update s.tcpConnections (localAddr, remoteAddr) (some s.nextConn)
    sockets := update sockets listener { sockets listener with acceptQueue := queue }
    nextSocket := s.nextSocket + 1 }

/-- The reset that answers a segment of no connection, unless it is a reset itself. -/
def sendReset (send : Sender) (hdr : Ipv4Header) (tcp : TcpHeader) (s : NetStack) :
    Checked NetStack :=
  if tcp.has RST then pure s
  else send s hdr.srcAddr .tcp (build tcp.dstPort tcp.srcPort tcp.ackNum (tcp.seqNum + 1)
    (RST ||| ACK) 0 hdr.dstAddr hdr.srcAddr [] [])

def handleTcp (send : Sender) (now : ℕ) (isn : Seq) (hdr : Ipv4Header) (data : List UInt8)
    (s : NetStack) : Checked NetStack := do
  match ← Tcp.parse data hdr.srcAddr hdr.dstAddr with
  | none => pure s
  | some (tcp, payload) =>
    match s.tcpConnections (⟨hdr.dstAddr, tcp.dstPort⟩, ⟨hdr.srcAddr, tcp.srcPort⟩) with
    | some id => handleKnown send now hdr.srcAddr tcp payload data id s
    | none =>
      if tcp.has SYN ∧ ¬tcp.has ACK then
        let r := s.listener hdr tcp
        match r.1 with
        | some (id, true) => do
          let opened := passiveOpen now isn hdr tcp (← Tcp.parseMss data tcp.dataOffset)
          send (r.2.enterHalfOpen id hdr tcp opened.2) hdr.srcAddr .tcp opened.1
        | _ => sendReset send hdr tcp r.2
      else sendReset send hdr tcp s

def handleIcmp (send : Sender) (now : ℕ) (hdr : Ipv4Header) (data : List UInt8) (s : NetStack) :
    Checked NetStack := do
  match ← Icmp.parse data with
  | none => pure s
  | some (icmp, payload) =>
    if icmp.type = Icmp.echoRequest then do
      send s hdr.srcAddr .icmp (← Icmp.buildEchoReply icmp.id icmp.seq payload)
    else if icmp.type = Icmp.echoReply then
      match s.pingWaiters (icmp.id, icmp.seq) with
      | none => pure s
      | some waiter =>
        let waiter := { waiter with rttUs := some ((now - waiter.sentAt) / 1000) }
        pure { s with
          pingWaiters := update s.pingWaiters (icmp.id, icmp.seq) (some waiter) }
    else pure s

/-- The transport layer. -/
def dispatch (send : Sender) (now : ℕ) (isn : Seq) (hdr : Ipv4Header) (payload : List UInt8)
    (s : NetStack) : Checked NetStack :=
  if hdr.protocol = IpProtocol.icmp.toByte then handleIcmp send now hdr payload s
  else if hdr.protocol = IpProtocol.udp.toByte then handleUdp hdr payload s
  else if hdr.protocol = IpProtocol.tcp.toByte then handleTcp send now isn hdr payload s
  else pure s

def handleIpv4 (send : Sender) (now : ℕ) (isn : Seq) (data : List UInt8) (s : NetStack) :
    Checked NetStack := do
  match ← Ipv4.parse data with
  | none => pure s
  | some (hdr, payload) =>
    if hdr.dstAddr ≠ s.localIp ∧ hdr.dstAddr[0] ≠ 127 then pure s
    else do
      let r ← s.reassembly.process now hdr payload
      let s := { s with reassembly := r.2 }
      match r.1 with
      | none => pure s
      | some (hdr, payload) => dispatch send now isn hdr payload s

/-- A received frame, handled over a way to send. -/
def handleFrame (send : Sender) (now : ℕ) (isn : Seq) (data : List UInt8) (s : NetStack) :
    Checked NetStack := do
  match ← Ethernet.parseFrame data with
  | none => pure s
  | some (eth, payload) =>
    if eth.ethertype = Ethernet.arp then handleArp now payload s
    else if eth.ethertype = Ethernet.ipv4 then handleIpv4 send now isn payload s
    else pure s

/-- `loopback_queue.pop()`. -/
def popLoopback (s : NetStack) : Option (List UInt8 × NetStack) :=
  s.loopbackQueue.getLast?.map fun frame ↦
    (frame, { s with loopbackQueue := s.loopbackQueue.dropLast })

/-- `send_ip`, while the loopback queue is drained. -/
def sendQueued (now : ℕ) : Sender := fun s dst protocol payload ↦
  pure (sendIpInner now s dst protocol payload)

def drainLoopback (fuel now : ℕ) (isn : Seq) (s : NetStack) : Checked NetStack :=
  drain Trap.fuel popLoopback (handleFrame (sendQueued now) now isn) fuel s

/-- `send_ip`, at the outermost level. -/
def sendIp (fuel now : ℕ) (isn : Seq) : Sender := fun s dst protocol payload ↦
  drainLoopback fuel now isn (sendIpInner now s dst protocol payload)

/-- `handle_rx`, of a frame from the device; the loopback queue is drained for at most `fuel`
turns at a time. -/
def handleRx (fuel now : ℕ) (isn : Seq) (data : List UInt8) (s : NetStack) : Checked NetStack :=
  handleFrame (sendIp fuel now isn) now isn data s

end NetStack

end Edos.Net

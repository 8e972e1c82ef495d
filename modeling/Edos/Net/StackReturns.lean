import Edos.Net.Stack
import Edos.Net.TcpReceive

/-!
# Received frames are handled

`handle_rx` returns: no index is out of range, no sum overflows, and the loopback queue runs empty.

That the queue runs empty is a matter of what answers what. A segment is answered by segments
without data, and each of these ranks below the segment it answers: a `SYN` may be answered by a
`SYN-ACK`, data and a `SYN-ACK` by an acknowledgment, an acknowledgment by a reset, and a reset by
nothing. So a frame of rank `r` that this host sends to itself costs at most `2 ^ (r + 1) - 1`
turns, two answers to a segment being the most there can be.

The walk through the handlers is made once, over any way to send (`Sends`). It is used at both
levels: while the queue is drained, where an answer is queued, and at the outermost level, where
the queue is drained after each answer.
-/

namespace Edos.Net

open Function List Option

/-! ## Connections -/

namespace TcpConnection

/-- The round-trip estimate comes from differences of the 64-bit clock. -/
def Timed (c : TcpConnection) : Prop := c.rttvar < 2 ^ 64 ∧ ∀ srtt ∈ c.srtt, srtt < 2 ^ 64

variable {c : TcpConnection} {now : ℕ}

theorem Timed.congr {c' : TcpConnection} (h : c.Timed) (hvar : c'.rttvar = c.rttvar)
    (hsrtt : c'.srtt = c.srtt) : c'.Timed := by
  rw [Timed, hvar, hsrtt]
  exact h

theorem Timed.updateRto (h : c.Timed) {rtt : ℕ} (hrtt : rtt < 2 ^ 64) :
    c.rtoOverflows rtt = false ∧ (c.updateRto rtt).Timed := by
  obtain ⟨hvar, hsrtt⟩ := h
  have hmax : durationMax = 2 ^ 64 * 1000000000 - 1 := rfl
  rw [rtoOverflows, TcpConnection.updateRto, Timed]
  cases hs : c.srtt with
  | none =>
    simp only [any_none, Bool.false_or, getD_some, decide_eq_false_iff_not,
      mem_some_iff, forall_eq']
    omega
  | some srtt =>
    have hsrtt := hsrtt srtt hs
    simp only [any_some, getD_some, Bool.or_eq_false_iff, decide_eq_false_iff_not, mem_some_iff,
      forall_eq']
    omega

theorem Timed.processAck (h : c.Timed) (hnow : now < 2 ^ 64) (ack : Seq) (window : BitVec 16) :
    c.ackOverflows now ack = false ∧ (c.processAck now ack window).Timed := by
  have hsample : ∀ rtt, (c.samples now ack).max? = some rtt → rtt < 2 ^ 64 := by
    intro rtt hmax
    obtain ⟨seg, -, rfl⟩ := List.mem_map.mp (max?_mem hmax)
    omega
  refine ⟨?_, ?_⟩
  · rw [ackOverflows]
    cases hmax : (c.samples now ack).max? with
    | none => exact Bool.and_false _
    | some rtt =>
      rw [any_some, (h.updateRto (hsample rtt hmax)).1]
      exact Bool.and_false _
  · rw [TcpConnection.processAck]
    split_ifs
    · dsimp only
      have hsame : samples { c with sndUna := ack, sndWnd := window } now ack = c.samples now ack :=
        rfl
      rw [hsame]
      cases hmax : (c.samples now ack).max? with
      | none => exact h.congr rfl rfl
      | some rtt =>
        have hack : Timed { c with sndUna := ack, sndWnd := window } := h.congr rfl rfl
        exact (hack.updateRto (hsample rtt hmax)).2.congr rfl rfl
    · exact h

/-- An acknowledgment. -/
def IsAck (seg : List UInt8) : Prop := ∃ c : TcpConnection, seg = c.buildAck

theorem acceptData_answers (c : TcpConnection) (hdr : TcpHeader) (payload : List UInt8) :
    (c.acceptData hdr payload).2.1.length ≤ 1 ∧
      (∀ seg ∈ (c.acceptData hdr payload).2.1, IsAck seg) ∧
      ((c.acceptData hdr payload).2.1 ≠ [] → payload ≠ []) := by
  rw [acceptData]
  split_ifs with hempty hseq
  · exact ⟨Nat.zero_le _, fun seg hseg ↦ absurd hseg not_mem_nil, fun hne ↦ absurd rfl hne⟩
  · exact ⟨le_rfl, fun seg hseg ↦ ⟨_, mem_singleton.mp hseg⟩, fun _ ↦ hempty⟩
  · exact ⟨le_rfl, fun seg hseg ↦ ⟨_, mem_singleton.mp hseg⟩, fun _ ↦ hempty⟩

theorem acceptFin_answers (c : TcpConnection) (now : ℕ) (hdr : TcpHeader) :
    (c.acceptFin now hdr).1.length = 1 ∧ ∀ seg ∈ (c.acceptFin now hdr).1, IsAck seg := by
  rw [acceptFin]
  cases c.state with
  | finWait1 =>
    split_ifs
    all_goals exact ⟨rfl, fun seg hseg ↦ ⟨_, mem_singleton.mp hseg⟩⟩
  | _ => exact ⟨rfl, fun seg hseg ↦ ⟨_, mem_singleton.mp hseg⟩⟩

/-- What a connection sends when it has handled a segment: at most two acknowledgments, and only if
the segment is no reset and has data, a `FIN` or a `SYN`. -/
structure Answered (hdr : TcpHeader) (payload : List UInt8)
    (r : List (List UInt8) × TcpConnection) : Prop where
  timed : r.2.Timed
  length : r.1.length ≤ 2
  isAck : ∀ seg ∈ r.1, IsAck seg
  cause : r.1 ≠ [] → hdr.has RST = false ∧ (payload ≠ [] ∨ hdr.has FIN = true ∨ hdr.has SYN = true)

theorem Answered.quiet {hdr : TcpHeader} {payload : List UInt8}
    (h : c.Timed) : Answered hdr payload ([], c) :=
  ⟨h, Nat.zero_le _, fun _ hseg ↦ absurd hseg not_mem_nil, fun hne ↦ absurd rfl hne⟩

theorem Timed.receive (h : c.Timed) (hnow : now < 2 ^ 64) {hdr : TcpHeader}
    (hrst : hdr.has RST = false) (payload : List UInt8) :
    Answered hdr payload (c.receive now hdr payload) := by
  have hacked : (c.acked now hdr).Timed := by
    rw [acked]
    split_ifs
    · exact (h.processAck hnow _ _).2
    · exact h
  have htimed : (c.receive now hdr payload).2.Timed := by
    refine (congrArg (fun p ↦ p.1 < 2 ^ 64 ∧ ∀ srtt ∈ p.2, srtt < 2 ^ 64) (c.receive_frame
      (fun c ↦ (c.rttvar, c.srtt)) (fun _ _ _ _ ↦ rfl) now hdr payload)).mpr ?_
    rw [acceptData]
    split_ifs <;> exact hacked
  obtain ⟨hlen, hack, hdata⟩ := (c.acked now hdr).acceptData_answers hdr payload
  obtain ⟨acks, hsplit, hlen', hack', hfin⟩ : ∃ acks, (c.receive now hdr payload).1
        = ((c.acked now hdr).acceptData hdr payload).2.1 ++ acks ∧ acks.length ≤ 1 ∧
      (∀ seg ∈ acks, IsAck seg) ∧ (acks ≠ [] → hdr.has FIN = true) := by
    refine ⟨((c.acked now hdr).afterFin now hdr payload).1, rfl, ?_⟩
    rw [afterFin]
    split_ifs with hfin
    · rw [Bool.and_eq_true] at hfin
      exact ⟨(acceptFin_answers ..).1.le, (acceptFin_answers ..).2, fun _ ↦ hfin.1⟩
    · exact ⟨Nat.zero_le _, fun _ hseg ↦ absurd hseg not_mem_nil, fun hne ↦ absurd rfl hne⟩
  refine ⟨htimed, ?_, fun seg hseg ↦ ?_, fun hne ↦ ⟨hrst, ?_⟩⟩
  · rw [hsplit, length_append]
    omega
  · rw [hsplit] at hseg
    exact (mem_append.mp hseg).elim (hack seg) (hack' seg)
  · by_cases hnil : ((c.acked now hdr).acceptData hdr payload).2.1 = []
    · refine .inr (.inl (hfin fun hacks ↦ hne ?_))
      rw [hsplit, hnil, hacks, nil_append]
    · exact .inl (hdata hnil)

/-- **`handle_segment`**: it does not panic, and what it sends. -/
theorem Timed.handleSegment (h : c.Timed) (hnow : now < 2 ^ 64) (hdr : TcpHeader)
    (payload raw : List UInt8) :
    c.segmentOverflows now hdr = false ∧
      Answered hdr payload (c.handleSegment now hdr payload raw) := by
  refine ⟨?_, ?_⟩
  · rw [segmentOverflows, (h.processAck hnow hdr.ackNum hdr.window).1]
    cases c.state <;> simp only [Bool.and_false]
  · rw [TcpConnection.handleSegment]
    cases c.state with
    | synSent =>
      dsimp only
      split_ifs with hrst
      · exact .quiet (h.congr rfl rfl)
      · rw [connect]
        split_ifs with hack
        · rw [Bool.and_eq_true, Bool.and_eq_true] at hack
          exact ⟨h.congr rfl rfl, (by decide : 1 ≤ 2), fun seg hseg ↦ ⟨_, mem_singleton.mp hseg⟩,
            fun _ ↦ ⟨Bool.not_eq_true _ ▸ hrst, .inr (.inr hack.1.1)⟩⟩
        · exact .quiet h
    | established | finWait1 | finWait2 =>
      dsimp only
      split_ifs with hrst
      · exact .quiet (h.congr rfl rfl)
      · exact h.receive hnow (Bool.not_eq_true _ ▸ hrst) payload
    | closeWait =>
      dsimp only
      split_ifs
      · exact .quiet (h.processAck hnow _ _).2
      · exact .quiet h
    | synReceived | closing | lastAck =>
      split_ifs <;> exact .quiet (h.congr rfl rfl)
    | closed | listen | timeWait => exact .quiet h

end TcpConnection

/-! ## What answers what -/

/-- The rank of a segment. -/
def segmentRank (flags : UInt8) (payload : List UInt8) : ℕ :=
  if flags &&& SYN ≠ 0 ∧ flags &&& ACK = 0 then 3
  else if flags &&& RST ≠ 0 then 0
  else if payload = [] ∧ flags &&& FIN = 0 ∧ flags &&& SYN = 0 then 1
  else 2

/-- An answer of the given rank: an echo reply that fits in a packet, or a segment without data. -/
inductive Answer : IpProtocol → List UInt8 → ℕ → Prop
  | echo {reply : List UInt8} (hlen : reply.length ≤ 65515)
      (htype : reply.getD 0 0 = Icmp.echoReply) : Answer .icmp reply 0
  | segment {seg : List UInt8} (hlen : seg.length ≤ 24)
      (hempty : seg.drop ((seg.getD 12 0 >>> 4).toNat * 4) = []) :
      Answer .tcp seg (segmentRank (seg.getD 13 0) [])

theorem Answer.of_build (srcPort dstPort : BitVec 16) (seq ack : Seq) (flags : UInt8)
    (wnd : BitVec 16) (srcIp dstIp : Ip) {options : List UInt8}
    (hoptions : options.length = 0 ∨ options.length = 4) :
    Answer .tcp (build srcPort dstPort seq ack flags wnd srcIp dstIp options [])
      (segmentRank flags []) := by
  obtain ⟨hlen, hflags, hempty⟩ :=
    Tcp.build_empty srcPort dstPort seq ack flags wnd srcIp dstIp hoptions
  have hanswer := Answer.segment hlen hempty
  exact hanswer

/-- What the transport layer can be given: a datagram, its answers being of lesser rank. -/
structure Handled (r : ℕ) (protocol : UInt8) (data : List UInt8) : Prop where
  length : data.length ≤ 65535
  icmp : protocol = IpProtocol.icmp.toByte → data.getD 0 0 = Icmp.echoRequest →
    data.length ≤ 65515
  echo : protocol = IpProtocol.icmp.toByte → data.getD 0 0 = Icmp.echoRequest → 1 ≤ r
  segment : protocol = IpProtocol.tcp.toByte →
    segmentRank (data.getD 13 0) (data.drop ((data.getD 12 0 >>> 4).toNat * 4)) ≤ r

variable {protocol : IpProtocol} {seg : List UInt8}

theorem Answer.handled {r : ℕ} (h : Answer protocol seg r) : Handled r protocol.toByte seg := by
  cases h with
  | echo hlen htype =>
    refine ⟨by omega, fun _ _ ↦ hlen, fun _ hrequest ↦ ?_, fun hcontra ↦ absurd hcontra (by decide)⟩
    rw [htype] at hrequest
    exact absurd hrequest (by decide)
  | segment hlen hempty =>
    refine ⟨by omega, fun _ _ ↦ by omega, fun hcontra ↦ absurd hcontra (by decide), fun _ ↦ ?_⟩
    rw [hempty]

theorem Answer.length_le {r : ℕ} (h : Answer protocol seg r) : seg.length ≤ 65515 := by
  cases h with
  | echo hlen _ => exact hlen
  | segment hlen _ => omega

namespace NetStack

/-- The state between two frames, but for the loopback queue. -/
def Ready (s : NetStack) : Prop := s.reassembly.TableOk ∧ ∀ id, (s.conns id).Timed

/-! ## The handlers, over a way to send -/

/-- `send` can be used for two answers to something of rank `r`: `P n` is what holds when `n` more
may be sent. -/
structure Sends (send : Sender) (r : ℕ) (P : ℕ → NetStack → Prop) : Prop where
  ready : ∀ {n s}, P n s → s.Ready
  congr : ∀ {n s s'}, P n s → s'.Ready → s'.loopbackQueue = s.loopbackQueue → P n s'
  weaken : ∀ {n s}, P (n + 1) s → P n s
  send : ∀ {n s dst protocol seg r'}, P (n + 1) s → Answer protocol seg r' → r' < r →
    Returns (send s dst protocol seg) (P n)

variable {send : Sender} {r : ℕ} {P : ℕ → NetStack → Prop} {fuel n now : ℕ} {s : NetStack}
  {hdr : Ipv4Header} {data frame payload : List UInt8}

variable {s' : NetStack}

/-- `s'` has the fragments, the connections and the loopback queue of `s`. -/
def Kept (s s' : NetStack) : Prop :=
  s'.reassembly = s.reassembly ∧ s'.conns = s.conns ∧ s'.loopbackQueue = s.loopbackQueue

theorem Ready.kept (h : s.Ready) (hkept : s.Kept s') : s'.Ready := by
  rw [Ready, hkept.1, hkept.2.1]
  exact h

theorem kept_transmit (s : NetStack) (frame : List UInt8) : s.Kept (s.transmit frame) := by
  rw [transmit]
  split_ifs <;> exact ⟨rfl, rfl, rfl⟩

theorem kept_markConnected (s : NetStack) (port : BitVec 16) (conn : ℕ) :
    s.Kept (s.markConnected port conn) := by
  rw [markConnected]
  cases s.portTable (6, port) with
  | none => exact ⟨rfl, rfl, rfl⟩
  | some id =>
    dsimp only
    split_ifs
    · cases (s.sockets id).acceptQueue.find? fun q ↦ (s.sockets q).tcpConn = some conn <;>
        exact ⟨rfl, rfl, rfl⟩
    · exact ⟨rfl, rfl, rfl⟩

theorem kept_listener (s : NetStack) (hdr : Ipv4Header) (tcp : TcpHeader) :
    s.Kept (s.listener hdr tcp).2 := by
  rw [listener]
  cases s.portTable (6, tcp.dstPort) <;> exact ⟨rfl, rfl, rfl⟩

theorem Ready.update (h : s.Ready) (id : ℕ) {c : TcpConnection} (hc : c.Timed)
    (htable : s'.reassembly = s.reassembly) (hconns : s'.conns = update s.conns id c) :
    s'.Ready := by
  refine ⟨htable ▸ h.1, fun id' ↦ ?_⟩
  rw [hconns]
  by_cases heq : id' = id
  · rw [heq, update_self]
    exact hc
  · rw [update_of_ne heq]
    exact h.2 id'

/-- A segment that is answered by an acknowledgment outranks it. -/
theorem two_le_segmentRank {hdr : TcpHeader} (hrst : hdr.has RST = false)
    (hcause : payload ≠ [] ∨ hdr.has FIN = true ∨ hdr.has SYN = true) :
    2 ≤ segmentRank hdr.flags payload := by
  simp only [TcpHeader.has, bne_eq_false_iff_eq, bne_iff_ne] at hrst hcause
  rw [segmentRank]
  split_ifs with hsyn hreset hack
  · decide
  · exact absurd hrst hreset
  · exact absurd hcause (by simp [hack.1, hack.2.1, hack.2.2])
  · exact le_rfl

/-- A packet gets through `parse` and `process`, and what it gives the transport layer can be
handled. -/
def Delivers (r now : ℕ) (table : ReassemblyTable) (pkt : List UInt8) : Prop :=
  Returns (Ipv4.parse pkt) fun parsed ↦ ∀ hdr payload, parsed = some (hdr, payload) →
    Returns (table.process now hdr payload) fun handed ↦ handed.2.TableOk ∧
      ∀ hdr' payload', handed.1 = some (hdr', payload') → Handled r hdr'.protocol payload'

section

variable (h : Sends send r P)

include h

theorem Sends.weaken_le {m : ℕ} (hle : m ≤ n) (hs : P n s) : P m s := by
  induction hle with
  | refl => exact hs
  | step _ ih => exact ih (h.weaken hs)

theorem Sends.kept (hs : P n s) (hkept : s.Kept s') : P n s' :=
  h.congr hs ((h.ready hs).kept hkept) hkept.2.2

theorem Sends.transmit (hs : P n s) (frame : List UInt8) : P n (s.transmit frame) :=
  h.kept hs (s.kept_transmit frame)

theorem Sends.handleArp (hs : P n s) (now : ℕ)
    (data : List UInt8) : Returns (handleArp now data s) (P n) := by
  refine (Arp.parse_returns data).bind fun parsed _ ↦ ?_
  cases parsed with
  | none => exact .pure hs
  | some pkt =>
    refine .pure ?_
    have hcache : P n { s with
        arpCache := ((s.arpCache.insert pkt.spa pkt.sha).takePendingTx now pkt.spa).2 } :=
      h.kept hs ⟨rfl, rfl, rfl⟩
    cases ((s.arpCache.insert pkt.spa pkt.sha).takePendingTx now pkt.spa).1 with
    | none =>
      split_ifs
      · exact h.transmit hcache _
      · exact hcache
    | some ipPkt =>
      split_ifs
      · exact h.transmit (h.transmit hcache _) _
      · exact h.transmit hcache _

theorem Sends.handleUdp (hs : P n s) (hlen : data.length ≤ 65535) :
    Returns (handleUdp hdr data s) (P n) := by
  refine (Udp.parse_returns hdr.srcAddr hdr.dstAddr hlen).bind fun parsed _ ↦ ?_
  cases parsed with
  | none => exact .pure hs
  | some parsed =>
    dsimp only
    cases s.portTable (17, parsed.1.dstPort) with
    | none => exact .pure hs
    | some id => exact .ite (fun _ ↦ .pure hs) fun _ ↦ .pure (h.kept hs ⟨rfl, rfl, rfl⟩)

theorem Sends.handleIcmp (hs : P 1 s) (now : ℕ) (hmax : data.length ≤ 65535)
    (hlen : data.getD 0 0 = Icmp.echoRequest → data.length ≤ 65515)
    (hrank : data.getD 0 0 = Icmp.echoRequest → 1 ≤ r) :
    Returns (handleIcmp send now hdr data s) (P 0) := by
  refine (Icmp.parse_returns (by omega)).bind fun parsed hparsed ↦ ?_
  cases parsed with
  | none => exact .pure (h.weaken hs)
  | some parsed =>
    obtain ⟨htype, hpayload, hshort⟩ := hparsed parsed.1 parsed.2 rfl
    have hlength : parsed.2.length + 8 = data.length := by
      rw [hpayload, length_drop]
      omega
    refine .ite (fun hrequest ↦ ?_) fun _ ↦ .ite (fun _ ↦ ?_) fun _ ↦ .pure (h.weaken hs)
    · have hreach := hlen (htype.symm.trans hrequest)
      refine (Icmp.buildEchoReply_returns (by omega)).bind fun reply ⟨hreply, hzero⟩ ↦ ?_
      exact h.send hs (.echo (by omega) hzero) (hrank (htype.symm.trans hrequest))
    · cases s.pingWaiters (parsed.1.id, parsed.1.seq) with
      | none => exact .pure (h.weaken hs)
      | some waiter => exact .pure (h.kept (h.weaken hs) ⟨rfl, rfl, rfl⟩)

theorem Sends.sendAll {dst : Ip} : ∀ {segs : List (List UInt8)} {s : NetStack}, P segs.length s →
      (∀ seg ∈ segs, ∃ r', Answer .tcp seg r' ∧ r' < r) →
      Returns (segs.foldlM (fun s seg ↦ send s dst .tcp seg) s) (P 0) := by
  intro segs
  induction segs with
  | nil => exact fun hs _ ↦ .pure hs
  | cons seg rest ih =>
    intro s hs hsegs
    obtain ⟨r', hanswer, hlt⟩ := hsegs seg mem_cons_self
    exact (h.send hs hanswer hlt).bind fun s' hs' ↦
      ih hs' fun seg' hseg' ↦ hsegs seg' (mem_cons_of_mem _ hseg')

theorem Sends.handleKnown (hs : P 2 s) (hnow : now < 2 ^ 64) (remoteIp : Ip)
    {tcp : TcpHeader} {raw : List UInt8} {id : ℕ} (hrank : segmentRank tcp.flags payload ≤ r) :
    Returns (handleKnown send now remoteIp tcp payload raw id s) (P 0) := by
  obtain ⟨hfits, hanswered⟩ := ((h.ready hs).2 id).handleSegment hnow tcp payload raw
  rw [NetStack.handleKnown, hfits]
  have hupdated : P 2 { s with
      conns := update s.conns id ((s.conns id).handleSegment now tcp payload raw).2 } :=
    h.congr hs ((h.ready hs).update id hanswered.timed rfl rfl) rfl
  refine Returns.bind (h.sendAll (h.weaken_le hanswered.length hupdated) ?_) fun s' hs' ↦ .pure ?_
  · intro seg hseg
    obtain ⟨c, rfl⟩ := hanswered.isAck seg hseg
    obtain ⟨hrst, hcause⟩ := hanswered.cause (ne_nil_of_mem hseg)
    refine ⟨_, Answer.of_build _ _ _ _ _ _ _ _ (.inl rfl), ?_⟩
    exact lt_of_lt_of_le (lt_of_lt_of_le (by decide) (two_le_segmentRank hrst hcause)) hrank
  · split_ifs
    · exact h.kept hs' (s'.kept_markConnected tcp.dstPort id)
    · exact hs'

theorem Sends.sendReset (hs : P 1 s) (hdr : Ipv4Header) (tcp : TcpHeader)
    (hrank : tcp.has RST = false → 1 ≤ r) : Returns (sendReset send hdr tcp s) (P 0) := by
  refine .ite (fun _ ↦ .pure (h.weaken hs)) fun hrst ↦ ?_
  exact h.send hs (Answer.of_build _ _ _ _ _ _ _ _ (.inl rfl))
    (lt_of_lt_of_le (by decide) (hrank (Bool.not_eq_true _ ▸ hrst)))

theorem Sends.handleTcp (hs : P 2 s) (hnow : now < 2 ^ 64) (isn : Seq) (hlen : data.length ≤ 65535)
    (hrank : segmentRank (data.getD 13 0) (data.drop ((data.getD 12 0 >>> 4).toNat * 4)) ≤ r) :
    Returns (handleTcp send now isn hdr data s) (P 0) := by
  refine (Tcp.parse_returns hdr.srcAddr hdr.dstAddr hlen).bind fun parsed hparsed ↦ ?_
  cases parsed with
  | none => exact .pure (h.weaken_le (Nat.zero_le 2) hs)
  | some parsed =>
    obtain ⟨tcp, payload⟩ := parsed
    obtain ⟨hflags, hpayload⟩ := hparsed tcp payload rfl
    rw [← hflags, ← hpayload] at hrank
    dsimp only
    cases s.tcpConnections (⟨hdr.dstAddr, tcp.dstPort⟩, ⟨hdr.srcAddr, tcp.srcPort⟩) with
    | some id => exact h.handleKnown hs hnow _ hrank
    | none =>
      refine .ite (fun hsyn ↦ ?_) fun hother ↦ ?_
      · -- A `SYN` of no connection ranks above its `SYN-ACK` and above a reset.
        have hrank3 : 3 ≤ r := by
          refine le_trans (le_of_eq ?_) hrank
          rw [segmentRank, if_pos]
          simpa [TcpHeader.has] using hsyn
        have hlistener : P 2 (s.listener hdr tcp).2 := h.kept hs (s.kept_listener hdr tcp)
        generalize s.listener hdr tcp = found at hlistener ⊢
        obtain ⟨answer, s'⟩ := found
        have hreset := h.sendReset (h.weaken hlistener) hdr tcp fun _ ↦ by omega
        match answer with
        | some (id, true) =>
          rw [Tcp.parseMss_eq]
          have hopen : P 2 (s'.enterHalfOpen id hdr tcp
              (passiveOpen now isn hdr tcp (parseMss data tcp.dataOffset)).2) := by
            refine h.congr hlistener ((h.ready hlistener).update s'.nextConn
              (c := (passiveOpen now isn hdr tcp (parseMss data tcp.dataOffset)).2) ?_ rfl rfl) rfl
            exact ⟨show (0 : ℕ) < 2 ^ 64 by decide, fun _ hnone ↦ by cases hnone⟩
          have hanswer : Answer .tcp
              (passiveOpen now isn hdr tcp (parseMss data tcp.dataOffset)).1 2 :=
            Answer.of_build _ _ _ _ (SYN ||| ACK) _ _ _ (.inr rfl)
          exact (h.send hopen hanswer hrank3).mono fun _ hs' ↦ h.weaken hs'
        | some (id, false) => exact hreset
        | none => exact hreset
      · refine h.sendReset (h.weaken hs) hdr _ fun hrst ↦ le_trans ?_ hrank
        rw [segmentRank, if_neg (by simpa [TcpHeader.has] using hother),
          if_neg (by simpa [TcpHeader.has] using hrst)]
        split_ifs <;> decide

theorem Sends.dispatch (hs : P 2 s) (hnow : now < 2 ^ 64) (isn : Seq)
    (hhandled : Handled r hdr.protocol payload) :
    Returns (dispatch send now isn hdr payload s) (P 0) := by
  refine .ite (fun hicmp ↦ ?_) fun _ ↦ .ite (fun _ ↦ ?_) fun _ ↦ .ite (fun htcp ↦ ?_) fun _ ↦ ?_
  · exact h.handleIcmp (h.weaken hs) now hhandled.length (hhandled.icmp hicmp)
      (hhandled.echo hicmp)
  · exact h.handleUdp (h.weaken_le (Nat.zero_le 2) hs) hhandled.length
  · exact h.handleTcp hs hnow isn hhandled.length (hhandled.segment htcp)
  · exact .pure (h.weaken_le (Nat.zero_le 2) hs)

theorem Sends.handleIpv4 (hs : P 2 s) (hnow : now < 2 ^ 64) (isn : Seq)
    (hdata : Delivers r now s.reassembly data) :
    Returns (handleIpv4 send now isn data s) (P 0) := by
  refine hdata.bind fun parsed hparsed ↦ ?_
  cases parsed with
  | none => exact .pure (h.weaken_le (Nat.zero_le 2) hs)
  | some parsed =>
    refine .ite (fun _ ↦ .pure (h.weaken_le (Nat.zero_le 2) hs)) fun _ ↦ ?_
    refine (hparsed parsed.1 parsed.2 rfl).bind fun handed ⟨htable, hhanded⟩ ↦ ?_
    have hstored : P 2 { s with reassembly := handed.2 } :=
      h.congr hs ⟨htable, (h.ready hs).2⟩ rfl
    obtain ⟨datagram, table⟩ := handed
    cases datagram with
    | none => exact .pure (h.weaken_le (Nat.zero_le 2) hstored)
    | some datagram => exact h.dispatch hstored hnow isn (hhanded datagram.1 datagram.2 rfl)

theorem Sends.handleFrame (hs : P 2 s) (hnow : now < 2 ^ 64) (isn : Seq)
    (hframe : beNat (window frame 12 2) = Ethernet.ipv4 →
      Delivers r now s.reassembly (frame.drop Ethernet.headerLen)) :
    Returns (handleFrame send now isn frame s) (P 0) := by
  have hdone : P 0 s := h.weaken_le (Nat.zero_le 2) hs
  rw [NetStack.handleFrame]
  by_cases hshort : frame.length < Ethernet.headerLen
  · rw [Ethernet.parseFrame, if_pos hshort]
    exact .pure hdone
  · obtain ⟨eth, hparse, htype⟩ := Ethernet.parseFrame_eq frame (not_lt.mp hshort)
    rw [hparse]
    refine .ite (fun _ ↦ h.handleArp hdone now _) fun _ ↦ .ite (fun hip ↦ ?_) fun _ ↦ .pure hdone
    exact h.handleIpv4 hs hnow isn (hframe (htype.symm.trans hip))

end

/-! ## Frames -/

/-- A packet whose length is no less than that of its header and, if it is an echo request or an
ICMP fragment, leaves room for the header of the reply: `parse` makes neither of these checks. -/
def PacketFits (pkt : List UInt8) : Prop :=
  Ipv4.Accepted pkt →
    (Ipv4.headerOf pkt).headerLen ≤ (Ipv4.headerOf pkt).totalLength ∧
    ((Ipv4.headerOf pkt).protocol = IpProtocol.icmp.toByte →
      ((Ipv4.headerOf pkt).fragOffset = 0 ∧ (Ipv4.headerOf pkt).moreFragments = false →
        (window pkt (Ipv4.headerOf pkt).headerLen
          ((Ipv4.headerOf pkt).totalLength - (Ipv4.headerOf pkt).headerLen)).getD 0 0
            = Icmp.echoRequest) →
      (Ipv4.headerOf pkt).fragOffset +
        ((Ipv4.headerOf pkt).totalLength - (Ipv4.headerOf pkt).headerLen) ≤ 65515)

instance (pkt : List UInt8) : Decidable (PacketFits pkt) := inferInstanceAs (Decidable (_ → _))

/-- A frame whose packet fits, if it carries one. -/
def FrameFits (frame : List UInt8) : Prop :=
  beNat (window frame 12 2) = Ethernet.ipv4 → PacketFits (frame.drop Ethernet.headerLen)

instance (frame : List UInt8) : Decidable (FrameFits frame) := inferInstanceAs (Decidable (_ → _))

variable {table : ReassemblyTable}

theorem PacketFits.delivers {pkt : List UInt8} (h : PacketFits pkt) (htable : table.TableOk)
    (now : ℕ) : Delivers 3 now table pkt := by
  refine (Ipv4.parse_returns fun haccepted ↦ (h haccepted).1).mono fun parsed hparsed ↦ ?_
  intro hdr payload hsome
  obtain ⟨haccepted, rfl, hpayload⟩ := hparsed hdr payload hsome
  obtain ⟨hheader, hicmp⟩ := h haccepted
  have htotal : (Ipv4.headerOf pkt).totalLength < 65536 := by
    have hlt := leNat_lt (window pkt 2 2).reverse
    have htwo : (window pkt 2 2).reverse.length ≤ 2 := by
      rw [length_reverse, window]
      exact length_take_le _ _
    exact lt_of_lt_of_le hlt (Nat.pow_le_pow_right (by decide) htwo)
  have hlen : payload.length
      = (Ipv4.headerOf pkt).totalLength - (Ipv4.headerOf pkt).headerLen := by
    rw [hpayload]
    exact length_window (by have := haccepted.2.2.2.2; omega)
  refine (ReassemblyTable.process_returns htable now (Ipv4.headerOf pkt)
    (show payload.length ≤ 65535 by omega) ?_).mono ?_
  · intro hp hecho
    rw [hlen]
    exact hicmp hp fun hwhole ↦ hpayload ▸ hecho hwhole
  · rintro handed ⟨hok, hhanded⟩
    refine ⟨hok, fun hdr' payload' hsome' ↦ ?_⟩
    obtain ⟨hmax, hmaxIcmp⟩ := hhanded hdr' payload' hsome'
    refine ⟨hmax, hmaxIcmp, fun _ _ ↦ by decide, fun _ ↦ ?_⟩
    rw [segmentRank]
    split_ifs <;> decide

/-- A frame in the loopback queue: an answer of the given rank. -/
def LoopbackFrame (frame : List UInt8) (r : ℕ) : Prop :=
  ∃ s : NetStack, ∃ dst protocol seg, frame = s.loopbackFrame dst protocol seg ∧
    Answer protocol seg r

theorem LoopbackFrame.delivers {r : ℕ} (h : LoopbackFrame frame r) (htable : table.TableOk)
    (now : ℕ) : Delivers r now table (frame.drop Ethernet.headerLen) := by
  obtain ⟨s, dst, protocol, seg, rfl, hanswer⟩ := h
  refine (Ipv4.parse_build_returns _ _ protocol _ _ hanswer.length_le).mono ?_
  intro parsed hparsed hdr payload hsome
  obtain ⟨rfl, hprotocol, hflags⟩ := hparsed hdr payload hsome
  refine ⟨_, table.process_whole now hflags payload, htable, ?_⟩
  rintro hdr' payload' hsome'
  cases hsome'
  rw [hprotocol]
  exact hanswer.handled

/-! ## The loopback queue -/

/-- A loopback queue, and the turns it takes to drain it. -/
inductive Queued : List (List UInt8) → ℕ → Prop
  | nil : Queued [] 0
  | snoc {queue : List (List UInt8)} {n : ℕ} {frame : List UInt8} {r : ℕ} :
      Queued queue n → LoopbackFrame frame r → Queued (queue ++ [frame]) (n + (2 ^ (r + 1) - 1))

theorem Queued.pop {queue : List (List UInt8)} (h : Queued queue n)
    (hlast : queue.getLast? = some frame) :
    ∃ m r, Queued queue.dropLast m ∧ LoopbackFrame frame r ∧ m + (2 ^ (r + 1) - 1) = n := by
  cases h with
  | nil => cases hlast
  | snoc hrest hframe =>
    rw [getLast?_concat] at hlast
    cases hlast
    rw [dropLast_concat]
    exact ⟨_, _, hrest, hframe, rfl⟩

/-- `send_ip_inner`: the answer is queued, or leaves by the device. -/
theorem sendIpInner_queued (hs : s.Ready) (hqueue : Queued s.loopbackQueue n) (now : ℕ) (dst : Ip)
    {r : ℕ} (hanswer : Answer protocol seg r) :
    (sendIpInner now s dst protocol seg).Ready ∧
      ∃ m ≤ n + (2 ^ (r + 1) - 1), Queued (sendIpInner now s dst protocol seg).loopbackQueue m := by
  rw [sendIpInner]
  by_cases hloop : dst[0] = 127 ∨ dst = s.localIp
  · rw [if_pos hloop]
    exact ⟨hs, _, le_rfl, hqueue.snoc ⟨s, dst, protocol, seg, rfl, hanswer⟩⟩
  · rw [if_neg hloop]
    have hkept : ∀ s', s.Kept s' →
        s'.Ready ∧ ∃ m ≤ n + (2 ^ (r + 1) - 1), Queued s'.loopbackQueue m := fun s' h ↦
      ⟨hs.kept h, n, Nat.le_add_right _ _, h.2.2 ▸ hqueue⟩
    refine hkept _ ?_
    dsimp only
    split <;> exact kept_transmit _ _

/-- **While the queue is drained**, an answer of lesser rank is queued. -/
theorem sends_sendQueued (now r K : ℕ) :
    Sends (sendQueued now) r fun n s ↦
      s.Ready ∧ ∃ m, Queued s.loopbackQueue m ∧ m + n * (2 ^ r - 1) ≤ K where
  ready h := h.1
  congr h hready hqueue := ⟨hready, hqueue ▸ h.2⟩
  weaken := by
    rintro n s ⟨hready, m, hqueue, hle⟩
    rw [Nat.succ_mul] at hle
    exact ⟨hready, m, hqueue, by omega⟩
  send := by
    rintro n s dst protocol seg r' ⟨hready, m, hqueue, hle⟩ hanswer hlt
    obtain ⟨hready', m', hle', hqueue'⟩ := sendIpInner_queued hready hqueue now dst hanswer
    have hpow : 2 ^ (r' + 1) ≤ 2 ^ r := Nat.pow_le_pow_right (by decide) hlt
    rw [Nat.succ_mul] at hle
    exact .pure ⟨hready', m', hqueue', by omega⟩

/-- **The queue runs empty.** -/
theorem drainLoopback_returns (hs : s.Ready) (hqueue : Queued s.loopbackQueue n) (hfuel : n < fuel)
    (hnow : now < 2 ^ 64) (isn : Seq) :
    Returns (drainLoopback fuel now isn s) fun s' ↦ s'.Ready ∧ s'.loopbackQueue = [] := by
  refine (drain_returns (I := fun n s ↦ s.Ready ∧ Queued s.loopbackQueue n) ?_ ⟨hs, hqueue⟩
    hfuel).mono ?_
  · rintro n s frame s' ⟨hready, hqueue⟩ hpop
    obtain ⟨last, hlast, heq⟩ := map_eq_some_iff.mp hpop
    cases heq
    obtain ⟨m, r, hrest, hframe, rfl⟩ := hqueue.pop hlast
    have hpow : 0 < 2 ^ r := Nat.two_pow_pos r
    refine ((sends_sendQueued now r (m + 2 * (2 ^ r - 1))).handleFrame
      (s := { s with loopbackQueue := s.loopbackQueue.dropLast }) ⟨hready, m, hrest, le_rfl⟩
      hnow isn fun _ ↦ hframe.delivers hready.1 now).mono ?_
    rintro t ⟨htready, m', htqueue, hle⟩
    refine ⟨m', ?_, htready, htqueue⟩
    omega
  · rintro t ⟨⟨_, hready, -⟩, hnone⟩
    refine ⟨hready, ?_⟩
    exact getLast?_eq_none_iff.mp (map_eq_none_iff.mp hnone)

/-- **At the outermost level**, the queue is drained after each answer. -/
theorem sends_sendIp (hfuel : 8 ≤ fuel) (hnow : now < 2 ^ 64) (isn : Seq) :
    Sends (sendIp fuel now isn) 3 fun _ s ↦ s.Ready ∧ s.loopbackQueue = [] where
  ready h := h.1
  congr h hready hqueue := ⟨hready, hqueue.trans h.2⟩
  weaken h := h
  send := by
    rintro n s dst protocol seg r' ⟨hready, hempty⟩ hanswer hlt
    have hqueue : Queued s.loopbackQueue 0 := hempty ▸ .nil
    obtain ⟨hready', m, hle, hqueue'⟩ := sendIpInner_queued hready hqueue now dst hanswer
    have hpow : 2 ^ (r' + 1) ≤ 2 ^ 3 := Nat.pow_le_pow_right (by decide) hlt
    exact drainLoopback_returns hready' hqueue' (by omega) hnow isn

/-! ## Runs -/

/-- A frame from the device, or whatever else happens to the stack between two frames. -/
inductive StackEvent
  | frame (now : ℕ) (isn : Seq) (data : List UInt8)
  | other (s : NetStack)

/-- One event. -/
def stackStep (fuel : ℕ) (s : NetStack) : StackEvent → Option NetStack
  | .frame now isn data => (handleRx fuel now isn data s).toOption
  | .other s' => some s'

/-- The frames fit; what happens between them leaves the reassembly table alone and the loopback
queue empty, as the rest of the kernel does, to which they are private. -/
def EventFits (s : NetStack) : StackEvent → Prop
  | .frame now _ data => now < 2 ^ 64 ∧ FrameFits data
  | .other s' => s'.reassembly = s.reassembly ∧ s'.loopbackQueue = [] ∧ ∀ id, (s'.conns id).Timed

/-- A stack that has received nothing yet. -/
def Fresh (s : NetStack) : Prop :=
  s.reassembly = [] ∧ s.loopbackQueue = [] ∧ ∀ id, (s.conns id).Timed

theorem handleRx_returns (hs : s.Ready ∧ s.loopbackQueue = []) (hfuel : 8 ≤ fuel)
    (hnow : now < 2 ^ 64) (isn : Seq) (hfits : FrameFits data) :
    Returns (handleRx fuel now isn data s) fun s' ↦ s'.Ready ∧ s'.loopbackQueue = [] :=
  (sends_sendIp hfuel hnow isn).handleFrame hs hnow isn fun hip ↦
    (hfits hip).delivers hs.1.1 now

/-- **No frame that fits can crash the stack**: after any run of such frames, `handle_rx` returns,
and eight turns at a time are enough to drain the loopback queue. -/
theorem received_frame_handled {fuel : ℕ} (hfuel : 8 ≤ fuel) {s₀ s : NetStack} (hfresh : s₀.Fresh)
    (hrun : Reaches (stackStep fuel) EventFits s₀ s) {now : ℕ} (hnow : now < 2 ^ 64) (isn : Seq)
    {data : List UInt8} (hfits : FrameFits data) : ∃ s', handleRx fuel now isn data s = .ok s' := by
  have hinv : s.Ready ∧ s.loopbackQueue = [] := by
    refine hrun.invariant (I := fun s ↦ s.Ready ∧ s.loopbackQueue = []) ?_ ?_
    · obtain ⟨htable, hqueue, htimed⟩ := hfresh
      refine ⟨⟨?_, htimed⟩, hqueue⟩
      rw [htable]
      exact fun e he ↦ absurd he not_mem_nil
    · rintro s a s' hs hC hstep
      cases a with
      | frame now isn data =>
        obtain ⟨s'', hok, hs''⟩ := handleRx_returns hs hfuel hC.1 isn hC.2
        rw [stackStep, hok] at hstep
        obtain rfl := some.inj hstep
        exact hs''
      | other s'' =>
        obtain rfl := some.inj hstep
        exact ⟨⟨hC.1 ▸ hs.1.1, hC.2.2⟩, hC.2.1⟩
  obtain ⟨s', hok, -⟩ := handleRx_returns hinv hfuel hnow isn hfits
  exact ⟨s', hok⟩

/-- A stack at the default address, with no sockets and no connections. -/
def idle : NetStack where
  mac := #v[0x52, 0x54, 0, 0x12, 0x34, 0x56]
  localIp := hostIp
  subnetMask := #v[255, 255, 255, 0]
  gatewayIp := peerIp
  arpCache := ⟨[], []⟩
  pingWaiters := fun _ ↦ none
  tcpConnections := fun _ ↦ none
  ipIdCounter := 0
  reassembly := []
  loopbackQueue := []
  conns := fun _ ↦ .new 0 #v[0, 0, 0, 0] 0 #v[0, 0, 0, 0] 0
  nextConn := 0
  sockets := fun _ ↦ .newTcp
  nextSocket := 0
  portTable := fun _ ↦ none
  wire := []

theorem idle_fresh : idle.Fresh :=
  ⟨rfl, rfl, fun _ ↦ ⟨show (0 : ℕ) < 2 ^ 64 by decide, fun _ hnone ↦ by cases hnone⟩⟩

/-- An echo request that this host seems to have sent itself. -/
def echoFrame : List UInt8 :=
  [0, 0, 0, 0, 0, 0, 0, 0, 0, 0, 0, 0, 0x08, 0x00,
    0x45, 0, 0, 28, 0, 0, 0, 0, 64, 1, 0x62, 0xc4, 10, 0, 2, 15, 10, 0, 2, 15,
    8, 0, 0xf7, 0xff, 0, 0, 0, 0]

theorem received_frame_handled_echo :
    Ipv4.Accepted (echoFrame.drop Ethernet.headerLen) ∧
      ∃ s', handleRx 8 0 0 echoFrame idle = .ok s' :=
  ⟨by decide, received_frame_handled le_rfl idle_fresh .refl (by decide) 0 (by decide)⟩

/-- An IPv4 header of 20 bytes, with the right checksum, that gives the length of the packet as
zero. -/
def zeroLengthFrame : List UInt8 :=
  [0, 0, 0, 0, 0, 0, 0, 0, 0, 0, 0, 0, 0x08, 0x00,
    0x45, 0, 0, 0, 0, 0, 0, 0, 64, 1, 0x62, 0xed, 10, 0, 2, 2, 10, 0, 2, 15]

/-- **The frame crashes the stack**: the slice of the payload ends before it starts. -/
theorem zero_length_packet_panics :
    idle.Fresh ∧ ∀ fuel, handleRx fuel 0 0 zeroLengthFrame idle = .error .panic :=
  ⟨idle_fresh, fun _ ↦ rfl⟩

end NetStack

end Edos.Net

import Edos.Net.TcpReceive

/-!
# The stream a peer sends

A conforming peer sends the bytes of one stream from its initial sequence number plus one on, in
segments cut in any way and sent again in any other, and a `FIN` in the place after the last byte.
The network loses, duplicates and reorders them: a step may deliver any segment the peer can send.
`StreamReceiver` is the connection with what has been appended to its receive buffer and whether a
`FIN` has been taken.
-/

namespace Edos.Net

open List Option

/-- A connection, the bytes appended to its receive buffer since it was opened, and whether it has
taken a `FIN`. -/
structure StreamReceiver where
  conn : TcpConnection
  appended : List UInt8
  finAccepted : Bool

/-- A segment of the peer arrives, or the local side does something. -/
inductive ReceiverStep
  /-- The segment's data is in the stream at `off`. -/
  | segment (now : ℕ) (hdr : TcpHeader) (payload raw : List UInt8) (off : ℕ)
  | read (n : ℕ)
  | sendData (now : ℕ) (data : List UInt8)
  | sendFin (now : ℕ)
  | retransmit (now : ℕ)

/-- A segment that a peer with this initial sequence number and stream sends: an acknowledgment, or
the part of the stream at `off`, with a `FIN` only at the end. -/
def Conforming (irs : Seq) (stream : List UInt8) (hdr : TcpHeader) (payload : List UInt8)
    (off : ℕ) : Prop :=
  payload = [] ∧ hdr.has FIN = false ∨
    hdr.seqNum = irs + 1 + BitVec.ofNat 32 off ∧ payload = window stream off payload.length ∧
      off + payload.length ≤ stream.length ∧
      (hdr.has FIN = true → off + payload.length = stream.length)

instance (irs : Seq) (stream : List UInt8) (hdr : TcpHeader) (payload : List UInt8) (off : ℕ) :
    Decidable (Conforming irs stream hdr payload off) :=
  inferInstanceAs (Decidable (_ ∨ _))

namespace StreamReceiver

/-- Nothing has been received. -/
def start (c : TcpConnection) : StreamReceiver := ⟨c, [], false⟩

/-- The connection has handled a segment. -/
def handled (s : StreamReceiver) (c : TcpConnection) : StreamReceiver where
  conn := c
  appended := s.appended ++ c.rxBuffer.drop s.conn.rxBuffer.length
  finAccepted := s.finAccepted || s.conn.state.reading && c.state.finished

section Peer

variable (irs : Seq) (stream : List UInt8)

/-- One step; the peer sends conforming segments only. -/
def step (s : StreamReceiver) : ReceiverStep → Option StreamReceiver
  | .segment now hdr payload raw off =>
    if Conforming irs stream hdr payload off then
      some (s.handled (s.conn.handleSegment now hdr payload raw).2)
    else none
  | .read n => some { s with conn := { s.conn with rxBuffer := s.conn.rxBuffer.drop n } }
  | .sendData now data => some { s with conn := (s.conn.buildDataSegments now data).2.2 }
  | .sendFin now => some { s with conn := (s.conn.buildFin now).2 }
  | .retransmit now => some { s with conn := (s.conn.checkRetransmit now).2 }

/-- A `FIN` without data arrives only in its turn, while more can be received, and no segment is as
old as 2³² bytes or as far ahead. -/
def InTurn (s : StreamReceiver) : ReceiverStep → Prop
  | .segment _ hdr payload _ off =>
    (s.conn.state.reading = true → payload = [] → hdr.has FIN = true →
        hdr.seqNum = s.conn.rcvNxt) ∧
      (payload ≠ [] ∨ hdr.has FIN = true →
        off < s.appended.length + 2 ^ 32 ∧ s.appended.length < off + 2 ^ 32)
  | _ => True

/-- What has been received of the stream. -/
structure Received (s : StreamReceiver) : Prop where
  appended : s.appended <+: stream
  rcvNxt : s.conn.rcvNxt
    = irs + 1 + BitVec.ofNat 32 s.appended.length + if s.finAccepted then 1 else 0
  finAccepted : s.finAccepted = true → s.appended = stream
  reading : s.conn.state.reading = true → s.finAccepted = false
  finished : s.conn.state.finished = true → s.finAccepted = true
  connected : s.conn.state.opening = false

variable {irs stream} {s : StreamReceiver} {c : TcpConnection}

theorem Received.off_eq (h : s.Received irs stream) {hdr : TcpHeader} {off : ℕ}
    (hopen : s.finAccepted = false) (hseq : hdr.seqNum = irs + 1 + BitVec.ofNat 32 off)
    (hnext : hdr.seqNum = s.conn.rcvNxt)
    (hnear : off < s.appended.length + 2 ^ 32 ∧ s.appended.length < off + 2 ^ 32) :
    off = s.appended.length := by
  have heq := hseq.symm.trans (hnext.trans h.rcvNxt)
  rw [hopen, if_neg Bool.false_ne_true, add_zero] at heq
  have hmod := congrArg BitVec.toNat (add_left_cancel heq)
  rw [BitVec.toNat_ofNat, BitVec.toNat_ofNat] at hmod
  omega

theorem Received.same (h : s.Received irs stream) (hnxt : c.rcvNxt = s.conn.rcvNxt)
    (hreading : c.state.reading = true → s.conn.state.reading = true)
    (hfinished : c.state.finished = true → s.conn.state.finished = true)
    (hconn : c.state.opening = false) : Received irs stream { s with conn := c } :=
  ⟨h.appended, hnxt.trans h.rcvNxt, h.finAccepted, fun hr ↦ h.reading (hreading hr),
    fun hf ↦ h.finished (hfinished hf), hconn⟩

/-- A connection that is closed has nothing more to say. -/
theorem Received.shut (h : s.Received irs stream) (hnxt : c.rcvNxt = s.conn.rcvNxt)
    (hclosed : c.state = .closed) : Received irs stream { s with conn := c } := by
  refine h.same hnxt ?_ ?_ ?_ <;> rw [hclosed]
  · exact fun hr ↦ nomatch hr
  · exact fun hf ↦ nomatch hf
  · rfl

theorem handled_same (hbuf : c.rxBuffer = s.conn.rxBuffer)
    (hfin : s.conn.state.reading = true → c.state.finished = false) :
    s.handled c = { s with conn := c } := by
  have hdrop : c.rxBuffer.drop s.conn.rxBuffer.length = [] := by
    rw [hbuf, drop_length]
  have hand : (s.conn.state.reading && c.state.finished) = false := by
    cases hr : s.conn.state.reading with
    | false => rfl
    | true => exact hfin hr
  rw [handled, hdrop, hand, append_nil, Bool.or_false]

end Peer

end StreamReceiver

namespace TcpConnection

theorem handleSegment_of_not_reading {c : TcpConnection} (hreading : c.state.reading = false)
    (hconn : c.state.opening = false) (now : ℕ) (hdr : TcpHeader) (payload raw : List UInt8) :
    (c.handleSegment now hdr payload raw).2.rcvNxt = c.rcvNxt ∧
      (c.handleSegment now hdr payload raw).2.rxBuffer = c.rxBuffer ∧
      ((c.handleSegment now hdr payload raw).2.state = c.state ∨
        c.state = .closing ∧ (c.handleSegment now hdr payload raw).2.state = .timeWait ∨
        (c.handleSegment now hdr payload raw).2.state = .closed) := by
  rw [handleSegment]
  cases hstate : c.state with
  | synSent | synReceived =>
    rw [hstate] at hconn
    cases hconn
  | established | finWait1 | finWait2 =>
    rw [hstate] at hreading
    cases hreading
  | closed | listen | timeWait => exact ⟨rfl, rfl, .inl hstate⟩
  | closeWait =>
    obtain ⟨hsame, hnxt, hbuf, -⟩ := c.acked_receive now hdr
    exact ⟨hnxt, hbuf, .inl (hsame.trans hstate)⟩
  | closing =>
    dsimp only
    split_ifs
    · exact ⟨rfl, rfl, .inr (.inl ⟨rfl, rfl⟩)⟩
    · exact ⟨rfl, rfl, .inl hstate⟩
  | lastAck =>
    dsimp only
    split_ifs
    · exact ⟨rfl, rfl, .inr (.inr rfl)⟩
    · exact ⟨rfl, rfl, .inl hstate⟩

theorem handleSegment_of_reading {c : TcpConnection} (hreading : c.state.reading = true) (now : ℕ)
    (hdr : TcpHeader) (payload raw : List UInt8) :
    c.handleSegment now hdr payload raw
      = if hdr.has RST then ([], { c with state := .closed }) else c.receive now hdr payload := by
  rw [handleSegment]
  cases hstate : c.state <;> rw [hstate] at hreading <;> first | rfl | cases hreading

theorem buildDataSegments_receive (c : TcpConnection) (now : ℕ) (data : List UInt8) :
    c.SameReceive (c.buildDataSegments now data).2.2 := by
  fun_induction buildDataSegments c now data with
  | case1 c data n hnone => exact ⟨rfl, rfl, rfl⟩
  | case2 c data n hsome first rest ih =>
    obtain ⟨hstate, hnxt, hbuf⟩ := ih
    exact ⟨hstate, hnxt, hbuf⟩

end TcpConnection

namespace StreamReceiver

variable {irs : Seq} {stream : List UInt8}

theorem append_window {a : List UInt8} (h : a <+: stream) (n : ℕ) :
    a ++ window stream a.length n = stream.take (a.length + n) := by
  rw [take_add, ← prefix_iff_eq_take.mp h]
  rfl

variable {s : StreamReceiver} {now off : ℕ} {hdr : TcpHeader} {payload raw : List UInt8}

theorem Received.append_taken (h : s.Received irs stream) (hopen : s.finAccepted = false)
    (hpeer : Conforming irs stream hdr payload off)
    (hturn : s.InTurn (.segment now hdr payload raw off)) :
    s.appended ++ s.conn.taken hdr payload <+: stream := by
  rw [TcpConnection.taken]
  split_ifs with hnext
  · by_cases hnone : payload = []
    · rw [hnone, append_nil]
      exact h.appended
    · obtain ⟨hcontra, -⟩ | ⟨hseq, hdata, -, -⟩ := hpeer
      · exact absurd hcontra hnone
      · have hoff := h.off_eq hopen hseq hnext (hturn.2 (.inl hnone))
        rw [hdata, hoff, append_window h.appended]
        exact take_prefix _ _
  · rw [append_nil]
    exact h.appended

theorem Received.complete (h : s.Received irs stream) (hopen : s.finAccepted = false)
    (hreading : s.conn.state.reading = true) (hpeer : Conforming irs stream hdr payload off)
    (hturn : s.InTurn (.segment now hdr payload raw off))
    (htakes : s.conn.takesFin hdr payload = true) :
    s.appended ++ s.conn.taken hdr payload = stream := by
  rw [TcpConnection.takesFin, Bool.and_eq_true, Bool.or_eq_true, decide_eq_true_iff,
    decide_eq_true_iff] at htakes
  obtain ⟨hflag, hwhere⟩ := htakes
  have hnext : hdr.seqNum = s.conn.rcvNxt :=
    hwhere.elim (fun hnone ↦ hturn.1 hreading hnone hflag) id
  obtain ⟨-, hcontra⟩ | ⟨hseq, hdata, -, hend⟩ := hpeer
  · exact absurd (hcontra.symm.trans hflag) Bool.false_ne_true
  · have hoff := h.off_eq hopen hseq hnext (hturn.2 (.inr hflag))
    rw [TcpConnection.taken, if_pos hnext, hdata, hoff, append_window h.appended, ← hoff,
      hend hflag, take_length]

theorem Received.receive (h : s.Received irs stream) (hreading : s.conn.state.reading = true)
    (hpeer : Conforming irs stream hdr payload off)
    (hturn : s.InTurn (.segment now hdr payload raw off)) :
    (s.handled (s.conn.receive now hdr payload).2).Received irs stream := by
  obtain ⟨hbuf, hnxt, -⟩ := s.conn.receive_spec now hdr payload hreading
  obtain ⟨hfin, hread, hconn⟩ := s.conn.receive_state now hdr payload hreading
  have hopen := h.reading hreading
  have hadd : (s.handled (s.conn.receive now hdr payload).2).appended
      = s.appended ++ s.conn.taken hdr payload := by
    rw [handled, hbuf, drop_left]
  have haccepted : (s.handled (s.conn.receive now hdr payload).2).finAccepted
      = s.conn.takesFin hdr payload := by
    rw [handled, hopen, hreading, Bool.false_or, Bool.true_and, hfin]
  refine ⟨hadd ▸ h.append_taken hopen hpeer hturn, ?_, fun hacc ↦ ?_, fun hstill ↦ ?_,
    fun hdone ↦ haccepted.trans (hfin.symm.trans hdone), hconn⟩
  · have hbefore := h.rcvNxt
    rw [hopen, if_neg Bool.false_ne_true, add_zero] at hbefore
    rw [hadd, haccepted, length_append, BitVec.ofNat_add, ← add_assoc, ← hbefore]
    exact hnxt
  · rw [hadd]
    exact h.complete hopen hreading hpeer hturn (haccepted ▸ hacc)
  · rw [haccepted, ← Bool.not_eq_true', ← hread]
    exact hstill

theorem Received.segment (h : s.Received irs stream) (hpeer : Conforming irs stream hdr payload off)
    (hturn : s.InTurn (.segment now hdr payload raw off)) :
    (s.handled (s.conn.handleSegment now hdr payload raw).2).Received irs stream := by
  cases hreading : s.conn.state.reading with
  | true =>
    rw [TcpConnection.handleSegment_of_reading hreading]
    split_ifs with hrst
    · rw [handled_same (by exact rfl) fun _ ↦ by exact rfl]
      exact h.shut rfl rfl
    · exact h.receive hreading hpeer hturn
  | false =>
    obtain ⟨hnxt, hbuf, hstate⟩ :=
      TcpConnection.handleSegment_of_not_reading hreading h.connected now hdr payload raw
    rw [handled_same hbuf fun hr ↦ absurd (hreading.symm.trans hr) Bool.false_ne_true]
    rcases hstate with hsame | ⟨hclosing, htime⟩ | hclosed
    · exact h.same hnxt (fun hr ↦ hsame ▸ hr) (fun hf ↦ hsame ▸ hf) (hsame.symm ▸ h.connected)
    · refine h.same hnxt (fun hr ↦ ?_) (fun _ ↦ ?_) ?_
      · rw [htime] at hr
        cases hr
      · rw [hclosing]
        rfl
      · rw [htime]
        rfl
    · exact h.shut hnxt hclosed

theorem Received.step {s' : StreamReceiver} {a : ReceiverStep} (h : s.Received irs stream)
    (hturn : s.InTurn a) (hstep : s.step irs stream a = some s') : s'.Received irs stream := by
  cases a with
  | segment now hdr payload raw off =>
    rw [StreamReceiver.step] at hstep
    split_ifs at hstep with hpeer
    obtain rfl := some.inj hstep
    exact h.segment hpeer hturn
  | read n =>
    obtain rfl := some.inj hstep
    exact h.same rfl id id h.connected
  | sendData now data =>
    obtain rfl := some.inj hstep
    obtain ⟨hstate, hnxt, -⟩ := s.conn.buildDataSegments_receive now data
    exact h.same hnxt (fun hr ↦ hstate ▸ hr) (fun hf ↦ hstate ▸ hf) (hstate.symm ▸ h.connected)
  | sendFin now =>
    obtain rfl := some.inj hstep
    rw [TcpConnection.buildFin]
    cases hstate : s.conn.state with
    | established =>
      exact h.same rfl (fun _ ↦ by rw [hstate]; rfl) (fun hf ↦ by cases hf) rfl
    | closeWait => exact h.same rfl (fun hr ↦ by cases hr) (fun hf ↦ by cases hf) rfl
    | _ => exact h
  | retransmit now =>
    obtain rfl := some.inj hstep
    rw [TcpConnection.checkRetransmit]
    split_ifs
    · exact h.shut rfl rfl
    · exact h.same rfl id id h.connected

/-- **Stream integrity**, in any run in which a `FIN` without data arrives only in its turn and no
segment is as old as 2³² bytes or as far ahead: what has been appended is a prefix of the stream, a
`FIN` moves the connection on only when all of the stream has been appended, and `rcv_nxt` counts
both. -/
theorem stream_received {c : TcpConnection} (hreading : c.state.reading = true)
    (hnxt : c.rcvNxt = irs + 1) {s : StreamReceiver}
    (h : Reaches (step irs stream) InTurn (start c) s) :
    s.appended <+: stream ∧
      (s.conn.state.finished = true → s.finAccepted = true) ∧
      (s.finAccepted = true → s.appended = stream) ∧
      s.conn.rcvNxt
        = irs + 1 + BitVec.ofNat 32 s.appended.length + if s.finAccepted then 1 else 0 := by
  have hstart : (start c).Received irs stream := by
    obtain ⟨hfinished, hopening⟩ := TcpState.of_reading hreading
    have hempty : [] <+: stream := nil_prefix
    refine ⟨hempty, ?_, fun hf ↦ (by cases hf), fun _ ↦ rfl, fun hf ↦ ?_, hopening⟩
    · rw [start, hnxt]
      simp
    · exact absurd (hfinished.symm.trans hf) Bool.false_ne_true
  have hinv : s.Received irs stream := h.invariant hstart fun _ _ _ ↦ Received.step
  exact ⟨hinv.appended, hinv.finished, hinv.finAccepted, hinv.rcvNxt⟩

/-- A header of a peer that sends from sequence number 1000 on. -/
def peerHeader (seq : Seq) (flags : UInt8) : TcpHeader := ⟨4000, 80, seq, 0, 5, flags, 0⟩

/-- Two bytes in two segments, the second with the `FIN`. -/
theorem stream_received_two_bytes :
    ∃ s, run (step 999 [7, 8]) (start TcpConnection.atThousand)
        [.segment 0 (peerHeader 1000 ACK) [7] [] 0,
          .segment 0 (peerHeader 1001 (ACK ||| FIN)) [8] [] 1] = some s ∧
      s.finAccepted = true ∧ s.appended = [7, 8] := by
  refine ⟨_, rfl, rfl, ?_⟩
  have hfirst : Reaches (step 999 [7, 8]) InTurn (start TcpConnection.atThousand) _ :=
    Reaches.refl.tail (a := ReceiverStep.segment 0 (peerHeader 1000 ACK) [7] [] 0)
      ⟨by decide, by decide⟩ rfl
  have hlast := hfirst.tail
    (a := ReceiverStep.segment 0 (peerHeader 1001 (ACK ||| FIN)) [8] [] 1)
    ⟨by decide, by decide⟩ rfl
  exact (stream_received rfl rfl hlast).2.2.1 rfl

/-- The `FIN` overtakes the data: it is taken, and the stream ends before its first byte. -/
theorem fin_before_data_accepted :
    ∃ s, run (step 999 [7, 8]) (start TcpConnection.atThousand)
        [.segment 0 (peerHeader 1002 (ACK ||| FIN)) [] [] 2] = some s ∧
      s.conn.state = .closeWait ∧ s.conn.rcvNxt = 1001 ∧ s.appended = [] :=
  ⟨_, rfl, rfl, rfl, rfl⟩

end StreamReceiver

end Edos.Net

import Edos.Net.TcpSend
import Edos.Net.TcpStream

/-!
# Windows and old segments

What a segment does to the two windows of a connection, and which old segments are answered. In each
case the state machine does less than the protocol asks for, and the conditions below say when it
does enough:

* the peer's window is read only from an acknowledgment of something new;
* data is appended to the receive buffer without a look at our own window;
* from `CloseWait` on, and to a `FIN` without data, no old segment is answered.
-/

namespace Edos.Net.TcpConnection

open List Option

variable {c c' : TcpConnection} {now : ℕ} {hdr : TcpHeader} {payload raw : List UInt8}

/-! ## The peer's window -/

/-- An acknowledgment of something new, and of nothing that has not been sent. -/
def AcksNew (c : TcpConnection) (hdr : TcpHeader) : Prop :=
  hdr.has ACK = true ∧ serialGt hdr.ackNum c.sndUna = true ∧ serialLe hdr.ackNum c.sndNxt = true

instance (c : TcpConnection) (hdr : TcpHeader) : Decidable (c.AcksNew hdr) :=
  inferInstanceAs (Decidable (_ ∧ _))

theorem acked_sndWnd (c : TcpConnection) (now : ℕ) (hdr : TcpHeader) :
    (c.acked now hdr).sndWnd = if c.AcksNew hdr then hdr.window else c.sndWnd := by
  by_cases hack : hdr.has ACK = true
  · rw [acked, if_pos hack, processAck]
    by_cases hnew : c.AcksNew hdr
    · rw [if_pos hnew, if_pos (Bool.and_eq_true_iff.mpr hnew.2)]
      dsimp only
      cases (samples _ now hdr.ackNum).max? <;> rfl
    · rw [if_neg hnew, if_neg fun h ↦ hnew ⟨hack, Bool.and_eq_true_iff.mp h⟩]
  · rw [acked, if_neg hack, if_neg fun h ↦ hack h.1]

/-- A connection sends exactly when its window has room and its segments may carry something. -/
theorem consumed_pos_iff {data : List UInt8} (hdata : data ≠ []) :
    0 < (c.buildDataSegments now data).2.1 ↔
      c.mss ≠ 0 ∧ serialDist c.sndNxt c.sndUna < c.sndWnd.toNat := by
  have hlen := length_pos_of_ne_nil hdata
  have hmss : c.mss ≠ 0 ↔ 0 < c.mss.toNat := by
    rw [Nat.pos_iff_ne_zero, Ne, Ne, ← BitVec.toNat_inj]
    rfl
  have hsize : c.chunkSize data ≠ 0 ↔
      c.mss ≠ 0 ∧ serialDist c.sndNxt c.sndUna < c.sndWnd.toNat := by
    rw [hmss]
    unfold chunkSize
    dsimp only
    split_ifs <;> omega
  rw [← hsize, buildDataSegments]
  split_ifs with hnone
  · simp [hnone]
  · exact iff_of_true (Nat.add_pos_left (Nat.pos_of_ne_zero hnone) _) hnone

/-- **The window of a segment is honoured** exactly if the segment acknowledges something new, or
advertises what has been advertised before; a `RST` is not read for its window, except in
`CloseWait`, which does not know one. Data can then be sent exactly if the window leaves room. -/
theorem window_update_honoured
    (hstate : c.state = .established ∨ c.state = .finWait1 ∨ c.state = .finWait2 ∨
      c.state = .closeWait)
    (hhandle : (c.handleSegment now hdr payload raw).2 = c') :
    (c'.sndWnd = hdr.window ↔ hdr.window = c.sndWnd ∨
      c.AcksNew hdr ∧ (hdr.has RST = false ∨ c.state = .closeWait)) ∧
    ∀ later data, data ≠ [] → (0 < (c'.buildDataSegments later data).2.1 ↔
      c'.mss ≠ 0 ∧ serialDist c'.sndNxt c'.sndUna < c'.sndWnd.toNat) := by
  refine ⟨?_, fun later data hdata ↦ consumed_pos_iff hdata⟩
  have hreceive : (c.receive now hdr payload).2.sndWnd = (c.acked now hdr).sndWnd := by
    rw [receive_frame TcpConnection.sndWnd fun _ _ _ _ ↦ rfl, acceptData]
    split_ifs <;> rfl
  have hwnd : c'.sndWnd = if hdr.has RST = false ∨ c.state = .closeWait then
      (c.acked now hdr).sndWnd else c.sndWnd := by
    rw [← hhandle, handleSegment]
    rcases hstate with h | h | h | h <;> cases hrst : hdr.has RST <;> simp [h, hreceive, acked]
  rw [hwnd, acked_sndWnd]
  split_ifs with hread hnew
  · exact iff_of_true rfl (.inr ⟨hnew, hread⟩)
  · exact ⟨fun h ↦ .inl h.symm, fun h ↦ (h.resolve_right fun hnew' ↦ hnew hnew'.1).symm⟩
  · exact ⟨fun h ↦ .inl h.symm, fun h ↦ (h.resolve_right fun hnew' ↦ hread hnew'.2).symm⟩

/-- A connection with two bytes in flight: `build_data_segments` has sent them. -/
def twoInFlight : TcpConnection := (accepted.sendChunk 1 [7, 8]).2

theorem window_update_honoured_ack :
    twoInFlight.state = .established ∧
      (twoInFlight.handleSegment 2 ⟨4000, 80, 701, 3, 5, ACK, 50⟩ [] []).2.sndWnd = 50 :=
  ⟨rfl, (window_update_honoured (.inl rfl) rfl).1.mpr (.inr ⟨by decide, .inl (by decide)⟩)⟩

/-- **A window that has been closed stays closed**: the peer acknowledges all and closes its window,
then opens it again with nothing left to acknowledge. -/
theorem window_update_ignored :
    let closed := (twoInFlight.handleSegment 2 ⟨4000, 80, 701, 3, 5, ACK, 0⟩ [] []).2
    let opened := (closed.handleSegment 3 ⟨4000, 80, 701, 3, 5, ACK, 100⟩ [] []).2
    closed.sndUna = 3 ∧ closed.sndWnd = 0 ∧ opened.state = .established ∧ opened.sndWnd = 0 ∧
      ∀ later, (opened.buildDataSegments later [7]).2.1 = 0 := by
  refine ⟨rfl, rfl, rfl, rfl, fun later ↦ ?_⟩
  rw [buildDataSegments]
  rfl

/-! ## Our window -/

/-- A call on the connection, or a read, which drains the receive buffer. -/
inductive ReaderStep
  | call (a : SenderStep)
  | read (n : ℕ)

def readerStep (c : TcpConnection) : ReaderStep → Option TcpConnection
  | .call a => c.senderStep a
  | .read n => some { c with rxBuffer := c.rxBuffer.drop n }

/-- Data in its turn is within the window. `rcv_wnd` is the window last advertised: when it is
computed, an acknowledgment is sent. -/
def WithinWindow (c : TcpConnection) : ReaderStep → Prop
  | .call (.segment _ hdr payload _) =>
    c.state.reading = true → hdr.seqNum = c.rcvNxt → payload.length ≤ c.rcvWnd.toNat
  | _ => True

/-- The receive buffer and the window are unchanged, or the data of a segment has been taken. -/
def Buffered (c : TcpConnection) (hdr : TcpHeader) (payload : List UInt8) (c' : TcpConnection) :
    Prop :=
  c'.rxBuffer = c.rxBuffer ∧ c'.rcvWnd = c.rcvWnd ∨
    c.state.reading = true ∧ hdr.seqNum = c.rcvNxt ∧ c'.rxBuffer = c.rxBuffer ++ payload ∧
      c'.rcvWnd = BitVec.ofNat 16 (maxRxBuffer - c'.rxBuffer.length)

theorem buffered_handleSegment (c : TcpConnection) (now : ℕ) (hdr : TcpHeader)
    (payload raw : List UInt8) :
    c.Buffered hdr payload (c.handleSegment now hdr payload raw).2 := by
  have hbuf := (c.acked_receive now hdr).2.2.1
  have hwnd : (c.acked now hdr).rcvWnd = c.rcvWnd := by
    rw [acked_frame rcvWnd fun _ _ _ _ _ _ _ ↦ rfl]
  cases hreading : c.state.reading with
  | true =>
    rw [handleSegment_of_reading hreading]
    split_ifs
    · exact .inl ⟨rfl, rfl⟩
    rw [Buffered, receive_frame rxBuffer fun _ _ _ _ ↦ rfl, receive_frame rcvWnd fun _ _ _ _ ↦ rfl,
      acceptData, (c.acked_receive now hdr).2.1]
    split_ifs with hnone hnext
    · exact .inl ⟨hbuf, hwnd⟩
    · exact .inr ⟨hreading, hnext, congrArg (· ++ payload) hbuf, rfl⟩
    · exact .inl ⟨hbuf, hwnd⟩
  | false =>
    refine .inl ?_
    rw [handleSegment]
    cases hstate : c.state with
    | established | finWait1 | finWait2 =>
      rw [hstate] at hreading
      cases hreading
    | synReceived | closing | lastAck =>
      dsimp only
      split_ifs <;> exact ⟨rfl, rfl⟩
    | synSent =>
      dsimp only [connect]
      split_ifs <;> exact ⟨rfl, rfl⟩
    | closeWait => exact ⟨hbuf, hwnd⟩
    | closed | listen | timeWait => exact ⟨rfl, rfl⟩

def SenderStep.isSegment : SenderStep → Bool
  | .segment .. => true
  | _ => false

/-- A call that brings no segment leaves the receive side and what is acknowledged alone. -/
theorem senderStep_frame {a : SenderStep} (ha : a.isSegment = false)
    (hstep : c.senderStep a = some c') :
    c'.rxBuffer = c.rxBuffer ∧ c'.rcvWnd = c.rcvWnd ∧ c'.sndUna = c.sndUna := by
  cases a with
  | segment => cases ha
  | sendData now data =>
    rw [senderStep] at hstep
    split_ifs at hstep with hsends
    obtain rfl := some.inj hstep
    clear ha hsends hstep
    fun_induction buildDataSegments c now data with
    | case1 => exact ⟨rfl, rfl, rfl⟩
    | case2 c data n hsome first rest ih => exact ih
  | sendFin now =>
    obtain rfl := some.inj hstep
    rw [buildFin]
    cases c.state <;> exact ⟨rfl, rfl, rfl⟩
  | retransmit now =>
    obtain rfl := some.inj hstep
    rw [checkRetransmit]
    split_ifs <;> exact ⟨rfl, rfl, rfl⟩

/-- The window is no larger than what is left of the receive buffer. -/
def Roomy (c : TcpConnection) : Prop := c.rxBuffer.length + c.rcvWnd.toNat ≤ maxRxBuffer

theorem Roomy.step {a : ReaderStep} (h : c.Roomy) (hwithin : c.WithinWindow a)
    (hstep : c.readerStep a = some c') : c'.Roomy := by
  have hmax : maxRxBuffer = 65535 := rfl
  rw [Roomy] at h ⊢
  cases a with
  | read n =>
    obtain rfl := some.inj hstep
    rw [length_drop]
    dsimp only
    omega
  | call a =>
    cases a with
    | segment now hdr payload raw =>
      obtain rfl := some.inj hstep
      rcases c.buffered_handleSegment now hdr payload raw with ⟨hbuf, hwnd⟩ |
        ⟨hreading, hnext, hbuf, hwnd⟩
      · rw [hbuf, hwnd]
        exact h
      · have hfits := hwithin hreading hnext
        rw [hwnd, BitVec.toNat_ofNat, hbuf, length_append]
        omega
    | sendData | sendFin | retransmit =>
      rw [readerStep] at hstep
      obtain ⟨hbuf, hwnd, -⟩ := senderStep_frame rfl hstep
      rw [hbuf, hwnd]
      exact h

/-- **The receive buffer is bounded** while the peer keeps to the window: it never holds more than
`MAX_RX_BUFFER` bytes, and what a segment appends is within the window last advertised. -/
theorem receive_buffer_bounded {c₀ : TcpConnection} (hopened : Opened c₀)
    (h : Reaches readerStep WithinWindow c₀ c) :
    c.rxBuffer.length ≤ maxRxBuffer ∧ ∀ now hdr payload raw,
      c.WithinWindow (.call (.segment now hdr payload raw)) →
      ∃ bytes, (c.handleSegment now hdr payload raw).2.rxBuffer = c.rxBuffer ++ bytes ∧
        bytes.length ≤ c.rcvWnd.toNat := by
  have hroomy : c.Roomy := by
    refine h.invariant (I := Roomy) ?_ fun _ _ _ ↦ Roomy.step
    cases hopened <;> exact (by decide : 0 + 16384 ≤ 65535)
  refine ⟨(Nat.le_add_right _ _).trans hroomy, fun now hdr payload raw hwithin ↦ ?_⟩
  rcases c.buffered_handleSegment now hdr payload raw with ⟨hbuf, -⟩ | ⟨hreading, hnext, hbuf, -⟩
  · exact ⟨[], by rw [hbuf, append_nil], Nat.zero_le _⟩
  · exact ⟨payload, hbuf, hwithin hreading hnext⟩

/-- `accepted`, before its `SYN-ACK` has been acknowledged. -/
def synAckSent : TcpConnection :=
  ({ new 0 hostIp 80 peerIp 4000 with
    irs := 700, rcvNxt := 700 + 1, mss := 2, sndWnd := 100 }.buildSynAck 0).2

theorem opened_synAckSent : Opened synAckSent :=
  .passive 0 hostIp 80 peerIp 4000 700 2 100 0

/-- A byte in its turn is appended. -/
theorem receive_buffer_bounded_accepted :
    accepted.WithinWindow (.call (.segment 2 ⟨4000, 80, 701, 1, 5, ACK, 100⟩ [7] [])) ∧
      accepted.rxBuffer.length ≤ maxRxBuffer ∧
      (accepted.handleSegment 2 ⟨4000, 80, 701, 1, 5, ACK, 100⟩ [7] []).2.rxBuffer = [7] ∧
      ∃ bytes, (accepted.handleSegment 2 ⟨4000, 80, 701, 1, 5, ACK, 100⟩ [7] []).2.rxBuffer
          = accepted.rxBuffer ++ bytes ∧
        bytes.length ≤ accepted.rcvWnd.toNat := by
  have hreach : Reaches readerStep WithinWindow synAckSent accepted :=
    Reaches.refl.tail (a := .call (.segment 1 ⟨4000, 80, 701, 1, 5, ACK, 100⟩ [] []))
      (fun hreading ↦ by cases hreading) rfl
  have hwithin : accepted.WithinWindow
      (.call (.segment 2 ⟨4000, 80, 701, 1, 5, ACK, 100⟩ [7] [])) :=
    fun _ _ ↦ by decide
  obtain ⟨hbound, happend⟩ := receive_buffer_bounded opened_synAckSent hreach
  exact ⟨hwithin, hbound, by decide, happend _ _ _ _ hwithin⟩

/-- Data in its turn is taken, whatever the window. -/
theorem handleSegment_taken (hreading : c.state.reading = true) (hrst : hdr.has RST = false)
    (hfin : hdr.has FIN = false) (hnext : hdr.seqNum = c.rcvNxt) :
    (c.handleSegment now hdr payload raw).2.state.reading = true ∧
      (c.handleSegment now hdr payload raw).2.rxBuffer = c.rxBuffer ++ payload := by
  rw [handleSegment_of_reading hreading, hrst, if_neg Bool.false_ne_true,
    (c.receive_state now hdr payload hreading).2.1, (c.receive_spec now hdr payload hreading).1,
    taken, if_pos hnext, takesFin, hfin]
  exact ⟨rfl, rfl⟩

/-- **A peer that ignores the window** fills the buffer with two segments to more than
`MAX_RX_BUFFER` bytes; the first is already beyond the window. -/
theorem receive_buffer_overrun :
    let bytes := replicate 40000 (0 : UInt8)
    let first := (accepted.handleSegment 2 ⟨4000, 80, 701, 1, 5, ACK, 100⟩ bytes []).2
    let second := (first.handleSegment 3 ⟨4000, 80, first.rcvNxt, 1, 5, ACK, 100⟩ bytes []).2
    accepted.rcvWnd.toNat < first.rxBuffer.length ∧ maxRxBuffer < second.rxBuffer.length := by
  intro bytes first second
  have hmax : maxRxBuffer = 65535 := rfl
  have hwnd : accepted.rcvWnd.toNat = 16384 := rfl
  obtain ⟨hreading, hfirst⟩ : first.state.reading = true ∧ first.rxBuffer = [] ++ bytes :=
    handleSegment_taken rfl rfl rfl rfl
  obtain ⟨-, hsecond⟩ : _ ∧ second.rxBuffer = first.rxBuffer ++ bytes :=
    handleSegment_taken hreading (show (ACK &&& RST != 0) = false by decide)
      (show (ACK &&& FIN != 0) = false by decide) (by exact rfl)
  rw [hsecond, length_append, hfirst, nil_append, length_replicate]
  omega

/-! ## Segments that the peer sends again -/

/-- A segment with data or a `FIN` that lies before `rcv_nxt`. -/
def Before (c : TcpConnection) (hdr : TcpHeader) (payload : List UInt8) : Prop :=
  payload.length + (if hdr.has FIN then 1 else 0) ≤ serialDist c.rcvNxt hdr.seqNum ∧
    serialDist c.rcvNxt hdr.seqNum < 2 ^ 31 ∧ (payload ≠ [] ∨ hdr.has FIN = true)

/-- An `ACK` of what has been received. -/
def answer (c : TcpConnection) (seq : BitVec 32) (wnd : BitVec 16) : List UInt8 :=
  build c.localPort c.remotePort seq c.rcvNxt ACK wnd c.localIp c.remoteIp [] []

theorem window_build (srcPort dstPort : BitVec 16) (seq ack : Seq) (flags : UInt8)
    (wnd : BitVec 16) (srcIp dstIp : Ip) :
    window (build srcPort dstPort seq ack flags wnd srcIp dstIp [] []) 8 4 =
      beBytes 4 ack.toNat := by
  rw [build, window, patch]
  simp [take_append, drop_append, drop_eq_nil_of_le, take_of_length_le]

/-- A segment says what it acknowledges. -/
theorem ack_of_build_eq {srcPort dstPort : BitVec 16} {seq seq' ack ack' : Seq} {flags : UInt8}
    {wnd wnd' : BitVec 16} {srcIp dstIp : Ip}
    (h : build srcPort dstPort seq ack flags wnd srcIp dstIp [] [] =
      build srcPort dstPort seq' ack' flags wnd' srcIp dstIp [] []) : ack = ack' := by
  have hbytes := congrArg (fun seg ↦ beNat (window seg 8 4)) h
  simp only [window_build, beNat_beBytes] at hbytes
  refine BitVec.eq_of_toNat_eq ?_
  have := ack.isLt
  have := ack'.isLt
  omega

theorem acceptFin_ack (c : TcpConnection) (now : ℕ) (hdr : TcpHeader) :
    (c.acceptFin now hdr).1 = [{ c with rcvNxt := c.rcvNxt + 1 }.buildAck] := by
  rw [acceptFin]
  cases c.state with
  | finWait1 => dsimp only; split_ifs <;> rfl
  | _ => rfl

/-- A connection that is not open for reading answers nothing. -/
theorem handleSegment_silent (hsync : c.state.synchronized = true)
    (hreading : c.state.reading = false) : (c.handleSegment now hdr payload raw).1 = [] := by
  rw [handleSegment]
  cases hstate : c.state with
  | synSent =>
    rw [hstate] at hsync
    cases hsync
  | established | finWait1 | finWait2 =>
    rw [hstate] at hreading
    cases hreading
  | synReceived => dsimp only; split_ifs <;> rfl
  | closed | listen | closeWait | closing | lastAck | timeWait => rfl

/-- **A segment that is sent again is answered** by a segment with `ACK` and `rcv_nxt` exactly if
the connection is open for reading and the segment has data and no `RST`. -/
theorem retransmission_answered (hold : c.Before hdr payload)
    (hsync : c.state.synchronized = true) :
    (∃ seq wnd, c.answer seq wnd ∈ (c.handleSegment now hdr payload raw).1) ↔
      c.state.reading = true ∧ hdr.has RST = false ∧ payload ≠ [] := by
  -- the answers are built by the connection once the acknowledgment has been processed
  have hback : (c.acked now hdr).answer = c.answer := by
    rw [acked_frame answer fun _ _ _ _ _ _ _ ↦ rfl]
  constructor
  · rintro ⟨seq, wnd, hmem⟩
    cases hreading : c.state.reading with
    | false =>
      rw [handleSegment_silent hsync hreading] at hmem
      cases hmem
    | true =>
      rw [handleSegment_of_reading hreading] at hmem
      split_ifs at hmem with hrst
      · cases hmem
      refine ⟨rfl, (Bool.not_eq_true _).mp hrst, ?_⟩
      -- a `FIN` without data is taken, and the acknowledgment is one further
      rintro rfl
      have hfin : hdr.has FIN = true := hold.2.2.resolve_left fun h ↦ h rfl
      have hsent : (c.receive now hdr []).1 =
          [{ c.acked now hdr with rcvNxt := (c.acked now hdr).rcvNxt + 1 }.buildAck] := by
        rw [receive_eq, afterFin, hfin]
        exact acceptFin_ack _ now hdr
      rw [hsent, mem_singleton, ← hback] at hmem
      exact absurd (ack_of_build_eq hmem) (by simp)
  · rintro ⟨hreading, hrst, hdata⟩
    have hlen := length_pos_of_ne_nil hdata
    have hnext : hdr.seqNum ≠ (c.acked now hdr).rcvNxt := by
      rw [(c.acked_receive now hdr).2.1]
      intro heq
      have hdist := hold.1
      rw [heq, serialDist, BitVec.sub_self, BitVec.toNat_zero] at hdist
      omega
    refine ⟨(c.acked now hdr).sndNxt, (c.acked now hdr).rcvWnd, ?_⟩
    rw [← hback, handleSegment_of_reading hreading, hrst, if_neg Bool.false_ne_true]
    refine mem_append_left _ ?_
    show _ ∈ ((c.acked now hdr).acceptData hdr payload).2.1
    rw [acceptData, if_neg hdata, if_neg hnext]
    exact mem_singleton_self _

theorem retransmission_answered_stray :
    atThousand.Before (strayHeader ACK) [1] ∧
      ∃ seq wnd, build 80 4000 seq 1000 ACK wnd #v[10, 0, 2, 15] #v[10, 0, 2, 2] [] []
        ∈ (atThousand.handleSegment 0 (strayHeader ACK) [1] []).1 :=
  have hold : atThousand.Before (strayHeader ACK) [1] := ⟨by decide, by decide, by decide⟩
  ⟨hold, (retransmission_answered hold rfl).mpr ⟨rfl, rfl, by decide⟩⟩

/-- **Old segments without an answer**: data in `CloseWait`, a `FIN` in `TimeWait`. -/
theorem retransmission_ignored :
    let waiting : TcpConnection := { atThousand with state := .timeWait }
    let closing : TcpConnection := { atThousand with state := .closeWait }
    closing.Before (strayHeader ACK) [1] ∧
      (closing.handleSegment 0 (strayHeader ACK) [1] []).1 = [] ∧
      waiting.Before (strayHeader FIN) [] ∧
      (waiting.handleSegment 0 (strayHeader FIN) [] []).1 = [] :=
  ⟨⟨by decide, by decide, by decide⟩, rfl, ⟨by decide, by decide, by decide⟩, rfl⟩

end Edos.Net.TcpConnection

import Edos.Lib.Transition
import Edos.Net.Tcp

/-!
# The receive side of a connection

What `handle_segment` does to the state, to `rcv_nxt` and to the receive buffer. `receive_spec` says
it for a connection that is open for reading: data is taken when it starts at `rcv_nxt`, and a `FIN`
is taken when the data it comes with was, or when it comes without data, wherever it is.
-/

namespace Edos.Net

/-- The address of a host, for examples. -/
def hostIp : Ip := #v[10, 0, 2, 15]

/-- The address of its peer. -/
def peerIp : Ip := #v[10, 0, 2, 2]

namespace TcpState

/-- Open for reading. -/
def reading : TcpState → Bool
  | .established | .finWait1 | .finWait2 => true
  | _ => false

/-- The peer's `FIN` has been taken. -/
def finished : TcpState → Bool
  | .closeWait | .closing | .timeWait => true
  | _ => false

/-- In the handshake. -/
def opening : TcpState → Bool
  | .synSent | .synReceived => true
  | _ => false

/-- From `SynReceived` to `TimeWait`. -/
def synchronized : TcpState → Bool
  | .closed | .listen | .synSent => false
  | _ => true

variable {st : TcpState}

theorem of_reading (h : st.reading = true) : st.finished = false ∧ st.opening = false := by
  cases st <;> first | exact ⟨rfl, rfl⟩ | cases h

theorem of_finished (h : st.finished = true) : st.reading = false ∧ st.opening = false := by
  cases st <;> first | exact ⟨rfl, rfl⟩ | cases h

end TcpState

namespace TcpConnection

/-- The connection once the acknowledgment of a segment has been processed. -/
def acked (c : TcpConnection) (now : ℕ) (hdr : TcpHeader) : TcpConnection :=
  if hdr.has ACK then c.processAck now hdr.ackNum hdr.window else c

/-- The acknowledgment of a segment is the send side's business. -/
theorem acked_frame {α : Type*} (f : TcpConnection → α)
    (hf : ∀ (c : TcpConnection) una wnd queue srtt var rto, f { c with
      sndUna := una, sndWnd := wnd, retransmitQueue := queue
      srtt := srtt, rttvar := var, rto := rto } = f c) (c : TcpConnection) (now : ℕ)
    (hdr : TcpHeader) : f (c.acked now hdr) = f c := by
  rw [acked]
  split_ifs
  · rw [processAck]
    split_ifs
    · dsimp only
      cases (samples _ now hdr.ackNum).max? <;> exact hf c _ _ _ _ _ _
    · rfl
  · rfl

theorem acked_receive (c : TcpConnection) (now : ℕ) (hdr : TcpHeader) :
    (c.acked now hdr).state = c.state ∧ (c.acked now hdr).rcvNxt = c.rcvNxt ∧
      (c.acked now hdr).rxBuffer = c.rxBuffer ∧ (c.acked now hdr).finSeq = c.finSeq := by
  have hframe := c.acked_frame (fun c ↦ (c.state, c.rcvNxt, c.rxBuffer, c.finSeq))
    (fun _ _ _ _ _ _ _ ↦ rfl) now hdr
  simpa only [Prod.mk.injEq] using hframe

/-- How much of a segment's data is taken. -/
def taken (c : TcpConnection) (hdr : TcpHeader) (payload : List UInt8) : List UInt8 :=
  if hdr.seqNum = c.rcvNxt then payload else []

/-- Whether a segment's `FIN` is taken. -/
def takesFin (c : TcpConnection) (hdr : TcpHeader) (payload : List UInt8) : Bool :=
  hdr.has FIN && (payload = [] || hdr.seqNum = c.rcvNxt)

theorem acceptData_spec (c : TcpConnection) (hdr : TcpHeader) (payload : List UInt8) :
    (c.acceptData hdr payload).1 = (payload = [] || hdr.seqNum = c.rcvNxt : Bool) ∧
      (c.acceptData hdr payload).2.2.state = c.state ∧
      (c.acceptData hdr payload).2.2.rcvNxt
        = c.rcvNxt + BitVec.ofNat 32 (c.taken hdr payload).length ∧
      (c.acceptData hdr payload).2.2.rxBuffer = c.rxBuffer ++ c.taken hdr payload ∧
      (c.acceptData hdr payload).2.2.finSeq = c.finSeq := by
  rw [acceptData, taken]
  split_ifs with hnone hnext hnext
  · subst hnone
    simp
  · subst hnone
    simp
  · exact ⟨by simp [hnext], rfl, rfl, rfl, rfl⟩
  · exact ⟨by simp [hnone, hnext], rfl, by simp, (List.append_nil _).symm, rfl⟩

theorem acceptFin_spec (c : TcpConnection) (now : ℕ) (hdr : TcpHeader)
    (hreading : c.state.reading = true) :
    (c.acceptFin now hdr).2.state.finished = true ∧
      (c.acceptFin now hdr).2.rcvNxt = c.rcvNxt + 1 := by
  rw [acceptFin]
  cases hstate : c.state <;> rw [hstate] at hreading <;> try cases hreading
  · exact ⟨rfl, rfl⟩
  · split_ifs <;> exact ⟨rfl, rfl⟩
  · exact ⟨rfl, rfl⟩

/-- The piece of `receive` for the peer's `FIN`. -/
def afterFin (c : TcpConnection) (now : ℕ) (hdr : TcpHeader) (payload : List UInt8) :
    List (List UInt8) × TcpConnection :=
  if hdr.has FIN && (c.acceptData hdr payload).1 then
    (c.acceptData hdr payload).2.2.acceptFin now hdr
  else ([], (c.acceptData hdr payload).2.2)

/-- The last piece of `receive`: an acknowledgment of our own `FIN`. -/
def finWait2OnAck (c : TcpConnection) (hdr : TcpHeader) : TcpConnection :=
  if c.state = .finWait1 && hdr.has ACK && c.finAcked hdr.ackNum then { c with state := .finWait2 }
  else c

theorem receive_eq (c : TcpConnection) (now : ℕ) (hdr : TcpHeader) (payload : List UInt8) :
    c.receive now hdr payload = (((c.acked now hdr).acceptData hdr payload).2.1 ++
        ((c.acked now hdr).afterFin now hdr payload).1,
      ((c.acked now hdr).afterFin now hdr payload).2.finWait2OnAck hdr) := rfl

/-- What `receive` does after the data changes the state and `rcv_nxt`. -/
theorem receive_frame {α : Type*} (f : TcpConnection → α)
    (hf : ∀ (c : TcpConnection) st nxt til,
      f { c with state := st, rcvNxt := nxt, timeWaitUntil := til } = f c) (c : TcpConnection)
    (now : ℕ) (hdr : TcpHeader) (payload : List UInt8) :
    f (c.receive now hdr payload).2 = f ((c.acked now hdr).acceptData hdr payload).2.2 := by
  have hfin : ∀ c : TcpConnection, f (c.acceptFin now hdr).2 = f c := by
    intro c
    rw [acceptFin]
    cases c.state with
    | finWait1 => split_ifs <;> exact hf c _ _ _
    | _ => exact hf c _ _ _
  have hwait : ∀ c : TcpConnection, f (c.finWait2OnAck hdr) = f c := by
    intro c
    rw [finWait2OnAck]
    split_ifs
    · exact hf c _ _ _
    · rfl
  rw [receive_eq, hwait, afterFin]
  split_ifs
  · exact hfin _
  · rfl

theorem finWait2OnAck_spec (c : TcpConnection) (hdr : TcpHeader) :
    (c.finWait2OnAck hdr).rcvNxt = c.rcvNxt ∧ ((c.finWait2OnAck hdr).state = c.state ∨
      c.state = .finWait1 ∧ (c.finWait2OnAck hdr).state = .finWait2 ∧ hdr.has ACK = true ∧
        c.finAcked hdr.ackNum = true) := by
  rw [finWait2OnAck]
  split_ifs with h
  · rw [Bool.and_eq_true, Bool.and_eq_true, decide_eq_true_iff] at h
    exact ⟨rfl, .inr ⟨h.1.1, rfl, h.1.2, h.2⟩⟩
  · exact ⟨rfl, .inl rfl⟩

variable {c : TcpConnection}

/-- **A segment on a connection that is open for reading.** -/
theorem receive_spec (c : TcpConnection) (now : ℕ) (hdr : TcpHeader) (payload : List UInt8)
    (hreading : c.state.reading = true) :
    (c.receive now hdr payload).2.rxBuffer = c.rxBuffer ++ c.taken hdr payload ∧
      (c.receive now hdr payload).2.rcvNxt
        = c.rcvNxt + BitVec.ofNat 32 (c.taken hdr payload).length
          + (if c.takesFin hdr payload then 1 else 0) ∧
      (c.takesFin hdr payload = true → (c.receive now hdr payload).2.state.finished = true) ∧
      (c.takesFin hdr payload = false → (c.receive now hdr payload).2.state = c.state ∨
        c.state = .finWait1 ∧ (c.receive now hdr payload).2.state = .finWait2 ∧
          hdr.has ACK = true ∧ c.finAcked hdr.ackNum = true) := by
  obtain ⟨hstate, hnxt, hbuf, hfin⟩ := c.acked_receive now hdr
  obtain ⟨hord, hstate', hnxt', hbuf', hfin'⟩ := (c.acked now hdr).acceptData_spec hdr payload
  have htaken : (c.acked now hdr).taken hdr payload = c.taken hdr payload := by
    rw [taken, taken, hnxt]
  rw [htaken] at hnxt' hbuf'
  rw [hnxt] at hord hnxt'
  refine ⟨by rw [c.receive_frame rxBuffer fun _ _ _ _ ↦ rfl, hbuf', hbuf], ?_⟩
  rw [receive_eq, afterFin, hord, ← takesFin]
  dsimp only
  -- the connection between the data and the `FIN`
  generalize ((c.acked now hdr).acceptData hdr payload).2.2 = mid at hstate' hnxt' hfin' ⊢
  cases htakes : c.takesFin hdr payload with
  | true =>
    rw [if_pos rfl, if_pos rfl]
    have hmidReading : mid.state.reading = true := by rw [hstate', hstate, hreading]
    obtain ⟨hdone, hnxt₁⟩ := mid.acceptFin_spec now hdr hmidReading
    obtain ⟨hnxt₂, hend⟩ := (mid.acceptFin now hdr).2.finWait2OnAck_spec hdr
    refine ⟨by rw [hnxt₂, hnxt₁, hnxt'], fun _ ↦ ?_,
      fun hcontra ↦ absurd hcontra Bool.noConfusion⟩
    rcases hend with hsame | ⟨hfw1, -⟩
    · rw [hsame, hdone]
    · rw [hfw1] at hdone
      cases hdone
  | false =>
    rw [if_neg Bool.false_ne_true, if_neg Bool.false_ne_true]
    obtain ⟨hnxt₂, hend⟩ := mid.finWait2OnAck_spec hdr
    refine ⟨by rw [hnxt₂, hnxt', add_zero], fun hcontra ↦ absurd hcontra Bool.noConfusion,
      fun _ ↦ ?_⟩
    rcases hend with hsame | ⟨hfw1, hfw2, hack, hfinAck⟩
    · exact .inl (by rw [hsame, hstate', hstate])
    · refine .inr ⟨by rw [← hstate, ← hstate', hfw1], hfw2, hack, ?_⟩
      rw [finAcked, hfin', hfin] at hfinAck
      exact hfinAck

theorem receive_state (c : TcpConnection) (now : ℕ) (hdr : TcpHeader) (payload : List UInt8)
    (hreading : c.state.reading = true) :
    (c.receive now hdr payload).2.state.finished = c.takesFin hdr payload ∧
      (c.receive now hdr payload).2.state.reading = !c.takesFin hdr payload ∧
      (c.receive now hdr payload).2.state.opening = false := by
  obtain ⟨-, -, hfin, hnofin⟩ := c.receive_spec now hdr payload hreading
  cases htakes : c.takesFin hdr payload with
  | true => exact ⟨hfin htakes, TcpState.of_finished (hfin htakes)⟩
  | false =>
    have hstill : (c.receive now hdr payload).2.state.reading = true := by
      rcases hnofin htakes with hsame | ⟨-, hfw2, -⟩
      · rw [hsame, hreading]
      · rw [hfw2]
        rfl
    obtain ⟨hfinished, hopening⟩ := TcpState.of_reading hstill
    exact ⟨hfinished, hstill, hopening⟩

/-! ## Segments outside the window -/

/-- Whether a sequence number is in the receive window. -/
def inWindow (c : TcpConnection) (seq : Seq) : Prop := serialDist seq c.rcvNxt < c.rcvWnd.toNat

/-- The receive side of a connection is unchanged. -/
def SameReceive (c c' : TcpConnection) : Prop :=
  c'.state = c.state ∧ c'.rcvNxt = c.rcvNxt ∧ c'.rxBuffer = c.rxBuffer

/-- A segment that no branch acts on without looking at its sequence number: it carries no `RST`, no
acknowledgment that moves the state on, no `FIN` without data, and no data for a window that is
closed. In `SynSent`, where only a `RST` matters, it is one that answers the `SYN`. -/
def Harmless (c : TcpConnection) (hdr : TcpHeader) (payload : List UInt8) : Prop :=
  match c.state with
  | .synReceived => hdr.has RST = false ∧ ¬(hdr.has ACK = true ∧ hdr.ackNum = c.sndNxt)
  | .synSent => hdr.has RST = true → hdr.has ACK = true ∧ hdr.ackNum = c.sndNxt
  | .established | .finWait1 | .finWait2 =>
    hdr.has RST = false ∧ (payload = [] → hdr.has FIN = false) ∧
      (c.rcvWnd = 0 → payload = [] ∨ hdr.seqNum ≠ c.rcvNxt) ∧
      (c.state = .finWait1 → ¬(hdr.has ACK = true ∧ c.finAcked hdr.ackNum = true))
  | .closing | .lastAck => ¬(hdr.has ACK = true ∧ c.finAcked hdr.ackNum = true)
  | .closed | .listen | .closeWait | .timeWait => True

theorem seqNum_ne_of_not_inWindow {seq : Seq} (h : ¬c.inWindow seq)
    (hopen : c.rcvWnd ≠ 0) : seq ≠ c.rcvNxt := by
  rintro rfl
  refine h ?_
  rw [inWindow, serialDist, BitVec.sub_self, BitVec.toNat_zero]
  exact Nat.pos_of_ne_zero fun hzero ↦ hopen (BitVec.eq_of_toNat_eq hzero)

/-- After an acknowledgment of our `FIN` the connection is not in `FinWait1`. -/
theorem receive_state_ne {hdr : TcpHeader} (c : TcpConnection) (now : ℕ) (payload : List UInt8)
    (hack : hdr.has ACK = true) (hacked : c.finAcked hdr.ackNum = true) :
    (c.receive now hdr payload).2.state ≠ .finWait1 := by
  have hfin : (c.receive now hdr payload).2.finAcked hdr.ackNum = true := by
    rw [finAcked, receive_frame finSeq fun _ _ _ _ ↦ rfl,
      ((c.acked now hdr).acceptData_spec hdr payload).2.2.2.2, (c.acked_receive now hdr).2.2.2]
    exact hacked
  rw [receive_eq] at hfin ⊢
  dsimp only at hfin ⊢
  rw [finWait2OnAck] at hfin ⊢
  split_ifs at hfin ⊢ with hwait
  · exact TcpState.noConfusion
  · exact fun hstate ↦ hwait (by rw [hstate, hack, hfin]; rfl)

/-- **On a connection that is open for reading**, a segment outside the window leaves the receive
side as it is exactly if it has no `FIN` without data, no data for a closed window and no
acknowledgment of our `FIN`. -/
theorem receive_same_iff {hdr : TcpHeader} (now : ℕ) (payload : List UInt8)
    (hreading : c.state.reading = true) (hout : ¬c.inWindow hdr.seqNum) :
    c.SameReceive (c.receive now hdr payload).2 ↔ (payload = [] → hdr.has FIN = false) ∧
      (c.rcvWnd = 0 → payload = [] ∨ hdr.seqNum ≠ c.rcvNxt) ∧
      (c.state = .finWait1 → ¬(hdr.has ACK = true ∧ c.finAcked hdr.ackNum = true)) := by
  obtain ⟨hbuf, hnxt, hfinished, hstate⟩ := c.receive_spec now hdr payload hreading
  constructor
  · rintro ⟨hsame, -, hsameBuf⟩
    refine ⟨fun hnone ↦ ?_, fun _ ↦ or_iff_not_imp_right.mpr fun hnext ↦ ?_,
      fun hfw1 ⟨hack, hacked⟩ ↦ ?_⟩
    · by_contra hfin
      have htakes : c.takesFin hdr payload = true := by
        simp [takesFin, hnone, Bool.not_eq_false _ ▸ hfin]
      have hdone := hfinished htakes
      rw [hsame, (TcpState.of_reading hreading).1] at hdone
      cases hdone
    · rw [hsameBuf, taken, if_pos (not_not.mp hnext)] at hbuf
      exact List.append_right_eq_self.mp hbuf.symm
    · exact c.receive_state_ne now payload hack hacked (hsame.trans hfw1)
  · rintro ⟨hfin, hwnd, hack⟩
    have hnot : payload = [] ∨ hdr.seqNum ≠ c.rcvNxt := by
      by_cases hclosed : c.rcvWnd = 0
      · exact hwnd hclosed
      · exact .inr (seqNum_ne_of_not_inWindow hout hclosed)
    have htaken : c.taken hdr payload = [] := by
      rw [taken]
      split_ifs with hnext
      · exact hnot.resolve_right fun hne ↦ hne hnext
      · rfl
    have htakes : c.takesFin hdr payload = false := by
      by_cases hnone : payload = []
      · rw [takesFin, hfin hnone, Bool.false_and]
      · simp [takesFin, hnone, hnot.resolve_left hnone]
    rw [htaken] at hbuf hnxt
    rw [htakes] at hnxt
    refine ⟨?_, hnxt.trans (by simp), hbuf.trans (List.append_nil _)⟩
    rcases hstate htakes with hsame | ⟨hfw1, -, hflag, hacked⟩
    · exact hsame
    · exact absurd ⟨hflag, hacked⟩ (hack hfw1)

/-- **Unacceptable segments do not change a connection** exactly if they are harmless: from
`SynReceived` to `TimeWait` these are the segments outside the window that leave the state,
`rcv_nxt` and the receive buffer as they are. And in `SynSent`, where every `RST` closes the
connection, they are those that honour a `RST` only if it acknowledges the `SYN`. -/
theorem unacceptable_segment_ignored (c : TcpConnection) (now : ℕ) (hdr : TcpHeader)
    (payload raw : List UInt8) :
    (c.state.synchronized = true → ¬c.inWindow hdr.seqNum →
      (c.SameReceive (c.handleSegment now hdr payload raw).2 ↔ c.Harmless hdr payload)) ∧
    (c.state = .synSent →
      ((hdr.has RST = true → (c.handleSegment now hdr payload raw).2.state ≠ c.state →
        hdr.has ACK = true ∧ hdr.ackNum = c.sndNxt) ↔ c.Harmless hdr payload)) := by
  refine ⟨fun hsync hout ↦ ?_, fun hsyn ↦ ?_⟩
  · rw [handleSegment, Harmless]
    cases hstate : c.state with
    | closed | listen | synSent =>
      rw [hstate] at hsync
      cases hsync
    | synReceived =>
      dsimp only
      split_ifs with hrst hack
      · simp [SameReceive, hstate, hrst]
      · simp [SameReceive, hstate, hrst] at hack ⊢
        exact hack
      · simp [SameReceive, hrst] at hack ⊢
        exact hack
    | established | finWait1 | finWait2 =>
      have hsame := receive_same_iff now payload (by rw [hstate]; rfl) hout
      rw [hstate] at hsame
      dsimp only
      split_ifs with hrst
      · simp [SameReceive, hstate, hrst]
      · rw [Bool.not_eq_true] at hrst
        simp [hsame, hrst]
    | closeWait =>
      obtain ⟨hsame, hnxt, hbuf, -⟩ := c.acked_receive now hdr
      exact iff_of_true ⟨hsame, hnxt, hbuf⟩ trivial
    | closing | lastAck =>
      dsimp only
      split_ifs with hack
      · rw [Bool.and_eq_true] at hack
        simp [SameReceive, enterTimeWait, hstate, hack]
      · rw [Bool.and_eq_true] at hack
        exact iff_of_true ⟨rfl, rfl, rfl⟩ hack
    | timeWait => exact iff_of_true ⟨rfl, rfl, rfl⟩ trivial
  · rw [handleSegment, Harmless, hsyn]
    dsimp only
    refine forall_congr' fun hrst ↦ ?_
    rw [if_pos hrst]
    exact ⟨fun h ↦ h TcpState.noConfusion, fun h _ ↦ h⟩

instance (c : TcpConnection) (seq : Seq) : Decidable (c.inWindow seq) :=
  inferInstanceAs (Decidable (_ < _))

/-- A connection that waits for the peer's byte 1000. -/
def atThousand : TcpConnection :=
  { TcpConnection.new 0 hostIp 80 peerIp 4000 with
    state := .established, rcvNxt := 1000 }

/-- A header far below the window of that connection. -/
def strayHeader (flags : UInt8) : TcpHeader := ⟨4000, 80, 5, 0, 5, flags, 0⟩

theorem unacceptable_segment_ignored_stray :
    ¬atThousand.inWindow (strayHeader ACK).seqNum ∧
      atThousand.SameReceive (atThousand.handleSegment 0 (strayHeader ACK) [1] []).2 :=
  ⟨by decide, ((unacceptable_segment_ignored atThousand 0 (strayHeader ACK) [1] []).1 rfl
    (by decide)).mpr ⟨by decide, by decide, by decide, by decide⟩⟩

/-- Outside the window, a `RST` closes the connection and a `FIN` ends the stream; in `SynSent`, a
`RST` that acknowledges nothing is honoured. -/
theorem stray_segments_change_connection :
    ¬atThousand.inWindow 5 ∧
      (atThousand.handleSegment 0 (strayHeader RST) [] []).2.state = .closed ∧
      (atThousand.handleSegment 0 (strayHeader FIN) [] []).2.state = .closeWait ∧
      (atThousand.handleSegment 0 (strayHeader FIN) [] []).2.rcvNxt = 1001 ∧
      (strayHeader RST).has ACK = false ∧
      ({ atThousand with state := .synSent }.handleSegment 0 (strayHeader RST) [] []).2.state
        = .closed :=
  ⟨by decide, rfl, rfl, rfl, rfl, rfl⟩

end TcpConnection

end Edos.Net

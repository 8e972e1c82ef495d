import Edos.Net.StackReturns

/-!
# The order of loopback frames

Frames to this host wait in `loopback_queue` until the outermost `send_ip` drains it. They are
pushed at the end and popped from the end, so the order in which they were sent is kept only while
no frame is handled before another one that waits. A run is a sequence of outermost sends and of
turns of `drain_loopback`, beside which the frames are listed as they are sent and as they are
handled.
-/

namespace Edos.Net.NetStack

open List

/-- The stack, the frames sent to this host, and those that `handle_rx` has been given. -/
structure LoopbackRun where
  stack : NetStack
  sent : List (List UInt8)
  handled : List (List UInt8)

inductive LoopbackEvent
  /-- An outermost `send_ip` to this host, up to the draining of the queue. -/
  | send (now : ℕ) (dst : Ip) (protocol : IpProtocol) (payload : List UInt8)
  /-- A turn of `drain_loopback`. -/
  | turn (now : ℕ) (isn : Seq)
  /-- Anything that does not touch the queue. -/
  | other (s : NetStack)

/-- One event. The frames that a turn sends are those it adds to the queue. -/
def LoopbackRun.step (s : LoopbackRun) : LoopbackEvent → Option LoopbackRun
  | .send now dst protocol payload =>
    if s.stack.Loops dst ∧ s.stack.loopbackQueue = [] then
      some ⟨sendIpInner now s.stack dst protocol payload,
        s.sent ++ [s.stack.loopbackFrame dst protocol payload], s.handled⟩
    else none
  | .turn now isn =>
    s.stack.popLoopback.bind fun (frame, rest) ↦
      (handleFrame (sendQueued now) now isn frame rest).toOption.map fun t ↦
        ⟨t, s.sent ++ t.loopbackQueue.drop rest.loopbackQueue.length, s.handled ++ [frame]⟩
  | .other t => if t.loopbackQueue = s.stack.loopbackQueue then some { s with stack := t } else none

/-- A frame is handled when no other one waits. -/
def LoopbackRun.Alone (s : LoopbackRun) : LoopbackEvent → Prop
  | .turn .. => s.stack.loopbackQueue.length ≤ 1
  | _ => True

/-- What has been sent has been handled or waits. -/
def LoopbackRun.InOrder (s : LoopbackRun) : Prop := s.sent = s.handled ++ s.stack.loopbackQueue

variable {s s' : LoopbackRun} {a : LoopbackEvent}

theorem LoopbackRun.InOrder.step (h : s.InOrder) (halone : s.Alone a) (hstep : s.step a = some s') :
    s'.InOrder := by
  rw [InOrder] at h ⊢
  cases a with
  | send now dst protocol payload =>
    rw [LoopbackRun.step] at hstep
    split_ifs at hstep with hlocal
    obtain rfl := Option.some.inj hstep
    rw [sendIpInner, if_pos hlocal.1, h]
    exact append_assoc ..
  | turn now isn =>
    obtain ⟨⟨frame, rest⟩, hpop, hhandle⟩ := Option.bind_eq_some_iff.mp hstep
    obtain ⟨t, -, rfl⟩ := Option.map_eq_some_iff.mp hhandle
    obtain ⟨last, hlast, heq⟩ := Option.map_eq_some_iff.mp hpop
    cases heq
    -- the frame that is popped is the only one
    obtain ⟨frame', hone⟩ : ∃ frame', s.stack.loopbackQueue = [frame'] := by
      refine length_eq_one_iff.mp (le_antisymm halone (length_pos_of_ne_nil ?_))
      rintro hnil
      rw [hnil] at hlast
      cases hlast
    rw [hone] at hlast h ⊢
    cases hlast
    rw [h]
    rfl
  | other t =>
    rw [LoopbackRun.step] at hstep
    split_ifs at hstep with hqueue
    obtain rfl := Option.some.inj hstep
    rw [h, ← hqueue]

/-- **Loopback keeps the order** if no frame is handled while another one waits: the frames that
have been handled, in the order in which they were handled, and those that wait are the frames that
were sent, in the order in which they were sent. -/
theorem loopback_in_order {s₀ : NetStack} (hempty : s₀.loopbackQueue = [])
    (h : Reaches LoopbackRun.step LoopbackRun.Alone ⟨s₀, [], []⟩ s) :
    s.sent = s.handled ++ s.stack.loopbackQueue :=
  h.invariant (I := LoopbackRun.InOrder) (by rw [LoopbackRun.InOrder, hempty]; rfl)
    fun _ _ _ ↦ LoopbackRun.InOrder.step

def localhost : Ip := #v[127, 0, 0, 1]

/-- A stack with a connection to itself, which waits for byte 1000. -/
def selfConnected : NetStack :=
  { idle with
    tcpConnections := fun key ↦ if key = (⟨localhost, 80⟩, ⟨localhost, 4000⟩) then some 0 else none
    conns := fun _ ↦ { TcpConnection.new 0 localhost 80 localhost 4000 with
      state := .established, rcvNxt := 1000 } }

/-- The last byte of that connection, with the `FIN`. -/
def lastByte : List UInt8 := build 4000 80 1000 0 (FIN ||| ACK) 0 localhost localhost [] [7]

/-- The frame is handled when it is the only one; its two answers wait. -/
theorem loopback_in_order_answered :
    ∃ s, run LoopbackRun.step ⟨selfConnected, [], []⟩
        [.send 0 localhost .tcp lastByte, .turn 0 0] = some s ∧
      s.handled.length = 1 ∧ s.stack.loopbackQueue.length = 2 ∧
      s.sent = s.handled ++ s.stack.loopbackQueue := by
  obtain ⟨s, hs⟩ := Option.isSome_iff_exists.mp (show (run LoopbackRun.step ⟨selfConnected, [], []⟩
    [.send 0 localhost .tcp lastByte, .turn 0 0]).isSome = true by decide +kernel)
  have hlengths : (run LoopbackRun.step ⟨selfConnected, [], []⟩
      [.send 0 localhost .tcp lastByte, .turn 0 0]).map
      (fun s ↦ (s.handled.length, s.stack.loopbackQueue.length)) = some (1, 2) := by decide +kernel
  rw [hs, Option.map_some, Option.some.injEq, Prod.mk.injEq] at hlengths
  have hempty : selfConnected.loopbackQueue = [] := rfl
  refine ⟨s, hs, hlengths.1, hlengths.2, loopback_in_order hempty ?_⟩
  obtain ⟨u, hsend, hturn⟩ := Option.bind_eq_some_iff.mp hs
  obtain ⟨v, hturn, hend⟩ := Option.bind_eq_some_iff.mp hturn
  cases hend
  refine (Reaches.refl.tail (a := .send 0 localhost .tcp lastByte) trivial hsend).tail
    (a := .turn 0 0) ?_ hturn
  cases hsend
  exact le_rfl

/-- **The second answer is handled before the first**: the data and the `FIN` are acknowledged by
two segments, of which the later one is popped first. -/
theorem loopback_out_of_order :
    (run LoopbackRun.step ⟨selfConnected, [], []⟩
      [.send 0 localhost .tcp lastByte, .turn 0 0, .turn 0 0]).map (fun s ↦
        (s.handled.length, s.sent.length, decide (s.handled <+: s.sent))) = some (2, 4, false) := by
  decide +kernel

end Edos.Net.NetStack

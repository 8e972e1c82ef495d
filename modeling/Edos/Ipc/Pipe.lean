import Edos.Ipc.ByteRing
import Edos.Lib.Transition

/-!
# Pipes

A `Pipe` is a byte ring with a count of the descriptors open on each of its ends, the queues of the
threads that wait for either of them, and the poll entries to tell about it. Every operation is
taken under the pipe's lock and returns, beside its result, what to notify once the lock has been
released.

The meaning of a pipe is a stream: `Traffic` is a pipe with what its writers have been told was
accepted and what its readers have been given. The invariant `Traffic.Sound` says that the queue is
exactly the difference; the guarantees of the pipe are read off it.
-/

namespace Edos.Ipc

open List Option

def pipeCapacity : ℕ := 64 * 1024

def pipeBuf : ℕ := 4096

inductive OpenMode
  | readOnly
  | writeOnly
  | readWrite
  deriving Repr, DecidableEq

def OpenMode.readable : OpenMode → Bool
  | .readOnly | .readWrite => true
  | .writeOnly => false

def OpenMode.writable : OpenMode → Bool
  | .writeOnly | .readWrite => true
  | .readOnly => false

/-- `PollState`, as far as pipes set it. -/
structure PollState where
  readable : Bool := false
  writable : Bool := false
  hangup : Bool := false
  error : Bool := false
  deriving Repr, DecidableEq

/-- `PipeNotifications`: the poll entries to update with `state`, and which of the two wait queues
to wake. -/
structure PipeNotifications where
  entries : List ℕ
  state : PollState
  readerWq : Bool
  writerWq : Bool
  deriving Repr, DecidableEq

def PipeNotifications.empty : PipeNotifications := ⟨[], {}, false, false⟩

/-- `Pipe`. A wait queue is the list of the threads enrolled in it; a poll entry is a reference,
stored under its key. -/
structure Pipe where
  buffer : ByteRing
  readers : ℕ
  writers : ℕ
  closed : Bool
  pollers : List (ℕ × ℕ)
  readerWq : List ℕ
  writerWq : List ℕ

namespace Pipe

def new : Pipe := ⟨.new, 1, 1, false, [], [], []⟩

def newFifo : Pipe := { new with readers := 0, writers := 0 }

/-- `space`. -/
def space (p : Pipe) : ℕ := pipeCapacity - p.buffer.len

/-- `write_ready`. -/
def writeReady (p : Pipe) (len : ℕ) : Bool :=
  if p.readers = 0 then true else max 1 (min len pipeBuf) ≤ p.space

/-- `at_eof`. -/
def atEof (p : Pipe) : Bool := p.closed && p.buffer.isEmpty

/-- `readable`. -/
def readable (p : Pipe) : Bool := !p.buffer.isEmpty || p.closed

/-- `poll_state`. -/
def pollState (p : Pipe) : PollState where
  readable := !p.buffer.isEmpty || p.closed
  writable := 0 < p.readers && !p.closed && 0 < p.space
  hangup := p.closed && p.buffer.isEmpty
  error := p.readers = 0 && 0 < p.writers

/-- `notify_ends`. -/
def notifyEnds (p : Pipe) : PipeNotifications where
  entries := p.pollers.map Prod.snd
  state := p.pollState
  readerWq := (p.pollState.readable || p.pollState.hangup) && !p.readerWq.isEmpty
  writerWq := (p.pollState.writable || p.readers = 0) && !p.writerWq.isEmpty

/-- `close_writer_silent`. -/
def closeWriterSilent (p : Pipe) : Pipe :=
  { p with writers := p.writers - 1, closed := p.closed || p.writers - 1 = 0 }

/-- `close_reader_silent`. -/
def closeReaderSilent (p : Pipe) : Pipe := { p with readers := p.readers - 1 }

/-- `close_writer`. -/
def closeWriter (p : Pipe) : PipeNotifications × Pipe :=
  (p.closeWriterSilent.notifyEnds, p.closeWriterSilent)

/-- `close_reader`. -/
def closeReader (p : Pipe) : PipeNotifications × Pipe :=
  (p.closeReaderSilent.notifyEnds, p.closeReaderSilent)

/-- `write`: how many bytes were accepted, `none` when nobody is left to read them. -/
def write (p : Pipe) (data : List UInt8) : Option ℕ × PipeNotifications × Pipe :=
  if p.readers = 0 then (none, p.notifyEnds, p)
  else if !p.writeReady data.length then (some 0, .empty, p)
  else
    let take := min data.length p.space
    let p := { p with buffer := p.buffer.push (data.take take) }
    (some take, p.notifyEnds, p)

/-- `read_into` a buffer of `n` bytes. -/
def readInto (p : Pipe) (n : ℕ) : List UInt8 × PipeNotifications × Pipe :=
  let taken := (p.buffer.pop n).1
  let p := { p with buffer := (p.buffer.pop n).2 }
  (taken, if taken = [] then .empty else p.notifyEnds, p)

/-- What `fifo::attach` does to the pipe, under its lock. -/
def attach (p : Pipe) (mode : OpenMode) : PipeNotifications × Pipe :=
  let p := if mode.readable then { p with readers := p.readers + 1 } else p
  let p := if mode.writable then { p with writers := p.writers + 1, closed := false } else p
  (p.notifyEnds, p)

/-! ## What the operations do to the queue -/

/-- The bytes queued, in order. -/
def queued (p : Pipe) : List UInt8 := p.buffer.contents

theorem space_eq (p : Pipe) : p.space = pipeCapacity - p.queued.length := by
  rw [queued, ByteRing.length_contents, space]

theorem atEof_iff {p : Pipe} : p.atEof = true ↔ p.closed = true ∧ p.queued = [] := by
  rw [atEof, Bool.and_eq_true, ByteRing.isEmpty, decide_eq_true_iff, queued,
    ← length_eq_zero_iff, ByteRing.length_contents]

/-- **A write** is refused when no reader is left; otherwise it accepts a number of bytes that fits
and appends so many. A write of at most `PIPE_BUF` bytes is not split. -/
theorem write_cases (p : Pipe) (data : List UInt8) :
    (p.readers = 0 ∧ (p.write data).1 = none ∧ (p.write data).2.2 = p) ∨
      ∃ n, p.readers ≠ 0 ∧ (p.write data).1 = some n ∧
        (data.length ≤ pipeBuf → n = 0 ∨ n = data.length) ∧ n ≤ p.space ∧
        (p.write data).2.2 = { p with buffer := p.buffer.push (data.take n) } := by
  by_cases hnone : p.readers = 0
  · refine .inl ⟨hnone, ?_⟩
    rw [write, if_pos hnone]
    exact ⟨rfl, rfl⟩
  refine .inr ?_
  rw [write, if_neg hnone]
  cases hready : p.writeReady data.length with
  | false => exact ⟨0, hnone, rfl, fun _ ↦ .inl rfl, Nat.zero_le _, rfl⟩
  | true =>
    refine ⟨min data.length p.space, hnone, rfl, fun hsmall ↦ ?_, min_le_right _ _, rfl⟩
    rw [writeReady, if_neg hnone, decide_eq_true_iff] at hready
    omega

theorem write_eq_none_iff {p : Pipe} {data : List UInt8} :
    (p.write data).1 = none ↔ p.readers = 0 := by
  rcases p.write_cases data with ⟨hnone, hresult, -⟩ | ⟨n, hsome, hresult, -⟩
  · exact ⟨fun _ ↦ hnone, fun _ ↦ hresult⟩
  · rw [hresult]
    exact ⟨fun h ↦ absurd h (some_ne_none n), fun h ↦ absurd h hsome⟩

theorem queued_write (p : Pipe) (data : List UInt8) :
    (p.write data).2.2.queued = p.queued ++ data.take ((p.write data).1.getD 0) := by
  rcases p.write_cases data with ⟨-, hresult, hpipe⟩ | ⟨n, -, hresult, -, -, hpipe⟩
  · rw [hresult, hpipe, getD_none, take_zero, append_nil]
  · rw [hresult, hpipe, getD_some]
    exact p.buffer.contents_push _

/-- **A read** takes what is at the front of the queue. -/
theorem queued_readInto (p : Pipe) (n : ℕ) :
    (p.readInto n).1 ++ (p.readInto n).2.2.queued = p.queued := by
  obtain ⟨htaken, hleft⟩ := p.buffer.pop_eq n
  calc (p.readInto n).1 ++ (p.readInto n).2.2.queued
      = p.queued.take n ++ p.queued.drop n := congrArg₂ _ htaken hleft
    _ = p.queued := take_append_drop n _

theorem write_ends (p : Pipe) (data : List UInt8) :
    (p.write data).2.2.writers = p.writers ∧ (p.write data).2.2.closed = p.closed := by
  rcases p.write_cases data with ⟨-, -, hpipe⟩ | ⟨n, -, -, -, -, hpipe⟩ <;> rw [hpipe] <;>
    exact ⟨rfl, rfl⟩

end Pipe

/-! ## The stream -/

/-- A pipe with its history: what writes have accepted and what reads have given out. -/
structure Traffic where
  pipe : Pipe
  accepted : List UInt8
  delivered : List UInt8

/-- A call on a pipe. -/
inductive Call
  | write (data : List UInt8)
  | readInto (n : ℕ)
  | closeWriter
  | closeReader
  | attach (mode : OpenMode)

namespace Traffic

/-- A pipe nobody has used yet, anonymous or named. -/
def start (named : Bool) : Traffic := ⟨if named then .newFifo else .new, [], []⟩

/-- One call. The history takes the count a write reports, and the bytes a read returns. -/
def step (t : Traffic) : Call → Option Traffic
  | .write data =>
    some ⟨(t.pipe.write data).2.2, t.accepted ++ data.take ((t.pipe.write data).1.getD 0),
      t.delivered⟩
  | .readInto n =>
    some ⟨(t.pipe.readInto n).2.2, t.accepted, t.delivered ++ (t.pipe.readInto n).1⟩
  | .closeWriter => some { t with pipe := t.pipe.closeWriter.2 }
  | .closeReader => some { t with pipe := t.pipe.closeReader.2 }
  | .attach mode => some { t with pipe := (t.pipe.attach mode).2 }

/-- An anonymous pipe gains no ends: it is created with both, and only a named one is opened. -/
def Allowed (named : Bool) (_ : Traffic) : Call → Prop
  | .attach _ => named = true
  | _ => True

/-- The queue is what has been accepted and not yet delivered, and it is bounded. -/
structure Sound (named : Bool) (t : Traffic) : Prop where
  stream : t.delivered ++ t.pipe.queued = t.accepted
  bounded : t.pipe.queued.length ≤ pipeCapacity
  closed : named = false → t.pipe.closed = true → t.pipe.writers = 0

theorem sound_start (named : Bool) : (start named).Sound named := by
  have hnone : (start named).pipe.queued = [] := by cases named <;> rfl
  refine ⟨?_, ?_, ?_⟩
  · rw [hnone]
    rfl
  · rw [hnone]
    exact Nat.zero_le _
  · rintro rfl hclosed
    cases hclosed

theorem Sound.step {named : Bool} {t t' : Traffic} {c : Call} (h : t.Sound named)
    (hallowed : Allowed named t c) (hstep : t.step c = some t') : t'.Sound named := by
  cases c with obtain rfl := some.inj hstep
  | write data =>
    have hqueue := t.pipe.queued_write data
    obtain ⟨hwriters, hclosed⟩ := t.pipe.write_ends data
    refine ⟨?_, ?_, fun hanon hend ↦ ?_⟩
    · rw [hqueue, ← append_assoc, h.stream]
    · rcases t.pipe.write_cases data with ⟨-, -, hpipe⟩ | ⟨n, -, hresult, -, hfits, -⟩
      · rw [hpipe]
        exact h.bounded
      · have hbound := h.bounded
        rw [hqueue, hresult, length_append, length_take, getD_some]
        rw [Pipe.space_eq] at hfits
        omega
    · rw [hwriters]
      exact h.closed hanon (hclosed ▸ hend)
  | readInto n =>
    have hqueue := t.pipe.queued_readInto n
    refine ⟨?_, ?_, h.closed⟩
    · rw [append_assoc, hqueue, h.stream]
    · have hbound := h.bounded
      rw [← hqueue, length_append] at hbound
      exact (Nat.le_add_left _ _).trans hbound
  | closeWriter =>
    refine ⟨h.stream, h.bounded, fun hanon hend ↦ ?_⟩
    rcases Bool.or_eq_true_iff.mp hend with hbefore | hlast
    · exact congrArg (· - 1) (h.closed hanon hbefore)
    · exact of_decide_eq_true hlast
  | closeReader =>
    exact ⟨h.stream, h.bounded, h.closed⟩
  | attach mode =>
    have hnamed : named = true := hallowed
    refine ⟨?_, ?_, fun hanon ↦ absurd (hnamed.symm.trans hanon) (by decide)⟩
    · cases mode <;> exact h.stream
    · cases mode <;> exact h.bounded

/-- **A pipe is a bounded byte stream.** Along every sequence of calls, what has been read is a
prefix of what was accepted, and at most `PIPE_CAPACITY` bytes are queued. A write of at most
`PIPE_BUF` bytes goes in whole or not at all, and one is refused exactly when no reader is left.
End of file means that all that was accepted has been read and, for an anonymous pipe, that no
writer is left. -/
theorem pipe_is_bounded_stream (named : Bool) {t : Traffic}
    (h : Reaches step (Allowed named) (start named) t) :
    t.delivered <+: t.accepted ∧ t.pipe.queued.length ≤ pipeCapacity ∧
      (∀ data, 1 ≤ data.length → data.length ≤ pipeBuf →
        (t.pipe.write data).1 = some data.length ∧
            (t.pipe.write data).2.2.queued = t.pipe.queued ++ data ∨
          ((t.pipe.write data).1 = some 0 ∨ (t.pipe.write data).1 = none) ∧
            (t.pipe.write data).2.2.queued = t.pipe.queued) ∧
      (∀ data, (t.pipe.write data).1 = none ↔ t.pipe.readers = 0) ∧
      (t.pipe.atEof = true →
        (named = false → t.pipe.writers = 0) ∧ t.delivered = t.accepted) := by
  have hsound : t.Sound named := h.invariant (sound_start named) fun _ _ _ ↦ Sound.step
  refine ⟨⟨_, hsound.stream⟩, hsound.bounded, fun data _ hsmall ↦ ?_,
    fun data ↦ Pipe.write_eq_none_iff, fun heof ↦ ?_⟩
  · have hqueue := t.pipe.queued_write data
    rcases t.pipe.write_cases data with ⟨-, hresult, -⟩ | ⟨n, -, hresult, hwhole, -, -⟩
    · rw [hresult] at hqueue ⊢
      exact .inr ⟨.inr rfl, hqueue.trans (append_nil _)⟩
    · rw [hresult] at hqueue ⊢
      rcases hwhole hsmall with rfl | rfl
      · exact .inr ⟨.inl rfl, hqueue.trans (append_nil _)⟩
      · exact .inl ⟨rfl, hqueue.trans (congrArg _ (take_length ..))⟩
  · obtain ⟨hclosed, hdrained⟩ := Pipe.atEof_iff.mp heof
    refine ⟨fun hanon ↦ hsound.closed hanon hclosed, ?_⟩
    rw [← hsound.stream, hdrained, append_nil]

/-- Two bytes are written and one is read. -/
theorem pipe_is_bounded_stream_hi :
    ∃ t, run step (start false) [.write [104, 105], .readInto 1] = some t ∧
      t.accepted = [104, 105] ∧ t.delivered = [104] ∧ t.delivered <+: t.accepted ∧
      t.pipe.queued.length ≤ pipeCapacity := by
  refine ⟨_, rfl, by decide, by decide +kernel, ?_⟩
  have hstream := pipe_is_bounded_stream false
    ((Reaches.refl.tail (a := .write [104, 105]) trivial rfl).tail (a := .readInto 1) trivial rfl)
  exact ⟨hstream.1, hstream.2.1⟩

end Traffic

end Edos.Ipc

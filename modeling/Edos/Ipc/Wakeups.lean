import Edos.Ipc.Pipe

/-!
# Waiting on a pipe

The blocking loops of `sys_read` and `sys_write` on a pipe. A thread takes its operation under the
pipe's lock and then flushes the notifications that the operation returned. If it has to wait it
enrols in the wait queue of its end, checks its predicate again, and parks. A flush wakes one
reader, or every writer: a reader that was woken is the one to pass the wake on.

A thread may find the lock contended, or return from its park for no reason; it then leaves the
queue and goes round its loop. One that is killed leaves the queue and returns. A wait queue holds
at most 64 threads, and one more stops the kernel.
-/

namespace Edos.Ipc

open Function List Option

def waitqueueCap : ℕ := 64

/-- The two ends of a pipe. -/
inductive Side
  | reading
  | writing
  deriving Repr, DecidableEq

/-- What a thread is in the middle of: a read into a buffer of `n` bytes, or a write of what it has
not yet sent. A call for no bytes returns before it reaches the pipe. -/
inductive Role
  | reader (n : ℕ) (hn : 0 < n)
  | writer (rest : List UInt8)
  deriving DecidableEq

def Role.side : Role → Side
  | .reader _ _ => .reading
  | .writer _ => .writing

/-- Where a thread is in its loop. -/
inductive Status
  /-- Not in a call. -/
  | idle
  /-- About to take the pipe's lock. -/
  | running (r : Role)
  /-- The lock is released, the notifications are not yet flushed. After them the call returns, or
  the thread waits. -/
  | flushing (notif : PipeNotifications) (next : Option Role)
  /-- In `wait_until_killable`, not yet enrolled. -/
  | waiting (r : Role)
  /-- In the wait queue, about to check its predicate. -/
  | enrolled (r : Role)
  | parked (r : Role)
  /-- Taken off the queue by a wake, and not yet run. -/
  | woken (r : Role)
  deriving DecidableEq

/-- The end whose wait queue a thread is in. -/
def Status.queuedOn : Status → Option Side
  | .enrolled r | .parked r => some r.side
  | _ => none

/-- Neither has notifications to flush nor a wake to act on. -/
def Status.settled : Status → Bool
  | .flushing _ _ | .woken _ => false
  | _ => true

/-- `wake_thread`. -/
def Status.wake : Status → Status
  | .enrolled r | .parked r => .woken r
  | st => st

namespace Pipe

/-- The wait queue of an end. -/
def queue (p : Pipe) : Side → List ℕ
  | .reading => p.readerWq
  | .writing => p.writerWq

def setQueue (p : Pipe) (q : List ℕ) : Side → Pipe
  | .reading => { p with readerWq := q }
  | .writing => { p with writerWq := q }

@[simp]
theorem queue_setQueue (p : Pipe) (q : List ℕ) (side side' : Side) :
    (p.setQueue q side).queue side' = if side' = side then q else p.queue side' := by
  cases side <;> cases side' <;> rfl

/-- The predicate a thread waits for. -/
def ready (p : Pipe) : Role → Bool
  | .reader _ _ => p.readable
  | .writer rest => p.writeReady rest.length

@[simp]
theorem ready_setQueue (p : Pipe) (q : List ℕ) (side : Side) (r : Role) :
    (p.setQueue q side).ready r = p.ready r := by
  cases side <;> cases r <;> rfl

/-- One turn of the loop of `sys_read` or `sys_write`, under the lock: what to notify, and what is
left to do. -/
def operate (p : Pipe) : Role → PipeNotifications × Option Role × Pipe
  | .reader n hn =>
    let r := p.readInto n
    (r.2.1, if r.1 ≠ [] ∨ r.2.2.atEof then none else some (.reader n hn), r.2.2)
  | .writer rest =>
    let r := p.write rest
    match r.1 with
    | none => (r.2.1, none, r.2.2)
    | some sent =>
      (r.2.1, if rest.drop sent = [] then none else some (.writer (rest.drop sent)), r.2.2)

/-- Closing a descriptor of the given mode, or undoing an open. -/
def detach (p : Pipe) (mode : OpenMode) : PipeNotifications × Pipe :=
  let p := if mode.readable then p.closeReaderSilent else p
  let p := if mode.writable then p.closeWriterSilent else p
  (p.notifyEnds, p)

/-- `inc_refcount`, for a descriptor that is duplicated. -/
def incRefcount (p : Pipe) (mode : OpenMode) : Pipe :=
  { p with
    readers := if mode.readable then p.readers + 1 else p.readers
    writers := if mode.writable then p.writers + 1 else p.writers }

/-- The threads a flush wakes: `wake_one` on the readers, `wake_all` on the writers. -/
def wakes (p : Pipe) (notif : PipeNotifications) : Side → List ℕ
  | .reading => if notif.readerWq then p.readerWq.take 1 else []
  | .writing => if notif.writerWq then p.writerWq else []

/-- The queues once those threads have been taken off. -/
def afterWakes (p : Pipe) (notif : PipeNotifications) : Pipe :=
  { p with
    readerWq := if notif.readerWq then p.readerWq.drop 1 else p.readerWq
    writerWq := if notif.writerWq then [] else p.writerWq }

end Pipe

/-- A pipe and the `N` threads that use it. -/
structure PipeUsers (N : ℕ) where
  pipe : Pipe
  threads : Fin N → Status

/-- A step of one thread. -/
inductive UserStep (N : ℕ)
  /-- Enter a blocking call. -/
  | start (t : Fin N) (r : Role)
  /-- One non-blocking call. -/
  | attempt (t : Fin N) (r : Role)
  | operate (t : Fin N)
  | attach (t : Fin N) (mode : OpenMode)
  | close (t : Fin N) (mode : OpenMode)
  | dup (t : Fin N) (mode : OpenMode)
  | flush (t : Fin N)
  | enrol (t : Fin N)
  | check (t : Fin N)
  /-- The lock was contended, or the park ended for no reason. -/
  | retry (t : Fin N)
  /-- The wait ends because the thread was killed. -/
  | kill (t : Fin N)

namespace PipeUsers

variable {N : ℕ}

/-- Nobody uses the pipe yet. -/
def start (N : ℕ) (named : Bool) : PipeUsers N := ⟨if named then .newFifo else .new, fun _ ↦ .idle⟩

def setStatus (s : PipeUsers N) (t : Fin N) (st : Status) : PipeUsers N :=
  { s with threads := Function.update s.threads t st }

/-- Thread `t` has had the pipe's lock and left the pipe as `p`. -/
def operated (s : PipeUsers N) (t : Fin N) (p : Pipe) (notif : PipeNotifications)
    (next : Option Role) : PipeUsers N :=
  ⟨p, Function.update s.threads t (.flushing notif next)⟩

/-- Take `t` off a wait queue. -/
def leave (s : PipeUsers N) (t : Fin N) (side : Side) (st : Status) : PipeUsers N :=
  ⟨s.pipe.setQueue ((s.pipe.queue side).filter (· ≠ t.val)) side, Function.update s.threads t st⟩

/-- The threads after a flush, apart from the one that flushes. -/
def wokenUp (s : PipeUsers N) (notif : PipeNotifications) (u : Fin N) : Status :=
  if u.val ∈ s.pipe.wakes notif .reading ∨ u.val ∈ s.pipe.wakes notif .writing then
    (s.threads u).wake
  else s.threads u

/-- One step. -/
def step (s : PipeUsers N) : UserStep N → Option (PipeUsers N)
  | .start t r =>
    match s.threads t with
    | .idle => some (s.setStatus t (.running r))
    | _ => none
  | .attempt t r =>
    match s.threads t with
    | .idle => some (s.operated t (s.pipe.operate r).2.2 (s.pipe.operate r).1 none)
    | _ => none
  | .operate t =>
    match s.threads t with
    | .running r | .woken r =>
      some (s.operated t (s.pipe.operate r).2.2 (s.pipe.operate r).1 (s.pipe.operate r).2.1)
    | _ => none
  | .attach t mode =>
    match s.threads t with
    | .idle => some (s.operated t (s.pipe.attach mode).2 (s.pipe.attach mode).1 none)
    | _ => none
  | .close t mode =>
    match s.threads t with
    | .idle => some (s.operated t (s.pipe.detach mode).2 (s.pipe.detach mode).1 none)
    | _ => none
  | .dup t mode =>
    match s.threads t with
    | .idle => some { s with pipe := s.pipe.incRefcount mode }
    | _ => none
  | .flush t =>
    match s.threads t with
    | .flushing notif next =>
      some ⟨s.pipe.afterWakes notif, Function.update (s.wokenUp notif) t (match next with
        | none => .idle
        | some r => .waiting r)⟩
    | _ => none
  | .enrol t =>
    match s.threads t with
    | .waiting r =>
      if (s.pipe.queue r.side).length < waitqueueCap then
        some ⟨s.pipe.setQueue (s.pipe.queue r.side ++ [t.val]) r.side,
          Function.update s.threads t (.enrolled r)⟩
      else none
    | _ => none
  | .check t =>
    match s.threads t with
    | .enrolled r =>
      if s.pipe.ready r then some (s.leave t r.side (.running r))
      else some (s.setStatus t (.parked r))
    | _ => none
  | .retry t =>
    match s.threads t with
    | .waiting r => some (s.setStatus t (.running r))
    | .enrolled r | .parked r => some (s.leave t r.side (.running r))
    | _ => none
  | .kill t =>
    match s.threads t with
    | .waiting _ | .woken _ => some (s.setStatus t .idle)
    | .enrolled r | .parked r => some (s.leave t r.side .idle)
    | _ => none

/-! ## Enrolment -/

/-- A wait queue holds exactly the threads that are enrolled or parked on its end, once each. -/
structure Enrolled (s : PipeUsers N) : Prop where
  bounded : ∀ side, ∀ h ∈ s.pipe.queue side, h < N
  nodup : ∀ side, (s.pipe.queue side).Nodup
  mem_iff : ∀ (t : Fin N) side, t.val ∈ s.pipe.queue side ↔ (s.threads t).queuedOn = some side

variable {s : PipeUsers N} {p : Pipe} {t : Fin N} {st : Status} {side : Side} {r : Role}
  {notif : PipeNotifications} {next : Option Role}

theorem Enrolled.update (h : s.Enrolled) (hqueue : ∀ side, p.queue side = s.pipe.queue side)
    (hst : st.queuedOn = (s.threads t).queuedOn) :
    Enrolled ⟨p, Function.update s.threads t st⟩ := by
  refine ⟨fun side ↦ ?_, fun side ↦ ?_, fun u side ↦ ?_⟩
  · exact hqueue side ▸ h.bounded side
  · exact hqueue side ▸ h.nodup side
  · show u.val ∈ p.queue side ↔ (Function.update s.threads t st u).queuedOn = some side
    rw [hqueue, h.mem_iff]
    by_cases hu : u = t
    · rw [hu, update_self, hst]
    · rw [update_of_ne hu]

/-- A queue changes, and at most one thread with it. -/
theorem Enrolled.requeue {q : List ℕ} (h : s.Enrolled) (hbound : ∀ u ∈ q, u < N) (hnodup : q.Nodup)
    (hothers : ∀ u : Fin N, u ≠ t → (u.val ∈ q ↔ u.val ∈ s.pipe.queue side))
    (ht : ∀ side', (if side' = side then t.val ∈ q else t.val ∈ s.pipe.queue side') ↔
      st.queuedOn = some side') :
    Enrolled ⟨s.pipe.setQueue q side, Function.update s.threads t st⟩ := by
  refine ⟨fun side' ↦ ?_, fun side' ↦ ?_, fun u side' ↦ ?_⟩
  · rw [Pipe.queue_setQueue]
    split_ifs with hside
    · exact hbound
    · exact h.bounded side'
  · rw [Pipe.queue_setQueue]
    split_ifs with hside
    · exact hnodup
    · exact h.nodup side'
  · show u.val ∈ (s.pipe.setQueue q side).queue side' ↔
      (Function.update s.threads t st u).queuedOn = some side'
    rw [Pipe.queue_setQueue]
    by_cases hu : u = t
    · rw [hu, update_self, ← ht]
      split_ifs <;> rfl
    · rw [update_of_ne hu, ← h.mem_iff]
      split_ifs with hside
      · rw [hside, hothers u hu]
      · rfl

theorem Enrolled.left (h : s.Enrolled) (hin : (s.threads t).queuedOn = some side)
    (hst : st.queuedOn = none) : (s.leave t side st).Enrolled := by
  refine h.requeue (fun u hu ↦ h.bounded side u (mem_of_mem_filter hu)) ((h.nodup side).filter _)
    (fun u hu ↦ by simp [Fin.val_inj, hu]) fun side' ↦ ?_
  rw [hst]
  split_ifs with hside
  · simp
  · rw [h.mem_iff, hin]
    simp [Ne.symm hside]

theorem Enrolled.enrol (h : s.Enrolled) (hout : (s.threads t).queuedOn = none) :
    Enrolled ⟨s.pipe.setQueue (s.pipe.queue r.side ++ [t.val]) r.side,
      Function.update s.threads t (.enrolled r)⟩ := by
  have hnot : t.val ∉ s.pipe.queue r.side := by
    rw [h.mem_iff, hout]
    simp
  refine h.requeue ?_ ?_ (fun u hu ↦ by simp [Fin.val_inj, hu]) fun side ↦ ?_
  · rw [forall_mem_append, forall_mem_singleton]
    exact ⟨h.bounded _, t.isLt⟩
  · refine nodup_append.mpr ⟨h.nodup _, nodup_singleton _, fun a ha b hb heq ↦ ?_⟩
    exact hnot (mem_singleton.mp hb ▸ heq ▸ ha)
  · split_ifs with hside
    · simp [Status.queuedOn, hside]
    · rw [h.mem_iff, hout]
      simp [Status.queuedOn, Ne.symm hside]

/-- A flush takes the threads it wakes off the front of their queue. -/
theorem wakes_append_queue (p : Pipe) (notif : PipeNotifications) (side : Side) :
    p.wakes notif side ++ (p.afterWakes notif).queue side = p.queue side := by
  cases side with
  | reading =>
    show (if notif.readerWq then p.readerWq.take 1 else [])
      ++ (if notif.readerWq then p.readerWq.drop 1 else p.readerWq) = p.readerWq
    cases notif.readerWq with
    | false => rfl
    | true => exact take_append_drop 1 _
  | writing =>
    show (if notif.writerWq then p.writerWq else [])
      ++ (if notif.writerWq then [] else p.writerWq) = p.writerWq
    cases notif.writerWq with
    | false => rfl
    | true => exact append_nil _

theorem mem_wakes (h : s.Enrolled)
    (ht : t.val ∈ s.pipe.wakes notif side) : (s.threads t).queuedOn = some side := by
  rw [← h.mem_iff, ← wakes_append_queue s.pipe notif side]
  exact mem_append_left _ ht

theorem queuedOn_wokenUp (h : s.Enrolled) (notif : PipeNotifications) (u : Fin N) (side : Side) :
    (s.wokenUp notif u).queuedOn = some side ↔
      (s.threads u).queuedOn = some side ∧ u.val ∉ s.pipe.wakes notif side := by
  have hnone : ((s.threads u).wake).queuedOn = none := by
    cases s.threads u <;> rfl
  rw [wokenUp]
  split_ifs with hwoken
  · rw [hnone]
    refine ⟨fun hcontra ↦ absurd hcontra (some_ne_none side).symm, fun ⟨hin, hnot⟩ ↦ ?_⟩
    rcases hwoken with hread | hwrite
    · have hside := (mem_wakes h hread).symm.trans hin
      exact absurd (some.inj hside ▸ hread) hnot
    · have hside := (mem_wakes h hwrite).symm.trans hin
      exact absurd (some.inj hside ▸ hwrite) hnot
  · refine ⟨fun hin ↦ ⟨hin, fun hmem ↦ hwoken ?_⟩, And.left⟩
    cases side with
    | reading => exact .inl hmem
    | writing => exact .inr hmem

/-- A flush takes off the queues exactly the threads it wakes. -/
theorem Enrolled.flushed (h : s.Enrolled) (hout : (s.threads t).queuedOn = none)
    (hst : st.queuedOn = none) :
    Enrolled ⟨s.pipe.afterWakes notif, Function.update (s.wokenUp notif) t st⟩ := by
  have hsplit := wakes_append_queue s.pipe notif
  refine ⟨fun side u hu ↦ ?_, fun side ↦ ?_, fun u side ↦ ?_⟩
  · exact h.bounded side u (hsplit side ▸ mem_append_right _ hu)
  · exact (nodup_append.mp ((hsplit side).symm ▸ h.nodup side)).2.1
  · have hdisj : u.val ∈ (s.pipe.afterWakes notif).queue side ↔
        u.val ∈ s.pipe.queue side ∧ u.val ∉ s.pipe.wakes notif side := by
      have hnodup := (nodup_append.mp ((hsplit side).symm ▸ h.nodup side)).2.2
      rw [← hsplit side, mem_append]
      exact ⟨fun hq ↦ ⟨.inr hq, fun hw ↦ hnodup _ hw _ hq rfl⟩,
        fun ⟨hor, hnot⟩ ↦ hor.resolve_left hnot⟩
    show u.val ∈ (s.pipe.afterWakes notif).queue side ↔
      (Function.update (s.wokenUp notif) t st u).queuedOn = some side
    rw [hdisj, h.mem_iff]
    by_cases hu : u = t
    · subst hu
      rw [update_self, hst, hout]
      simp
    · rw [update_of_ne hu, queuedOn_wokenUp h]

/-! ## The wake is passed on -/

/-- Whether notifications wake an end. -/
def tells (notif : PipeNotifications) : Side → Bool
  | .reading => notif.readerWq
  | .writing => notif.writerWq

/-- Notifications that wake an end are still to be flushed. -/
def Telling (s : PipeUsers N) (side : Side) : Prop :=
  ∃ u notif next, s.threads u = .flushing notif next ∧ tells notif side = true

/-- A reader has been woken and has not run. -/
def Passing (s : PipeUsers N) (side : Side) : Prop :=
  side = .reading ∧ ∃ u n hn, s.threads u = .woken (.reader n hn)

/-- **The invariant**: a thread is parked on a predicate that holds only while notifications for
its end are on their way, or a reader that will pass them on. -/
structure Attended (s : PipeUsers N) : Prop extends s.Enrolled where
  attended : ∀ t r, s.threads t = .parked r → s.pipe.ready r = true →
    s.Telling r.side ∨ s.Passing r.side

/-- Apart from `t`, a reader has been woken, or notifications for the readers are to be flushed. -/
def Relieved (s : PipeUsers N) (t : Fin N) : Prop :=
  ∃ u ≠ t, (∃ n hn, s.threads u = .woken (.reader n hn)) ∨
    ∃ notif next, s.threads u = .flushing notif next ∧ notif.readerWq = true

/-- What an operation has to tell: for every thread that could be parked and whose predicate holds
after it, either its end is told, or the predicate held before and the thread that operated is not
a reader with a wake to pass on, or not the only one. -/
def Tells (s : PipeUsers N) (t : Fin N) (p : Pipe) (notif : PipeNotifications) : Prop :=
  ∀ r : Role, p.ready r = true → s.pipe.queue r.side ≠ [] → tells notif r.side = true ∨
    s.pipe.ready r = true ∧
      ((∃ n hn, s.threads t = .woken (.reader n hn)) → r.side = .writing ∨ s.Relieved t)

/-- Others than `t` pass on what it does not. -/
theorem Relieved.attended (h : s.Relieved t) (hside : side = .reading) (p : Pipe) (st : Status) :
    Telling ⟨p, Function.update s.threads t st⟩ side ∨
      Passing ⟨p, Function.update s.threads t st⟩ side := by
  subst hside
  obtain ⟨u, hut, ⟨n, hn, hu⟩ | ⟨notif, next, hu, htold⟩⟩ := h
  · exact .inr ⟨rfl, u, n, hn, (update_of_ne hut ..).trans hu⟩
  · exact .inl ⟨u, notif, next, (update_of_ne hut ..).trans hu, htold⟩

/-- An operation that tells what it has to keeps the invariant. -/
theorem Attended.operated (h : s.Attended) (hqueue : ∀ side, p.queue side = s.pipe.queue side)
    (hout : (s.threads t).queuedOn = none) (hnew : ∀ notif next, s.threads t ≠ .flushing notif next)
    (htells : s.Tells t p notif) : (s.operated t p notif next).Attended := by
  refine ⟨h.toEnrolled.update hqueue hout.symm, fun u r hparked hready ↦ ?_⟩
  have hut : u ≠ t := by
    rintro rfl
    cases (update_self ..).symm.trans hparked
  have hbefore : s.threads u = .parked r := (update_of_ne hut ..).symm.trans hparked
  have hmem : u.val ∈ s.pipe.queue r.side := by
    rw [h.mem_iff, hbefore]
    rfl
  rcases htells r hready (ne_nil_of_mem hmem) with htold | ⟨hheld, hpass⟩
  · exact .inl ⟨t, notif, next, update_self .., htold⟩
  rcases h.attended u r hbefore hheld with ⟨v, notif', next', hv, htold⟩ | ⟨hside, v, n, hn, hv⟩
  · have hvt : v ≠ t := by
      rintro rfl
      exact hnew _ _ hv
    exact .inl ⟨v, notif', next', (update_of_ne hvt ..).trans hv, htold⟩
  · by_cases hvt : v = t
    · subst hvt
      rcases hpass ⟨n, hn, hv⟩ with hwriting | hrelieved
      · exact absurd (hside.symm.trans hwriting) (by decide)
      · exact hrelieved.attended hside p _
    · exact .inr ⟨hside, v, n, hn, (update_of_ne hvt ..).trans hv⟩

/-- A thread with nothing to tell and no wake to pass on may move, as long as it does not park on a
predicate that holds and makes no predicate true. -/
theorem Attended.moved (h : s.Attended) (henrolled : Enrolled ⟨p, Function.update s.threads t st⟩)
    (hready : ∀ r, p.ready r = true → s.pipe.ready r = true)
    (hsettled : (s.threads t).settled = true) (hpark : ∀ r, st = .parked r → p.ready r = false) :
    Attended ⟨p, Function.update s.threads t st⟩ := by
  refine ⟨henrolled, fun u r hparked hholds ↦ ?_⟩
  have hut : u ≠ t := by
    rintro rfl
    have hst : st = .parked r := (update_self ..).symm.trans hparked
    exact absurd hholds (by rw [hpark r hst]; decide)
  have hbefore : s.threads u = .parked r := (update_of_ne hut ..).symm.trans hparked
  have hvt {v : Fin N} (hv : (s.threads v).settled = false) : v ≠ t := by
    rintro rfl
    cases hsettled.symm.trans hv
  rcases h.attended u r hbefore (hready r hholds) with
    ⟨v, notif, next, hv, htold⟩ | ⟨hside, v, n, hn, hv⟩
  · exact .inl ⟨v, notif, next, (update_of_ne (hvt (by rw [hv]; rfl)) ..).trans hv, htold⟩
  · exact .inr ⟨hside, v, n, hn, (update_of_ne (hvt (by rw [hv]; rfl)) ..).trans hv⟩

theorem wokenUp_of_not_queued {u : Fin N}
    (h : (s.threads u).wake = s.threads u) : s.wokenUp notif u = s.threads u := by
  rw [wokenUp, h, ite_self]

theorem Status.wake_of_queuedOn (h : st.queuedOn = some side) :
    ∃ r : Role, r.side = side ∧ st.wake = .woken r := by
  cases st with
  | enrolled r | parked r => exact ⟨r, some.inj h, rfl⟩
  | _ => cases h

/-- A flush that tells the readers wakes one, if there is one. -/
theorem exists_woken_reader (h : s.Enrolled) (htold : notif.readerWq = true)
    (hsome : s.pipe.readerWq ≠ []) :
    ∃ w n hn, s.wokenUp notif w = .woken (.reader n hn) ∧
      (s.threads w).queuedOn = some .reading := by
  obtain ⟨w, rest, hq⟩ := exists_cons_of_ne_nil hsome
  have hmem : w ∈ s.pipe.readerWq := by
    rw [hq]
    exact mem_cons_self
  have hw : w < N := h.bounded .reading w hmem
  have hwakes : w ∈ s.pipe.wakes notif .reading := by
    rw [Pipe.wakes, htold, if_pos rfl, hq]
    exact mem_cons_self
  have hqueued := (h.mem_iff ⟨w, hw⟩ .reading).mp hmem
  obtain ⟨r, hside, hwake⟩ := Status.wake_of_queuedOn hqueued
  have hwoken : s.wokenUp notif ⟨w, hw⟩ = (s.threads ⟨w, hw⟩).wake := if_pos (.inl hwakes)
  cases r with
  | reader n hn => exact ⟨⟨w, hw⟩, n, hn, hwoken.trans hwake, hqueued⟩
  | writer rest => cases hside

/-- A flush hands what it had to tell to a reader it wakes, and leaves no writer parked. -/
theorem Attended.flushed (h : s.Attended) (ht : s.threads t = .flushing notif next)
    (hst : st.queuedOn = none) :
    Attended ⟨s.pipe.afterWakes notif, Function.update (s.wokenUp notif) t st⟩ := by
  have hout : (s.threads t).queuedOn = none := by
    rw [ht]
    rfl
  refine ⟨h.toEnrolled.flushed hout hst, fun u r hparked hholds ↦ ?_⟩
  have hut : u ≠ t := by
    rintro rfl
    have hparked : st = .parked r := (update_self ..).symm.trans hparked
    rw [hparked] at hst
    cases hst
  have hstill : s.wokenUp notif u = .parked r := (update_of_ne hut ..).symm.trans hparked
  have hqueued : (s.wokenUp notif u).queuedOn = some r.side := by
    rw [hstill]
    rfl
  obtain ⟨hin, hnot⟩ := (queuedOn_wokenUp h.toEnrolled notif u r.side).mp hqueued
  have hbefore : s.threads u = .parked r := by
    rw [wokenUp] at hstill
    split_ifs at hstill with hwoken
    · cases hthread : s.threads u <;> rw [hthread] at hstill <;> cases hstill
    · exact hstill
  have hready : s.pipe.ready r = true := by
    cases r <;> exact hholds
  rcases h.attended u r hbefore hready with ⟨v, notif', next', hv, htold⟩ | ⟨hside, v, n, hn, hv⟩
  · by_cases hvt : v = t
    · -- the notifications are the ones being flushed
      subst hvt
      cases hv.symm.trans ht
      cases hside : r.side with
      | writing =>
        rw [hside] at hin hnot htold
        exact absurd (show u.val ∈ s.pipe.wakes notif .writing by
          rw [Pipe.wakes, show notif.writerWq = true from htold, if_pos rfl]
          exact (h.mem_iff u .writing).mpr hin) hnot
      | reading =>
        rw [hside] at hin htold
        obtain ⟨w, n, hn, hw, hwq⟩ := exists_woken_reader h.toEnrolled htold
          (ne_nil_of_mem ((h.mem_iff u .reading).mpr hin))
        have hwt : w ≠ v := by
          rintro rfl
          rw [hv] at hwq
          cases hwq
        exact .inr ⟨rfl, w, n, hn, (update_of_ne hwt ..).trans hw⟩
    · refine .inl ⟨v, notif', next', (update_of_ne hvt ..).trans ?_, htold⟩
      rw [wokenUp_of_not_queued (by rw [hv]; rfl), hv]
  · have hvt : v ≠ t := by
      rintro rfl
      cases hv.symm.trans ht
    refine .inr ⟨hside, v, n, hn, (update_of_ne hvt ..).trans ?_⟩
    rw [wokenUp_of_not_queued (by rw [hv]; rfl), hv]

/-! ## What the operations tell -/

/-- A pipe tells a reader whose predicate holds. -/
theorem tells_reading (hreadable : p.readable = true) (hsome : p.readerWq ≠ []) :
    tells p.notifyEnds .reading = true := by
  show ((p.readable || p.pollState.hangup) && !p.readerWq.isEmpty) = true
  rw [hreadable, List.isEmpty_eq_false_iff.mpr hsome]
  rfl

/-- A pipe tells a writer whose predicate holds, unless its last writer is gone. -/
theorem tells_writing {len : ℕ} (hready : p.writeReady len = true) (hsome : p.writerWq ≠ [])
    (hopen : p.readers = 0 ∨ p.closed = false) : tells p.notifyEnds .writing = true := by
  show ((0 < p.readers && !p.closed && 0 < p.space || p.readers = 0) && !p.writerWq.isEmpty) = true
  rw [List.isEmpty_eq_false_iff.mpr hsome]
  rcases hopen with hnone | hopen
  · simp [hnone]
  · by_cases hnone : p.readers = 0
    · simp [hnone]
    · rw [Pipe.writeReady, if_neg hnone, decide_eq_true_iff] at hready
      simp [hopen]
      omega

/-- An operation that tells both ends of the pipe it leaves tells what it has to, if it makes no
room in a pipe whose last writer is gone. -/
theorem tells_notifyEnds
    (hqueue : ∀ side, p.queue side = s.pipe.queue side)
    (hroom : ∀ len, p.closed = true → p.readers ≠ 0 → p.writeReady len = true →
      p.writerWq ≠ [] → s.pipe.writeReady len = true) :
    s.Tells t p p.notifyEnds := by
  intro r hready hsome
  rw [← hqueue] at hsome
  cases r with
  | reader n hn => exact .inl (tells_reading hready hsome)
  | writer rest =>
    by_cases hopen : p.readers = 0 ∨ p.closed = false
    · exact .inl (tells_writing hready hsome hopen)
    · obtain ⟨hreaders, hclosed⟩ := not_or.mp hopen
      exact .inr ⟨hroom _ (Bool.eq_true_of_not_eq_false hclosed) hreaders hready hsome,
        fun _ ↦ .inl rfl⟩

theorem readInto_of_queued_eq_nil (h : p.queued = []) (n : ℕ) : p.readInto n = ([], .empty, p) := by
  have hlen : p.buffer.len = 0 := by
    rw [← ByteRing.length_contents]
    exact length_eq_zero_iff.mpr h
  have hpop : p.buffer.pop n = ([], p.buffer) := by
    rw [ByteRing.pop, hlen, Nat.min_zero, if_pos rfl]
  rw [Pipe.readInto, hpop, if_pos rfl]

theorem readInto_of_queued_ne_nil (h : p.queued ≠ []) {n : ℕ} (hn : 0 < n) :
    (p.readInto n).2.1 = (p.readInto n).2.2.notifyEnds := by
  have htaken : (p.readInto n).1 ≠ [] := by
    rw [show (p.readInto n).1 = p.queued.take n from (p.buffer.pop_eq n).1, Ne, take_eq_nil_iff]
    exact not_or.mpr ⟨hn.ne', h⟩
  exact if_neg htaken

/-- Bytes are taken out of a pipe whose last writer is gone only while no writer is enrolled. -/
def TakesFreely (p : Pipe) : Role → Prop
  | .reader _ _ => p.closed = true → p.queued ≠ [] → p.writerWq = []
  | .writer _ => True

/-- Nobody but `t` waits for data, or somebody else has a wake to pass on. -/
def WakeSpent (s : PipeUsers N) (t : Fin N) : Prop := s.pipe.readerWq = [] ∨ s.Relieved t

/-- A reader that was woken and finds the end of file is the last one. -/
def PassesOn (s : PipeUsers N) (t : Fin N) : Prop :=
  (∃ n hn, s.threads t = .woken (.reader n hn)) → s.pipe.closed = true → s.pipe.queued = [] →
    s.WakeSpent t

theorem queue_operate (p : Pipe) (r : Role) (side : Side) :
    (p.operate r).2.2.queue side = p.queue side := by
  cases r with
  | reader n hn => cases side <;> rfl
  | writer rest =>
    have hpipe : (p.operate (.writer rest)).2.2 = (p.write rest).2.2 := by
      rw [Pipe.operate]
      cases (p.write rest).1 <;> rfl
    rw [hpipe]
    rcases p.write_cases rest with ⟨-, -, hsame⟩ | ⟨n, -, -, -, -, hpush⟩
    · rw [hsame]
    · rw [hpush]
      cases side <;> rfl

theorem tells_read {n : ℕ} {hn : 0 < n} (htakes : TakesFreely s.pipe (.reader n hn))
    (hpass : s.PassesOn t) : s.Tells t (s.pipe.readInto n).2.2 (s.pipe.readInto n).2.1 := by
  by_cases hempty : s.pipe.queued = []
  · rw [readInto_of_queued_eq_nil hempty]
    intro r hready hsome
    refine .inr ⟨hready, fun hwoken ↦ ?_⟩
    cases r with
    | writer rest => exact .inl rfl
    | reader m hm =>
      -- the pipe is at end of file
      have hclosed : s.pipe.closed = true := by
        have hlen : s.pipe.buffer.isEmpty = true :=
          decide_eq_true (by rw [← ByteRing.length_contents]; exact length_eq_zero_iff.mpr hempty)
        have hreadable : s.pipe.readable = true := hready
        rwa [Pipe.readable, hlen] at hreadable
      exact .inr ((hpass hwoken hclosed hempty).resolve_left hsome)
  · rw [readInto_of_queued_ne_nil hempty hn]
    refine tells_notifyEnds (queue_operate s.pipe (.reader n hn)) fun len hclosed _ _ hsome ↦ ?_
    exact absurd (htakes hclosed hempty) hsome

/-- A write that can proceed could before, if there is no more room and no reader went. -/
theorem writeReady_of_le {p' : Pipe} {len : ℕ} (hreaders : p'.readers = 0 → p.readers = 0)
    (hspace : p'.space ≤ p.space) (h : p'.writeReady len = true) : p.writeReady len = true := by
  rw [Pipe.writeReady] at h ⊢
  by_cases hnone : p.readers = 0
  · rw [if_pos hnone]
  · rw [if_neg (mt hreaders hnone), decide_eq_true_iff] at h
    rw [if_neg hnone, decide_eq_true_iff]
    omega

theorem tells_write {rest : List UInt8} (hnot : ∀ n hn, s.threads t ≠ .woken (.reader n hn)) :
    s.Tells t (s.pipe.write rest).2.2 (s.pipe.write rest).2.1 := by
  rw [Pipe.write]
  split_ifs with hnone hready
  · exact tells_notifyEnds (fun _ ↦ rfl) fun len _ _ h _ ↦ h
  · refine fun r h _ ↦ .inr ⟨h, ?_⟩
    rintro ⟨n, hn, hwoken⟩
    exact absurd hwoken (hnot n hn)
  · refine tells_notifyEnds (fun side ↦ by cases side <;> rfl) fun len _ _ h _ ↦ ?_
    refine writeReady_of_le (by exact id) ?_ h
    rw [Pipe.space, Pipe.space, ByteRing.len_push]
    omega

/-- One turn of a loop tells what it has to. -/
theorem tells_operate (htakes : TakesFreely s.pipe r) (hpass : s.PassesOn t)
    (hrole : ∀ r', s.threads t = .woken r' → r' = r) :
    s.Tells t (s.pipe.operate r).2.2 (s.pipe.operate r).1 := by
  cases r with
  | reader n hn => exact tells_read htakes hpass
  | writer rest =>
    have htells : s.Tells t (s.pipe.write rest).2.2 (s.pipe.write rest).2.1 :=
      tells_write fun n hn hwoken ↦ by cases hrole _ hwoken
    rw [Pipe.operate]
    cases (s.pipe.write rest).1 <;> exact htells

theorem tells_ends (hqueue : ∀ side, p.queue side = s.pipe.queue side)
    (hspace : p.space ≤ s.pipe.space) : s.Tells t p p.notifyEnds :=
  tells_notifyEnds hqueue fun _ _ hsome hready _ ↦
    writeReady_of_le (fun hnone ↦ absurd hnone hsome) hspace hready

/-! ## Runs -/

/-- A read of a pipe whose last writer is gone takes no bytes while a writer is enrolled; and a
reader that was woken does not end with it at the end of file, or killed, while it is the one to
pass it on. -/
def LeavesNobody (s : PipeUsers N) : UserStep N → Prop
  | .attempt _ r => TakesFreely s.pipe r
  | .operate t => s.PassesOn t ∧
      ∀ r, s.threads t = .running r ∨ s.threads t = .woken r → TakesFreely s.pipe r
  | .kill t => (∃ n hn, s.threads t = .woken (.reader n hn)) → s.pipe.readable = true →
      s.WakeSpent t
  | _ => True

theorem attended_start (named : Bool) : (start N named).Attended := by
  have hqueue : ∀ side, (start N named).pipe.queue side = [] := by
    cases named <;> intro side <;> cases side <;> rfl
  refine ⟨⟨fun side ↦ ?_, fun side ↦ ?_, fun t side ↦ ?_⟩, fun t r hparked ↦ ?_⟩
  · rw [hqueue]
    exact fun _ h ↦ absurd h not_mem_nil
  · rw [hqueue]
    exact nodup_nil
  · rw [hqueue]
    exact ⟨fun h ↦ absurd h not_mem_nil, fun h ↦ by cases h⟩
  · cases hparked

theorem Attended.left (h : s.Attended) (hin : (s.threads t).queuedOn = some side)
    (hst : st = .idle ∨ ∃ r, st = .running r) : (s.leave t side st).Attended := by
  have hout : st.queuedOn = none := by
    rcases hst with rfl | ⟨r, rfl⟩ <;> rfl
  refine h.moved (h.toEnrolled.left hin hout) (fun r' hready ↦ ?_) ?_ (fun r' hparked ↦ ?_)
  · rwa [Pipe.ready_setQueue] at hready
  · cases ht : s.threads t with
    | flushing | woken =>
      rw [ht] at hin
      cases hin
    | _ => rfl
  · rw [hparked] at hout
    cases hout

/-- A thread that was woken is killed. -/
theorem Attended.killed (h : s.Attended) (ht : s.threads t = .woken r)
    (hspent : s.LeavesNobody (.kill t)) : (s.setStatus t .idle).Attended := by
  refine ⟨h.toEnrolled.update (fun _ ↦ rfl) (by rw [ht]; rfl), fun u r' hparked hready ↦ ?_⟩
  have hut : u ≠ t := by
    rintro rfl
    cases (update_self ..).symm.trans hparked
  have hbefore : s.threads u = .parked r' := (update_of_ne hut ..).symm.trans hparked
  rcases h.attended u r' hbefore hready with ⟨v, notif, next, hv, htold⟩ | ⟨hside, v, n, hn, hv⟩
  · have hvt : v ≠ t := by
      rintro rfl
      cases hv.symm.trans ht
    exact .inl ⟨v, notif, next, (update_of_ne hvt ..).trans hv, htold⟩
  · by_cases hvt : v = t
    · -- the wake goes with the thread, and somebody else has one
      subst hvt
      have hmem : u.val ∈ s.pipe.queue .reading := by
        rw [h.mem_iff, hbefore, ← hside]
        rfl
      have hreadable : s.pipe.readable = true := by
        cases r' with
        | reader m hm => exact hready
        | writer rest => cases hside
      have hrelieved := (hspent ⟨n, hn, hv⟩ hreadable).resolve_left (ne_nil_of_mem hmem)
      exact hrelieved.attended hside _ _
    · exact .inr ⟨hside, v, n, hn, (update_of_ne hvt ..).trans hv⟩

theorem Attended.step {s' : PipeUsers N} {a : UserStep N} (h : s.Attended)
    (hleaves : s.LeavesNobody a) (hstep : s.step a = some s') : s'.Attended := by
  unfold PipeUsers.step at hstep
  cases a with
  | start t r =>
    cases ht : s.threads t <;> simp only [ht, reduceCtorEq, some.injEq] at hstep
    subst hstep
    exact h.moved (h.toEnrolled.update (fun _ ↦ rfl) (by rw [ht]; rfl)) (fun _ ↦ id)
      (by rw [ht]; rfl) (fun _ hne ↦ by cases hne)
  | attempt t r =>
    cases ht : s.threads t <;> simp only [ht, reduceCtorEq, some.injEq] at hstep
    subst hstep
    exact h.operated (queue_operate _ _) (by rw [ht]; rfl)
      (fun _ _ hne ↦ by cases ht.symm.trans hne)
      (tells_operate hleaves (fun ⟨_, _, hwoken⟩ ↦ by cases ht.symm.trans hwoken)
        fun r' hwoken ↦ by cases ht.symm.trans hwoken)
  | operate t =>
    cases ht : s.threads t <;> simp only [ht, reduceCtorEq, some.injEq] at hstep
    case running r =>
      subst hstep
      exact h.operated (queue_operate _ _) (by rw [ht]; rfl)
        (fun _ _ hne ↦ by cases ht.symm.trans hne)
        (tells_operate (hleaves.2 r (.inl ht)) hleaves.1
          fun r' hwoken ↦ by cases ht.symm.trans hwoken)
    case woken r =>
      subst hstep
      refine h.operated (queue_operate _ _) (by rw [ht]; rfl)
        (fun _ _ hne ↦ by cases ht.symm.trans hne)
        (tells_operate (hleaves.2 r (.inr ht)) hleaves.1 fun r' hwoken ↦ ?_)
      cases ht.symm.trans hwoken
      rfl
  | attach t mode =>
    cases ht : s.threads t <;> simp only [ht, reduceCtorEq, some.injEq] at hstep
    subst hstep
    have hqueue : ∀ side, (s.pipe.attach mode).2.queue side = s.pipe.queue side :=
      fun side ↦ by cases mode <;> cases side <;> rfl
    exact h.operated hqueue (by rw [ht]; rfl) (fun _ _ hne ↦ by cases ht.symm.trans hne)
      (tells_ends hqueue (by cases mode <;> exact le_rfl))
  | close t mode =>
    cases ht : s.threads t <;> simp only [ht, reduceCtorEq, some.injEq] at hstep
    subst hstep
    have hqueue : ∀ side, (s.pipe.detach mode).2.queue side = s.pipe.queue side :=
      fun side ↦ by cases mode <;> cases side <;> rfl
    exact h.operated hqueue (by rw [ht]; rfl) (fun _ _ hne ↦ by cases ht.symm.trans hne)
      (tells_ends hqueue (by cases mode <;> exact le_rfl))
  | dup t mode =>
    cases ht : s.threads t <;> simp only [ht, reduceCtorEq, some.injEq] at hstep
    subst hstep
    have hsame : Function.update s.threads t (s.threads t) = s.threads :=
      update_eq_self t _
    rw [← hsame]
    refine h.moved (h.toEnrolled.update (fun side ↦ by cases side <;> rfl) rfl) (fun r hready ↦ ?_)
      (by rw [ht]; rfl) (fun _ hne ↦ by cases ht.symm.trans hne)
    cases r with
    | reader n hn => exact hready
    | writer rest =>
      refine writeReady_of_le (fun hnone ↦ ?_) (by exact le_rfl) hready
      cases mode
      · exact absurd hnone (Nat.succ_ne_zero _)
      · exact hnone
      · exact absurd hnone (Nat.succ_ne_zero _)
  | flush t =>
    cases ht : s.threads t <;> simp only [ht, reduceCtorEq, some.injEq] at hstep
    case flushing notif next =>
      subst hstep
      exact h.flushed ht (by cases next <;> rfl)
  | enrol t =>
    cases ht : s.threads t <;> simp only [ht, reduceCtorEq] at hstep
    case waiting r =>
      split_ifs at hstep
      obtain rfl := some.inj hstep
      refine h.moved (h.toEnrolled.enrol (by rw [ht]; rfl)) (fun r' hready ↦ ?_) (by rw [ht]; rfl)
        (fun _ hne ↦ by cases hne)
      rwa [Pipe.ready_setQueue] at hready
  | check t =>
    cases ht : s.threads t <;> simp only [ht, reduceCtorEq] at hstep
    case enrolled r =>
      split_ifs at hstep with hready
      · obtain rfl := some.inj hstep
        exact h.left (by rw [ht]; rfl) (.inr ⟨r, rfl⟩)
      · obtain rfl := some.inj hstep
        refine h.moved (h.toEnrolled.update (fun _ ↦ rfl) (by rw [ht]; rfl)) (fun _ ↦ id)
          (by rw [ht]; rfl) (fun r' heq ↦ ?_)
        cases heq
        exact Bool.eq_false_of_not_eq_true hready
  | retry t =>
    cases ht : s.threads t <;> simp only [ht, reduceCtorEq, some.injEq] at hstep
    case waiting r =>
      subst hstep
      exact h.moved (h.toEnrolled.update (fun _ ↦ rfl) (by rw [ht]; rfl)) (fun _ ↦ id)
        (by rw [ht]; rfl) (fun _ hne ↦ by cases hne)
    case enrolled r =>
      subst hstep
      exact h.left (by rw [ht]; rfl) (.inr ⟨r, rfl⟩)
    case parked r =>
      subst hstep
      exact h.left (by rw [ht]; rfl) (.inr ⟨r, rfl⟩)
  | kill t =>
    cases ht : s.threads t <;> simp only [ht, reduceCtorEq, some.injEq] at hstep
    case waiting r =>
      subst hstep
      exact h.moved (h.toEnrolled.update (fun _ ↦ rfl) (by rw [ht]; rfl)) (fun _ ↦ id)
        (by rw [ht]; rfl) (fun _ hne ↦ by cases hne)
    case enrolled r =>
      subst hstep
      exact h.left (by rw [ht]; rfl) (.inl rfl)
    case parked r =>
      subst hstep
      exact h.left (by rw [ht]; rfl) (.inl rfl)
    case woken r =>
      subst hstep
      exact h.killed ht hleaves

/-- All notifications have been flushed, and every thread that was woken has run. -/
def Quiet (s : PipeUsers N) : Prop := ∀ t, (s.threads t).settled = true

/-- **No reader or writer is left asleep**, in any run whose steps leave nobody behind: once all is
quiet, no thread is parked on a predicate that holds. -/
theorem nobody_left_asleep (named : Bool) {s : PipeUsers N}
    (h : Reaches step LeavesNobody (start N named) s) (hquiet : s.Quiet) (t : Fin N) :
    (∀ n hn, s.threads t = .parked (.reader n hn) → s.pipe.readable = false) ∧
      ∀ rest, s.threads t = .parked (.writer rest) → s.pipe.writeReady rest.length = false := by
  have hattended : s.Attended :=
    h.invariant (attended_start named) fun _ _ _ ↦ Attended.step
  have hasleep : ∀ r, s.threads t = .parked r → s.pipe.ready r = false := by
    intro r hparked
    by_contra hready
    rcases hattended.attended t r hparked (Bool.eq_true_of_not_eq_false hready) with
      ⟨u, notif, next, hu, -⟩ | ⟨-, u, n, hn, hu⟩
    · exact absurd (hquiet u) (by rw [hu]; exact Bool.false_ne_true)
    · exact absurd (hquiet u) (by rw [hu]; exact Bool.false_ne_true)
  exact ⟨fun n hn ↦ hasleep (.reader n hn), fun rest ↦ hasleep (.writer rest)⟩

/-- The steps by which thread `t` starts a read, finds nothing and parks. -/
def parksReading (t : Fin 3) : List (UserStep 3) :=
  [.start t (.reader 1 Nat.one_pos), .operate t, .flush t, .enrol t, .check t]

/-- A reader is woken and killed while nobody else waits; the byte that woke it goes to another one,
which waits for the next. -/
def killedAlone : List (UserStep 3) :=
  parksReading 0 ++ [.attempt 2 (.writer [7]), .flush 2, .kill 0,
    .attempt 1 (.reader 1 Nat.one_pos), .flush 1] ++ parksReading 1

theorem nobody_left_asleep_of_killed :
    ∃ s, run step (start 3 false) killedAlone = some s ∧
      s.threads 1 = .parked (.reader 1 Nat.one_pos) ∧ s.pipe.readable = false := by
  let check (s : PipeUsers 3) : UserStep 3 → Bool
    | .kill _ => s.pipe.readerWq.isEmpty
    | _ => !s.pipe.closed
  have hcheck (s : PipeUsers 3) (a : UserStep 3) (h : check s a = true) : s.LeavesNobody a := by
    have htakes (hopen : s.pipe.closed = false) (r : Role) : TakesFreely s.pipe r := by
      cases r with
      | reader n hn => exact fun hclosed ↦ absurd (hopen.symm.trans hclosed) (by decide)
      | writer rest => exact trivial
    cases a with
    | kill t => exact fun _ _ ↦ .inl (List.isEmpty_iff.mp h)
    | attempt t r => exact htakes ((Bool.not_eq_true' _).mp h) r
    | operate t =>
      have hopen := (Bool.not_eq_true' _).mp h
      exact ⟨fun _ hclosed ↦ absurd (hopen.symm.trans hclosed) (by decide),
        fun r _ ↦ htakes hopen r⟩
    | _ => trivial
  have hend : (run (fun s a ↦ if check s a = true then step s a else none) (start 3 false)
      killedAlone).map (fun s ↦ (s.threads 0, s.threads 1, s.threads 2)) =
      some (.idle, .parked (.reader 1 Nat.one_pos), .idle) := by decide +kernel
  obtain ⟨s, hs, hthreads⟩ := map_eq_some_iff.mp hend
  simp only [Prod.mk.injEq] at hthreads
  obtain ⟨h0, h1, h2⟩ := hthreads
  obtain ⟨hrun, hreaches⟩ := run_of_checked check hcheck hs
  have hquiet : s.Quiet := by
    show ∀ t : Fin 3, _
    simp [Fin.forall_fin_succ, h0, h1, h2, Status.settled]
  exact ⟨s, hrun, h1, (nobody_left_asleep false hreaches hquiet 1).1 1 Nat.one_pos h1⟩

/-- **A reader is left asleep.** The last writer goes while two readers are parked: the one it wakes
reads end of file and tells nobody. A byte comes while two readers are parked: the one it wakes is
killed and tells nobody. -/
theorem second_reader_left_asleep :
    (∃ s, run step (start 3 false) (parksReading 0 ++ parksReading 1 ++
        [.close 2 .writeOnly, .flush 2, .operate 0, .flush 0]) = some s ∧ s.Quiet ∧
      s.threads 1 = .parked (.reader 1 Nat.one_pos) ∧ s.pipe.readable = true) ∧
    ∃ s, run step (start 3 false) (parksReading 0 ++ parksReading 1 ++
        [.attempt 2 (.writer [7]), .flush 2, .kill 0]) = some s ∧ s.Quiet ∧
      s.threads 1 = .parked (.reader 1 Nat.one_pos) ∧ s.pipe.readable = true := by
  refine ⟨⟨_, rfl, ?_, rfl, rfl⟩, _, rfl, ?_, rfl, rfl⟩ <;>
  · show ∀ t : Fin 3, _
    decide

end PipeUsers

end Edos.Ipc

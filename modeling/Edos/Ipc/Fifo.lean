import Edos.Ipc.Wakeups

/-!
# Opening a named pipe

A named pipe is a name in the file system and, while it is in use, an incarnation: a pipe with two
flags that say which of its ends have ever been opened. `fifo::open` looks the incarnation up and
registers its end on it. The look-up starts a fresh incarnation when the pipe of the registered one
has no end open, and it is a critical section of its own: until the caller has attached, the pipe
it was given has no end to show for it.

An `Open` is one call of `fifo::open` on the key, and then the descriptor it returned. `overlaps`
records, for each call that begins, which calls are in progress or have their descriptor open.
-/

namespace Edos.Ipc

open List Option

/-- `Fifo`, one incarnation. A waiter may return from its wait at any time, so the wait queue is
left out. -/
structure Fifo where
  pipe : Pipe
  readerSeen : Bool
  writerSeen : Bool

def Fifo.new : Fifo := ⟨.newFifo, false, false⟩

/-- `attach`, under the pipe's lock. -/
def Fifo.attach (fifo : Fifo) (mode : OpenMode) : Fifo where
  pipe := (fifo.pipe.attach mode).2
  readerSeen := fifo.readerSeen || mode.readable
  writerSeen := fifo.writerSeen || mode.writable

/-- `detach`, under the pipe's lock. -/
def Fifo.detach (fifo : Fifo) (mode : OpenMode) : Fifo :=
  { fifo with pipe := (fifo.pipe.detach mode).2 }

/-- Whether the peer an open waits for has arrived; a read-write open waits for nobody. -/
def Fifo.peerSeen (fifo : Fifo) : OpenMode → Bool
  | .readOnly => fifo.writerSeen
  | .writeOnly => fifo.readerSeen
  | .readWrite => true

/-- The errors of `open`. -/
inductive OpenError
  | enxio
  | eintr
  deriving Repr, DecidableEq

/-- How far a call of `open` has come, and what became of its descriptor. -/
inductive OpenPhase
  | lookedUp
  | attached
  | waiting
  | returned
  | closed
  | failed (e : OpenError)
  deriving Repr, DecidableEq

/-- Whether an end is registered on the pipe. -/
def OpenPhase.holds : OpenPhase → Bool
  | .attached | .waiting | .returned => true
  | _ => false

/-- Whether the call is in progress, or the descriptor it returned is open. -/
def OpenPhase.live : OpenPhase → Bool
  | .lookedUp | .attached | .waiting | .returned => true
  | _ => false

/-- One call of `open`, on the incarnation it was given. -/
structure Open where
  mode : OpenMode
  nonblock : Bool
  fifo : ℕ
  phase : OpenPhase
  deriving Repr, DecidableEq

/-- The incarnations of one key, in the order they were made, the one that is registered, and the
calls. -/
structure FifoOpens where
  fifos : List Fifo
  registry : Option ℕ
  opens : List Open
  overlaps : List (ℕ × ℕ)

/-- A locked step of a call, or a close of a descriptor. -/
inductive OpenStep
  | incarnation (mode : OpenMode) (nonblock : Bool)
  | attach (i : ℕ)
  /-- The look at the peer's flag. -/
  | decide (i : ℕ)
  /-- The wait ends. -/
  | wake (i : ℕ) (killed : Bool)
  | close (i : ℕ)

namespace FifoOpens

/-- The key has never been opened. -/
def start : FifoOpens := ⟨[], none, [], []⟩

/-- The registered incarnation, if its pipe has an end open. -/
def busy (w : FifoOpens) : Option ℕ :=
  w.registry.filter fun f ↦
    (w.fifos[f]?).any fun fifo ↦ !(fifo.pipe.readers = 0 && fifo.pipe.writers = 0)

/-- The calls in progress, and those whose descriptor is open. -/
def live (w : FifoOpens) : List ℕ :=
  (range w.opens.length).filter fun i ↦ (w.opens[i]?).any fun o ↦ o.phase.live

/-- A call moves on, with an effect on its incarnation. -/
def move (w : FifoOpens) (i : ℕ) (o : Open) (phase : OpenPhase) (f : Fifo → Fifo) : FifoOpens :=
  { w with fifos := w.fifos.modify o.fifo f, opens := w.opens.set i { o with phase } }

/-- One step. -/
def step (w : FifoOpens) : OpenStep → Option FifoOpens
  | .incarnation mode nonblock =>
    let overlaps := w.overlaps ++ w.live.map fun i ↦ (i, w.opens.length)
    match w.busy with
    | some f => some { w with opens := w.opens ++ [⟨mode, nonblock, f, .lookedUp⟩], overlaps }
    | none =>
      some ⟨w.fifos ++ [.new], some w.fifos.length,
        w.opens ++ [⟨mode, nonblock, w.fifos.length, .lookedUp⟩], overlaps⟩
  | .attach i => do
    let o ← w.opens[i]?
    if o.phase = .lookedUp then some (w.move i o .attached (Fifo.attach · o.mode)) else none
  | .decide i => do
    let o ← w.opens[i]?
    let fifo ← w.fifos[o.fifo]?
    if o.phase = .attached then
      if fifo.peerSeen o.mode then some (w.move i o .returned id)
      else if o.nonblock then
        if o.mode.writable then some (w.move i o (.failed .enxio) (Fifo.detach · o.mode))
        else some (w.move i o .returned id)
      else some (w.move i o .waiting id)
    else none
  | .wake i killed => do
    let o ← w.opens[i]?
    if o.phase = .waiting then
      if killed then some (w.move i o (.failed .eintr) (Fifo.detach · o.mode))
      else some (w.move i o .returned id)
    else none
  | .close i => do
    let o ← w.opens[i]?
    if o.phase = .returned then some (w.move i o .closed (Fifo.detach · o.mode)) else none

/-! ## The registered incarnation -/

/-- Whether a mode opens an end. -/
def opensEnd (mode : OpenMode) : Side → Bool
  | .reading => mode.readable
  | .writing => mode.writable

/-- The count of descriptors on an end. -/
def ends (p : Pipe) : Side → ℕ
  | .reading => p.readers
  | .writing => p.writers

/-- Whether a call has an end registered on incarnation `f`. -/
def onEnd (f : ℕ) (side : Side) (o : Open) : Bool :=
  o.fifo = f && o.phase.holds && opensEnd o.mode side

theorem ends_detach (p : Pipe) (mode : OpenMode) (side : Side) :
    ends (p.detach mode).2 side = ends p side - if opensEnd mode side then 1 else 0 := by
  cases mode <;> cases side <;> rfl

/-- Every call that has not let go of its incarnation has the registered one, and the counts of
every pipe are those of the calls registered on it. -/
structure Registered (w : FifoOpens) : Prop where
  current : ∀ o ∈ w.opens, o.phase = .lookedUp ∨ o.phase.holds = true → w.registry = some o.fifo
  bound : ∀ f, w.registry = some f → f < w.fifos.length
  counts : ∀ f fifo side, w.fifos[f]? = some fifo →
    ends fifo.pipe side = w.opens.countP (onEnd f side)

variable {i : ℕ} {o : Open} {phase : OpenPhase} {w w' : FifoOpens} {mode : OpenMode}
  {nonblock : Bool}

/-- Replacing one element of a list moves a count by at most one. -/
theorem countP_set_add {α : Type*} (p : α → Bool) {l : List α} {a b : α} (h : l[i]? = some a) :
    (l.set i b).countP p + (if p a then 1 else 0) = l.countP p + if p b then 1 else 0 := by
  obtain ⟨hi, hget⟩ := List.getElem?_eq_some_iff.mp h
  have hle : (if p a then 1 else 0) ≤ l.countP p := by
    split_ifs with ha
    · exact countP_pos_iff.mpr ⟨a, mem_of_getElem? h, ha⟩
    · exact Nat.zero_le _
  rw [countP_set hi, hget]
  omega

theorem registered_start : start.Registered :=
  ⟨fun _ h ↦ absurd h not_mem_nil, fun _ h ↦ absurd h (some_ne_none _).symm,
    fun _ _ _ h ↦ absurd h (some_ne_none _).symm⟩

/-- The ends a call in a phase has on its pipe. -/
def endsHeld (phase : OpenPhase) (mode : OpenMode) (side : Side) : ℕ :=
  if phase.holds && opensEnd mode side then 1 else 0

/-- A step of a call that has looked up: it goes on to `phase`, and its effect on the pipe is the
end it gains or loses. -/
structure Moves (o : Open) (phase : OpenPhase) (f : Fifo → Fifo) : Prop where
  live : phase.holds = true → o.phase = .lookedUp ∨ o.phase.holds = true
  later : phase ≠ .lookedUp
  effect : ∀ fifo side, endsHeld o.phase o.mode side ≤ ends fifo.pipe side →
    ends (f fifo).pipe side + endsHeld o.phase o.mode side
      = ends fifo.pipe side + endsHeld phase o.mode side

theorem moves_attach (h : o.phase = .lookedUp) : Moves o .attached (Fifo.attach · o.mode) := by
  refine ⟨fun _ ↦ .inl h, by decide, fun fifo side _ ↦ ?_⟩
  rw [h]
  cases o.mode <;> cases side <;> rfl

theorem moves_detach (h : o.phase.holds = true) (hphase : phase.holds = false)
    (hlater : phase ≠ .lookedUp) : Moves o phase (Fifo.detach · o.mode) := by
  refine ⟨fun hholds ↦ absurd (hphase.symm.trans hholds) Bool.false_ne_true, hlater,
    fun fifo side hheld ↦ ?_⟩
  have hends := ends_detach fifo.pipe o.mode side
  rw [endsHeld, h, Bool.true_and] at hheld ⊢
  rw [endsHeld, hphase, Bool.false_and, Fifo.detach, hends]
  simp only [Bool.false_eq_true, if_false]
  omega

theorem moves_id (h : o.phase.holds = true) (hphase : phase.holds = true) : Moves o phase id := by
  refine ⟨fun _ ↦ .inr h, fun heq ↦ ?_, fun fifo side _ ↦ ?_⟩
  · rw [heq] at hphase
    cases hphase
  · rw [endsHeld, endsHeld, h, hphase]
    rfl

/-- Every step is a look-up, or moves one call on. -/
theorem step_cases {a : OpenStep} (h : w.step a = some w') :
    (∃ mode nonblock, a = .incarnation mode nonblock) ∨
      ∃ i o phase f, w.opens[i]? = some o ∧ w' = w.move i o phase f ∧ Moves o phase f := by
  cases a with
  | incarnation mode nonblock => exact .inl ⟨mode, nonblock, rfl⟩
  | attach i =>
    obtain ⟨o, ho, h⟩ := bind_eq_some_iff.mp h
    split_ifs at h with hphase
    exact .inr ⟨i, o, _, _, ho, (some.inj h).symm, moves_attach hphase⟩
  | decide i =>
    obtain ⟨o, ho, h⟩ := bind_eq_some_iff.mp h
    obtain ⟨fifo, hfifo, h⟩ := bind_eq_some_iff.mp h
    split_ifs at h with hphase hseen hnonblock hwrites
    all_goals
      have hholds : o.phase.holds = true := by rw [hphase]; rfl
      refine .inr ⟨i, o, _, _, ho, (some.inj h).symm, ?_⟩
    · exact moves_id hholds rfl
    · exact moves_detach hholds rfl (by decide)
    · exact moves_id hholds rfl
    · exact moves_id hholds rfl
  | wake i killed =>
    obtain ⟨o, ho, h⟩ := bind_eq_some_iff.mp h
    split_ifs at h with hphase hkilled
    all_goals
      have hholds : o.phase.holds = true := by rw [hphase]; rfl
      refine .inr ⟨i, o, _, _, ho, (some.inj h).symm, ?_⟩
    · exact moves_detach hholds rfl (by decide)
    · exact moves_id hholds rfl
  | close i =>
    obtain ⟨o, ho, h⟩ := bind_eq_some_iff.mp h
    split_ifs at h with hphase
    have hholds : o.phase.holds = true := by rw [hphase]; rfl
    exact .inr ⟨i, o, _, _, ho, (some.inj h).symm, moves_detach hholds rfl (by decide)⟩

theorem Registered.moved (h : w.Registered) {f : Fifo → Fifo} (ho : w.opens[i]? = some o)
    (hmoves : Moves o phase f) : (w.move i o phase f).Registered := by
  refine ⟨fun o' ho' hlive' ↦ ?_, fun g hg ↦ ?_, fun g fifo side hfifo ↦ ?_⟩
  · rcases mem_or_eq_of_mem_set ho' with hold | rfl
    · exact h.current o' hold hlive'
    · exact h.current o (mem_of_getElem? ho)
        (hmoves.live (hlive'.resolve_left hmoves.later))
  · rw [move, length_modify]
    exact h.bound g hg
  · have hcount := countP_set_add (onEnd g side) (b := { o with phase }) ho
    obtain ⟨before, hbefore, rfl⟩ : ∃ before, w.fifos[g]? = some before ∧
        (if o.fifo = g then f before else before) = fifo := by
      rw [move, getElem?_modify] at hfifo
      exact map_eq_some_iff.mp hfifo
    have hbase := h.counts g before side hbefore
    show ends _ side = (w.opens.set i { o with phase }).countP (onEnd g side)
    by_cases hg : o.fifo = g
    · subst hg
      rw [if_pos rfl]
      simp only [onEnd, decide_true, Bool.true_and] at hcount hbase
      have hheld : endsHeld o.phase o.mode side ≤ ends before.pipe side := by
        rw [hbase, endsHeld]
        split_ifs with hend
        · exact countP_pos_iff.mpr ⟨o, mem_of_getElem? ho, by simpa [onEnd] using hend⟩
        · exact Nat.zero_le _
      have hends := hmoves.effect before side hheld
      simp only [endsHeld] at hends
      omega
    · rw [if_neg hg, hbase]
      simp only [onEnd, hg, decide_false, Bool.false_and, Bool.false_eq_true, if_false] at hcount ⊢
      exact hcount.symm

/-- The counts do not see a call that has only looked up. -/
theorem countP_append_lookedUp (w : FifoOpens) (mode : OpenMode) (nonblock : Bool) (f g : ℕ)
    (side : Side) :
    (w.opens ++ [(⟨mode, nonblock, f, .lookedUp⟩ : Open)]).countP (onEnd g side)
      = w.opens.countP (onEnd g side) := by
  simp [onEnd, OpenPhase.holds]

theorem registry_of_busy {f : ℕ} (h : w.busy = some f) : w.registry = some f :=
  (filter_eq_some_iff.mp h).1

/-- A look-up replaces the registered incarnation only when no call is registered on it. -/
theorem Registered.not_holds_of_busy_eq_none (h : w.Registered) (hbusy : w.busy = none)
    (ho : o ∈ w.opens) : o.phase.holds = false := by
  by_contra hholds
  have hholds : o.phase.holds = true := Bool.eq_true_of_not_eq_false hholds
  have hcurrent := h.current o ho (.inr hholds)
  obtain ⟨fifo, hfifo⟩ : ∃ fifo, w.fifos[o.fifo]? = some fifo :=
    ⟨_, getElem?_eq_getElem (h.bound _ hcurrent)⟩
  have hpos : ∀ side, opensEnd o.mode side = true → 0 < ends fifo.pipe side := by
    intro side hside
    rw [h.counts _ fifo side hfifo]
    refine countP_pos_iff.mpr ⟨o, ho, ?_⟩
    simp [onEnd, hholds, hside]
  have hidle : fifo.pipe.readers = 0 ∧ fifo.pipe.writers = 0 := by
    rw [busy, hcurrent] at hbusy
    simpa [filter_some, hfifo] using hbusy
  have hread := hpos .reading
  have hwrite := hpos .writing
  rw [ends, hidle.1] at hread
  rw [ends, hidle.2] at hwrite
  cases hmode : o.mode <;> rw [hmode] at hread hwrite
  · exact absurd (hread rfl) (lt_irrefl 0)
  · exact absurd (hwrite rfl) (lt_irrefl 0)
  · exact absurd (hread rfl) (lt_irrefl 0)

/-- No look-up replaces the registered incarnation while another call is between its look-up and
its attach. -/
def LooksUpAlone (w : FifoOpens) : OpenStep → Prop
  | .incarnation _ _ => w.busy = none → ∀ o ∈ w.opens, o.phase ≠ .lookedUp
  | _ => True

/-- A look-up gives a call the incarnation of every call that has not let go of its own. -/
theorem Registered.busy_eq_some (h : w.Registered)
    (halone : w.busy = none → ∀ o ∈ w.opens, o.phase ≠ .lookedUp) (ho : o ∈ w.opens)
    (hlive : o.phase = .lookedUp ∨ o.phase.holds = true) : w.busy = some o.fifo := by
  cases hbusy : w.busy with
  | some f => exact (registry_of_busy hbusy).symm.trans (h.current o ho hlive)
  | none =>
    rcases hlive with hlooked | hholds
    · exact absurd hlooked (halone hbusy o ho)
    · exact absurd ((h.not_holds_of_busy_eq_none hbusy ho).symm.trans hholds) Bool.false_ne_true

/-- A look-up gives the call the registered incarnation if that is in use, or a fresh one. -/
theorem step_incarnation (h : w.step (.incarnation mode nonblock) = some w') :
    ∃ f fresh, (∀ g, w.busy = some g → f = g) ∧ (∀ fifo ∈ fresh, fifo = .new) ∧
      (w.registry = some f ∨ f < (w.fifos ++ fresh).length) ∧
      w' = ⟨w.fifos ++ fresh, some f, w.opens ++ [⟨mode, nonblock, f, .lookedUp⟩],
        w.overlaps ++ w.live.map fun i ↦ (i, w.opens.length)⟩ := by
  rw [step] at h
  cases hbusy : w.busy with
  | some f =>
    simp only [hbusy, some.injEq] at h
    refine ⟨f, [], fun g hg ↦ some.inj hg, nofun, .inl (registry_of_busy hbusy), ?_⟩
    rw [← h, append_nil, registry_of_busy hbusy]
  | none =>
    simp only [hbusy, some.injEq] at h
    exact ⟨_, [.new], nofun, fun _ ↦ mem_singleton.mp, .inr (by simp), h.symm⟩

theorem Registered.incarnation (h : w.Registered)
    (halone : w.LooksUpAlone (.incarnation mode nonblock))
    (hstep : w.step (.incarnation mode nonblock) = some w') : w'.Registered := by
  obtain ⟨f, fresh, hgiven, hnew, hbound, rfl⟩ := step_incarnation hstep
  refine ⟨fun o ho hlive ↦ ?_, fun g hg ↦ ?_, fun g fifo side hfifo ↦ ?_⟩
  · rcases mem_append.mp ho with hold | hnew
    · exact congrArg some (hgiven _ (h.busy_eq_some halone hold hlive))
    · rw [mem_singleton.mp hnew]
  · obtain rfl := some.inj hg
    refine hbound.elim (fun hreg ↦ (h.bound f hreg).trans_le ?_) id
    rw [length_append]
    exact Nat.le_add_right _ _
  · rw [w.countP_append_lookedUp]
    rcases lt_or_ge g w.fifos.length with hg | hg
    · rw [getElem?_append_left hg] at hfifo
      exact h.counts g fifo side hfifo
    · -- a fresh incarnation: nobody is registered on it
      rw [getElem?_append_right hg] at hfifo
      have hzero : w.opens.countP (onEnd g side) = 0 := by
        rw [countP_eq_zero]
        intro o ho hon
        simp only [onEnd, Bool.and_eq_true, decide_eq_true_eq] at hon
        obtain ⟨⟨rfl, hholds⟩, -⟩ := hon
        exact absurd (h.bound _ (h.current o ho (.inr hholds))) (not_lt.mpr hg)
      rw [hzero, hnew fifo (mem_of_getElem? hfifo)]
      cases side <;> rfl

/-- Calls that overlapped were given the same incarnation. -/
def Paired (w : FifoOpens) : Prop :=
  ∀ a b, (a, b) ∈ w.overlaps →
    ∃ oa ob, w.opens[a]? = some oa ∧ w.opens[b]? = some ob ∧ oa.fifo = ob.fifo

theorem fifo_move (ho : w.opens[i]? = some o) (phase : OpenPhase) (f : Fifo → Fifo) {a : ℕ}
    {oa : Open} (ha : w.opens[a]? = some oa) :
    ∃ oa', (w.move i o phase f).opens[a]? = some oa' ∧ oa'.fifo = oa.fifo := by
  rw [move, getElem?_set]
  by_cases hia : i = a
  · subst hia
    rw [if_pos rfl, if_pos (List.getElem?_eq_some_iff.mp ho).1]
    refine ⟨_, rfl, ?_⟩
    rw [some.inj (ha.symm.trans ho)]
  · rw [if_neg hia]
    exact ⟨oa, ha, rfl⟩

theorem Paired.moved (h : w.Paired) (ho : w.opens[i]? = some o) (phase : OpenPhase)
    (f : Fifo → Fifo) : (w.move i o phase f).Paired := by
  intro a b hab
  obtain ⟨oa, ob, ha, hb, hfifo⟩ := h a b hab
  obtain ⟨oa', ha', hfa⟩ := fifo_move ho phase f ha
  obtain ⟨ob', hb', hfb⟩ := fifo_move ho phase f hb
  exact ⟨oa', ob', ha', hb', hfa.trans (hfifo.trans hfb.symm)⟩

theorem phase_of_mem_live (h : i ∈ w.live) :
    ∃ o, w.opens[i]? = some o ∧ o.phase.live = true :=
  (Option.any_eq_true _ _).mp (mem_filter.mp h).2

theorem lookedUp_or_holds_of_live (h : phase.live = true) :
    phase = .lookedUp ∨ phase.holds = true := by
  cases phase <;> first | exact .inl rfl | exact .inr rfl | cases h

theorem Paired.incarnation (h : w.Paired) (hreg : w.Registered)
    (halone : w.LooksUpAlone (.incarnation mode nonblock))
    (hstep : w.step (.incarnation mode nonblock) = some w') : w'.Paired := by
  obtain ⟨f, fresh, hgiven, -, -, rfl⟩ := step_incarnation hstep
  have hkeep {i : ℕ} {o o' : Open} (ho : w.opens[i]? = some o) :
      (w.opens ++ [o'])[i]? = some o := by
    rw [getElem?_append_left (List.getElem?_eq_some_iff.mp ho).1, ho]
  intro a b hab
  rcases mem_append.mp hab with hold | hnew
  · obtain ⟨oa, ob, ha, hb, hfifo⟩ := h a b hold
    exact ⟨oa, ob, hkeep ha, hkeep hb, hfifo⟩
  · obtain ⟨i, hi, heq⟩ := List.mem_map.mp hnew
    obtain ⟨rfl, rfl⟩ := Prod.mk.inj heq
    obtain ⟨o, ho, hlive⟩ := phase_of_mem_live hi
    refine ⟨o, ⟨mode, nonblock, f, .lookedUp⟩, hkeep ho, getElem?_concat_length, ?_⟩
    exact (hgiven _ (hreg.busy_eq_some halone (mem_of_getElem? ho)
      (lookedUp_or_holds_of_live hlive))).symm

/-- **Named pipe rendezvous**, in any run in which no look-up replaces the registered incarnation
while another call is between its look-up and its attach: calls that overlap are given the same
pipe, and any two calls that wait do so on the same one. -/
theorem overlapping_opens_meet {w : FifoOpens} (h : Reaches step LooksUpAlone start w) :
    (∀ a b oa ob, (a, b) ∈ w.overlaps → w.opens[a]? = some oa → w.opens[b]? = some ob →
      oa.fifo = ob.fifo) ∧
    ∀ oa ∈ w.opens, ∀ ob ∈ w.opens, oa.phase = .waiting → ob.phase = .waiting →
      oa.fifo = ob.fifo := by
  have hinv : w.Registered ∧ w.Paired := by
    refine h.invariant (I := fun w ↦ w.Registered ∧ w.Paired)
      ⟨registered_start, fun a b hab ↦ absurd hab not_mem_nil⟩ ?_
    rintro w a w' ⟨hreg, hpaired⟩ halone hstep
    rcases step_cases hstep with ⟨mode, nonblock, rfl⟩ | ⟨i, o, phase, f, ho, rfl, hmoves⟩
    · exact ⟨hreg.incarnation halone hstep, hpaired.incarnation hreg halone hstep⟩
    · exact ⟨hreg.moved ho hmoves, hpaired.moved ho phase f⟩
  obtain ⟨hreg, hpaired⟩ := hinv
  refine ⟨fun a b oa ob hab ha hb ↦ ?_, fun oa ha ob hb hwa hwb ↦ ?_⟩
  · obtain ⟨oa', ob', ha', hb', hfifo⟩ := hpaired a b hab
    rw [some.inj (ha.symm.trans ha'), some.inj (hb.symm.trans hb')]
    exact hfifo
  · have hca := hreg.current oa ha (.inr (by rw [hwa]; rfl))
    have hcb := hreg.current ob hb (.inr (by rw [hwb]; rfl))
    exact some.inj (hca.symm.trans hcb)

/-- A reader that has attached and waits, and then a writer: the second look-up finds the first
call's end. -/
theorem overlapping_opens_meet_reader_first :
    ∃ w, run step start [.incarnation .readOnly false, .attach 0, .decide 0,
        .incarnation .writeOnly false] = some w ∧
      w.overlaps = [(0, 1)] ∧ (w.opens[0]?).map Open.fifo = (w.opens[1]?).map Open.fifo := by
  refine ⟨_, rfl, rfl, ?_⟩
  have hreader : Reaches step LooksUpAlone start _ :=
    Reaches.refl.tail (a := OpenStep.incarnation .readOnly false)
      (fun _ o ho ↦ absurd ho not_mem_nil) rfl
  have hattach := hreader.tail (a := OpenStep.attach 0) trivial rfl
  have hwait := hattach.tail (a := OpenStep.decide 0) trivial rfl
  have hwriter := hwait.tail (a := OpenStep.incarnation .writeOnly false)
    (fun hbusy ↦ absurd hbusy (by decide)) rfl
  exact congrArg some ((overlapping_opens_meet hwriter).1 0 1 _ _ (by decide) rfl rfl)

/-- The writer looks up before the reader has attached, and each waits on an incarnation of its
own. -/
theorem reader_and_writer_wait_apart :
    ∃ w, run step start [.incarnation .readOnly false, .incarnation .writeOnly false, .attach 0,
        .attach 1, .decide 0, .decide 1] = some w ∧
      w.overlaps = [(0, 1)] ∧
      w.opens = [⟨.readOnly, false, 0, .waiting⟩, ⟨.writeOnly, false, 1, .waiting⟩] :=
  ⟨_, rfl, rfl, rfl⟩

end FifoOpens

end Edos.Ipc

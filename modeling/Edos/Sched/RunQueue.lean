import Edos.Lib.Transition
import Mathlib.Algebra.BigOperators.Ring.List
import Mathlib.Algebra.Order.BigOperators.Group.List
import Mathlib.Algebra.Order.Ring.Nat
import Mathlib.Data.List.MinMax
import Mathlib.Data.Prod.Lex

/-!
# The run queue

Each thread has a virtual clock that runs the slower the heavier the thread is. `V` stands for the
weighted average of the clocks in the queue: a thread that is not ahead of it is *eligible*, and of
the eligible ones the one with the earliest virtual deadline is picked.

`avg_vruntime` takes the clocks relative to `vtime`, a watermark of `V` that never moves back, with
a subtraction that saturates. So a thread behind the watermark counts as if it were level with it,
and `V` is the average only if that is lost in the rounding (`avgVruntime_eq_average`). But picking
a thread moves the watermark up to `V`, and the other threads that were behind `V` are then behind
the watermark (`ahead_of_average_picked`).

A thread that goes to sleep takes its distance from `V` along, up to a slice, and comes back at that
distance from what `V` is then (`lag_survives_sleep`).
-/

namespace Edos.Sched

open List

/-- The nearest `u64`. -/
def satU64 (n : ℕ) : UInt64 := .ofNat (min n (2 ^ 64 - 1))

/-- The nearest `i64`. -/
def satI64 (n : ℤ) : ℤ := max (-2 ^ 63) (min n (2 ^ 63 - 1))

/-- `as i64`. -/
def asI64 (n : UInt64) : ℤ := n.toInt64.toInt

def priorityWeight : List ℕ :=
  [215, 268, 336, 419, 524, 655, 819, 1024, 1280, 1600, 2000, 2500, 3125, 3906, 4883, 6104]

/-- `weight_of`. -/
def weightOf (priority : UInt8) : ℕ := priorityWeight.getD (min priority.toNat 15) 0

/-- `BASE_SLICE`, in nanoseconds. -/
def baseSlice : UInt64 := 1000000

/-- `virtual_delta`. -/
def virtualDelta (delta : UInt64) (weight : ℕ) : UInt64 :=
  .ofNat ((satU64 (delta.toNat * 1024)).toNat / max weight 1)

/-- What the scheduler knows of a thread. -/
structure Thread where
  /-- `effective_priority`. -/
  priority : UInt8
  slice : UInt64
  vruntime : UInt64
  vdeadline : UInt64
  vlag : ℤ
  deriving DecidableEq

namespace Thread

def weight (t : Thread) : ℕ := weightOf t.priority

/-- What threads are picked by. -/
def key (t : Thread) : ℕ ×ₗ ℕ := toLex (t.vdeadline.toNat, t.vruntime.toNat)

def clampLag (t : Thread) (lag : ℤ) : ℤ :=
  let limit := asI64 (virtualDelta baseSlice t.weight)
  max (-limit) (min lag limit)

/-- The deadline of a request that is made at a point of the thread's clock. -/
def deadline (t : Thread) (vruntime request : UInt64) : UInt64 :=
  satU64 (vruntime.toNat + (virtualDelta request t.weight).toNat)

def chargeVruntime (t : Thread) (elapsed : UInt64) : Thread :=
  let vruntime := satU64 (t.vruntime.toNat + (virtualDelta elapsed t.weight).toNat)
  { t with
    vruntime := vruntime
    vdeadline := if t.vdeadline ≤ vruntime then t.deadline vruntime t.slice else t.vdeadline }

end Thread

structure RunQueue where
  queue : List Thread
  vtime : UInt64
  deriving DecidableEq

namespace RunQueue

/-- The sum of the weights. -/
def total (rq : RunQueue) : ℕ := (rq.queue.map Thread.weight).sum

/-- The weighted sum of the clocks, relative to the watermark. -/
def weighted (rq : RunQueue) : ℕ :=
  (rq.queue.map fun t ↦ (t.vruntime.toNat - rq.vtime.toNat) * t.weight).sum

def avgVruntime (rq : RunQueue) : UInt64 :=
  if rq.total = 0 then rq.vtime
  else satU64 (rq.vtime.toNat + (UInt64.ofNat (rq.weighted / rq.total)).toNat)

/-- Move the watermark up to `V`. -/
def advance (rq : RunQueue) : RunQueue :=
  { rq with vtime := .ofNat (max rq.vtime.toNat rq.avgVruntime.toNat) }

def recordLag (rq : RunQueue) (t : Thread) : RunQueue × Thread :=
  (rq.advance, { t with vlag := t.clampLag (satI64 (asI64 rq.avgVruntime - asI64 t.vruntime)) })

def place (rq : RunQueue) (t : Thread) (request : UInt64) : RunQueue × Thread :=
  let vruntime : UInt64 := .ofNat (satI64 (asI64 rq.avgVruntime - t.clampLag t.vlag)).toNat
  (rq.advance, { t with vruntime := vruntime, vdeadline := t.deadline vruntime request, vlag := 0 })

def enqueue (rq : RunQueue) (t : Thread) : RunQueue := { rq with queue := rq.queue ++ [t] }

def enqueueWaking (rq : RunQueue) (t : Thread) (request : UInt64) : RunQueue :=
  (rq.place t request).1.enqueue (rq.place t request).2

/-- A round of the loop of `pick_next`: the best of the eligible threads so far and the one with the
earliest clock, with their places in the queue. -/
def consider (v : UInt64) (found : Option (Thread × ℕ) × Option (Thread × ℕ)) (x : Thread × ℕ) :
    Option (Thread × ℕ) × Option (Thread × ℕ) :=
  let earliest := match found.2 with
    | some e => if e.1.vruntime ≤ x.1.vruntime then some e else some x
    | none => some x
  if v < x.1.vruntime then (found.1, earliest)
  else
    (match found.1 with
      | some b => if b.1.key ≤ x.1.key then some b else some x
      | none => some x, earliest)

def pickNext (rq : RunQueue) : Option (Thread × RunQueue) :=
  let found := rq.queue.zipIdx.foldl (consider rq.avgVruntime) (none, none)
  (found.1.or found.2).map fun (t, i) ↦ (t, { rq.advance with queue := rq.queue.eraseIdx i })

/-- `steal_victim`: of the threads that may go, the one with the latest deadline. -/
def stealVictim (rq : RunQueue) (allowed : Thread → Bool) : Option (Thread × RunQueue) :=
  let best := (rq.queue.zipIdx.filter fun x ↦ allowed x.1).foldl (fun best x ↦ match best with
    | some b => if x.1.vdeadline ≤ b.1.vdeadline then some b else some x
    | none => some x) none
  best.map fun (t, i) ↦ (t, { rq with queue := rq.queue.eraseIdx i })

end RunQueue

/-! ## A processor -/

/-- A processor with its queue. -/
structure Cpu where
  rq : RunQueue
  current : Option Thread
  /-- Threads that sleep, that are new, or that come from another processor. -/
  away : List Thread
  deriving DecidableEq

/-- What happens to a processor. -/
inductive Event where
  | arrive (t : Thread)
  | wake (i : ℕ) (request : UInt64)
  /-- A thread is stolen from another processor and runs at once. -/
  | takeOver (i : ℕ) (request : UInt64)
  | run (elapsed : UInt64)
  | preempt
  | block
  | pick
  | steal (allowed : Thread → Bool)
  /-- The priorities of queued threads are set or lent. -/
  | prioritize (priority : Thread → UInt8)

namespace Cpu

def idle : Cpu := ⟨⟨[], 0⟩, none, []⟩

def step (c : Cpu) : Event → Option Cpu
  | .arrive t => some { c with away := c.away ++ [t] }
  | .wake i request => c.away[i]?.map fun t ↦
      { c with rq := c.rq.enqueueWaking t request, away := c.away.eraseIdx i }
  | .takeOver i request => match c.current with
    | some _ => none
    | none => c.away[i]?.map fun t ↦
        ⟨(c.rq.place t request).1, some (c.rq.place t request).2, c.away.eraseIdx i⟩
  | .run elapsed => c.current.map fun t ↦ { c with current := some (t.chargeVruntime elapsed) }
  | .preempt => c.current.map fun t ↦ { c with rq := c.rq.enqueue t, current := none }
  | .block => c.current.map fun t ↦
      ⟨(c.rq.recordLag t).1, none, c.away ++ [(c.rq.recordLag t).2]⟩
  | .pick => match c.current with
    | some _ => none
    | none => c.rq.pickNext.map fun (t, rq) ↦ { c with rq := rq, current := some t }
  | .steal allowed => (c.rq.stealVictim allowed).map fun (_, rq) ↦ { c with rq := rq }
  | .prioritize priority => some { c with rq := { c.rq with
      queue := c.rq.queue.map fun t ↦ { t with priority := priority t } } }

end Cpu

/-! ## Averages -/

section Sums

variable {α : Type*} {l : List α} {f w : α → ℕ} {k : ℕ}

theorem mul_sum_le (h : ∀ x ∈ l, k ≤ f x) : k * (l.map w).sum ≤ (l.map fun x ↦ f x * w x).sum := by
  rw [← sum_map_mul_left]
  exact sum_le_sum fun x hx ↦ Nat.mul_le_mul_right _ (h x hx)

theorem sum_le_mul (h : ∀ x ∈ l, f x ≤ k) : (l.map fun x ↦ f x * w x).sum ≤ k * (l.map w).sum := by
  rw [← sum_map_mul_left]
  exact sum_le_sum fun x hx ↦ Nat.mul_le_mul_right _ (h x hx)

end Sums

theorem le_weight (t : Thread) : 215 ≤ t.weight := by
  have h : ∀ i ≤ 15, 215 ≤ priorityWeight.getD i 0 := by decide
  exact h _ (min_le_right _ _)

theorem toNat_satU64 {n : ℕ} (h : n < 2 ^ 64) : (satU64 n).toNat = n := by
  rw [satU64, min_eq_left (Nat.le_sub_one_of_lt h), UInt64.toNat_ofNat', Nat.mod_eq_of_lt h]

namespace RunQueue

variable {rq : RunQueue}

theorem total_pos (hne : rq.queue ≠ []) : 0 < rq.total := by
  obtain ⟨t, ht⟩ := exists_mem_of_ne_nil _ hne
  exact (Nat.zero_lt_of_lt (le_weight t)).trans_le
    (single_le_sum (fun _ _ ↦ Nat.zero_le _) _ (mem_map_of_mem ht))

/-- Nothing saturates, since no clock is beyond the range of a `u64`. -/
theorem toNat_avgVruntime (rq : RunQueue) :
    rq.avgVruntime.toNat = rq.vtime.toNat + rq.weighted / rq.total := by
  rw [avgVruntime]
  split_ifs with hzero
  · rw [hzero, Nat.div_zero, add_zero]
  · have hvtime := rq.vtime.toNat_lt
    have hle : rq.weighted / rq.total ≤ 2 ^ 64 - 1 - rq.vtime.toNat := by
      refine Nat.div_le_of_le_mul ?_
      rw [mul_comm]
      exact sum_le_mul fun t _ ↦ by
        have := t.vruntime.toNat_lt
        omega
    rw [UInt64.toNat_ofNat', Nat.mod_eq_of_lt (by omega), toNat_satU64 (by omega)]

theorem vtime_le_advance (rq : RunQueue) : rq.vtime ≤ rq.advance.vtime := by
  have h₁ := rq.vtime.toNat_lt
  have h₂ := rq.avgVruntime.toNat_lt
  rw [UInt64.le_iff_toNat_le, advance, UInt64.toNat_ofNat', Nat.mod_eq_of_lt (max_lt h₁ h₂)]
  exact le_max_left _ _

/-- **Somebody is eligible**: an average is not below all of what it is taken over. -/
theorem exists_eligible (hne : rq.queue ≠ []) : ∃ t ∈ rq.queue, t.vruntime ≤ rq.avgVruntime := by
  by_contra hnot
  have hnone : ∀ t ∈ rq.queue, ¬t.vruntime ≤ rq.avgVruntime := fun t ht hle ↦ hnot ⟨t, ht, hle⟩
  have hall : ∀ t ∈ rq.queue, rq.weighted / rq.total + 1 ≤ t.vruntime.toNat - rq.vtime.toNat := by
    intro t ht
    have hlt := UInt64.lt_iff_toNat_lt.mp (UInt64.not_le.mp (hnone t ht))
    rw [toNat_avgVruntime] at hlt
    omega
  have hsum : (rq.weighted / rq.total + 1) * rq.total ≤ rq.weighted := mul_sum_le hall
  exact absurd hsum (not_le.mpr (Nat.lt_mul_of_div_lt (Nat.lt_succ_self _) (total_pos hne)))

/-! ## The pick -/

/-- The loop keeps the first of the eligible threads with the least key. -/
theorem foldl_consider (v : UInt64) (l : List (Thread × ℕ))
    (found : Option (Thread × ℕ) × Option (Thread × ℕ)) :
    (l.foldl (consider v) found).1 = (l.filter fun x ↦ x.1.vruntime ≤ v).foldl
      (argAux fun x y ↦ x.1.key < y.1.key) found.1 := by
  induction l generalizing found with
  | nil => rfl
  | cons x l ih =>
    rw [foldl_cons, ih, filter_cons]
    by_cases hv : x.1.vruntime ≤ v
    · rw [if_pos (decide_eq_true hv), foldl_cons, consider, if_neg (UInt64.not_lt.mpr hv)]
      cases found.1 with
      | none => rfl
      | some b =>
        rw [argAux]
        simp only [← not_le, ite_not]
    · rw [if_neg (by simpa using hv), consider, if_pos (UInt64.not_le.mp hv)]

theorem mem_zipIdx {x : Thread × ℕ} (h : x ∈ rq.queue.zipIdx) :
    rq.queue = rq.queue.take x.2 ++ x.1 :: rq.queue.drop (x.2 + 1) := by
  obtain ⟨hlt, heq⟩ := List.getElem?_eq_some_iff.mp (mem_zipIdx_iff_getElem?.mp h)
  rw [← heq, getElem_cons_drop, take_append_drop]

/-- What `pick_next` does to a queue that is not empty. -/
theorem pickNext_eq (hne : rq.queue ≠ []) :
    ∃ xs t ys, rq.queue = xs ++ t :: ys ∧
      rq.pickNext = some (t, { rq.advance with queue := xs ++ ys }) ∧
      t.vruntime ≤ rq.avgVruntime ∧
      ∀ u ∈ rq.queue, u.vruntime ≤ rq.avgVruntime → t.key ≤ u.key := by
  have hargmin : (rq.queue.zipIdx.foldl (consider rq.avgVruntime) (none, none)).1
      = (rq.queue.zipIdx.filter fun x ↦ x.1.vruntime ≤ rq.avgVruntime).argmin fun x ↦ x.1.key :=
    foldl_consider _ _ _
  have hmem {u : Thread} (hu : u ∈ rq.queue) (hv : u.vruntime ≤ rq.avgVruntime) :
      ∃ i, (u, i) ∈ rq.queue.zipIdx.filter fun x ↦ x.1.vruntime ≤ rq.avgVruntime := by
    obtain ⟨i, hi⟩ := mem_iff_getElem?.mp hu
    exact ⟨i, mem_filter.mpr ⟨mem_zipIdx_iff_getElem?.mpr hi, decide_eq_true hv⟩⟩
  rw [pickNext]
  cases hbest : (rq.queue.zipIdx.filter fun x ↦ x.1.vruntime ≤ rq.avgVruntime).argmin
      fun x ↦ x.1.key with
  | none =>
    obtain ⟨u, hu, hv⟩ := exists_eligible hne
    obtain ⟨i, hi⟩ := hmem hu hv
    rw [argmin_eq_none.mp hbest] at hi
    cases hi
  | some x =>
    obtain ⟨hx, hv⟩ := mem_filter.mp (argmin_mem hbest)
    refine ⟨_, x.1, _, mem_zipIdx hx, ?_, of_decide_eq_true hv, fun u hu hv ↦ ?_⟩
    · dsimp only
      rw [hargmin, hbest, Option.some_or, Option.map_some, eraseIdx_eq_take_drop_succ]
    · obtain ⟨i, hi⟩ := hmem hu hv
      exact le_of_mem_argmin (f := fun x : Thread × ℕ ↦ x.1.key) hi hbest

end RunQueue

namespace Cpu

/-- No event moves the watermark back. -/
theorem vtime_le_step {c c' : Cpu} {e : Event} (h : c.step e = some c') :
    c.rq.vtime ≤ c'.rq.vtime := by
  cases e with
  | arrive | prioritize =>
    cases h
    exact UInt64.le_refl _
  | wake | block =>
    obtain ⟨t, -, rfl⟩ := Option.map_eq_some_iff.mp h
    exact c.rq.vtime_le_advance
  | run | preempt =>
    obtain ⟨t, -, rfl⟩ := Option.map_eq_some_iff.mp h
    exact UInt64.le_refl _
  | takeOver =>
    rw [step] at h
    split at h
    · cases h
    · obtain ⟨t, -, rfl⟩ := Option.map_eq_some_iff.mp h
      exact c.rq.vtime_le_advance
  | pick =>
    rw [step] at h
    split at h
    · cases h
    · obtain ⟨_, hpick, rfl⟩ := Option.map_eq_some_iff.mp h
      obtain ⟨_, -, rfl⟩ := Option.map_eq_some_iff.mp hpick
      exact c.rq.vtime_le_advance
  | steal =>
    obtain ⟨_, hsteal, rfl⟩ := Option.map_eq_some_iff.mp h
    obtain ⟨_, -, rfl⟩ := Option.map_eq_some_iff.mp hsteal
    exact UInt64.le_refl _

theorem vtime_le_of_reaches {c c' : Cpu} (h : Reaches step (fun _ _ ↦ True) c c') :
    c.rq.vtime ≤ c'.rq.vtime :=
  h.invariant (UInt64.le_refl _) fun _ _ _ hle _ hstep ↦ UInt64.le_trans hle (vtime_le_step hstep)

end Cpu

/-- **The pick is the earliest eligible deadline.** Some thread of a queue that is not empty is
eligible, `pick_next` takes out one thread that is, and no eligible one comes before it; and the
watermark never goes back. -/
theorem pick_earliest_eligible :
    (∀ rq : RunQueue, rq.queue ≠ [] →
      (∃ t ∈ rq.queue, t.vruntime ≤ rq.avgVruntime) ∧
      ∃ xs t ys, rq.queue = xs ++ t :: ys ∧
        rq.pickNext = some (t, { rq.advance with queue := xs ++ ys }) ∧
        t.vruntime ≤ rq.avgVruntime ∧
        ∀ u ∈ rq.queue, u.vruntime ≤ rq.avgVruntime → t.key ≤ u.key) ∧
      ∀ c c', Reaches Cpu.step (fun _ _ ↦ True) c c' → c.rq.vtime ≤ c'.rq.vtime :=
  ⟨fun _ hne ↦ ⟨RunQueue.exists_eligible hne, RunQueue.pickNext_eq hne⟩,
    fun _ _ ↦ Cpu.vtime_le_of_reaches⟩

/-- Of two threads the one with the earlier deadline is ahead of the average, and the other is
picked. -/
theorem pick_earliest_eligible_two :
    ∃ xs t ys, [(⟨7, 0, 50, 60, 0⟩ : Thread), ⟨7, 0, 10, 90, 0⟩] = xs ++ t :: ys ∧
      t.vruntime ≤ (RunQueue.mk [⟨7, 0, 50, 60, 0⟩, ⟨7, 0, 10, 90, 0⟩] 5).avgVruntime := by
  obtain ⟨-, xs, t, ys, hqueue, -, hle, -⟩ := pick_earliest_eligible.1
    ⟨[⟨7, 0, 50, 60, 0⟩, ⟨7, 0, 10, 90, 0⟩], 5⟩ (cons_ne_nil _ _)
  exact ⟨xs, t, ys, hqueue, hle⟩

/-! ## The average -/

/-- The weighted sum of the clocks. -/
def RunQueue.clocks (rq : RunQueue) : ℕ :=
  (rq.queue.map fun t ↦ t.vruntime.toNat * t.weight).sum

/-- How far the threads of the queue are behind the watermark, weighted. -/
def RunQueue.shortfall (rq : RunQueue) : ℕ :=
  (rq.queue.map fun t ↦ (rq.vtime.toNat - t.vruntime.toNat) * t.weight).sum

theorem RunQueue.weighted_add (rq : RunQueue) :
    rq.weighted + rq.vtime.toNat * rq.total = rq.clocks + rq.shortfall := by
  rw [clocks, weighted, shortfall, total, ← sum_map_mul_left, ← sum_map_add, ← sum_map_add]
  refine congrArg sum (map_congr_left fun t _ ↦ ?_)
  rw [← add_mul, ← add_mul]
  congr 1
  omega

/-- **`V` is the weighted average**, rounded down, and who is ahead of the average is not eligible,
exactly if what the threads behind the watermark are short of it is lost in the rounding. So it is
if no thread of the queue is behind the watermark. -/
theorem avgVruntime_eq_average {rq : RunQueue} (hne : rq.queue ≠ []) :
    (rq.avgVruntime.toNat = rq.clocks / rq.total ∧
      ∀ t ∈ rq.queue, t.vruntime ≤ rq.avgVruntime → t.vruntime.toNat * rq.total ≤ rq.clocks) ↔
    rq.clocks % rq.total + rq.shortfall < rq.total := by
  have hpos := RunQueue.total_pos hne
  have havg : rq.avgVruntime.toNat =
      rq.clocks / rq.total + (rq.clocks % rq.total + rq.shortfall) / rq.total := by
    have hsum : rq.clocks + rq.shortfall =
        rq.clocks % rq.total + rq.shortfall + rq.clocks / rq.total * rq.total := by
      have := Nat.mod_add_div' rq.clocks rq.total
      omega
    rw [rq.toNat_avgVruntime, add_comm, ← Nat.add_mul_div_right _ _ hpos, rq.weighted_add, hsum,
      Nat.add_mul_div_right _ _ hpos, add_comm]
  constructor
  · rintro ⟨heq, -⟩
    exact (Nat.div_eq_zero_iff_lt hpos).mp (by omega)
  · intro hlt
    rw [Nat.div_eq_of_lt hlt, add_zero] at havg
    refine ⟨havg, fun t _ hle ↦ ?_⟩
    rw [UInt64.le_iff_toNat_le, havg] at hle
    exact (Nat.mul_le_mul_right _ hle).trans (Nat.div_mul_le_self _ _)

/-- A thread is one behind the watermark, and the average is 29 and a half. -/
theorem avgVruntime_eq_average_two :
    (RunQueue.mk [⟨7, 0, 9, 0, 0⟩, ⟨10, 0, 40, 0, 0⟩] 10).avgVruntime.toNat = 29 ∧
      (9 * 1024 + 40 * 2000) / (1024 + 2000) = 29 :=
  ⟨((avgVruntime_eq_average (cons_ne_nil _ _)).mpr (by decide)).1, rfl⟩

/-- Three threads of the same weight. The third asks for ten times the slice, so the others are
served before it, and the watermark passes it. -/
def threeThreads : List Event :=
  let t : Thread := ⟨7, 1000000, 0, 0, 0⟩
  [.arrive t, .wake 0 1000000, .arrive t, .wake 0 1000000, .arrive t, .wake 0 10000000,
    .pick, .run 1000000, .preempt, .pick, .run 600000, .preempt]

/-- The thread that is picked next is ahead of the average. -/
theorem ahead_of_average_picked :
    ∃ c, Reaches Cpu.step (fun _ _ ↦ True) .idle c ∧ c.rq.clocks / c.rq.total = 533333 ∧
      c.rq.avgVruntime = 644444 ∧ c.rq.pickNext.map (·.1.vruntime) = some 600000 := by
  refine ⟨⟨⟨[⟨7, 1000000, 0, 10000000, 0⟩, ⟨7, 1000000, 1000000, 2000000, 0⟩,
    ⟨7, 1000000, 600000, 1000000, 0⟩], 333333⟩, none, []⟩,
    Reaches.refl.play threeThreads (fun _ _ _ ↦ trivial) (by decide +kernel), ?_⟩
  decide +kernel

/-! ## Lag -/

theorem asI64_eq {n : UInt64} (h : n.toNat < 2 ^ 63) : asI64 n = n.toNat :=
  BitVec.toInt_eq_toNat_of_lt (x := n.toBitVec) (by rw [UInt64.toNat_toBitVec]; omega)

theorem satI64_eq {n : ℤ} (hlow : -2 ^ 63 ≤ n) (hhigh : n < 2 ^ 63) : satI64 n = n := by
  rw [satI64, min_eq_left (by omega), max_eq_right hlow]

/-- One slice of service is far from the ends of an `i64`. -/
theorem toNat_virtualDelta_baseSlice_le (weight : ℕ) :
    (virtualDelta baseSlice weight).toNat ≤ 1024000000 := by
  rw [virtualDelta, UInt64.toNat_ofNat']
  exact (Nat.mod_le _ _).trans (Nat.div_le_self _ _)

theorem toNat_virtualDelta_le (request : UInt64) (t : Thread) :
    (virtualDelta request t.weight).toNat ≤ (2 ^ 64 - 1) / 215 := by
  have hweight : 215 ≤ max t.weight 1 := (le_weight t).trans (le_max_left _ _)
  rw [virtualDelta, UInt64.toNat_ofNat']
  refine (Nat.mod_le _ _).trans (Nat.div_le_div ?_ hweight (by decide))
  exact Nat.le_sub_one_of_lt (UInt64.toNat_lt _)

/-- A lag is held to one slice. -/
theorem Thread.clampLag_eq (t : Thread) (lag : ℤ) :
    t.clampLag lag = max (-(virtualDelta baseSlice t.weight).toNat : ℤ)
      (min lag (virtualDelta baseSlice t.weight).toNat) := by
  have hle := toNat_virtualDelta_baseSlice_le t.weight
  rw [clampLag, asI64_eq (by omega)]

theorem RunQueue.vruntime_place {rq : RunQueue} (t : Thread) (request : UInt64)
    (hV : rq.avgVruntime.toNat < 2 ^ 62) :
    ((rq.place t request).2.vruntime.toNat : ℤ)
      = max 0 (rq.avgVruntime.toNat - t.clampLag t.vlag) := by
  have hle := toNat_virtualDelta_baseSlice_le t.weight
  rw [place, asI64_eq (by omega), UInt64.toNat_ofNat', t.clampLag_eq,
    satI64_eq (by omega) (by omega)]
  omega

/-- **Lag survives a sleep**, whatever has become of the queue: the thread is put as far from `V` as
it was when it left, up to a slice. The lag is used up then, and a second placement is at `V`. -/
theorem lag_survives_sleep {rq rq' rq'' : RunQueue} {t t' t'' : Thread} {request request' : UInt64}
    (hV : rq.avgVruntime.toNat < 2 ^ 62) (hV' : rq'.avgVruntime.toNat < 2 ^ 62)
    (hV'' : rq''.avgVruntime.toNat < 2 ^ 62) (hv : t.vruntime.toNat < 2 ^ 62)
    (hlag : t'.vlag = (rq.recordLag t).2.vlag) (hweight : t'.weight = t.weight)
    (hused : t''.vlag = (rq'.place t' request).2.vlag) :
    let slice : ℤ := (virtualDelta baseSlice t.weight).toNat
    ((rq'.place t' request).2.vruntime.toNat : ℤ) = max 0 (rq'.avgVruntime.toNat
        - max (-slice) (min (rq.avgVruntime.toNat - t.vruntime.toNat) slice)) ∧
      (rq'.place t' request).2.vdeadline.toNat = (rq'.place t' request).2.vruntime.toNat
        + (virtualDelta request t.weight).toNat ∧
      (rq''.place t'' request').2.vruntime = rq''.avgVruntime := by
  have hle := toNat_virtualDelta_baseSlice_le t.weight
  have hplaced := rq'.vruntime_place t' request hV'
  refine ⟨?_, ?_, ?_⟩
  · have hrecord : t'.vlag = t.clampLag (rq.avgVruntime.toNat - t.vruntime.toNat) := by
      rw [hlag, RunQueue.recordLag]
      dsimp only
      rw [asI64_eq (by omega), asI64_eq (by omega), satI64_eq (by omega) (by omega)]
    rw [hplaced, t'.clampLag_eq, hweight, hrecord, t.clampLag_eq]
    -- the second clamp changes nothing
    omega
  · have hlen := toNat_virtualDelta_le request t'
    rw [t'.clampLag_eq, hweight] at hplaced
    rw [← hweight]
    refine toNat_satU64 ?_
    change (rq'.place t' request).2.vruntime.toNat + _ < _
    omega
  · have hnext := rq''.vruntime_place t'' request' hV''
    rw [hused, t''.clampLag_eq] at hnext
    change _ = max 0 ((rq''.avgVruntime.toNat : ℤ) - max _ (min 0 _)) at hnext
    refine UInt64.toNat_inj.mp ?_
    omega

/-- A thread with a credit of 4000. -/
theorem lag_survives_sleep_credit :
    (((RunQueue.mk [] 9000).place ((RunQueue.mk [] 5000).recordLag ⟨7, 0, 1000, 0, 0⟩).2
      0).2.vruntime.toNat : ℤ) = max 0 (9000 - max (-1000000) (min (5000 - 1000) 1000000)) :=
  (@lag_survives_sleep ⟨[], 5000⟩ _ ⟨[], 9000⟩ _ _ _ _ 0 (by decide) (by decide) (by decide)
    (by decide) rfl rfl rfl).1

end Edos.Sched

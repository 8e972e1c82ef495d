import Mathlib.Data.List.Nodup

/-!
# Broadcasting

`broadcast` notes the subscribers in a list of 32 places and then hands the message to each of
those. The list is filled inside a `debug_assert!`: a build without debug assertions leaves it
empty, and with them the 33rd subscriber is a panic (`broadcast_fails`). `broadcast_delivers_iff`
says which calls reach everybody.
-/

namespace Edos.Sched

open List

variable {T : Type*}

def subscriberQueueCap : ℕ := 256

structure Subscriber (T : Type*) where
  ownerTid : ℕ
  /-- The owner exists and is not dying. -/
  alive : Bool
  queue : List T
  deriving DecidableEq

namespace Subscriber

/-- `ArrayQueue::push`, whose failure is ignored. -/
def push (sub : Subscriber T) (msg : T) : Subscriber T :=
  if sub.queue.length < subscriberQueueCap then { sub with queue := sub.queue ++ [msg] } else sub

theorem foldl_push {sub : Subscriber T} {msgs : List T}
    (hroom : sub.queue.length + msgs.length ≤ subscriberQueueCap) :
    msgs.foldl push sub = { sub with queue := sub.queue ++ msgs } := by
  induction msgs generalizing sub with
  | nil => rw [append_nil, foldl_nil]
  | cons msg msgs ih =>
    rw [length_cons] at hroom
    rw [foldl_cons, push, if_pos (by omega), ih (by rw [length_append, length_singleton]; omega),
      append_assoc, singleton_append]

theorem ownerTid_foldl_push (sub : Subscriber T) (msgs : List T) :
    (msgs.foldl push sub).ownerTid = sub.ownerTid := by
  induction msgs generalizing sub with
  | nil => rfl
  | cons msg msgs ih =>
    rw [foldl_cons, ih, push]
    split_ifs <;> rfl

end Subscriber

/-- The subscribers, by their owners. -/
structure Broadcaster (T : Type*) where
  subs : List (Subscriber T)
  broadcastCount : UInt32
  /-- A thread subscribes once. -/
  nodup : (subs.map Subscriber.ownerTid).Nodup
  deriving DecidableEq

namespace Broadcaster

def cleanup (b : Broadcaster T) : Broadcaster T where
  subs := b.subs.filter (·.alive)
  broadcastCount := b.broadcastCount
  nodup := b.nodup.sublist (filter_sublist.map _)

/-- Every 128th call cleans up. -/
def CleanupDue (b : Broadcaster T) : Prop := 0 < b.broadcastCount ∧ b.broadcastCount % 128 = 0

instance (b : Broadcaster T) : Decidable b.CleanupDue := inferInstanceAs (Decidable (_ ∧ _))

/-- Count a call. -/
def count (b : Broadcaster T) : Broadcaster T :=
  let b' := { b with broadcastCount := b.broadcastCount + 1 }
  if b.CleanupDue then b'.cleanup else b'

/-- The loop that collects the owners of the targets. `none` is a panic. -/
def collect (debug : Bool) : List (Subscriber T) → List ℕ → Option (List ℕ)
  | [], targets => some targets
  | sub :: subs, targets =>
    if debug then
      if targets.length < 32 then collect debug subs (targets ++ [sub.ownerTid]) else none
    else collect debug subs targets

/-- Hand the messages to the targets. -/
def push (b : Broadcaster T) (targets : List ℕ) (msgs : List T) : Broadcaster T where
  subs := b.subs.map fun sub ↦
    if sub.ownerTid ∈ targets then msgs.foldl Subscriber.push sub else sub
  broadcastCount := b.broadcastCount
  nodup := by
    have howner (sub : Subscriber T) :
        (if sub.ownerTid ∈ targets then msgs.foldl Subscriber.push sub else sub).ownerTid =
          sub.ownerTid := by
      split_ifs
      · exact Subscriber.ownerTid_foldl_push sub msgs
      · rfl
    simpa only [map_map, Function.comp_def, howner] using b.nodup

/-- What `broadcast` and `broadcast_many` have in common. -/
def send (debug : Bool) (b : Broadcaster T) (msgs : List T) : Option (Broadcaster T) :=
  (collect debug b.count.subs []).map fun targets ↦ b.count.push targets msgs

def broadcast (debug : Bool) (b : Broadcaster T) (msg : T) : Option (Broadcaster T) :=
  b.send debug [msg]

def broadcastMany (debug : Bool) (b : Broadcaster T) (msgs : List T) : Option (Broadcaster T) :=
  if msgs.isEmpty then some b else b.send debug msgs

/-! ## Who is reached -/

variable {b b' : Broadcaster T} {msgs : List T} {debug : Bool}

/-- The subscribers that a call finds: all, or those whose owner is alive if it cleans up first. -/
def present (b : Broadcaster T) : List (Subscriber T) :=
  b.subs.filter fun sub ↦ sub.alive ∨ ¬b.CleanupDue

/-- A call returned, and whoever it found with room for the messages has them, once and in order. -/
def Delivered (b : Broadcaster T) (msgs : List T) (r : Option (Broadcaster T)) : Prop :=
  ∃ b', r = some b' ∧ ∀ sub ∈ b.present, sub.queue.length + msgs.length ≤ subscriberQueueCap →
    { sub with queue := sub.queue ++ msgs } ∈ b'.subs

/-- With debug assertions no more than 32 subscribers are found; without them, none that has room.
-/
def Serves (b : Broadcaster T) (debug : Bool) (n : ℕ) : Prop :=
  debug = true ∧ b.present.length ≤ 32 ∨
    debug = false ∧ ∀ sub ∈ b.present, subscriberQueueCap < sub.queue.length + n

instance (b : Broadcaster T) (debug : Bool) (n : ℕ) : Decidable (b.Serves debug n) :=
  inferInstanceAs (Decidable (_ ∨ _))

theorem count_subs (b : Broadcaster T) : b.count.subs = b.present := by
  rw [count, present]
  split_ifs with hdue
  · simp [cleanup, hdue]
  · simp [hdue]

theorem collect_debug (subs : List (Subscriber T)) {targets : List ℕ} (hle : targets.length ≤ 32) :
    collect true subs targets = if targets.length + subs.length ≤ 32 then
      some (targets ++ subs.map Subscriber.ownerTid) else none := by
  induction subs generalizing targets with
  | nil => rw [collect, length_nil, Nat.add_zero, if_pos hle, map_nil, append_nil]
  | cons sub subs ih =>
    rw [collect, if_pos rfl]
    by_cases hlt : targets.length < 32
    · have hlen : (targets ++ [sub.ownerTid]).length = targets.length + 1 := by simp
      rw [if_pos hlt, ih (by omega), hlen, length_cons, Nat.add_assoc, Nat.add_comm 1, append_assoc,
        singleton_append, map_cons]
    · rw [if_neg hlt, length_cons, if_neg (by omega)]

theorem collect_release (subs : List (Subscriber T)) (targets : List ℕ) :
    collect false subs targets = some targets := by
  induction subs with
  | nil => rfl
  | cons sub subs ih => exact ih

/-- A thread has one queue. -/
theorem eq_of_ownerTid {sub sub' : Subscriber T} (h : sub ∈ b.subs) (h' : sub' ∈ b.subs)
    (heq : sub.ownerTid = sub'.ownerTid) : sub = sub' :=
  inj_on_of_nodup_map b.nodup h h' heq

/-- **What a call sends**, if there is something to send. -/
theorem send_delivers_iff (hmsgs : msgs ≠ []) :
    b.Delivered msgs (b.send debug msgs) ↔ b.Serves debug msgs.length := by
  rw [send, Delivered, Serves]
  cases debug with
  | true =>
    rw [collect_debug _ (by simp), count_subs, length_nil, Nat.zero_add]
    split_ifs with hfew
    · refine iff_of_true ⟨_, rfl, fun sub hsub hroom ↦ mem_map.mpr ⟨sub, ?_, ?_⟩⟩ (.inl ⟨rfl, hfew⟩)
      · rwa [count_subs]
      · rw [nil_append, if_pos (mem_map_of_mem hsub), Subscriber.foldl_push hroom]
    · exact iff_of_false nofun (by simp [hfew])
  | false =>
    rw [collect_release]
    have hsubs : (b.count.push [] msgs).subs = b.present := by
      rw [← count_subs]
      simp [push]
    constructor
    · rintro ⟨b', hb', h⟩
      obtain rfl := Option.some.inj hb'
      refine .inr ⟨rfl, fun sub hsub ↦ ?_⟩
      by_contra hroom
      -- the queue of a thread that was found is as long as before
      have hmem := h sub hsub (Nat.not_lt.mp hroom)
      have hsame := eq_of_ownerTid hmem (show sub ∈ _ from hsubs ▸ hsub) rfl
      have hlen := congrArg (fun sub ↦ sub.queue.length) hsame
      have hpos := length_pos_iff.mpr hmsgs
      dsimp only at hlen
      rw [length_append] at hlen
      omega
    · rintro (⟨hdebug, -⟩ | ⟨-, h⟩)
      · exact nomatch hdebug
      · exact ⟨_, rfl, fun sub hsub hroom ↦ absurd hroom (Nat.not_le.mpr (h sub hsub))⟩

/-- **Everybody gets the messages** iff the call finds no more than 32 subscribers and the build has
debug assertions, or if there is nothing to send or nobody to send it to. -/
theorem broadcast_delivers_iff (debug : Bool) (b : Broadcaster T) :
    (∀ msg, b.Delivered [msg] (b.broadcast debug msg) ↔ b.Serves debug 1) ∧
      ∀ msgs, b.Delivered msgs (b.broadcastMany debug msgs) ↔
        msgs = [] ∨ b.Serves debug msgs.length := by
  refine ⟨fun msg ↦ send_delivers_iff (cons_ne_nil _ _), fun msgs ↦ ?_⟩
  rw [broadcastMany]
  split_ifs with hempty
  · obtain rfl := isEmpty_iff.mp hempty
    refine iff_of_true ⟨b, rfl, fun sub hsub _ ↦ ?_⟩ (.inl rfl)
    rw [append_nil]
    exact mem_of_mem_filter hsub
  · have hne : msgs ≠ [] := fun h ↦ hempty (isEmpty_iff.mpr h)
    rw [send_delivers_iff hne, or_iff_right hne]

/-- The call that cleans up drops one of 33 subscribers and reaches the others. -/
theorem broadcast_delivers_iff_cleanup :
    Delivered ⟨⟨0, false, []⟩ :: (range' 1 32).map fun i ↦ ⟨i, true, [5]⟩, 128, by decide⟩ [6]
      (broadcast true
        ⟨⟨0, false, []⟩ :: (range' 1 32).map fun i ↦ ⟨i, true, [5]⟩, 128, by decide⟩ 6) :=
  ((broadcast_delivers_iff true _).1 6).mpr (by decide)

/-- **Nobody gets anything** without debug assertions, and with them 33 subscribers are too many. -/
theorem broadcast_fails :
    broadcast false ⟨[⟨1, true, []⟩], 0, by decide⟩ 6 = some ⟨[⟨1, true, []⟩], 1, by decide⟩ ∧
      broadcast true ⟨(range 33).map fun i ↦ ⟨i, true, []⟩, 0, by decide⟩ 6 = none := by
  decide

end Broadcaster

end Edos.Sched

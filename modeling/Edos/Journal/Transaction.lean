import Edos.Journal.RingLayout

/-!
# Transactions in memory

The data behind the journal's `state` lock, and what is done under it: handles merge into the open
transaction, the open transaction is sealed, sealed ones are committed in order, and the tail is
swept past committed ones whose blocks have reached their home locations. Enrolled pages are
references `P`; only when a commit copies them out (`Transaction.capture`) does a transaction get
contents.

Sequence numbers and cursors are `u64`. The kernel is built with overflow checks, so a sum that
leaves the range is a panic: `sealActive` has no result there.
-/

namespace Edos

open List Option Std

/-- A transaction in flight. The device is left out of the keys: a journal belongs to one device. -/
structure Transaction (P : Type*) where
  seq : ℕ
  txId : UInt64
  enrolledBlocks : ExtTreeMap UInt64 P
  revokes : ExtTreeSet UInt64

namespace Transaction

variable {P : Type*}

def new (seq : ℕ) (txId : UInt64) : Transaction P := ⟨seq, txId, ∅, ∅⟩

def isEmpty (tx : Transaction P) : Bool := tx.enrolledBlocks.isEmpty && tx.revokes.isEmpty

/-- What a handle's drop does to the open transaction: the last enrolment of a block wins. -/
def merge (tx : Transaction P) (blocks : ExtTreeMap UInt64 P) (revokes : ExtTreeSet UInt64) :
    Transaction P where
  seq := tx.seq
  txId := tx.txId
  enrolledBlocks := blocks.toList.foldl (fun m e ↦ m.insert e.1 e.2) tx.enrolledBlocks
  revokes := revokes.toList.foldl (fun m b ↦ m.insert b) tx.revokes

theorem foldl_insert_eq_insertMany (l : List (UInt64 × P)) (m : ExtTreeMap UInt64 P) :
    l.foldl (fun m e ↦ m.insert e.1 e.2) m = m.insertMany l := by
  induction l generalizing m with
  | nil => rw [foldl_nil, ExtTreeMap.insertMany_nil]
  | cons e l ih => rw [foldl_cons, ih, ExtTreeMap.insertMany_cons]

theorem foldl_insert_eq_insertMany_set (l : List UInt64) (m : ExtTreeSet UInt64) :
    l.foldl (fun m b ↦ m.insert b) m = m.insertMany l := by
  induction l generalizing m with
  | nil => rw [foldl_nil, ExtTreeSet.insertMany_nil]
  | cons e l ih => rw [foldl_cons, ih, ExtTreeSet.insertMany_cons]

theorem getElem?_merge (tx : Transaction P) (blocks : ExtTreeMap UInt64 P)
    (revokes : ExtTreeSet UInt64) (b : UInt64) :
    (tx.merge blocks revokes).enrolledBlocks[b]? = blocks[b]?.or tx.enrolledBlocks[b]? := by
  rw [merge, foldl_insert_eq_insertMany]
  cases h : blocks[b]? with
  | none =>
    rw [ExtTreeMap.getElem?_insertMany_list_of_contains_eq_false, none_or]
    simpa using h
  | some p =>
    rw [ExtTreeMap.getElem?_insertMany_list_of_mem (compare_self (a := b))
      ExtTreeMap.distinct_keys_toList (ExtTreeMap.mem_toList_iff_getElem?_eq_some.mpr h), some_or]

theorem mem_merge (tx : Transaction P) (blocks : ExtTreeMap UInt64 P) (revokes : ExtTreeSet UInt64)
    (b : UInt64) :
    b ∈ (tx.merge blocks revokes).enrolledBlocks ↔ b ∈ blocks ∨ b ∈ tx.enrolledBlocks := by
  rw [← ExtTreeMap.isSome_getElem?_iff_mem, getElem?_merge, isSome_or, Bool.or_eq_true,
    ExtTreeMap.isSome_getElem?_iff_mem, ExtTreeMap.isSome_getElem?_iff_mem]

theorem mem_merge_revokes (tx : Transaction P) (blocks : ExtTreeMap UInt64 P)
    (revokes : ExtTreeSet UInt64) (b : UInt64) :
    b ∈ (tx.merge blocks revokes).revokes ↔ b ∈ revokes ∨ b ∈ tx.revokes := by
  rw [merge, foldl_insert_eq_insertMany_set, ExtTreeSet.mem_insertMany_list,
    contains_iff_mem, ExtTreeSet.mem_toList, or_comm]

/-- The image a commit makes of the transaction, with the pages as they are at that moment. -/
def capture (tx : Transaction P) (content : P → Page) : TxImage where
  seq := tx.seq
  txId := tx.txId
  blocks := tx.enrolledBlocks.toList.map fun e ↦ (e.1, content e.2)
  revokes := tx.revokes.toList

@[simp] theorem capture_seq (tx : Transaction P) (content : P → Page) :
    (tx.capture content).seq = tx.seq := rfl

theorem length_capture_blocks (tx : Transaction P) (content : P → Page) :
    (tx.capture content).blocks.length = tx.enrolledBlocks.size := by
  rw [capture, length_map, ExtTreeMap.length_toList]

theorem mem_capture_blocks {tx : Transaction P} {content : P → Page} {b : UInt64} {page : Page} :
    (b, page) ∈ (tx.capture content).blocks ↔ ∃ p, tx.enrolledBlocks[b]? = some p ∧
      content p = page := by
  rw [capture, List.mem_map]
  constructor
  · rintro ⟨⟨b', p⟩, hmem, heq⟩
    obtain ⟨rfl, rfl⟩ := Prod.mk.inj heq
    exact ⟨p, ExtTreeMap.mem_toList_iff_getElem?_eq_some.mp hmem, rfl⟩
  · rintro ⟨p, hp, rfl⟩
    exact ⟨(b, p), ExtTreeMap.mem_toList_iff_getElem?_eq_some.mpr hp, rfl⟩

end Transaction

/-- A handle on the open transaction: what one metadata operation stages. -/
structure TxHandle (P : Type*) where
  stagedBlocks : ExtTreeMap UInt64 P
  stagedRevokes : ExtTreeSet UInt64
  aborted : Bool

namespace TxHandle

variable {P : Type*}

def new : TxHandle P := ⟨∅, ∅, false⟩

def enrollBlock (h : TxHandle P) (block : UInt64) (page : P) : TxHandle P :=
  { h with stagedBlocks := h.stagedBlocks.insert block page }

def enrollRevoke (h : TxHandle P) (block : UInt64) : TxHandle P :=
  { h with stagedRevokes := h.stagedRevokes.insert block }

def abort (h : TxHandle P) : TxHandle P := { h with aborted := true }

/-- What dropping the handle does to the open transaction. -/
def drop (h : TxHandle P) (active : Transaction P) : Transaction P :=
  if h.aborted then active
  else if h.stagedBlocks.isEmpty && h.stagedRevokes.isEmpty then active
  else active.merge h.stagedBlocks h.stagedRevokes

@[simp] theorem drop_seq (h : TxHandle P) (active : Transaction P) :
    (h.drop active).seq = active.seq := by
  rw [drop]
  split_ifs <;> rfl

theorem getElem?_drop {h : TxHandle P} (hok : h.aborted = false) (active : Transaction P)
    (b : UInt64) :
    (h.drop active).enrolledBlocks[b]? = h.stagedBlocks[b]?.or active.enrolledBlocks[b]? := by
  rw [drop, hok, if_neg Bool.false_ne_true]
  split_ifs with hempty
  · rw [Bool.and_eq_true, ExtTreeMap.isEmpty_iff] at hempty
    rw [hempty.1, ExtTreeMap.getElem?_empty, none_or]
  · exact active.getElem?_merge _ _ b

theorem mem_drop_revokes {h : TxHandle P} (hok : h.aborted = false) (active : Transaction P)
    (b : UInt64) : b ∈ (h.drop active).revokes ↔ b ∈ h.stagedRevokes ∨ b ∈ active.revokes := by
  rw [drop, hok, if_neg Bool.false_ne_true]
  split_ifs with hempty
  · rw [Bool.and_eq_true, ExtTreeSet.isEmpty_iff] at hempty
    rw [hempty.2]
    exact ⟨.inr, fun h ↦ h.resolve_left ExtTreeSet.not_mem_empty⟩
  · exact active.mem_merge_revokes _ _ b

end TxHandle

/-- The four cursors of the journal, as the superblock records them. -/
structure Cursors where
  headSeq : ℕ
  tailSeq : ℕ
  headBlock : ℕ
  tailBlock : ℕ
  deriving DecidableEq

/-- What the journal's `state` lock guards. -/
structure JournalState (P : Type*) where
  cursors : Cursors
  active : Transaction P
  sealed : List (Transaction P)
  committedPending : List (ℕ × ℕ)
  committedSeq : ℕ

namespace JournalState

variable {P : Type*}

/-- `Journal::new`: the tail starts where the head is. -/
def new (headSeq tailSeq initialHeadBlock : ℕ) : JournalState P where
  cursors := ⟨headSeq, tailSeq, initialHeadBlock, initialHeadBlock⟩
  active := .new headSeq (UInt64.ofNat headSeq)
  sealed := []
  committedPending := []
  committedSeq := headSeq - 1

/-- Move the open transaction to the sealed queue, unless it is empty. -/
def sealActive (s : JournalState P) (nextTxId : UInt64) : Option (JournalState P) :=
  if s.active.isEmpty then some s
  else if s.cursors.headSeq + 1 < 2 ^ 64 then
    some { s with
      cursors := { s.cursors with headSeq := s.cursors.headSeq + 1 }
      active := .new (s.cursors.headSeq + 1) nextTxId
      sealed := s.sealed ++ [s.active] }
  else none

/-- The loop of `advance_tail` that pops the committed transactions below `min`: the tail it leaves
and the rest of the queue. -/
def popRetired (min : ℕ) : List (ℕ × ℕ) → Cursors → List (ℕ × ℕ) × Cursors
  | [], c => ([], c)
  | (seq, blocks) :: rest, c =>
    if min ≤ seq then ((seq, blocks) :: rest, c)
    else popRetired min rest { c with tailSeq := seq + 1, tailBlock := c.tailBlock + blocks }

/-- Whether the tail catches up to the head once the given entries are left. -/
def catchesUp (s : JournalState P) (pending : List (ℕ × ℕ)) (c : Cursors) : Bool :=
  pending.isEmpty && s.sealed.isEmpty && c.tailSeq < c.headSeq

/-- What `advance_tail` does under the lock, with the bound it has read from the checkpoint tracker,
and whether the superblock has to be rewritten. -/
def sweep (s : JournalState P) (min : ℕ) : JournalState P × Bool :=
  let (pending, c) := popRetired min s.committedPending s.cursors
  if s.catchesUp pending c then
    ({ s with
        committedPending := pending
        cursors := { c with tailSeq := c.headSeq, tailBlock := c.headBlock } }, true)
  else
    ({ s with committedPending := pending, cursors := c },
      pending.length < s.committedPending.length)

@[simp] theorem sweep_active (s : JournalState P) (min : ℕ) :
    (s.sweep min).1.active = s.active := by
  rw [sweep]
  dsimp only
  split_ifs <;> rfl

@[simp] theorem sweep_sealed (s : JournalState P) (min : ℕ) :
    (s.sweep min).1.sealed = s.sealed := by
  rw [sweep]
  dsimp only
  split_ifs <;> rfl

@[simp] theorem sweep_committedSeq (s : JournalState P) (min : ℕ) :
    (s.sweep min).1.committedSeq = s.committedSeq := by
  rw [sweep]
  dsimp only
  split_ifs <;> rfl

/-- The tail after the given committed transactions have been popped. -/
def retire (c : Cursors) (popped : List (ℕ × ℕ)) : Cursors :=
  popped.foldl (fun c p ↦ { c with tailSeq := p.1 + 1, tailBlock := c.tailBlock + p.2 }) c

theorem retire_cons (c : Cursors) (p : ℕ × ℕ) (ps : List (ℕ × ℕ)) :
    retire c (p :: ps)
      = retire { c with tailSeq := p.1 + 1, tailBlock := c.tailBlock + p.2 } ps := rfl

theorem retire_head (c : Cursors) (popped : List (ℕ × ℕ)) :
    (retire c popped).headSeq = c.headSeq ∧ (retire c popped).headBlock = c.headBlock := by
  induction popped generalizing c with
  | nil => exact ⟨rfl, rfl⟩
  | cons p ps ih => exact ih _

/-- **The retire loop** pops a run of transactions below the bound, and stops at the first one that
is not. -/
theorem popRetired_spec (min : ℕ) (pending : List (ℕ × ℕ)) (c : Cursors) :
    ∃ popped, pending = popped ++ (popRetired min pending c).1 ∧
      (∀ p ∈ popped, p.1 < min) ∧ (popRetired min pending c).2 = retire c popped := by
  induction pending generalizing c with
  | nil => exact ⟨[], rfl, by simp, rfl⟩
  | cons p rest ih =>
    obtain ⟨seq, blocks⟩ := p
    rw [popRetired]
    by_cases hmin : min ≤ seq
    · rw [if_pos hmin]
      exact ⟨[], rfl, by simp, rfl⟩
    · rw [if_neg hmin]
      obtain ⟨popped, hpending, hlt, hc⟩ :=
        ih { c with tailSeq := seq + 1, tailBlock := c.tailBlock + blocks }
      refine ⟨(seq, blocks) :: popped, ?_, forall_mem_cons.mpr ⟨Nat.not_le.mp hmin, hlt⟩, hc⟩
      rw [cons_append, ← hpending]

/-- **What a sweep can do**: pop a run of transactions, and then, with nothing pending and nothing
sealed, move the tail up to the head. -/
theorem sweep_spec (s : JournalState P) (min : ℕ) :
    ∃ popped rest, s.committedPending = popped ++ rest ∧ (∀ p ∈ popped, p.1 < min) ∧
      ((s.catchesUp rest (retire s.cursors popped) = true ∧
        s.sweep min = ({ s with
          committedPending := rest
          cursors := { s.cursors with
            tailSeq := s.cursors.headSeq, tailBlock := s.cursors.headBlock } }, true)) ∨
      (s.catchesUp rest (retire s.cursors popped) = false ∧
        s.sweep min = ({ s with
          committedPending := rest
          cursors := retire s.cursors popped }, decide (popped ≠ [])))) := by
  obtain ⟨popped, hpending, hlt, hc⟩ := popRetired_spec min s.committedPending s.cursors
  refine ⟨popped, _, hpending, hlt, ?_⟩
  have hend := retire_head s.cursors popped
  rw [sweep]
  simp only [hc]
  cases hcatch : s.catchesUp (popRetired min s.committedPending s.cursors).1
      (retire s.cursors popped) with
  | true =>
    refine .inl ⟨rfl, ?_⟩
    rw [if_pos rfl, hend.1, hend.2]
  | false =>
    refine .inr ⟨rfl, ?_⟩
    rw [if_neg Bool.false_ne_true]
    congr 2
    have hlen := congrArg List.length hpending
    rw [length_append] at hlen
    rw [hlen, Nat.lt_add_left_iff_pos, length_pos_iff]

theorem sweep_head (s : JournalState P) (min : ℕ) :
    (s.sweep min).1.cursors.headSeq = s.cursors.headSeq ∧
      (s.sweep min).1.cursors.headBlock = s.cursors.headBlock := by
  obtain ⟨popped, rest, -, -, ⟨-, h⟩ | ⟨-, h⟩⟩ := s.sweep_spec min
  · rw [h]
    exact ⟨rfl, rfl⟩
  · rw [h]
    exact retire_head _ _

end JournalState

/-- `max_tx_blocks`: a quarter of the ring. -/
def maxTxBlocks (ringSize : ℕ) : ℕ := ringSize / 4

end Edos

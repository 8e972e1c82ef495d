import Edos.Journal.Transaction
import Edos.Lib.Transition

/-!
# The journal at run time

The journal as a machine: what is under the `state` lock, the ring and the superblock on the disk,
the committer, and every thread that is in the middle of rewriting the superblock. One step is one
critical section or one device operation, so a run is any interleaving of them.

## Who takes steps

There is one committer. It pops a sealed transaction, copies its pages, looks for ring space (with
checkpoints in between), writes the blocks, waits for them, flushes, writes the commit block, and
only then records the transaction as committed and rewrites the superblock. `advance_tail` is run by
the committer and by any number of threads in `sync`: a sweep under the lock, then a rewrite of the
superblock in two steps, reading the cursors and writing them.

What the journal gets from outside is a parameter of the step: which blocks a handle merges, what is
in the pages when they are copied, and the bound that `advance_tail` has read from the checkpoint
tracker. The invariants of this machine hold for whatever these are.

Every device operation may fail. A transaction that has been popped is in neither queue; where the
source returns an error with `?`, it is dropped. Blocks submitted together reach the ring in any
order, and one whose command failed may have reached it or not.
-/

namespace Edos

open Option Std

/-- Where the committer is. -/
inductive Committer (P : Type*) where
  /-- Outside `seal_and_commit`. -/
  | idle
  /-- Before taking the next transaction from the sealed queue. -/
  | draining
  | popped (tx : Transaction P)
  /-- The pages are copied; the ring-space check of the given attempt comes next. -/
  | checking (tx : Transaction P) (img : TxImage) (attempt : ℕ)
  /-- There was no room: `checkpoint_and_advance`, before its sweep. -/
  | checkpointing (tx : Transaction P) (img : TxImage) (attempt : ℕ)
  /-- `checkpoint_and_advance`, rewriting the superblock: before and after reading the cursors. -/
  | advancing (tx : Transaction P) (img : TxImage) (attempt : ℕ) (cursors : Option Cursors)
  /-- Descriptor, data and revoke blocks are submitted; those in `todo`, given by their place in the
  image, have not reached the ring. -/
  | writing (img : TxImage) (start : ℕ) (todo : List ℕ)
  /-- All of them are in the ring; the flush comes next. -/
  | flushing (img : TxImage) (start : ℕ)
  /-- The flush is done; the commit block comes next. -/
  | sealing (img : TxImage) (start : ℕ)
  /-- The commit block is written. -/
  | committed (img : TxImage) (start : ℕ)
  /-- The transaction is recorded as committed; the superblock is being rewritten. -/
  | publishing (cursors : Option Cursors)

namespace Committer

variable {P : Type*}

/-- The transaction that has been popped and could still be put back. -/
def tx : Committer P → Option (Transaction P)
  | popped tx | checking tx _ _ | checkpointing tx _ _ | advancing tx _ _ _ => some tx
  | _ => none

/-- The image of the transaction at hand, once its pages are copied. -/
def image : Committer P → Option TxImage
  | checking _ img _ | checkpointing _ img _ | advancing _ img _ _ => some img
  | writing img _ _ | flushing img _ | sealing img _ | committed img _ => some img
  | _ => none

/-- The image that is being written, and the cursor it is written at. -/
def target : Committer P → Option (TxImage × ℕ)
  | writing img start _ | flushing img start | sealing img start | committed img start =>
    some (img, start)
  | _ => none

/-- The blocks of that image that are not in the ring yet. -/
def missing : Committer P → List ℕ
  | writing img _ todo => (img.needed - 1) :: todo
  | flushing img _ | sealing img _ => [img.needed - 1]
  | _ => []

/-- The sequence number of the transaction that the committer holds and that is in neither queue. -/
def inFlight : Committer P → List ℕ
  | popped tx | checking tx _ _ | checkpointing tx _ _ | advancing tx _ _ _ => [tx.seq]
  | writing img _ _ | flushing img _ | sealing img _ | committed img _ => [img.seq]
  | _ => []

/-- The cursors that the committer has read and is about to write. -/
def cursors : Committer P → Option Cursors
  | advancing _ _ _ c | publishing c => c
  | _ => none

/-- How many blocks past the head are being written. -/
def reserved (c : Committer P) : ℕ := c.target.elim 0 fun t ↦ t.1.needed

end Committer

/-- The journal, its region of the disk, and the threads at work on it. -/
structure Journal (P : Type*) where
  state : JournalState P
  txIdCounter : UInt64
  committer : Committer P
  /-- Threads in `advance_tail` that have to rewrite the superblock: before and after reading the
  cursors. -/
  advancers : List (Option Cursors)
  /-- The slots of the ring, on disk. -/
  ring : ℕ → List UInt8
  /-- The superblock, on disk. -/
  superblock : Cursors
  /-- The transactions recorded as committed since the mount, oldest first. The code does not keep
  this. -/
  history : List TxImage

namespace Journal

variable {P : Type*}

def checkpointAttempts : ℕ := 3

/-- The journal after a mount that ended at the given cursors. The head in the superblock is
advisory and may be anything; so may the ring. -/
def mounted (seq block : ℕ) (ring : ℕ → List UInt8) (headSeq headBlock : ℕ) : Journal P where
  state := .new seq seq block
  txIdCounter := UInt64.ofNat seq
  committer := .idle
  advancers := []
  ring := ring
  superblock := ⟨headSeq, seq, headBlock, block⟩
  history := []

/-- What can happen. -/
inductive Action (P : Type*) where
  /-- A handle's drop merges its blocks and revokes into the open transaction. -/
  | merge (blocks : ExtTreeMap UInt64 P) (revokes : ExtTreeSet UInt64)
  | sealIfFull
  /-- `seal_and_commit` starts: the open transaction is sealed. -/
  | sealActive
  | pop
  /-- A transaction with nothing in it is only recorded. -/
  | commitEmpty
  /-- The committer copies the enrolled pages, whose contents are given. -/
  | capture (content : P → Page)
  | checkSpace
  /-- The flush of `checkpoint_and_advance` fails. -/
  | checkpointFails
  /-- The sweep of `checkpoint_and_advance`, with the bound it has read. -/
  | checkpointSweep (min : ℕ)
  /-- A submitted block reaches the ring. -/
  | ringWrite (k : ℕ)
  /-- The submitted commands have all completed. -/
  | drained (ok : Bool)
  | flushed (ok : Bool)
  /-- The commit block's command completes. -/
  | commitWritten (landed ok : Bool)
  /-- The transaction is recorded as committed. -/
  | record
  | readCursors
  | writeCursors (landed ok : Bool)
  /-- The locked part of `advance_tail` in some other thread, with the bound it has read. -/
  | sweep (min : ℕ)
  | advancerReads (i : ℕ)
  | advancerWrites (i : ℕ) (landed ok : Bool)

/-- `head_block.wrapping_sub(tail_block)`. -/
def used (c : Cursors) : ℕ := (c.headBlock + 2 ^ 64 - c.tailBlock) % 2 ^ 64

variable (ringSize : ℕ)

/-- Seal the open transaction, handing out the next transaction id if there was one to seal. -/
def sealActive (j : Journal P) : Option (Journal P) :=
  (j.state.sealActive (j.txIdCounter + 1)).map fun s ↦
    { j with
      state := s
      txIdCounter := if j.state.active.isEmpty then j.txIdCounter else j.txIdCounter + 1 }

/-- The ring with one block of an image written. -/
def writeSlot (ring : ℕ → List UInt8) (img : TxImage) (start k : ℕ) : ℕ → List UInt8 :=
  match img.ringBlocks[k]? with
  | some b => Function.update ring ((start + k) % ringSize) b
  | none => ring

/-- The ring-space check and what follows from it. -/
def checkSpace (j : Journal P) (tx : Transaction P) (img : TxImage) (attempt : ℕ) :
    Option (Journal P) :=
  let c := j.state.cursors
  if img.needed ≤ ringSize - used c then
    if c.headBlock + img.needed < 2 ^ 64 then
      some { j with committer := .writing img c.headBlock (List.range (img.needed - 1)) }
    else none
  else if attempt + 1 = checkpointAttempts then
    some { j with state.sealed := tx :: j.state.sealed, committer := .idle }
  else some { j with committer := .checkpointing tx img attempt }

/-- A superblock write that completes: a command that succeeded has reached the disk, one that
failed may have. -/
def writeSuperblock (j : Journal P) (c : Cursors) (landed ok : Bool) : Option (Journal P) :=
  if ok && !landed then none
  else some { j with superblock := if landed then c else j.superblock }

/-- One step of the journal. -/
def step (j : Journal P) : Action P → Option (Journal P)
  | .merge blocks revokes => some { j with state.active := j.state.active.merge blocks revokes }
  | .sealIfFull =>
    if j.state.active.enrolledBlocks.size < maxTxBlocks ringSize then none else j.sealActive
  | .sealActive =>
    match j.committer with
    | .idle => j.sealActive.map fun j' ↦
        { j' with committer := if j'.state.sealed.isEmpty then .idle else .draining }
    | _ => none
  | .pop =>
    match j.committer with
    | .draining =>
      match j.state.sealed with
      | [] => some { j with committer := .idle }
      | tx :: rest => some { j with state.sealed := rest, committer := .popped tx }
    | _ => none
  | .commitEmpty =>
    match j.committer with
    | .popped tx =>
      if tx.isEmpty then some { j with state.committedSeq := tx.seq, committer := .draining }
      else none
    | _ => none
  | .capture content =>
    match j.committer with
    | .popped tx =>
      if tx.isEmpty then none else some { j with committer := .checking tx (tx.capture content) 0 }
    | _ => none
  | .checkSpace =>
    match j.committer with
    | .checking tx img attempt => j.checkSpace ringSize tx img attempt
    | _ => none
  | .checkpointFails =>
    match j.committer with
    | .checkpointing _ _ _ => some { j with committer := .idle }
    | _ => none
  | .checkpointSweep min =>
    match j.committer with
    | .checkpointing tx img attempt =>
      let (s, changed) := j.state.sweep min
      some { j with
        state := s
        committer :=
          if changed then .advancing tx img attempt none else .checking tx img (attempt + 1) }
    | _ => none
  | .ringWrite k =>
    match j.committer with
    | .writing img start todo =>
      if k ∈ todo then
        some { j with
          ring := writeSlot ringSize j.ring img start k
          committer := .writing img start (todo.erase k) }
      else none
    | _ => none
  | .drained ok =>
    match j.committer with
    | .writing img start todo =>
      if !ok then some { j with committer := .idle }
      else if todo.isEmpty then some { j with committer := .flushing img start }
      else none
    | _ => none
  | .flushed ok =>
    match j.committer with
    | .flushing img start =>
      some { j with committer := if ok then .sealing img start else .idle }
    | _ => none
  | .commitWritten landed ok =>
    match j.committer with
    | .sealing img start =>
      if ok && !landed then none
      else
        some { j with
          ring :=
            if landed then writeSlot ringSize j.ring img start (img.needed - 1) else j.ring
          committer := if ok then .committed img start else .idle }
    | _ => none
  | .record =>
    match j.committer with
    | .committed img start =>
      some { j with
        state.cursors.headBlock := start + img.needed
        state.committedSeq := img.seq
        state.committedPending := j.state.committedPending ++ [(img.seq, img.needed)]
        committer := .publishing none
        history := j.history ++ [img] }
    | _ => none
  | .readCursors =>
    match j.committer with
    | .advancing tx img attempt none =>
      some { j with committer := .advancing tx img attempt (some j.state.cursors) }
    | .publishing none => some { j with committer := .publishing (some j.state.cursors) }
    | _ => none
  | .writeCursors landed ok =>
    match j.committer with
    | .advancing tx img attempt (some c) =>
      (j.writeSuperblock c landed ok).map fun j' ↦
        { j' with committer := if ok then .checking tx img (attempt + 1) else .idle }
    | .publishing (some c) =>
      (j.writeSuperblock c landed ok).map fun j' ↦
        { j' with committer := if ok then .draining else .idle }
    | _ => none
  | .sweep min =>
    let (s, changed) := j.state.sweep min
    some { j with state := s, advancers := if changed then j.advancers ++ [none] else j.advancers }
  | .advancerReads i =>
    match j.advancers[i]? with
    | some none => some { j with advancers := j.advancers.set i (some j.state.cursors) }
    | _ => none
  | .advancerWrites i landed ok =>
    match j.advancers[i]? with
    | some (some c) =>
      (j.writeSuperblock c landed ok).map fun j' ↦
        { j' with advancers := j'.advancers.eraseIdx i }
    | _ => none

/-! ## What a step can do

`Takes` lists the ways a step can go, each with its guard. Invariants are proved by going through
this list. -/

/-- The steps of the journal, case by case. -/
inductive Takes (j : Journal P) : Action P → Journal P → Prop
  | merge (blocks : ExtTreeMap UInt64 P) (revokes : ExtTreeSet UInt64) :
      Takes j (.merge blocks revokes) { j with state.active := j.state.active.merge blocks revokes }
  | sealIfFull {j' : Journal P} (hfull : maxTxBlocks ringSize ≤ j.state.active.enrolledBlocks.size)
      (hseal : j.sealActive = some j') : Takes j .sealIfFull j'
  | sealActive {j' : Journal P} (hc : j.committer = .idle) (hseal : j.sealActive = some j') :
      Takes j .sealActive
        { j' with committer := if j'.state.sealed.isEmpty then .idle else .draining }
  | popNone (hc : j.committer = .draining) (hs : j.state.sealed = []) :
      Takes j .pop { j with committer := .idle }
  | pop {tx : Transaction P} {rest : List (Transaction P)} (hc : j.committer = .draining)
      (hs : j.state.sealed = tx :: rest) :
      Takes j .pop { j with state.sealed := rest, committer := .popped tx }
  | commitEmpty {tx : Transaction P} (hc : j.committer = .popped tx) (he : tx.isEmpty = true) :
      Takes j .commitEmpty { j with state.committedSeq := tx.seq, committer := .draining }
  | capture {tx : Transaction P} (content : P → Page) (hc : j.committer = .popped tx)
      (he : tx.isEmpty = false) :
      Takes j (.capture content) { j with committer := .checking tx (tx.capture content) 0 }
  | fits {tx : Transaction P} {img : TxImage} {attempt : ℕ}
      (hc : j.committer = .checking tx img attempt)
      (hfit : img.needed ≤ ringSize - used j.state.cursors)
      (hlt : j.state.cursors.headBlock + img.needed < 2 ^ 64) :
      Takes j .checkSpace
        { j with
          committer := .writing img j.state.cursors.headBlock (List.range (img.needed - 1)) }
  | giveUp {tx : Transaction P} {img : TxImage} {attempt : ℕ}
      (hc : j.committer = .checking tx img attempt)
      (hfit : ¬img.needed ≤ ringSize - used j.state.cursors)
      (hattempt : attempt + 1 = checkpointAttempts) :
      Takes j .checkSpace { j with state.sealed := tx :: j.state.sealed, committer := .idle }
  | checkpoint {tx : Transaction P} {img : TxImage} {attempt : ℕ}
      (hc : j.committer = .checking tx img attempt)
      (hfit : ¬img.needed ≤ ringSize - used j.state.cursors)
      (hattempt : attempt + 1 ≠ checkpointAttempts) :
      Takes j .checkSpace { j with committer := .checkpointing tx img attempt }
  | checkpointFails {tx : Transaction P} {img : TxImage} {attempt : ℕ}
      (hc : j.committer = .checkpointing tx img attempt) :
      Takes j .checkpointFails { j with committer := .idle }
  | checkpointSweep {tx : Transaction P} {img : TxImage} {attempt : ℕ} (min : ℕ)
      (hc : j.committer = .checkpointing tx img attempt) :
      Takes j (.checkpointSweep min)
        { j with
          state := (j.state.sweep min).1
          committer := if (j.state.sweep min).2 then .advancing tx img attempt none
            else .checking tx img (attempt + 1) }
  | ringWrite {img : TxImage} {start k : ℕ} {todo : List ℕ}
      (hc : j.committer = .writing img start todo) (hk : k ∈ todo) :
      Takes j (.ringWrite k)
        { j with
          ring := writeSlot ringSize j.ring img start k
          committer := .writing img start (todo.erase k) }
  | drainFails {img : TxImage} {start : ℕ} {todo : List ℕ}
      (hc : j.committer = .writing img start todo) :
      Takes j (.drained false) { j with committer := .idle }
  | drained {img : TxImage} {start : ℕ} (hc : j.committer = .writing img start []) :
      Takes j (.drained true) { j with committer := .flushing img start }
  | flushed {img : TxImage} {start : ℕ} (ok : Bool) (hc : j.committer = .flushing img start) :
      Takes j (.flushed ok) { j with committer := if ok then .sealing img start else .idle }
  | commitWritten {img : TxImage} {start : ℕ} {landed ok : Bool}
      (hc : j.committer = .sealing img start) (hok : ok = true → landed = true) :
      Takes j (.commitWritten landed ok)
        { j with
          ring := if landed then writeSlot ringSize j.ring img start (img.needed - 1) else j.ring
          committer := if ok then .committed img start else .idle }
  | record {img : TxImage} {start : ℕ} (hc : j.committer = .committed img start) :
      Takes j .record
        { j with
          state.cursors.headBlock := start + img.needed
          state.committedSeq := img.seq
          state.committedPending := j.state.committedPending ++ [(img.seq, img.needed)]
          committer := .publishing none
          history := j.history ++ [img] }
  | readAdvancing {tx : Transaction P} {img : TxImage} {attempt : ℕ}
      (hc : j.committer = .advancing tx img attempt none) :
      Takes j .readCursors
        { j with committer := .advancing tx img attempt (some j.state.cursors) }
  | readPublishing (hc : j.committer = .publishing none) :
      Takes j .readCursors { j with committer := .publishing (some j.state.cursors) }
  | writeAdvancing {tx : Transaction P} {img : TxImage} {attempt : ℕ} {c : Cursors}
      {landed ok : Bool} (hc : j.committer = .advancing tx img attempt (some c))
      (hok : ok = true → landed = true) :
      Takes j (.writeCursors landed ok)
        { j with
          superblock := if landed then c else j.superblock
          committer := if ok then .checking tx img (attempt + 1) else .idle }
  | writePublishing {c : Cursors} {landed ok : Bool} (hc : j.committer = .publishing (some c))
      (hok : ok = true → landed = true) :
      Takes j (.writeCursors landed ok)
        { j with
          superblock := if landed then c else j.superblock
          committer := if ok then .draining else .idle }
  | sweep (min : ℕ) :
      Takes j (.sweep min)
        { j with
          state := (j.state.sweep min).1
          advancers := if (j.state.sweep min).2 then j.advancers ++ [none] else j.advancers }
  | advancerReads {i : ℕ} (hi : j.advancers[i]? = some none) :
      Takes j (.advancerReads i) { j with advancers := j.advancers.set i (some j.state.cursors) }
  | advancerWrites {i : ℕ} {c : Cursors} {landed ok : Bool} (hi : j.advancers[i]? = some (some c))
      (hok : ok = true → landed = true) :
      Takes j (.advancerWrites i landed ok)
        { j with
          superblock := if landed then c else j.superblock
          advancers := j.advancers.eraseIdx i }

variable {ringSize : ℕ} {j j' : Journal P} {a : Action P}

/-- A command that succeeded has reached the disk. -/
theorem eq_of_completed {α : Type*} {x y : α} {landed ok : Bool}
    (h : (if ok && !landed then none else some x) = some y) :
    (ok = true → landed = true) ∧ y = x := by
  by_cases hok : (ok && !landed) = true
  · rw [if_pos hok] at h
    cases h
  · rw [if_neg hok] at h
    exact ⟨fun h' ↦ by simpa [h'] using hok, (some.inj h).symm⟩

/-- **Inversion.** -/
theorem takes_of_step (h : step ringSize j a = some j') : Takes ringSize j a j' := by
  cases a with rw [step] at h
  | merge blocks revokes => cases h; exact .merge blocks revokes
  | sealIfFull =>
    split_ifs at h with hfull
    exact .sealIfFull (Nat.not_lt.mp hfull) h
  | sealActive =>
    split at h
    · rename_i hc
      obtain ⟨j₁, hj₁, rfl⟩ := map_eq_some_iff.mp h
      exact .sealActive hc hj₁
    · cases h
  | pop =>
    split at h
    · rename_i hc
      split at h
      · rename_i hs
        cases h
        exact .popNone hc hs
      · rename_i hs
        cases h
        exact .pop hc hs
    · cases h
  | commitEmpty =>
    split at h
    · rename_i hc
      split_ifs at h with he
      cases h
      exact .commitEmpty hc he
    · cases h
  | capture content =>
    split at h
    · rename_i hc
      split_ifs at h with he
      cases h
      exact .capture content hc (Bool.eq_false_iff.mpr he)
    · cases h
  | checkSpace =>
    split at h
    · rename_i hc
      rw [Journal.checkSpace] at h
      split_ifs at h with hfit hlt hattempt
      · cases h
        exact .fits hc hfit hlt
      · cases h
        exact .giveUp hc hfit hattempt
      · cases h
        exact .checkpoint hc hfit hattempt
    · cases h
  | checkpointFails =>
    split at h
    · cases h
      exact .checkpointFails ‹_›
    · cases h
  | checkpointSweep min =>
    split at h
    · cases h
      exact .checkpointSweep min ‹_›
    · cases h
  | ringWrite k =>
    split at h
    · rename_i hc
      split_ifs at h with hk
      cases h
      exact .ringWrite hc hk
    · cases h
  | drained ok =>
    split at h
    · rename_i img start todo hc
      cases ok with
      | false =>
        cases h
        exact .drainFails hc
      | true =>
        rw [if_neg (by decide)] at h
        split_ifs at h with htodo
        cases h
        rw [List.isEmpty_iff.mp htodo] at hc
        exact .drained hc
    · cases h
  | flushed ok =>
    split at h
    · cases h
      exact .flushed ok ‹_›
    · cases h
  | commitWritten landed ok =>
    split at h
    · rename_i hc
      obtain ⟨hok, rfl⟩ := eq_of_completed h
      exact .commitWritten hc hok
    · cases h
  | record =>
    split at h
    · cases h
      exact .record ‹_›
    · cases h
  | readCursors =>
    split at h
    · cases h
      exact .readAdvancing ‹_›
    · cases h
      exact .readPublishing ‹_›
    · cases h
  | writeCursors landed ok =>
    split at h
    · rename_i hc
      obtain ⟨j₁, hj₁, rfl⟩ := map_eq_some_iff.mp h
      obtain ⟨hok, rfl⟩ := eq_of_completed hj₁
      exact .writeAdvancing hc hok
    · rename_i hc
      obtain ⟨j₁, hj₁, rfl⟩ := map_eq_some_iff.mp h
      obtain ⟨hok, rfl⟩ := eq_of_completed hj₁
      exact .writePublishing hc hok
    · cases h
  | sweep min => cases h; exact .sweep min
  | advancerReads i =>
    split at h
    · rename_i hi
      cases h
      exact .advancerReads hi
    · cases h
  | advancerWrites i landed ok =>
    split at h
    · rename_i hi
      obtain ⟨j₁, hj₁, rfl⟩ := map_eq_some_iff.mp h
      obtain ⟨hok, rfl⟩ := eq_of_completed hj₁
      exact .advancerWrites hi hok
    · cases h

/-- The outcomes of the check for space, as the step function computes them. -/
theorem step_checkSpace (h : Takes ringSize j .checkSpace j') :
    step ringSize j .checkSpace = some j' := by
  cases h with
  | fits hc hfit hlt => simp only [step, hc, Journal.checkSpace, if_pos hfit, if_pos hlt]
  | giveUp hc hfit hattempt =>
    simp only [step, hc, Journal.checkSpace, if_neg hfit, if_pos hattempt]
  | checkpoint hc hfit hattempt =>
    simp only [step, hc, Journal.checkSpace, if_neg hfit, if_neg hattempt]

theorem sealActive_eq_some (h : j.sealActive = some j') :
    (j.state.active.isEmpty = true ∧ j' = j) ∨
      (j.state.active.isEmpty = false ∧ j' = { j with
          state.cursors.headSeq := j.state.cursors.headSeq + 1
          state.active := .new (j.state.cursors.headSeq + 1) (j.txIdCounter + 1)
          state.sealed := j.state.sealed ++ [j.state.active]
          txIdCounter := j.txIdCounter + 1 }) := by
  rw [Journal.sealActive, JournalState.sealActive] at h
  cases he : j.state.active.isEmpty with
  | true =>
    rw [he] at h
    exact .inl ⟨rfl, (some.inj h).symm⟩
  | false =>
    rw [he, if_neg Bool.false_ne_true, if_neg Bool.false_ne_true] at h
    by_cases hlt : j.state.cursors.headSeq + 1 < 2 ^ 64
    · rw [if_pos hlt] at h
      exact .inr ⟨rfl, (some.inj h).symm⟩
    · rw [if_neg hlt] at h
      cases h

theorem sealActive_frame (h : j.sealActive = some j') :
    j'.committer = j.committer ∧ j'.advancers = j.advancers ∧ j'.ring = j.ring ∧
      j'.superblock = j.superblock ∧ j'.history = j.history ∧
      j'.state.committedPending = j.state.committedPending ∧
      j'.state.cursors = { j.state.cursors with headSeq := j'.state.cursors.headSeq } := by
  rcases sealActive_eq_some h with ⟨-, rfl⟩ | ⟨-, rfl⟩ <;>
    exact ⟨rfl, rfl, rfl, rfl, rfl, rfl, rfl⟩

end Journal

end Edos

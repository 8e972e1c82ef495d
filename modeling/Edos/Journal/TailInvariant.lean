import Edos.Journal.CommitPath

/-!
# The tail on disk and the transactions behind it

Recovery starts at the tail that the superblock records. It must be a place from which a scan comes
to every transaction that has been committed and not yet retired. Four cursors, two queues and the
transaction the committer holds are involved, and the tail is moved and written by other threads in
the middle of a commit.

## The invariant

The committed transactions form one sequence, the history, laid out in the ring from where the mount
left the cursors. A tail is sound if it is a *cut* of the history: it names the sequence number and
the position at which some suffix of the history starts. In-memory cursors, cursors that some thread
has read and not yet written, and the superblock are all cuts, and the ring still holds the suffix
of the history from the superblock's cut on.

## When it holds

A run has to avoid the ways in which this breaks (`TailSafe`). The catch-up branch of `advance_tail`
looks at both queues but not at the transaction the committer holds; taken while there is one, it
moves the tail past the sequence number under which that transaction is then written. A transaction
dropped after an error leaves a gap in the sequence numbers, and one too large for a descriptor
stops the scan. And ring space is checked against the tail in memory, which a crash does not see:
the space must also be free under the tail on disk.
-/

namespace Edos.Journal

open List Option Std

variable {P : Type*} {ringSize : ℕ}

/-- The end of the ring space that is taken, the image being written included. -/
def frontier (j : Journal P) : ℕ := j.state.cursors.headBlock + j.committer.reserved

/-- A step that does not put the tail on disk at odds with the ring. The conditions are on the state
the step is taken in: no catch-up and no error while the committer holds a transaction, no
transaction beyond what a descriptor can name, no commit into space that the superblock's tail still
claims, no stale superblock whose tail has been overwritten, and cursors away from the end of the
`u64` range. -/
def TailSafe (ringSize : ℕ) (j : Journal P) : Action P → Prop
  | .sealIfFull | .sealActive => j.state.cursors.headSeq + 1 + ringSize + 2 < 2 ^ 64
  | .capture _ => ∀ tx, j.committer.tx = some tx → tx.enrolledBlocks.size ≤ 254
  | .checkSpace => ∀ img, j.committer.image = some img →
      img.needed ≤ ringSize - used j.state.cursors →
        j.state.cursors.headBlock + img.needed ≤ j.superblock.tailBlock + ringSize ∧
          j.state.cursors.headBlock + img.needed + ringSize + 512 < 2 ^ 64
  | .checkpointFails => False
  | .drained ok | .flushed ok | .commitWritten _ ok => ok = true
  | .writeCursors landed ok => (j.committer.inFlight ≠ [] → ok = true) ∧
      (landed = true → ∀ c, j.committer.cursors = some c → j.frontier ≤ c.tailBlock + ringSize)
  | .advancerWrites i landed _ =>
      landed = true → ∀ c, j.advancers[i]? = some (some c) → j.frontier ≤ c.tailBlock + ringSize
  | .sweep min | .checkpointSweep min => j.committer.inFlight ≠ [] →
      j.state.sealed ≠ [] ∨ ∃ p ∈ j.state.committedPending, min ≤ p.1
  | _ => True

variable {a : Action P}

theorem TailSafe.keepsPopped {j : Journal P} (h : TailSafe ringSize j a) : KeepsPopped j a := by
  cases a with
  | checkpointFails | drained | flushed | commitWritten => exact h
  | writeCursors => exact h.1
  | _ => trivial

/-! ## Sequence numbers -/

/-- The sequence numbers of the transactions on their way to the ring. -/
def waiting (j : Journal P) : List ℕ := j.committer.inFlight ++ j.state.sealed.map Transaction.seq

/-- The transactions on their way to the ring are numbered consecutively from the end of the history
on, and none of them is empty or too large. -/
structure Queued (ringSize seq : ℕ) (j : Journal P) : Prop where
  waiting : j.waiting = range' (seq + j.history.length) j.waiting.length
  headSeq : j.state.cursors.headSeq = seq + j.history.length + j.waiting.length
  active : j.state.active.seq = j.state.cursors.headSeq
  range : j.state.cursors.headSeq + ringSize + 2 < 2 ^ 64
  sealed : ∀ tx ∈ j.state.sealed, tx.isEmpty = false
  popped : ∀ tx, j.committer.tx = some tx → tx.isEmpty = false
  image : ∀ img, j.committer.image = some img →
    j.committer.inFlight = [img.seq] ∧ img.blocks.length ≤ 254

variable {img : TxImage} {start : ℕ}

namespace Queued

variable {seq : ℕ} {j j' : Journal P}

section

variable (h : Queued ringSize seq j)

include h

theorem frame (hwaiting : j'.waiting = j.waiting) (hhistory : j'.history = j.history)
    (hactive : j'.state.active.seq = j.state.active.seq)
    (hhead : j'.state.cursors.headSeq = j.state.cursors.headSeq)
    (htx : AllTx (fun _ ↦ True) (fun tx ↦ tx.isEmpty = false) j')
    (himage : ∀ img, j'.committer.image = some img →
      j'.committer.inFlight = [img.seq] ∧ img.blocks.length ≤ 254) : Queued ringSize seq j' := by
  refine ⟨?_, ?_, ?_, ?_, htx.sealed, htx.held, himage⟩
  · rw [hwaiting, hhistory]
    exact h.waiting
  · rw [hwaiting, hhistory, hhead]
    exact h.headSeq
  · rw [hactive, hhead]
    exact h.active
  · rw [hhead]
    exact h.range

theorem stays (hs : Stays j j')
    (hflight : j'.committer.inFlight = j.committer.inFlight) : Queued ringSize seq j' := by
  refine h.frame ?_ hs.history (congrArg _ hs.active) hs.headSeq
    (AllTx.stays ⟨trivial, h.sealed, h.popped⟩ hs) fun img hi ↦ ?_
  · rw [Journal.waiting, hflight, hs.sealed]
    rfl
  · rw [hflight]
    exact h.image img (hs.image img hi)

theorem sealActive (hrange : j.state.cursors.headSeq + 1 + ringSize + 2 < 2 ^ 64)
    (hseal : j.sealActive = some j') : Queued ringSize seq j' := by
  rcases sealActive_eq_some hseal with ⟨-, rfl⟩ | ⟨hempty, rfl⟩
  · exact h
  have hwaiting : Journal.waiting { j with
      state.cursors.headSeq := j.state.cursors.headSeq + 1
      state.active := .new (j.state.cursors.headSeq + 1) (j.txIdCounter + 1)
      state.sealed := j.state.sealed ++ [j.state.active]
      txIdCounter := j.txIdCounter + 1 } = j.waiting ++ [j.state.active.seq] := by
    simp [Journal.waiting]
  refine ⟨?_, ?_, rfl, hrange, ?_, h.popped, h.image⟩
  · rw [hwaiting, length_append, length_singleton, range'_1_concat, ← h.waiting,
      h.active, h.headSeq]
  · rw [hwaiting, length_append, length_singleton, ← add_assoc, ← h.headSeq]
  · rw [forall_mem_append, forall_mem_singleton]
    exact ⟨h.sealed, hempty⟩

/-- The transaction being written continues the history. -/
theorem image_seq (himg : j.committer.image = some img) : img.seq = seq + j.history.length := by
  have hwaiting := h.waiting
  rw [Journal.waiting, (h.image img himg).1, singleton_append, length_cons, range'_succ] at hwaiting
  exact (List.cons.inj hwaiting).1

theorem record
    (hc : j.committer = .committed img start) : Queued ringSize seq (j.recorded img start) := by
  have hwaiting := h.waiting
  have hheadSeq := h.headSeq
  rw [Journal.waiting, hc, Committer.inFlight, singleton_append, length_cons] at *
  have hrest := (List.cons.inj hwaiting).2
  refine ⟨?_, ?_, h.active, h.range, h.sealed, (fun _ h ↦ nomatch h), fun _ h ↦ nomatch h⟩
  · rw [length_append, length_singleton, ← add_assoc]
    exact hrest
  · rw [length_append, length_singleton]
    change j.state.cursors.headSeq
      = seq + (j.history.length + 1) + (j.state.sealed.map Transaction.seq).length
    omega

/-- **Step.** -/
theorem step (hsafe : TailSafe ringSize j a)
    (hstep : Takes ringSize j a j') : Queued ringSize seq j' := by
  have htx : AllTx (fun _ ↦ True) (fun tx ↦ tx.isEmpty = false) j' :=
    AllTx.step ⟨trivial, h.sealed, h.popped⟩ trivial (fun _ _ _ ↦ trivial) (fun _ hne ↦ hne) hstep
  cases hstep.flow with
  | keep hs hflight => exact h.stays hs (hflight fun img himg ↦ (h.image img himg).1)
  | lose _ _ hlost => exact absurd hsafe.keepsPopped hlost
  | merge => exact h.frame rfl rfl rfl rfl htx h.image
  | seals ha hseal hs hflight =>
    exact (h.sealActive (by rcases ha with rfl | rfl <;> exact hsafe) hseal).stays hs hflight
  | pop hc hs =>
    refine h.frame ?_ rfl rfl rfl htx fun _ h ↦ nomatch h
    rw [Journal.waiting, Journal.waiting, hc, hs]
    rfl
  | commitEmpty hc he =>
    rw [h.popped _ (by rw [hc]; rfl)] at he
    cases he
  | capture content hc =>
    refine h.frame ?_ rfl rfl rfl htx fun img himg ↦ ?_
    · rw [Journal.waiting, Journal.waiting, hc]
      rfl
    · obtain rfl := some.inj himg
      refine ⟨rfl, ?_⟩
      rw [Transaction.length_capture_blocks]
      exact hsafe _ (by rw [hc]; rfl)
  | giveUp hc =>
    refine h.frame ?_ rfl rfl rfl htx fun _ h ↦ nomatch h
    rw [Journal.waiting, Journal.waiting, hc]
    rfl
  | record hc => exact h.record hc

end

end Queued

/-! ## Cuts of the history -/

section Cut

variable {seq block i : ℕ} {history : List TxImage} {c : Cursors}

/-- Where the history starts in the ring, without its first `i` transactions. -/
def startOf (block : ℕ) (history : List TxImage) (i : ℕ) : ℕ :=
  block + (layout (history.take i)).length

/-- What the journal keeps of a committed transaction. -/
def entry (img : TxImage) : ℕ × ℕ := (img.seq, img.needed)

/-- The tail of these cursors leaves out the first `i` transactions of the history. -/
structure Cut (seq block : ℕ) (history : List TxImage) (i : ℕ) (c : Cursors) : Prop where
  le : i ≤ history.length
  tailSeq : c.tailSeq = seq + i
  tailBlock : c.tailBlock = startOf block history i

theorem startOf_append (hi : i ≤ history.length) (img : TxImage) :
    startOf block (history ++ [img]) i = startOf block history i := by
  rw [startOf, take_append_of_le_length hi, startOf]

theorem startOf_add_length (block : ℕ) (history : List TxImage) (i : ℕ) :
    startOf block history i + (layout (history.drop i)).length
      = block + (layout history).length := by
  rw [startOf, add_assoc, ← length_append, ← layout_append, take_append_drop]

theorem startOf_succ (hi : history[i]? = some img) :
    startOf block history (i + 1) = startOf block history i + img.needed := by
  rw [startOf, take_add_one, hi, layout_append, length_append, ← add_assoc, ← startOf]
  congr 1
  exact (congrArg List.length (layout_singleton img)).trans img.length_ringBlocks

theorem Cut.append (h : Cut seq block history i c) (img : TxImage) :
    Cut seq block (history ++ [img]) i c where
  le := by rw [length_append]; exact Nat.le_add_right_of_le h.le
  tailSeq := h.tailSeq
  tailBlock := h.tailBlock.trans (startOf_append h.le img).symm

theorem Cut.retire (hcons : Consecutive seq history) {popped rest : List (ℕ × ℕ)} :
    ∀ {i : ℕ} {c : Cursors}, Cut seq block history i c →
      (history.drop i).map entry = popped ++ rest →
      Cut seq block history (i + popped.length) (JournalState.retire c popped) ∧
        rest = (history.drop (i + popped.length)).map entry := by
  induction popped with
  | nil => intro i c hcut hsplit; exact ⟨hcut, hsplit.symm⟩
  | cons p popped ih =>
    intro i c hcut hsplit
    have hlt : i < history.length := by
      by_contra hge
      rw [drop_of_length_le (Nat.not_lt.mp hge)] at hsplit
      cases hsplit
    have hi : history[i]? = some history[i] := getElem?_eq_getElem hlt
    rw [drop_eq_getElem_cons hlt, map_cons, cons_append, List.cons.injEq] at hsplit
    obtain ⟨rfl, hsplit⟩ := hsplit
    have hnext : Cut seq block history (i + 1) { c with
        tailSeq := (entry history[i]).1 + 1
        tailBlock := c.tailBlock + (entry history[i]).2 } := by
      refine ⟨hlt, ?_, ?_⟩
      · rw [entry, hcons.seq_get hi, add_assoc]
      · rw [startOf_succ hi, hcut.tailBlock, entry]
    obtain ⟨hcut', hrest⟩ := ih hnext hsplit
    rw [length_cons, add_comm popped.length, ← add_assoc, JournalState.retire_cons]
    exact ⟨hcut', hrest⟩

end Cut

/-- Cursors that are in the superblock, or that some thread has read and may still write there. -/
def Carries (j : Journal P) (c : Cursors) : Prop :=
  c = j.superblock ∨ j.committer.cursors = some c ∨ some c ∈ j.advancers

theorem Carries.of_idle {j j' : Journal P} {c : Cursors} (h : j'.Carries c)
    (hcursors : j'.committer.cursors = none) (hsuper : j'.superblock = j.superblock)
    (hadv : j'.advancers = j.advancers) : j.Carries c := by
  rcases h with h | h | h
  · exact .inl (h.trans hsuper)
  · rw [hcursors] at h
    cases h
  · exact .inr (.inr (hadv ▸ h))

/-- The tail in memory is a cut of the history, the transactions behind it are those pending, and
every tail on its way to the superblock is that cut or an earlier one. -/
def Tails (seq block : ℕ) (j : Journal P) : Prop :=
  ∃ i, Cut seq block j.history i j.state.cursors ∧
    j.state.committedPending = (j.history.drop i).map entry ∧
    ∀ c, j.Carries c → ∃ i' ≤ i, Cut seq block j.history i' c

namespace Tails

variable {seq block : ℕ} {j j' : Journal P}

theorem frame (h : Tails seq block j) (hhistory : j'.history = j.history)
    (hseq : j'.state.cursors.tailSeq = j.state.cursors.tailSeq)
    (hblock : j'.state.cursors.tailBlock = j.state.cursors.tailBlock)
    (hpending : j'.state.committedPending = j.state.committedPending)
    (hcarries : ∀ c, j'.Carries c → j.Carries c ∨ c = j.state.cursors) : Tails seq block j' := by
  obtain ⟨i, hcut, hrest, hold⟩ := h
  rw [Tails, hhistory, hpending]
  refine ⟨i, ⟨hcut.le, hseq.trans hcut.tailSeq, hblock.trans hcut.tailBlock⟩, hrest, fun c hc ↦ ?_⟩
  rcases hcarries c hc with hc | rfl
  · exact hold c hc
  · exact ⟨i, le_rfl, hcut⟩

/-- A sweep retires transactions and does not catch up: with the committer holding nothing the tail
is at the head already. -/
theorem sweep (h : Tails seq block j) (hcons : Consecutive seq j.history)
    (hqueued : Queued ringSize seq j) {min : ℕ}
    (hsafe : j.committer.inFlight ≠ [] →
      j.state.sealed ≠ [] ∨ ∃ p ∈ j.state.committedPending, min ≤ p.1)
    (hhistory : j'.history = j.history) (hstate : j'.state = (j.state.sweep min).1)
    (hcarries : ∀ c, j'.Carries c → j.Carries c) : Tails seq block j' := by
  obtain ⟨i, hcut, hrest, hold⟩ := h
  obtain ⟨popped, rest, hsplit, hlt, hsweep⟩ := j.state.sweep_spec min
  obtain ⟨hcut', hpending⟩ := hcut.retire hcons (hrest.symm.trans hsplit)
  rcases hsweep with ⟨hcatch, -⟩ | ⟨-, hsweep⟩
  · exfalso
    simp only [JournalState.catchesUp, Bool.and_eq_true, List.isEmpty_iff,
      decide_eq_true_eq] at hcatch
    obtain ⟨⟨rfl, hsealed⟩, hbehind⟩ := hcatch
    have hall : j.history.length ≤ i + popped.length :=
      drop_eq_nil_iff.mp (map_eq_nil_iff.mp hpending.symm)
    rw [hcut'.tailSeq, (JournalState.retire_head _ _).1, hqueued.headSeq, waiting, hsealed,
      map_nil, append_nil] at hbehind
    have hflight : j.committer.inFlight ≠ [] := by
      intro hnil
      rw [hnil, length_nil] at hbehind
      omega
    rcases hsafe hflight with hne | ⟨p, hp, hmin⟩
    · exact hne hsealed
    · rw [hsplit, append_nil] at hp
      exact absurd (hlt p hp) (Nat.not_lt.mpr hmin)
  · rw [Tails, hhistory, hstate, hsweep]
    refine ⟨i + popped.length, hcut', hpending, fun c hc ↦ ?_⟩
    obtain ⟨i', hi', hc'⟩ := hold c (hcarries c hc)
    exact ⟨i', hi'.trans (Nat.le_add_right _ _), hc'⟩

theorem record (h : Tails seq block j) (img : TxImage) (start : ℕ) :
    Tails seq block (j.recorded img start) := by
  obtain ⟨i, hcut, hrest, hold⟩ := h
  refine ⟨i, ⟨(hcut.append img).le, hcut.tailSeq, (hcut.append img).tailBlock⟩, ?_, fun c hcar ↦ ?_⟩
  · rw [drop_append_of_le_length hcut.le, map_append, ← hrest]
    rfl
  · obtain ⟨i', hi', hc'⟩ := hold c (hcar.of_idle rfl rfl rfl)
    exact ⟨i', hi', hc'.append img⟩

/-- **Step.** -/
theorem step (h : Tails seq block j) (hcons : Consecutive seq j.history)
    (hqueued : Queued ringSize seq j) (hsafe : TailSafe ringSize j a)
    (hstep : Takes ringSize j a j') : Tails seq block j' := by
  cases hstep with
  | merge => exact h.frame rfl rfl rfl rfl fun _ hc ↦ .inl hc
  | sealIfFull _ hseal =>
    obtain ⟨hc, ha, -, hsb, hh, hp, hcur⟩ := sealActive_frame hseal
    refine h.frame hh (by rw [hcur]) (by rw [hcur]) hp fun c hcar ↦ .inl ?_
    rwa [Carries, hc, ha, hsb] at hcar
  | @sealActive j₁ hidle hseal =>
    obtain ⟨hc, ha, -, hsb, hh, hp, hcur⟩ := sealActive_frame hseal
    refine h.frame hh (by dsimp only; rw [hcur]) (by dsimp only; rw [hcur]) hp fun c hcar ↦
      .inl (hcar.of_idle ?_ hsb ha)
    split_ifs <;> rfl
  | popNone | pop | commitEmpty | capture | fits | giveUp | checkpoint | checkpointFails | ringWrite
  | drainFails | drained =>
    exact h.frame rfl rfl rfl rfl fun c hcar ↦ .inl (hcar.of_idle rfl rfl rfl)
  | flushed | commitWritten =>
    refine h.frame rfl rfl rfl rfl fun c hcar ↦ .inl (hcar.of_idle ?_ rfl rfl)
    split_ifs <;> rfl
  | checkpointSweep min hc =>
    refine h.sweep hcons hqueued hsafe rfl rfl fun c hcar ↦ hcar.of_idle ?_ rfl rfl
    split_ifs <;> rfl
  | record hc => exact h.record _ _
  | readAdvancing hc | readPublishing hc =>
    refine h.frame rfl rfl rfl rfl fun c hcar ↦ ?_
    rcases hcar with hcar | hcar | hcar
    · exact .inl (.inl hcar)
    · exact .inr (some.inj hcar).symm
    · exact .inl (.inr (.inr hcar))
  | @writeAdvancing _ _ _ c₀ landed ok hc _ | @writePublishing c₀ landed ok hc _ =>
    refine h.frame rfl rfl rfl rfl fun c hcar ↦ .inl ?_
    rcases hcar with hcar | hcar | hcar
    · cases landed with
      | true => exact .inr (.inl (by rw [hc, hcar]; rfl))
      | false => exact .inl hcar
    · split_ifs at hcar <;> cases hcar
    · exact .inr (.inr hcar)
  | sweep min =>
    refine h.sweep hcons hqueued hsafe rfl rfl fun c hcar ↦ ?_
    rcases hcar with hcar | hcar | hcar
    · exact .inl hcar
    · exact .inr (.inl hcar)
    · split_ifs at hcar
      · exact .inr (.inr ((mem_append.mp hcar).resolve_right (by simp)))
      · exact .inr (.inr hcar)
  | advancerReads hi =>
    refine h.frame rfl rfl rfl rfl fun c hcar ↦ ?_
    rcases hcar with hcar | hcar | hcar
    · exact .inl (.inl hcar)
    · exact .inl (.inr (.inl hcar))
    · rcases mem_or_eq_of_mem_set hcar with hcar | heq
      · exact .inl (.inr (.inr hcar))
      · exact .inr (some.inj heq)
  | @advancerWrites i c₀ landed ok hi _ =>
    refine h.frame rfl rfl rfl rfl fun c hcar ↦ .inl ?_
    rcases hcar with hcar | hcar | hcar
    · cases landed with
      | true => exact .inr (.inr (by rw [hcar]; exact mem_of_getElem? hi))
      | false => exact .inl hcar
    · exact .inr (.inl hcar)
    · exact .inr (.inr (mem_of_mem_eraseIdx hcar))

end Tails

/-! ## The ring -/

/-- The ring holds every suffix of the history that the writes past the head have not come around
to, and the superblock's tail starts such a suffix. -/
structure RingHolds (ringSize block : ℕ) (j : Journal P) : Prop where
  capacity : ∀ img ∈ j.history, img.blocks.length ≤ 254
  head : j.state.cursors.headBlock = block + (layout j.history).length
  target : ∀ img start, j.committer.target = some (img, start) → start = j.state.cursors.headBlock
  room : j.frontier ≤ j.superblock.tailBlock + ringSize
  holds : ∀ i ≤ j.history.length, j.frontier ≤ startOf block j.history i + ringSize →
    Holds (ringReader j.ring) ringSize (startOf block j.history i) (layout (j.history.drop i))
  range : j.frontier + ringSize + 512 < 2 ^ 64

namespace RingHolds

variable {seq block : ℕ} {j j' : Journal P}

section

variable (h : RingHolds ringSize block j)

include h

theorem frame (hhistory : j'.history = j.history)
    (hhead : j'.state.cursors.headBlock = j.state.cursors.headBlock)
    (htarget : j'.committer.target = j.committer.target)
    (hholds : ∀ i ≤ j.history.length, j.frontier ≤ startOf block j.history i + ringSize →
      Holds (ringReader j'.ring) ringSize (startOf block j.history i) (layout (j.history.drop i)))
    (hroom : j.frontier ≤ j'.superblock.tailBlock + ringSize) : RingHolds ringSize block j' := by
  have hfrontier : j'.frontier = j.frontier := by
    rw [frontier, frontier, hhead, Committer.reserved, Committer.reserved, htarget]
  constructor
  · rw [hhistory]
    exact h.capacity
  · rw [hhead, hhistory]
    exact h.head
  · rw [htarget, hhead]
    exact h.target
  · rwa [hfrontier]
  · rwa [hhistory, hfrontier]
  · rw [hfrontier]
    exact h.range

/-- Writing a block of the image past the head leaves the suffixes alone. -/
theorem writeSlot (ht : j.committer.target = some (img, start)) (k : ℕ)
    (htarget : j'.committer.target = j.committer.target) (hstate : j'.state = j.state)
    (hsuper : j'.superblock = j.superblock) (hhistory : j'.history = j.history)
    (hring : j'.ring = Journal.writeSlot ringSize j.ring img start k) :
    RingHolds ringSize block j' := by
  have hneeded : j.frontier = j.state.cursors.headBlock + img.needed := by
    rw [frontier, Committer.reserved, ht]
    rfl
  refine h.frame hhistory (by rw [hstate]) htarget (fun i hi hfit ↦ ?_)
    (by rw [hsuper]; exact h.room)
  have hlen := startOf_add_length block j.history i
  have hhead := h.head
  have hstart := h.target img start ht
  rw [hring, Journal.writeSlot]
  cases hk : img.ringBlocks[k]? with
  | none => exact h.holds i hi hfit
  | some b =>
    obtain ⟨hklen, -⟩ := List.getElem?_eq_some_iff.mp hk
    rw [TxImage.length_ringBlocks] at hklen
    exact (h.holds i hi hfit).update (by omega) (by omega) b

theorem fits (hnone : j.committer.target = none)
    (hroom : j.state.cursors.headBlock + img.needed ≤ j.superblock.tailBlock + ringSize)
    (hrange : j.state.cursors.headBlock + img.needed + ringSize + 512 < 2 ^ 64) :
    RingHolds ringSize block { j with
      committer := .writing img j.state.cursors.headBlock (List.range (img.needed - 1)) } where
  capacity := h.capacity
  head := h.head
  target := by
    rintro img' start ht
    exact ((Prod.mk.inj (some.inj ht)).2).symm
  room := hroom
  holds := by
    intro i hi hfit
    refine h.holds i hi (Nat.le_trans ?_ hfit)
    rw [frontier, Committer.reserved, hnone]
    exact Nat.le_add_right _ _
  range := hrange

theorem record (hwritten : RingWritten ringSize j) (hc : j.committer = .committed img start)
    (hcap : img.blocks.length ≤ 254) : RingHolds ringSize block (j.recorded img start) := by
  have hstart := h.target img start (by rw [hc]; rfl)
  have hfrontier : j.frontier = start + img.needed := by
    rw [frontier, Committer.reserved, hc, hstart]
    rfl
  obtain ⟨-, -, hlanded⟩ := hwritten img start (by rw [hc]; rfl)
  rw [hc] at hlanded
  constructor
  · rw [Journal.recorded, forall_mem_append, forall_mem_singleton]
    exact ⟨h.capacity, hcap⟩
  · change start + img.needed = block + (layout (j.history ++ [img])).length
    rw [hstart, h.head, layout_append, layout_singleton, length_append,
      TxImage.length_ringBlocks, add_assoc]
  · exact fun _ _ h ↦ nomatch h
  · exact hfrontier.ge.trans h.room
  · intro i hi hfit
    rcases lt_or_ge j.history.length i with hlt | hle
    · rw [drop_of_length_le (by rw [length_append]; exact hlt)]
      exact holds_nil _
    · rw [startOf_append hle] at hfit ⊢
      rw [drop_append_of_le_length hle, layout_append, layout_singleton, holds_append,
        startOf_add_length, ← h.head, ← hstart]
      exact ⟨h.holds i hle (hfrontier ▸ hfit), hlanded.holds⟩
  · have hrange := h.range
    rwa [hfrontier] at hrange

/-- **Step.** -/
theorem step (hwritten : RingWritten ringSize j) (hqueued : Queued ringSize seq j)
    (hsafe : TailSafe ringSize j a)
    (hstep : Takes ringSize j a j') : RingHolds ringSize block j' := by
  cases hstep with
  | merge | advancerReads => exact h.frame rfl rfl rfl h.holds h.room
  | sealIfFull _ hseal =>
    obtain ⟨hc, -, hring, hsb, hh, -, hcur⟩ := sealActive_frame hseal
    exact h.frame hh (by rw [hcur]) (by rw [hc]) (by rw [hring]; exact h.holds)
      (by rw [hsb]; exact h.room)
  | sealActive hidle hseal =>
    obtain ⟨-, -, hring, hsb, hh, -, hcur⟩ := sealActive_frame hseal
    refine h.frame hh (by dsimp only; rw [hcur]) ?_ (by dsimp only; rw [hring]; exact h.holds)
      (by dsimp only; rw [hsb]; exact h.room)
    rw [hidle]
    split_ifs <;> rfl
  | popNone hc | pop hc | commitEmpty hc | capture _ hc | giveUp hc | checkpoint hc | drained hc
  | readAdvancing hc | readPublishing hc => exact h.frame rfl rfl (by rw [hc]; rfl) h.holds h.room
  | fits hc hfit _ =>
    obtain ⟨hroom, hrange⟩ := hsafe _ (by rw [hc]; rfl) hfit
    exact h.fits (by rw [hc]; rfl) hroom hrange
  | checkpointFails => exact hsafe.elim
  | drainFails => cases hsafe
  | checkpointSweep min hc =>
    refine h.frame rfl (JournalState.sweep_head _ _).2 ?_ h.holds h.room
    rw [hc]
    split_ifs <;> rfl
  | ringWrite hc _ =>
    exact h.writeSlot (by rw [hc]; rfl) _ (by rw [hc]; rfl) rfl rfl rfl rfl
  | flushed ok hc =>
    obtain rfl : ok = true := hsafe
    exact h.frame rfl rfl (by rw [hc]; rfl) h.holds h.room
  | commitWritten hc hok =>
    obtain rfl : _ = true := hsafe
    obtain rfl := hok rfl
    exact h.writeSlot (by rw [hc]; rfl) _ (by rw [hc]; rfl) rfl rfl rfl rfl
  | record hc =>
    exact h.record hwritten hc (hqueued.image _ (by rw [hc]; rfl)).2
  | @writeAdvancing _ _ _ c landed ok hc _ | @writePublishing c landed ok hc _ =>
    refine h.frame rfl rfl ?_ h.holds ?_
    · rw [hc]
      split_ifs <;> rfl
    · cases landed with
      | true => exact hsafe.2 rfl c (by rw [hc]; rfl)
      | false => exact h.room
  | sweep min => exact h.frame rfl (JournalState.sweep_head _ _).2 rfl h.holds h.room
  | @advancerWrites i c landed ok hi _ =>
    refine h.frame rfl rfl rfl h.holds ?_
    cases landed with
    | true => exact hsafe rfl c hi
    | false => exact h.room

end

end RingHolds

/-! ## Whole runs -/

/-- What holds along every run whose steps are safe. -/
structure TailInv (ringSize seq block : ℕ) (j : Journal P) : Prop where
  consecutive : Consecutive seq j.history
  written : RingWritten ringSize j
  queued : Queued ringSize seq j
  tails : Tails seq block j
  ring : RingHolds ringSize block j

variable {j : Journal P} {block seq : ℕ}

theorem TailInv.step {j' : Journal P} (h : TailInv ringSize seq block j)
    (hsafe : TailSafe ringSize j a)
    (hstep : Takes ringSize j a j') : TailInv ringSize seq block j' where
  consecutive := by
    rcases history_step hstep with heq | ⟨img, start, hc, heq⟩
    · rw [heq]
      exact h.consecutive
    · rw [heq, consecutive_append, consecutive_cons]
      exact ⟨h.consecutive, h.queued.image_seq (by rw [hc]; rfl), rfl⟩
  written := h.written.step hstep
  queued := h.queued.step hsafe hstep
  tails := h.tails.step h.consecutive h.queued hsafe hstep
  ring := h.ring.step h.written h.queued hsafe hstep

theorem tailInv_mounted (ring : ℕ → List UInt8) (headSeq headBlock : ℕ)
    (hseq : seq + ringSize + 2 < 2 ^ 64) (hblock : block + ringSize + 512 < 2 ^ 64) :
    TailInv ringSize seq block (mounted seq block ring headSeq headBlock : Journal P) where
  consecutive := rfl
  written := ringWritten_of_target_none rfl
  queued := ⟨rfl, rfl, rfl, hseq, (fun _ h ↦ nomatch h), (fun _ h ↦ nomatch h), fun _ h ↦ nomatch h⟩
  tails := by
    refine ⟨0, ⟨le_rfl, rfl, rfl⟩, rfl, ?_⟩
    rintro c (rfl | hc | hc)
    · exact ⟨0, le_rfl, le_rfl, rfl, rfl⟩
    · cases hc
    · cases hc
  ring := by
    refine ⟨(fun _ h ↦ nomatch h), rfl, (fun _ _ h ↦ nomatch h), Nat.le_add_right _ _, ?_, hblock⟩
    intro i _ _
    rw [show (mounted seq block ring headSeq headBlock : Journal P).history.drop i = [] from
      drop_nil]
    exact holds_nil _

/-- **The tail on disk reaches the pending transactions.** A scan from the superblock's tail
succeeds. It finds first the transactions that have been retired since that tail was read, as many
as the tail in memory is ahead, and then those that are committed and pending, all of them and in
order. -/
def TailCovers (ringSize : ℕ) (j : Journal P) : Prop :=
  ∃ (scan : JournalScan) (retired live : List TxImage) (rest : List ScannedTx),
    scanCommitted (ringReader j.ring) ringSize 4096 j.superblock.tailSeq j.superblock.tailBlock
      = .ok scan ∧
    scan.txs = retired.map TxImage.scanned ++ live.map TxImage.scanned ++ rest ∧
    j.state.committedPending = live.map (fun img ↦ (img.seq, img.needed)) ∧
    retired ++ live <:+ j.history ∧
    j.superblock.tailSeq + retired.length = j.state.cursors.tailSeq

/-- A scan from a cut whose transactions are all in the ring finds them. -/
theorem TailInv.exists_scan {i : ℕ} {c : Cursors} (h : TailInv ringSize seq block j)
    (hcut : Cut seq block j.history i c) (hroom : j.frontier ≤ c.tailBlock + ringSize) :
    ∃ scan rest,
      scanCommitted (ringReader j.ring) ringSize 4096 c.tailSeq c.tailBlock = .ok scan ∧
        scan.txs = (j.history.drop i).map TxImage.scanned ++ rest := by
  have hlen := startOf_add_length block j.history i
  have hhead := h.ring.head
  have hfrontier : j.state.cursors.headBlock ≤ j.frontier := Nat.le_add_right _ _
  rw [hcut.tailSeq, hcut.tailBlock]
  rw [hcut.tailBlock] at hroom
  rcases Nat.eq_zero_or_pos ringSize with rfl | hring
  · -- A ring without blocks: nothing has been committed.
    have hnil : j.history.drop i = [] := layout_eq_nil (by omega)
    exact ⟨_, [], rfl, by rw [hnil]; rfl⟩
  · have hcap : descriptorCapacity journalBlockSize = 254 := by decide
    have hrange := h.ring.range
    have hseqs := h.queued.range
    have hcount := h.queued.headSeq
    have hdrop := length_drop (i := i) (l := j.history)
    have hle := hcut.le
    have hcons : Consecutive (seq + i) (j.history.drop i) := by
      have hall := h.consecutive
      rw [← take_append_drop i j.history, consecutive_append, length_take, min_eq_left hle] at hall
      exact hall.2
    have hacc := accepts_layout (h.ring.holds i hle hroom) hcons
      (fun img himg ↦ (h.ring.capacity img (mem_of_mem_drop himg)).trans hcap.ge)
      (by omega : _ ≤ startOf block j.history i + ringSize) (by omega) (by omega)
    obtain ⟨scan, rest, hscan, htxs⟩ := exists_scanCommitted (ringReader_total j.ring) hring hacc
      (by omega) (by omega)
    exact ⟨scan, rest, hscan, htxs⟩

/-- **The tail never passes live work.** In every run whose steps are safe, from any cursors a mount
can end at, the superblock's tail reaches the pending transactions in every state. -/
theorem tailCovers_of_reaches {seq block headSeq headBlock : ℕ} {ring : ℕ → List UInt8}
    {j : Journal P} (hseq : seq + ringSize + 2 < 2 ^ 64) (hblock : block + ringSize + 512 < 2 ^ 64)
    (h : Reaches (step ringSize) (TailSafe ringSize) (mounted seq block ring headSeq headBlock) j) :
    TailCovers ringSize j := by
  have hinv : TailInv ringSize seq block j := h.invariant (tailInv_mounted _ _ _ hseq hblock)
    fun _ _ _ hinv hsafe hs ↦ hinv.step hsafe (takes_of_step hs)
  obtain ⟨i, hcut, hpending, hold⟩ := hinv.tails
  obtain ⟨i', hi', hsuper⟩ := hold j.superblock (.inl rfl)
  obtain ⟨scan, rest, hscan, htxs⟩ := hinv.exists_scan hsuper hinv.ring.room
  have hsplit : (j.history.drop i').take (i - i') ++ j.history.drop i = j.history.drop i' := by
    conv_rhs => rw [← take_append_drop (i - i') (j.history.drop i'), drop_drop,
      Nat.add_sub_cancel' hi']
  refine ⟨scan, (j.history.drop i').take (i - i'), j.history.drop i, rest, hscan, ?_, hpending, ?_,
    ?_⟩
  · rw [htxs, ← map_append, hsplit]
  · rw [hsplit]
    exact drop_suffix _ _
  · rw [hsuper.tailSeq, hcut.tailSeq, length_take, length_drop]
    have hle := hcut.le
    omega

/-- A handle that enrols one block. -/
def oneBlock (b : UInt64) : Action Unit := .merge ((∅ : ExtTreeMap UInt64 Unit).insert b ()) ∅

theorem tailCovers_one_commit :
    ∃ j : Journal Unit, Reaches (step 5) (TailSafe 5) (mounted 1 0 (fun _ ↦ []) 1 0) j ∧
      j.state.committedPending = [(1, 3)] ∧ TailCovers 5 j := by
  have h : Reaches (step 5) (TailSafe 5) (mounted 1 0 (fun _ ↦ []) 1 0 : Journal Unit) _ := .refl
  have h := h.tail (a := oneBlock 7) (by trivial) rfl
  have h := h.tail (a := .sealActive) (by change 1 + 1 + 5 + 2 < 2 ^ 64; decide) rfl
  have h := h.tail (a := .pop) (by trivial) rfl
  have h := h.tail (a := .capture fun _ ↦ Page.zero) (by rintro tx ⟨⟩; decide) rfl
  have h := h.tail (a := .checkSpace) (by rintro img ⟨⟩ -; decide)
    (step_checkSpace (.fits rfl (by decide) (by decide)))
  have h := h.play [.ringWrite 0, .ringWrite 1] (fun _ _ h ↦ by fin_cases h <;> trivial) rfl
  have h := h.tail (a := .drained true) (by rfl) rfl
  have h := h.tail (a := .flushed true) (by rfl) rfl
  have h := h.tail (a := .commitWritten true true) (by rfl) rfl
  have h := h.tail (a := .record) (by trivial) rfl
  exact ⟨_, h, rfl, tailCovers_of_reaches (by decide) (by decide) h⟩

/-- **The tail passes a transaction in flight.** A ring of five blocks. The first transaction takes
three of them; the second finds no room, and the committer checkpoints: the first is retired,
nothing is pending or sealed, and the tail catches up with the head, past the sequence number of the
transaction the committer holds. That one is then written and recorded as committed, and a scan from
the superblock's tail does not find it. -/
theorem tail_passes_transaction_in_flight :
    ∃ (j : Journal Unit) (scan : JournalScan),
      Reaches (step 5) (fun _ _ ↦ True) (mounted 1 0 (fun _ ↦ []) 1 0) j ∧
      j.state.committedSeq = 2 ∧ j.state.committedPending = [(2, 3)] ∧
      scanCommitted (ringReader j.ring) 5 4096 j.superblock.tailSeq j.superblock.tailBlock
        = .ok scan ∧ scan.txs = [] ∧ ¬TailCovers 5 j := by
  have h : Reaches (step 5) (fun _ _ ↦ True)
      (mounted 1 0 (fun _ ↦ []) 1 0 : Journal Unit) _ := .refl
  have h := h.play [oneBlock 7, .sealActive, .pop, .capture fun _ ↦ Page.zero]
    (fun _ _ _ ↦ trivial) rfl
  have h := h.tail (a := .checkSpace) trivial (step_checkSpace (.fits rfl (by decide) (by decide)))
  have h := h.play [.ringWrite 0, .ringWrite 1, .drained true, .flushed true,
    .commitWritten true true, .record, .readCursors, .writeCursors true true, .pop, oneBlock 8,
    .sealActive, .pop, .capture fun _ ↦ Page.zero] (fun _ _ _ ↦ trivial) rfl
  have h := h.tail (a := .checkSpace) trivial
    (step_checkSpace (.checkpoint rfl (by decide) (by decide)))
  have h := h.play [.checkpointSweep 2, .readCursors, .writeCursors true true]
    (fun _ _ _ ↦ trivial) rfl
  have h := h.tail (a := .checkSpace) trivial (step_checkSpace (.fits rfl (by decide) (by decide)))
  have h := h.play [.ringWrite 0, .ringWrite 1, .drained true, .flushed true,
    .commitWritten true true] (fun _ _ _ ↦ trivial) rfl
  obtain ⟨-, -, hlanded⟩ := ringWritten_of_reaches rfl h _ _ rfl
  have h := h.tail (a := .record) trivial rfl
  obtain ⟨scan, rest, hscan, -⟩ := exists_scanCommitted (ringReader_total _) (by decide)
    (.nil 3 3 : Accepts _ 5 4096 (3 + 5) 3 3 [] [] 3 3) (by decide) (by decide)
  have hnil := txs_eq_nil_of_seq_ne hlanded.holds (by decide) (by decide) (by decide) hscan
  refine ⟨_, scan, h, rfl, rfl, hscan, hnil, ?_⟩
  rintro ⟨scan', retired, live, rest', hscan', htxs, hpending, -⟩
  obtain rfl := Except.ok.inj (hscan.symm.trans hscan')
  rw [hnil] at htxs
  obtain ⟨hfound, -⟩ := append_eq_nil_iff.mp htxs.symm
  rw [map_eq_nil_iff.mp (append_eq_nil_iff.mp hfound).2] at hpending
  cases hpending

end Edos.Journal

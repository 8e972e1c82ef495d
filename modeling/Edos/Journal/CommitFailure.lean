import Edos.Journal.Sequence

/-!
# When a commit fails

Sequence numbers are handed out one after the other, and `scan_committed` accepts a transaction only
if it continues the numbers of those before it. So a transaction that never reaches the ring hides
every later one from recovery, and the numbers in the ring have to be consecutive.

`seal_and_commit` takes a transaction from the queue before it starts writing. If it then finds that
the transaction will never fit, it puts it back. On every other error it returns with `?`, and the
transaction is gone: it is in neither queue, the next call commits its successor, and
`committed_seq` moves past it (`commit_passes_lost_transaction`). Recovery may find it all the same:
an error of the last command does not say that the commit block is missing
(`found_of_commit_landed`). With no error after the pop, all numbers handed out since the mount are
in the ring, with the committer, or queued, in this order and without a gap.
-/

namespace Edos.Journal

open List

variable {P : Type*} {ringSize : ℕ} {j j' : Journal P} {a : Action P}

/-- The numbers of the committed transactions and of those on the way. -/
def numbers (j : Journal P) : List ℕ := j.history.map TxImage.seq ++ j.waiting

/-- And that of the open one. -/
def line (j : Journal P) : List ℕ := j.numbers ++ [j.state.active.seq]

theorem line_frame (hhistory : j'.history = j.history)
    (hactive : j'.state.active.seq = j.state.active.seq) (hwaiting : j'.waiting.Sublist j.waiting) :
    j'.line.Sublist j.line := by
  rw [line, line, numbers, numbers, hhistory, hactive]
  exact (hwaiting.append_left _).append_right _

theorem line_stays (hs : Stays j j')
    (hflight : j'.committer.inFlight.Sublist j.committer.inFlight) : j'.line.Sublist j.line := by
  refine line_frame hs.history (congrArg _ hs.active) ?_
  rw [waiting, waiting, hs.sealed]
  exact hflight.append_right _

theorem line_sealActive (hord : InOrder j) (hseal : j.sealActive = some j') :
    j'.line.Sublist j.line ∨
      j'.line = j.line ++ [j'.state.active.seq] ∧ j.state.active.seq < j'.state.active.seq := by
  rcases sealActive_eq_some hseal with ⟨-, rfl⟩ | ⟨-, rfl⟩
  · exact .inl (.refl _)
  · refine .inr ⟨?_, hord.headSeq.le.trans_lt (Nat.lt_succ_self _)⟩
    simp [line, numbers, waiting]

/-- **Step.** Numbers leave the line, or a new one is handed out. -/
theorem line_step (hord : InOrder j) (hstep : Takes ringSize j a j') :
    j'.line.Sublist j.line ∨
      j'.line = j.line ++ [j'.state.active.seq] ∧ j.state.active.seq < j'.state.active.seq := by
  cases hstep.flow with
  | keep hs hflight => exact .inl (line_stays hs (by rw [hflight hord.image]))
  | lose hs hc => exact .inl (line_stays hs (by rw [hc]; exact nil_sublist _))
  | merge => exact .inl (line_frame rfl rfl (.refl _))
  | @seals _ j₁ _ _ hseal hs hflight =>
    have hline : j'.line = j₁.line := by
      rw [line, line, numbers, numbers, waiting, waiting, hs.history, hs.sealed, hs.active, hflight]
    rw [hline, hs.active]
    exact line_sealActive hord hseal
  | pop hc hs =>
    refine .inl (line_frame rfl rfl ?_)
    rw [waiting, waiting, hc, hs]
    exact .refl _
  | commitEmpty hc =>
    refine .inl (line_frame rfl rfl ?_)
    exact sublist_append_right _ _
  | capture _ hc | giveUp hc =>
    refine .inl (line_frame rfl rfl ?_)
    rw [waiting, waiting, hc]
    exact .refl _
  | record hc =>
    rw [line, line, numbers, numbers, waiting, waiting, hc]
    simp [Committer.inFlight]

/-- The numbers of a run are handed out in order, from that of the mount on. -/
structure Numbered (seq : ℕ) (j : Journal P) : Prop where
  sorted : j.line.Pairwise (· < ·)
  ge : ∀ q ∈ j.line, seq ≤ q

variable {seq : ℕ}

theorem Numbered.lt_active (h : Numbered seq j) {q : ℕ} (hq : q ∈ j.numbers) :
    q < j.state.active.seq :=
  (pairwise_append.mp h.sorted).2.2 q hq _ (mem_singleton_self _)

/-- **Step.** -/
theorem Numbered.step (h : Numbered seq j) (hord : InOrder j)
    (hstep : Takes ringSize j a j') : Numbered seq j' := by
  rcases line_step hord hstep with hsub | ⟨hline, hlt⟩
  · exact ⟨h.sorted.sublist hsub, fun q hq ↦ h.ge q (hsub.subset hq)⟩
  have hle : ∀ q ∈ j.line, q ≤ j.state.active.seq := fun q hq ↦
    (mem_append.mp hq).elim (fun hq ↦ (h.lt_active hq).le) fun hq ↦ (mem_singleton.mp hq).le
  constructor
  · rw [hline, pairwise_append]
    refine ⟨h.sorted, pairwise_singleton _ _, fun q hq q' hq' ↦ ?_⟩
    rw [mem_singleton.mp hq']
    exact (hle q hq).trans_lt hlt
  · rw [hline, forall_mem_append, forall_mem_singleton]
    exact ⟨h.ge, (h.ge _ (mem_append_right _ (mem_singleton_self _))).trans hlt.le⟩

theorem Numbered.eq_range' (h : Numbered seq j) (hacc : Accounted seq j) :
    j.numbers = range' seq (j.state.active.seq - seq) := by
  have hsorted : j.numbers.Pairwise (· < ·) := (pairwise_append.mp h.sorted).1
  have hactive : seq ≤ j.state.active.seq :=
    h.ge _ (mem_append_right _ (mem_singleton_self _))
  refine Perm.eq_of_pairwise (fun _ _ _ _ h h' ↦ absurd h h'.asymm) hsorted
    (pairwise_lt_range' _) ((perm_ext_iff_of_nodup (hsorted.imp Nat.ne_of_lt)
      (nodup_range' _)).mpr fun q ↦ ?_)
  rw [mem_range'_1, Nat.add_sub_cancel' hactive]
  refine ⟨fun hq ↦ ⟨h.ge q (mem_append_left _ hq), h.lt_active hq⟩, fun ⟨hle, hlt⟩ ↦ ?_⟩
  rcases hacc.all q hle hlt with hq | ⟨img, himg, rfl⟩
  · exact mem_append_right _ hq
  · exact mem_append_left _ (mem_map_of_mem himg)

/-! ## What is pending -/

/-- The pending transactions are the last ones committed. -/
def PendingSuffix (j : Journal P) : Prop :=
  ∃ i ≤ j.history.length, j.state.committedPending = (j.history.drop i).map entry

/-- **Step.** -/
theorem PendingSuffix.step (h : PendingSuffix j) (hstep : Takes ringSize j a j') :
    PendingSuffix j' := by
  obtain ⟨i, hi, hpending⟩ := h
  rcases Journal.pending_step hstep with ⟨hh, hp⟩ | ⟨img, hh, hp⟩ | ⟨min, -, hh, hp⟩
  · rw [PendingSuffix, hh, hp]
    exact ⟨i, hi, hpending⟩
  · refine ⟨i, by rw [hh, length_append]; exact Nat.le_add_right_of_le hi, ?_⟩
    rw [hh, hp, hpending, drop_append_of_le_length hi, map_append]
    rfl
  · obtain ⟨popped, rest, hsplit, -, hsweep⟩ := j.state.sweep_spec min
    have hrest : (j.state.sweep min).1.committedPending = rest := by
      rcases hsweep with ⟨-, hsweep⟩ | ⟨-, hsweep⟩ <;> rw [hsweep]
    have hlen := congrArg List.length (hpending.symm.trans hsplit)
    rw [length_map, length_drop, length_append] at hlen
    refine ⟨i + popped.length, ?_, ?_⟩
    · rw [hh]
      omega
    · rw [hp, hrest, hh, ← drop_drop, map_drop, ← hpending, hsplit, drop_left]

/-! ## Whole runs -/

/-- The journal can be recovered: all numbers handed out since the mount are in the ring, with the
committer or queued, in this order and without a gap; once `seal_and_commit` has returned, with or
without an error, what is not in the ring is queued; `committed_seq` has not passed anything that is
not in the ring; and the numbers in the ring, pending or all of them, are consecutive. -/
structure Recoverable (seq : ℕ) (j : Journal P) : Prop where
  inOrder : j.numbers = range' seq (j.state.active.seq - seq)
  returned : j.committer = .idle → ∀ q, seq ≤ q → q < j.state.active.seq →
    j.Recorded q ∨ ∃ tx ∈ j.state.sealed, tx.seq = q
  committed : ∀ q, seq ≤ q → q ≤ j.state.committedSeq → j.Recorded q
  ring : j.history.map TxImage.seq = range' seq j.history.length
  pending : ∃ n, j.state.committedPending.map Prod.fst
    = range' n j.state.committedPending.length

/-- The invariant behind recoverability. -/
structure RecoverableInv (seq : ℕ) (j : Journal P) : Prop where
  order : InOrder j
  numbered : Numbered seq j
  accounted : Accounted seq j
  pending : PendingSuffix j

theorem RecoverableInv.recoverable (h : RecoverableInv seq j) : Recoverable seq j := by
  have hnumbers := h.numbered.eq_range' h.accounted
  have hring : j.history.map TxImage.seq = range' seq j.history.length := by
    have hlen := congrArg List.length hnumbers
    rw [numbers, length_append, length_map, length_range'] at hlen
    rw [← hlen, ← range'_append_1] at hnumbers
    exact append_inj_left hnumbers (by rw [length_map, length_range'])
  refine ⟨hnumbers, fun hidle q hle hlt ↦ ?_, fun q hle hq ↦ ?_, hring, ?_⟩
  · refine (h.accounted.all q hle hlt).symm.imp_right fun hq ↦ ?_
    rw [waiting, hidle] at hq
    exact mem_map.mp hq
  · exact h.accounted.recorded h.order hle hq
  · obtain ⟨i, -, hpending⟩ := h.pending
    refine ⟨seq + i, ?_⟩
    rw [hpending, map_map, length_map, length_drop]
    change (j.history.drop i).map TxImage.seq = _
    rw [map_drop, hring, drop_range', mul_one]

/-- **A failed commit keeps the journal recoverable** in every run without an error after the pop,
from a mount at any sequence number but 0. -/
theorem recoverable_of_reaches {seq block headSeq headBlock : ℕ} {ring : ℕ → List UInt8}
    (hseq : 0 < seq)
    (h : Reaches (step ringSize) KeepsPopped (mounted seq block ring headSeq headBlock) j) :
    Recoverable seq j := by
  have hinv : RecoverableInv seq j := by
    refine h.invariant (I := RecoverableInv seq)
      ⟨inOrder_mounted hseq .., ⟨pairwise_singleton _ _, fun _ hq ↦ (mem_singleton.mp hq).ge⟩,
      accounted_mounted .., 0, Nat.le_refl 0, rfl⟩ fun j a j' hinv hkeep hs ↦ ?_
    have hstep := takes_of_step hs
    exact ⟨hinv.order.step hstep, hinv.numbered.step hinv.order hstep,
      hinv.accounted.step hinv.order hkeep hstep, hinv.pending.step hstep⟩
  exact hinv.recoverable

/-- A transaction that does not fit into a ring of two blocks: `seal_and_commit` gives up after its
checkpoints and returns an error, with the transaction back in the queue. -/
theorem recoverable_give_up :
    ∃ j : Journal Unit, Reaches (step 2) KeepsPopped (mounted 1 0 (fun _ ↦ []) 1 0) j ∧
      j.state.sealed.map Transaction.seq = [1] ∧ j.state.committedSeq = 0 ∧ Recoverable 1 j := by
  have h : Reaches (step 2) KeepsPopped (mounted 1 0 (fun _ ↦ []) 1 0 : Journal Unit) _ := .refl
  have h := h.play [oneBlock 7, .sealActive, .pop, .capture fun _ ↦ Page.zero]
    (fun _ _ h ↦ by fin_cases h <;> trivial) rfl
  have h := h.tail (a := .checkSpace) (by trivial)
    (step_checkSpace (.checkpoint rfl (by decide) (by decide)))
  have h := h.play [.checkpointSweep 1, .readCursors] (fun _ _ h ↦ by fin_cases h <;> trivial) rfl
  have h := h.tail (a := .writeCursors true true) (by exact fun _ ↦ rfl) rfl
  have h := h.tail (a := .checkSpace) (by trivial)
    (step_checkSpace (.checkpoint rfl (by decide) (by decide)))
  have h := h.tail (a := .checkpointSweep 1) (by trivial) rfl
  have h := h.tail (a := .checkSpace) (by trivial)
    (step_checkSpace (.giveUp rfl (by decide) (by decide)))
  exact ⟨_, h, rfl, rfl, recoverable_of_reaches (by decide) h⟩

/-- **A lost transaction.** The ring writes of transaction 1 fail and `seal_and_commit` returns; the
transaction is not queued. The next call commits transaction 2, and `committed_seq` is 2. -/
theorem commit_passes_lost_transaction :
    ∃ j : Journal Unit, Reaches (step 16) (fun _ _ ↦ True) (mounted 1 0 (fun _ ↦ []) 1 0) j ∧
      j.state.committedSeq = 2 ∧ j.history.map TxImage.seq = [2] ∧ j.state.sealed = [] ∧
      j.committer.inFlight = [] ∧ ¬Recoverable 1 j := by
  have h : Reaches (step 16) (fun _ _ ↦ True)
      (mounted 1 0 (fun _ ↦ []) 1 0 : Journal Unit) _ := .refl
  have h := h.play [oneBlock 7, .sealActive, .pop, .capture fun _ ↦ Page.zero]
    (fun _ _ _ ↦ trivial) rfl
  have h := h.tail (a := .checkSpace) trivial (step_checkSpace (.fits rfl (by decide) (by decide)))
  have h := h.play [.ringWrite 0, .drained false, oneBlock 8, .sealActive, .pop,
    .capture fun _ ↦ Page.zero] (fun _ _ _ ↦ trivial) rfl
  have h := h.tail (a := .checkSpace) trivial (step_checkSpace (.fits rfl (by decide) (by decide)))
  have h := h.play [.ringWrite 0, .ringWrite 1, .drained true, .flushed true,
    .commitWritten true true, .record] (fun _ _ _ ↦ trivial) rfl
  refine ⟨_, h, rfl, rfl, rfl, rfl, fun hrec ↦ ?_⟩
  obtain ⟨img, himg, hseq⟩ := hrec.committed 1 (by decide) (by decide)
  cases mem_singleton.mp himg
  exact absurd hseq (by decide)

/-- **The commit block comes last.** In every run, whatever failed before, a scan finds a
transaction whose commit block has reached the ring, even if its command is reported as failed. -/
theorem found_of_commit_landed {C : Journal P → Action P → Prop} {seq block headSeq headBlock : ℕ}
    {ring : ℕ → List UInt8} {img : TxImage} {start : ℕ} {ok : Bool}
    (hreach : Reaches (step ringSize) C (mounted seq block ring headSeq headBlock) j)
    (hsealing : j.committer = .sealing img start)
    (hstep : step ringSize j (.commitWritten true ok) = some j') (hcap : img.blocks.length ≤ 254)
    (hblock : start + ringSize + 512 < 2 ^ 64) (hseq : img.seq + ringSize + 1 < 2 ^ 64) :
    Found ringSize j'.ring img start := by
  obtain ⟨hfit, -, hrest⟩ := ringWritten_of_reaches rfl hreach img start (by rw [hsealing]; rfl)
  rw [hsealing] at hrest
  cases takes_of_step hstep with
  | commitWritten hc _ =>
    cases hsealing.symm.trans hc
    have hall : Landed _ ringSize img start [] :=
      hrest.writeSlot hfit fun _ hi hne ↦ absurd (mem_singleton.mp hi) hne
    exact found_of_holds hall.holds hcap hfit hblock hseq

theorem found_of_commit_landed_fails :
    ∃ (j : Journal Unit) (img : TxImage),
      Reaches (step 16) (fun _ _ ↦ True) (mounted 1 0 (fun _ ↦ []) 1 0) j ∧
        j.committer = .idle ∧ j.history = [] ∧ Found 16 j.ring img 0 := by
  have h : Reaches (step 16) (fun _ _ ↦ True)
      (mounted 1 0 (fun _ ↦ []) 1 0 : Journal Unit) _ := .refl
  have h := h.play [oneBlock 7, .sealActive, .pop, .capture fun _ ↦ Page.zero]
    (fun _ _ _ ↦ trivial) rfl
  have h := h.tail (a := .checkSpace) trivial (step_checkSpace (.fits rfl (by decide) (by decide)))
  have h := h.play [.ringWrite 0, .ringWrite 1, .drained true, .flushed true]
    (fun _ _ _ ↦ trivial) rfl
  exact ⟨_, _, h.tail (a := .commitWritten true false) trivial rfl, rfl, rfl,
    found_of_commit_landed h rfl (rfl : step 16 _ (.commitWritten true false) = _) (by decide)
      (by decide) (by decide)⟩

end Edos.Journal

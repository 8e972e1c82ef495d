import Edos.Journal.TailInvariant

/-!
# Transactions in order

What can be said of sequence numbers in every run of the journal, whatever fails: a transaction is
numbered when it is opened, sealed, popped and committed in that order, and numbers only grow. On
the way, a transaction may be lost to an error after it has been popped, so the numbers in the ring
need not be consecutive; `Accounted` says what holds when that does not happen.

The block cache and the journal know each other by sequence numbers only. What the cache side needs
is here: that a number, once used, stands for one transaction (`Enrols`), and that a transaction
recorded as committed is pending until a sweep retires it (`Retained`).
-/

namespace Edos.Journal

open List Option Std

variable {P : Type*} {ringSize : ℕ} {j j' : Journal P} {a : Action P}

/-- Sequence numbers grow along the way of a transaction: committed, held by the committer, sealed,
open. -/
structure InOrder (j : Journal P) : Prop where
  sorted : (j.state.committedSeq :: (j.waiting ++ [j.state.active.seq])).Pairwise (· < ·)
  headSeq : j.state.active.seq = j.state.cursors.headSeq
  history : ∀ img ∈ j.history, img.seq ≤ j.state.committedSeq
  image : ∀ img, j.committer.image = some img → j.committer.inFlight = [img.seq]

namespace InOrder

section

variable (h : InOrder j)

include h

theorem lt_active : j.state.committedSeq < j.state.active.seq :=
  rel_of_pairwise_cons h.sorted (by simp)

theorem waiting_lt {q : ℕ} (hq : q ∈ j.waiting) :
    j.state.committedSeq < q ∧ q < j.state.active.seq :=
  ⟨rel_of_pairwise_cons h.sorted (mem_append_left _ hq),
    (pairwise_append.mp (List.Pairwise.of_cons h.sorted)).2.2 q hq _ (mem_singleton_self _)⟩

theorem history_lt {img : TxImage} (himg : img ∈ j.history) :
    img.seq < j.state.active.seq := (h.history img himg).trans_lt h.lt_active

theorem frame (hcommitted : j'.state.committedSeq = j.state.committedSeq)
    (hactive : j'.state.active.seq = j.state.active.seq)
    (hhead : j'.state.cursors.headSeq = j.state.cursors.headSeq) (hhistory : j'.history = j.history)
    (hwaiting : j'.waiting.Sublist j.waiting)
    (himage : ∀ img, j'.committer.image = some img → j'.committer.inFlight = [img.seq]) :
    InOrder j' := by
  refine ⟨?_, ?_, ?_, himage⟩
  · rw [hcommitted, hactive]
    exact h.sorted.sublist ((hwaiting.append_right _).cons_cons _)
  · rw [hactive, hhead, h.headSeq]
  · rw [hhistory, hcommitted]
    exact h.history

/-- The committer keeps or drops what it holds. -/
theorem stays (hs : Stays j j')
    (hflight : j'.committer.inFlight = j.committer.inFlight ∨ j'.committer = .idle) :
    InOrder j' := by
  refine h.frame hs.committedSeq (congrArg _ hs.active) hs.headSeq hs.history ?_ fun img himg ↦ ?_
  · rw [Journal.waiting, Journal.waiting, hs.sealed]
    refine Sublist.append_right ?_ _
    rcases hflight with hflight | hidle
    · rw [hflight]
    · rw [hidle]
      exact nil_sublist _
  · rcases hflight with hflight | hidle
    · rw [hflight, h.image img (hs.image img himg)]
    · rw [hidle] at himg
      cases himg

theorem sealActive (hseal : j.sealActive = some j') : InOrder j' := by
  rcases sealActive_eq_some hseal with ⟨-, rfl⟩ | ⟨-, rfl⟩
  · exact h
  refine ⟨?_, rfl, h.history, h.image⟩
  have hlt : ∀ q ∈ j.state.committedSeq :: (j.waiting ++ [j.state.active.seq]),
      q < j.state.cursors.headSeq + 1 := by
    intro q hq
    rw [← h.headSeq, Nat.lt_succ_iff]
    rcases mem_cons.mp hq with rfl | hq
    · exact h.lt_active.le
    rcases mem_append.mp hq with hq | hq
    · exact (h.waiting_lt hq).2.le
    · exact (mem_singleton.mp hq).le
  have hsorted := pairwise_append.mpr ⟨h.sorted, pairwise_singleton _ _,
    fun q hq r hr ↦ by rw [mem_singleton.mp hr]; exact hlt q hq⟩
  change (_ :: (j.committer.inFlight ++ (j.state.sealed ++ [j.state.active]).map Transaction.seq
    ++ [j.state.cursors.headSeq + 1])).Pairwise _
  rwa [map_append, ← append_assoc, map_singleton]

theorem commit {q : ℕ} {rest : List ℕ} (hwaiting : j.waiting = q :: rest)
    (hwaiting' : j'.waiting = rest) (hcommitted : j'.state.committedSeq = q)
    (hactive : j'.state.active.seq = j.state.active.seq)
    (hhead : j'.state.cursors.headSeq = j.state.cursors.headSeq)
    (hhistory : ∀ img ∈ j'.history, img ∈ j.history ∨ img.seq = q)
    (himage : j'.committer.image = none) : InOrder j' := by
  have hsorted := h.sorted
  rw [hwaiting, cons_append] at hsorted
  refine ⟨?_, ?_, fun img himg ↦ ?_, fun img himg ↦ ?_⟩
  · rw [hwaiting', hcommitted, hactive]
    exact List.Pairwise.of_cons hsorted
  · rw [hactive, hhead, h.headSeq]
  · rw [hcommitted]
    rcases hhistory img himg with himg | heq
    · exact (h.history img himg).trans (rel_of_pairwise_cons hsorted mem_cons_self).le
    · exact heq.le
  · rw [himage] at himg
    cases himg

/-- **Step.** -/
theorem step (hstep : Takes ringSize j a j') : InOrder j' := by
  cases hstep.flow with
  | keep hs hflight => exact h.stays hs (.inl (hflight h.image))
  | lose hs hidle => exact h.stays hs (.inr hidle)
  | merge => exact h.frame rfl rfl rfl rfl (.refl _) h.image
  | seals _ hseal hs hflight => exact (h.sealActive hseal).stays hs (.inl hflight)
  | @pop tx rest hc hs =>
    refine h.frame rfl rfl rfl rfl ?_ (by rintro _ ⟨⟩)
    rw [Journal.waiting, Journal.waiting, hc, hs]
    exact .refl _
  | @commitEmpty tx hc he =>
    refine h.commit (q := tx.seq) ?_ rfl rfl rfl rfl (fun _ ↦ .inl) rfl
    rw [Journal.waiting, hc]
    rfl
  | capture content hc =>
    refine h.frame rfl rfl rfl rfl ?_ fun img himg ↦ ?_
    · rw [Journal.waiting, Journal.waiting, hc]
      exact .refl _
    · obtain rfl := some.inj himg
      rfl
  | giveUp hc =>
    refine h.frame rfl rfl rfl rfl ?_ (by rintro _ ⟨⟩)
    rw [Journal.waiting, Journal.waiting, hc]
    exact .refl _
  | @record img start hc =>
    refine h.commit (q := img.seq) ?_ rfl rfl rfl rfl (fun img' himg' ↦ ?_) rfl
    · rw [Journal.waiting, hc]
      rfl
    · rcases mem_append.mp himg' with himg' | himg'
      · exact .inl himg'
      · exact .inr (congrArg _ (mem_singleton.mp himg'))

end

end InOrder

theorem inOrder_mounted {seq : ℕ} (hseq : 0 < seq) (block : ℕ) (ring : ℕ → List UInt8)
    (headSeq headBlock : ℕ) : InOrder (mounted seq block ring headSeq headBlock : Journal P) where
  sorted := by
    exact pairwise_pair.mpr (Nat.sub_one_lt_of_lt hseq)
  headSeq := rfl
  history _ h := nomatch h
  image _ h := nomatch h

/-! ## What only grows -/

/-- Sequence numbers and the history only grow. -/
structure Advances (j j' : Journal P) : Prop where
  committed : j.state.committedSeq ≤ j'.state.committedSeq
  active : j.state.active.seq ≤ j'.state.active.seq
  history : j.history <+: j'.history

theorem Advances.refl (j : Journal P) : Advances j j :=
  ⟨Nat.le_refl _, Nat.le_refl _, prefix_rfl⟩

theorem Advances.sealActive (h : InOrder j) (hseal : j.sealActive = some j') : Advances j j' := by
  rcases sealActive_eq_some hseal with ⟨-, rfl⟩ | ⟨-, rfl⟩
  · exact .refl _
  · exact ⟨Nat.le_refl _, h.headSeq.le.trans (Nat.le_succ _), prefix_rfl⟩

/-- **Step.** -/
theorem InOrder.advances (h : InOrder j) (hstep : Takes ringSize j a j') : Advances j j' := by
  have hcommit {q : ℕ} (hq : q ∈ j.committer.inFlight) : j.state.committedSeq ≤ q :=
    (h.waiting_lt (mem_append_left _ hq)).1.le
  cases hstep with
  | sealIfFull _ hseal => exact .sealActive h hseal
  | sealActive _ hseal =>
    obtain ⟨hc, ha, hh⟩ := Advances.sealActive h hseal
    exact ⟨hc, ha, hh⟩
  | commitEmpty hc =>
    exact ⟨hcommit (by rw [hc]; exact mem_singleton_self _), Nat.le_refl _, prefix_rfl⟩
  | record hc =>
    exact ⟨hcommit (by rw [hc]; exact mem_singleton_self _), Nat.le_refl _, prefix_append _ _⟩
  | checkpointSweep min | sweep min =>
    refine ⟨?_, ?_, prefix_rfl⟩ <;> dsimp only
    · rw [JournalState.sweep_committedSeq]
    · rw [JournalState.sweep_active]
  | _ => exact ⟨Nat.le_refl _, Nat.le_refl _, prefix_rfl⟩

/-! ## A number stands for one transaction -/

theorem inFlight_of_tx {tx : Transaction P} (h : j.committer.tx = some tx) :
    j.committer.inFlight = [tx.seq] := by
  cases hc : j.committer <;> rw [hc] at h <;> first
    | (obtain rfl := some.inj h; rfl)
    | cases h

/-- Wherever the transaction with this number is, it has the first property; and its image has the
second. -/
structure Follows (T : Transaction P → Prop) (I : TxImage → Prop) (j : Journal P) (q : ℕ) :
    Prop where
  le : q ≤ j.state.active.seq
  active : j.state.active.seq = q → T j.state.active
  sealed : ∀ tx ∈ j.state.sealed, tx.seq = q → T tx
  held : ∀ tx, j.committer.tx = some tx → tx.seq = q → T tx
  image : ∀ img, j.committer.image = some img → img.seq = q → I img
  history : ∀ img ∈ j.history, img.seq = q → I img

variable {blocks : ExtTreeMap UInt64 P} {revokes : ExtTreeSet UInt64}

namespace Follows

variable {T : Transaction P → Prop} {I : TxImage → Prop} {q : ℕ}

/-- What a handle brings is in the open transaction once it is merged: nothing else has its number.
-/
theorem of_merge (h : InOrder j) (hT : T (j.state.active.merge blocks revokes)) :
    Follows T I { j with state.active := j.state.active.merge blocks revokes }
      j.state.active.seq where
  le := Nat.le_refl _
  active _ := hT
  sealed tx htx hq :=
    absurd hq (h.waiting_lt (mem_append_right _ (List.mem_map_of_mem htx))).2.ne
  held tx htx hq := by
    refine absurd hq (h.waiting_lt (mem_append_left _ ?_)).2.ne
    rw [inFlight_of_tx htx]
    exact mem_singleton_self _
  image img himg hq := by
    refine absurd hq (h.waiting_lt (mem_append_left _ ?_)).2.ne
    rw [h.image img himg]
    exact mem_singleton_self _
  history img himg hq := absurd hq (h.history_lt himg).ne

/-- **Step.** -/
theorem step (h : Follows T I j q) (hord : InOrder j)
    (hT : ∀ tx blocks revokes, T tx → T (tx.merge blocks revokes))
    (hI : ∀ tx content, T tx → I (tx.capture content)) (hstep : Takes ringSize j a j') :
    Follows T I j' q := by
  have hlt : q < j.state.cursors.headSeq + 1 := Nat.lt_succ_of_le (h.le.trans hord.headSeq.le)
  have htx : AllTx (fun tx ↦ tx.seq = q → T tx) (fun tx ↦ tx.seq = q → T tx) j' :=
    AllTx.step ⟨h.active, h.sealed, h.held⟩ (fun hq ↦ absurd hq.symm hlt.ne)
      (fun _ _ _ hq ↦ hT _ _ _ (h.active hq)) (fun _ _ ↦ h.active) hstep
  have himage {img : TxImage} (himg : j'.committer.image = some img ∨ img ∈ j'.history)
      (hq : img.seq = q) : I img := by
    rcases images_step hstep himg with (himg | himg) | ⟨content, tx, -, hc, rfl⟩
    · exact h.image img himg hq
    · exact h.history img himg hq
    · exact hI tx content (h.held tx (by rw [hc]; rfl) hq)
  exact ⟨h.le.trans (hord.advances hstep).active, htx.active, htx.sealed, htx.held,
    fun _ himg ↦ himage (.inl himg), fun _ himg ↦ himage (.inr himg)⟩

end Follows

/-- Wherever the transaction with this number is, it has the block. -/
structure Enrols (j : Journal P) (q : ℕ) (b : UInt64) : Prop where
  le : q ≤ j.state.active.seq
  active : j.state.active.seq = q → b ∈ j.state.active.enrolledBlocks
  sealed : ∀ tx ∈ j.state.sealed, tx.seq = q → b ∈ tx.enrolledBlocks
  held : ∀ tx, j.committer.tx = some tx → tx.seq = q → b ∈ tx.enrolledBlocks
  image : ∀ img, j.committer.image = some img → img.seq = q → ∃ page, (b, page) ∈ img.blocks
  history : ∀ img ∈ j.history, img.seq = q → ∃ page, (b, page) ∈ img.blocks

namespace Enrols

variable {q : ℕ} {b : UInt64}

theorem iff_follows : Enrols j q b ↔
    Follows (fun tx ↦ b ∈ tx.enrolledBlocks) (fun img ↦ ∃ page, (b, page) ∈ img.blocks) j q :=
  ⟨fun h ↦ ⟨h.le, h.active, h.sealed, h.held, h.image, h.history⟩,
    fun h ↦ ⟨h.le, h.active, h.sealed, h.held, h.image, h.history⟩⟩

theorem of_merge (h : InOrder j) (revokes : ExtTreeSet UInt64) (hb : b ∈ blocks) :
    Enrols { j with state.active := j.state.active.merge blocks revokes } j.state.active.seq b := by
  rw [iff_follows]
  refine .of_merge h ?_
  rw [Transaction.mem_merge]
  exact .inl hb

/-- **Step.** -/
theorem step (h : Enrols j q b) (hord : InOrder j) (hstep : Takes ringSize j a j') :
    Enrols j' q b := by
  rw [iff_follows] at h ⊢
  refine h.step hord (fun tx blocks revokes hb ↦ ?_) (fun tx content hb ↦ ?_) hstep
  · rw [Transaction.mem_merge]
    exact .inr hb
  · obtain ⟨p, hp⟩ := isSome_iff_exists.mp (ExtTreeMap.isSome_getElem?_iff_mem.mpr hb)
    exact ⟨content p, Transaction.mem_capture_blocks.mpr ⟨p, hp, rfl⟩⟩

end Enrols

/-- Wherever the transaction with this number is, it revokes the block. -/
def Revokes (j : Journal P) (q : ℕ) (b : UInt64) : Prop :=
  Follows (fun tx ↦ b ∈ tx.revokes) (fun img ↦ b ∈ img.revokes) j q

theorem Revokes.of_merge (h : InOrder j) {q : ℕ} {b : UInt64} (blocks : ExtTreeMap UInt64 P)
    (hb : b ∈ revokes) (hq : q = j.state.active.seq) :
    Revokes { j with state.active := j.state.active.merge blocks revokes } q b := by
  subst hq
  refine Follows.of_merge h ?_
  rw [Transaction.mem_merge_revokes]
  exact .inl hb

theorem Revokes.step {q : ℕ} {b : UInt64} (h : Revokes j q b) (hord : InOrder j)
    (hstep : Takes ringSize j a j') : Revokes j' q b := by
  refine Follows.step h hord (fun tx blocks revokes hb ↦ ?_) (fun tx content hb ↦ ?_) hstep
  · rw [Transaction.mem_merge_revokes]
    exact .inr hb
  · exact ExtTreeSet.mem_toList.mpr hb

/-! ## Committed and pending -/

/-- The transaction with this number has been recorded as committed. -/
def Recorded (j : Journal P) (q : ℕ) : Prop := ∃ img ∈ j.history, img.seq = q

/-- The transaction with this number is waiting to be retired. -/
def Pending (j : Journal P) (q : ℕ) : Prop := ∃ n, (q, n) ∈ j.state.committedPending

theorem Recorded.mono {q : ℕ} (h : Recorded j q) (hadv : Advances j j') : Recorded j' q := by
  obtain ⟨img, himg, hq⟩ := h
  exact ⟨img, hadv.history.subset himg, hq⟩

/-- What a step does to the history and to the pending transactions. -/
theorem pending_step (hstep : Takes ringSize j a j') :
    (j'.history = j.history ∧ j'.state.committedPending = j.state.committedPending) ∨
      (∃ img : TxImage, j'.history = j.history ++ [img] ∧
        j'.state.committedPending = j.state.committedPending ++ [(img.seq, img.needed)]) ∨
      ∃ min, (a = .sweep min ∨ a = .checkpointSweep min) ∧ j'.history = j.history ∧
        j'.state.committedPending = (j.state.sweep min).1.committedPending := by
  cases hstep with
  | sealIfFull _ hseal | sealActive _ hseal =>
    obtain ⟨-, -, -, -, hhistory, hpending, -⟩ := sealActive_frame hseal
    exact .inl ⟨hhistory, hpending⟩
  | record => exact .inr (.inl ⟨_, rfl, rfl⟩)
  | sweep min => exact .inr (.inr ⟨min, .inl rfl, rfl, rfl⟩)
  | checkpointSweep min => exact .inr (.inr ⟨min, .inr rfl, rfl, rfl⟩)
  | _ => exact .inl ⟨rfl, rfl⟩

/-- A sweep retires transactions below its bound, and no others. -/
theorem sweep_pending (s : JournalState P) (min : ℕ) :
    (s.sweep min).1.committedPending ⊆ s.committedPending ∧
      ∀ e ∈ s.committedPending, e ∈ (s.sweep min).1.committedPending ∨ e.1 < min := by
  obtain ⟨popped, rest, hsplit, hlt, ⟨-, h⟩ | ⟨-, h⟩⟩ := s.sweep_spec min
  all_goals
    rw [h, hsplit]
    refine ⟨subset_append_right _ _, fun e he ↦ ?_⟩
    exact (mem_append.mp he).elim (fun he ↦ .inr (hlt e he)) .inl

theorem pending_recorded_step (h : ∀ e ∈ j.state.committedPending, Recorded j e.1)
    (hstep : Takes ringSize j a j') : ∀ e ∈ j'.state.committedPending, Recorded j' e.1 := by
  intro e he
  rcases pending_step hstep with ⟨hh, hp⟩ | ⟨img, hh, hp⟩ | ⟨min, -, hh, hp⟩
  · rw [hp] at he
    rw [Recorded, hh]
    exact h e he
  · rw [hp] at he
    rw [Recorded, hh]
    rcases mem_append.mp he with he | he
    · obtain ⟨img', himg', hq⟩ := h e he
      exact ⟨img', mem_append_left _ himg', hq⟩
    · rw [mem_singleton.mp he]
      exact ⟨img, mem_append_right _ (mem_singleton_self _), rfl⟩
  · rw [hp] at he
    rw [Recorded, hh]
    exact h e ((sweep_pending j.state min).1 he)

/-- If the transaction with this number has been committed, it has not been retired. -/
def Retained (j : Journal P) (q : ℕ) : Prop := Recorded j q → Pending j q

/-- **Step.** Only a sweep with a bound above the number retires the transaction. -/
theorem Retained.step {q : ℕ} (h : Retained j q) (hstep : Takes ringSize j a j')
    (hmin : ∀ min, a = .sweep min ∨ a = .checkpointSweep min → min ≤ q) : Retained j' q := by
  rcases pending_step hstep with ⟨hh, hp⟩ | ⟨img, hh, hp⟩ | ⟨min, ha, hh, hp⟩
  · rw [Retained, Recorded, Pending, hh, hp]
    exact h
  · rintro ⟨img', himg', hq⟩
    rw [hh] at himg'
    rw [Pending, hp]
    rcases mem_append.mp himg' with himg' | himg'
    · obtain ⟨n, hn⟩ := h ⟨img', himg', hq⟩
      exact ⟨n, mem_append_left _ hn⟩
    · rw [mem_singleton.mp himg'] at hq
      exact ⟨img.needed, mem_append_right _ (by rw [hq]; exact mem_singleton_self _)⟩
  · rw [Retained, Recorded, hh]
    intro hrec
    obtain ⟨n, hn⟩ := h hrec
    rw [Pending, hp]
    exact ⟨n, ((sweep_pending j.state min).2 _ hn).resolve_right (Nat.not_lt.mpr (hmin min ha))⟩

/-! ## When nothing is lost -/

/-- Every number handed out since the mount is on its way to the ring or in it. -/
structure Accounted (seq : ℕ) (j : Journal P) : Prop where
  all : ∀ q, seq ≤ q → q < j.state.active.seq → q ∈ j.waiting ∨ Recorded j q
  sealed : ∀ tx ∈ j.state.sealed, tx.isEmpty = false
  popped : ∀ tx, j.committer.tx = some tx → tx.isEmpty = false

namespace Accounted

variable {seq : ℕ}

theorem waiting_sealActive (hord : InOrder j) (hseal : j.sealActive = some j')
    (hall : ∀ q, seq ≤ q → q < j.state.active.seq → q ∈ j.waiting ∨ Recorded j q) :
    ∀ q, seq ≤ q → q < j'.state.active.seq → q ∈ j'.waiting ∨ Recorded j' q := by
  rcases sealActive_eq_some hseal with ⟨-, rfl⟩ | ⟨-, rfl⟩
  · exact hall
  intro q hle hlt
  change q ∈ j.committer.inFlight ++ (j.state.sealed ++ [j.state.active]).map _ ∨ Recorded j q
  rw [map_append, ← append_assoc, map_singleton]
  rcases Nat.lt_or_eq_of_le (Nat.le_of_lt_succ hlt) with hlt | rfl
  · exact (hall q hle (hlt.trans_eq hord.headSeq.symm)).imp_left (mem_append_left _)
  · refine .inl (mem_append_right _ ?_)
    rw [← hord.headSeq]
    exact mem_singleton_self _

/-- **Step.** -/
theorem step (h : Accounted seq j) (hord : InOrder j) (hkeep : KeepsPopped j a)
    (hstep : Takes ringSize j a j') : Accounted seq j' := by
  have htx : AllTx (fun _ ↦ True) (fun tx ↦ tx.isEmpty = false) j' :=
    AllTx.step ⟨trivial, h.sealed, h.popped⟩ trivial (fun _ _ _ ↦ trivial) (fun _ hne ↦ hne) hstep
  refine ⟨?_, htx.sealed, htx.held⟩
  -- the same numbers are on the way
  have hframe {j₀ : Journal P} (hall : ∀ q, seq ≤ q → q < j₀.state.active.seq → q ∈ j₀.waiting ∨
      Recorded j₀ q) (hactive : j'.state.active.seq = j₀.state.active.seq)
      (hwaiting : j'.waiting = j₀.waiting) (hhistory : j'.history = j₀.history) :
      ∀ q, seq ≤ q → q < j'.state.active.seq → q ∈ j'.waiting ∨ Recorded j' q := by
    rw [hactive, hwaiting]
    simp only [Recorded, hhistory]
    exact hall
  cases hstep.flow with
  | keep hs hflight =>
    refine hframe h.all (congrArg _ hs.active) ?_ hs.history
    rw [Journal.waiting, Journal.waiting, hs.sealed, hflight hord.image]
  | lose _ _ hlost => exact absurd hkeep hlost
  | merge => exact hframe h.all rfl rfl rfl
  | seals _ hseal hs hflight =>
    refine hframe (waiting_sealActive hord hseal h.all) (congrArg _ hs.active) ?_ hs.history
    rw [Journal.waiting, Journal.waiting, hs.sealed, hflight]
  | pop hc hs =>
    refine hframe h.all rfl ?_ rfl
    rw [Journal.waiting, Journal.waiting, hc, hs]
    rfl
  | commitEmpty hc he =>
    rw [h.popped _ (by rw [hc]; rfl)] at he
    cases he
  | capture _ hc | giveUp hc =>
    refine hframe h.all rfl ?_ rfl
    rw [Journal.waiting, Journal.waiting, hc]
    rfl
  | @record img start hc =>
    intro q hle hlt
    rcases h.all q hle hlt with hq | ⟨img', himg', hq⟩
    · rw [Journal.waiting, hc] at hq
      rcases mem_cons.mp hq with rfl | hq
      · exact .inr ⟨img, mem_append_right _ (mem_singleton_self _), rfl⟩
      · exact .inl hq
    · exact .inr ⟨img', mem_append_left _ himg', hq⟩

theorem recorded (h : Accounted seq j) (hord : InOrder j) {q : ℕ} (hle : seq ≤ q)
    (hq : q ≤ j.state.committedSeq) : Recorded j q :=
  (h.all q hle (hq.trans_lt hord.lt_active)).resolve_left fun hmem ↦
    absurd hq (Nat.not_le.mpr (hord.waiting_lt hmem).1)

end Accounted

theorem accounted_mounted (seq block : ℕ) (ring : ℕ → List UInt8) (headSeq headBlock : ℕ) :
    Accounted seq (mounted seq block ring headSeq headBlock : Journal P) where
  all _ hle hlt := absurd hle (Nat.not_le.mpr hlt)
  sealed _ h := nomatch h
  popped _ h := nomatch h

end Edos.Journal

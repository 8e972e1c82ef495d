import Edos.Journal.CommitFailure

/-!
# Ring space

The ring is used from the tail to the head, both counted without wrapping around. A commit takes the
space past the head if it fits before the tail comes around again, and a sweep gives back the space
of what it retires. The head moves when the commit is recorded, long after the space was looked up,
and the tail may move in between; the catch-up branch even moves it to the head while the committer
is writing there. None of this matters: the tail only moves forward, and there is one committer.

The space between the tail and the head is that of the pending transactions, and it holds their
blocks. This needs no assumption on what fails: an abandoned commit has written past the head only.
-/

namespace Edos.Journal

open List

variable {P : Type*} {ringSize : ℕ} {j j' : Journal P} {a : Action P}

theorem tailBlock_retire (c : Cursors) (popped : List (ℕ × ℕ)) :
    (JournalState.retire c popped).tailBlock = c.tailBlock + (popped.map Prod.snd).sum := by
  induction popped generalizing c with
  | nil => rfl
  | cons p popped ih =>
    rw [JournalState.retire_cons, ih, map_cons, sum_cons, add_assoc]

theorem sum_entries (live : List TxImage) :
    ((live.map entry).map Prod.snd).sum = (layout live).length := by
  rw [map_map, length_layout]
  rfl

/-- The ring between the tail and the head holds the pending transactions. -/
def Live (ringSize : ℕ) (j : Journal P) : Prop :=
  ∃ live, live <:+ j.history ∧ j.state.committedPending = live.map entry ∧
    j.state.cursors.headBlock = j.state.cursors.tailBlock + (layout live).length ∧
    Holds (ringReader j.ring) ringSize j.state.cursors.tailBlock (layout live)

/-- And a commit is written past the head, before the tail. -/
structure SpaceInv (ringSize : ℕ) (j : Journal P) : Prop where
  live : Live ringSize j
  target : ∀ img start, j.committer.target = some (img, start) → start = j.state.cursors.headBlock
  room : j.frontier ≤ j.state.cursors.tailBlock + ringSize

namespace SpaceInv

theorem frontier_le (hhead : j'.state.cursors.headBlock = j.state.cursors.headBlock)
    (htarget : ∀ t, j'.committer.target = some t → j.committer.target = some t) :
    j'.frontier ≤ j.frontier := by
  rw [frontier, frontier, hhead, Committer.reserved, Committer.reserved]
  cases ht : j'.committer.target with
  | none => exact Nat.le_add_right _ _
  | some t => rw [htarget t ht]

section

variable (h : SpaceInv ringSize j)

include h

theorem frame (hlive : Live ringSize j')
    (hhead : j'.state.cursors.headBlock = j.state.cursors.headBlock)
    (htail : j.state.cursors.tailBlock ≤ j'.state.cursors.tailBlock)
    (htarget : ∀ t, j'.committer.target = some t → j.committer.target = some t) :
    SpaceInv ringSize j' := by
  refine ⟨hlive, fun img start ht ↦ ?_, ?_⟩
  · rw [hhead]
    exact h.target img start (htarget _ ht)
  · exact (frontier_le hhead htarget).trans (h.room.trans (Nat.add_le_add_right htail _))

variable {img : TxImage} {start : ℕ}

/-- A block of the image that is being written goes past the head. -/
theorem writeSlot (ht : j.committer.target = some (img, start)) (k : ℕ)
    (hstate : j'.state = j.state) (hhistory : j'.history = j.history)
    (hring : j'.ring = Journal.writeSlot ringSize j.ring img start k)
    (htarget : ∀ t, j'.committer.target = some t → j.committer.target = some t) :
    SpaceInv ringSize j' := by
  obtain ⟨live, hsuffix, hpending, hhead, hholds⟩ := h.live
  have hstart := h.target img start ht
  have hroom : j.state.cursors.headBlock + img.needed ≤ j.state.cursors.tailBlock + ringSize := by
    have hroom := h.room
    rwa [frontier, Committer.reserved, ht] at hroom
  refine h.frame ⟨live, hhistory ▸ hsuffix, hstate ▸ hpending, hstate ▸ hhead, ?_⟩ (by rw [hstate])
    (by rw [hstate]) htarget
  rw [hring, hstate, Journal.writeSlot]
  cases hk : img.ringBlocks[k]? with
  | none => exact hholds
  | some b =>
    obtain ⟨hlt, -⟩ := List.getElem?_eq_some_iff.mp hk
    rw [TxImage.length_ringBlocks] at hlt
    exact hholds.update (by omega) (by omega) b

/-- Retiring gives space back at the tail, and there is nothing to catch up to but the head. -/
theorem sweep (min : ℕ) (hhistory : j'.history = j.history) (hring : j'.ring = j.ring)
    (hstate : j'.state = (j.state.sweep min).1)
    (htarget : ∀ t, j'.committer.target = some t → j.committer.target = some t) :
    SpaceInv ringSize j' := by
  obtain ⟨live, hsuffix, hpending, hhead, hholds⟩ := h.live
  obtain ⟨popped, rest, hsplit, -, hsweep⟩ := j.state.sweep_spec min
  obtain ⟨gone, kept, rfl, hgone, hkept⟩ := map_eq_append_iff.mp (hpending.symm.trans hsplit)
  have hhead' := (JournalState.sweep_head j.state min).2
  have hlen : (popped.map Prod.snd).sum = (layout gone).length := by rw [← hgone, sum_entries]
  rw [layout_append, length_append] at hhead
  rw [layout_append, holds_append] at hholds
  have hkeep : kept <:+ j.history := (suffix_append _ _).trans hsuffix
  have htail : j.state.cursors.tailBlock ≤ (j.state.sweep min).1.cursors.tailBlock ∧
      ∃ live, live <:+ j.history ∧ (j.state.sweep min).1.committedPending = live.map entry ∧
        j.state.cursors.headBlock
          = (j.state.sweep min).1.cursors.tailBlock + (layout live).length ∧
        Holds (ringReader j.ring) ringSize (j.state.sweep min).1.cursors.tailBlock
          (layout live) := by
    rcases hsweep with ⟨hcatch, hsweep⟩ | ⟨-, hsweep⟩
    · simp only [JournalState.catchesUp, Bool.and_eq_true, List.isEmpty_iff] at hcatch
      obtain ⟨⟨rfl, -⟩, -⟩ := hcatch
      rw [hsweep]
      exact ⟨by dsimp only; omega, [], nil_suffix, rfl, rfl, holds_nil _⟩
    · rw [hsweep]
      rw [tailBlock_retire, hlen]
      exact ⟨Nat.le_add_right _ _, kept, hkeep, hkept.symm, by omega, hholds.2⟩
  obtain ⟨hle, live, hsuffix, hpending, hblocks, hholds⟩ := htail
  refine h.frame ⟨live, hhistory ▸ hsuffix, ?_, ?_, ?_⟩ (by rw [hstate, hhead'])
    (by rw [hstate]; exact hle) htarget
  · rw [hstate, hpending]
  · rw [hstate, hhead', hblocks]
  · rwa [hstate, hring]

theorem record (hwritten : RingWritten ringSize j) (hc : j.committer = .committed img start) :
    SpaceInv ringSize (j.recorded img start) := by
  obtain ⟨live, hsuffix, hpending, hhead, hholds⟩ := h.live
  have hstart := h.target img start (by rw [hc]; rfl)
  obtain ⟨-, -, hlanded⟩ := hwritten img start (by rw [hc]; rfl)
  rw [hc] at hlanded
  refine ⟨⟨live ++ [img], ?_, ?_, ?_, ?_⟩, fun _ _ h ↦ (nomatch h), ?_⟩
  · obtain ⟨init, hinit⟩ := hsuffix
    exact ⟨init, by rw [← append_assoc, hinit]⟩
  · rw [map_append, ← hpending]
    rfl
  · dsimp only
    rw [layout_append, layout_singleton, length_append, TxImage.length_ringBlocks, hstart, hhead,
      add_assoc]
  · rw [layout_append, layout_singleton, holds_append]
    refine ⟨hholds, ?_⟩
    rw [← hhead, ← hstart]
    exact hlanded.holds
  · have hroom := h.room
    rwa [frontier, Committer.reserved, hc, ← hstart] at hroom

theorem fits (hsize : ringSize < 2 ^ 64) (hfit : img.needed ≤ ringSize - used j.state.cursors) :
    SpaceInv ringSize { j with
      committer := .writing img j.state.cursors.headBlock (range (img.needed - 1)) } := by
  obtain ⟨live, -, -, hhead, -⟩ := h.live
  have hle : j.state.cursors.headBlock ≤ j.state.cursors.tailBlock + ringSize :=
    (Nat.le_add_right _ _).trans h.room
  have hused : used j.state.cursors = j.state.cursors.headBlock - j.state.cursors.tailBlock := by
    rw [used]
    omega
  refine ⟨h.live, ?_, ?_⟩
  · rintro img' start ht
    exact (Prod.mk.inj (Option.some.inj ht)).2.symm
  · change j.state.cursors.headBlock + img.needed ≤ j.state.cursors.tailBlock + ringSize
    omega

/-- **Step.** -/
theorem step (hsize : ringSize < 2 ^ 64) (hwritten : RingWritten ringSize j)
    (hstep : Takes ringSize j a j') : SpaceInv ringSize j' := by
  cases hstep with
  | merge | advancerReads | advancerWrites => exact h.frame h.live rfl le_rfl fun _ h ↦ h
  | sealIfFull _ hseal =>
    obtain ⟨hc, -, hring, -, hh, hp, hcur⟩ := sealActive_frame hseal
    refine h.frame ?_ (by rw [hcur]) (by rw [hcur]) fun t ht ↦ by rwa [hc] at ht
    rw [Live, hh, hp, hring, hcur]
    exact h.live
  | sealActive _ hseal =>
    obtain ⟨-, -, hring, -, hh, hp, hcur⟩ := sealActive_frame hseal
    refine h.frame ?_ (by dsimp only; rw [hcur]) (by dsimp only; rw [hcur]) fun t ht ↦ ?_
    · rw [Live, hh, hp, hring, hcur]
      exact h.live
    · split_ifs at ht <;> cases ht
  | fits hc hfit _ => exact h.fits hsize hfit
  | checkpointSweep min hc =>
    refine h.sweep min rfl rfl rfl fun t ht ↦ ?_
    split_ifs at ht <;> cases ht
  | sweep min => exact h.sweep min rfl rfl rfl fun _ h ↦ h
  | ringWrite hc =>
    exact h.writeSlot (by rw [hc]; rfl) _ rfl rfl rfl fun t ht ↦ by rw [hc]; exact ht
  | drained hc => exact h.frame h.live rfl le_rfl fun t ht ↦ by rw [hc]; exact ht
  | flushed ok hc =>
    refine h.frame h.live rfl le_rfl fun t ht ↦ ?_
    rw [hc]
    cases ok with
    | true => exact ht
    | false => cases ht
  | @commitWritten img start landed ok hc hok =>
    have htarget (t) (ht : (if ok then .committed img start else .idle : Committer P).target
        = some t) : j.committer.target = some t := by
      rw [hc]
      cases ok with
      | true => exact ht
      | false => cases ht
    cases landed with
    | true => exact h.writeSlot (by rw [hc]; rfl) _ rfl rfl rfl htarget
    | false => exact h.frame h.live rfl le_rfl htarget
  | record hc => exact h.record hwritten hc
  | @writeAdvancing _ _ _ _ _ ok hc | @writePublishing _ _ ok hc =>
    refine h.frame h.live rfl le_rfl fun t ht ↦ ?_
    cases ok <;> cases ht
  | _ => exact h.frame h.live rfl le_rfl fun _ h ↦ nomatch h

end

end SpaceInv

/-- `Journal::new`, for whatever is on the disk. -/
def new (headSeq tailSeq initialHeadBlock : ℕ) (ring : ℕ → List UInt8) (superblock : Cursors) :
    Journal P where
  state := .new headSeq tailSeq initialHeadBlock
  txIdCounter := UInt64.ofNat headSeq
  committer := .idle
  advancers := []
  ring := ring
  superblock := superblock
  history := []

/-- Ring space is accounted for: the head is past the tail by the sizes recorded for the pending
transactions, and by no more than the ring has blocks. A commit writes to no slot of a pending
transaction: the slots between the tail and the head hold the pending transactions one after the
other, and those that the commit writes are others. -/
structure RingSpace (ringSize : ℕ) (j : Journal P) : Prop where
  sizes : j.state.cursors.headBlock
    = j.state.cursors.tailBlock + (j.state.committedPending.map Prod.snd).sum
  used : used j.state.cursors = (j.state.committedPending.map Prod.snd).sum
  le : (j.state.committedPending.map Prod.snd).sum ≤ ringSize
  slots : ∃ live, live <:+ j.history ∧ j.state.committedPending = live.map entry ∧
    Holds (ringReader j.ring) ringSize j.state.cursors.tailBlock (layout live)
  disjoint : ∀ img start, j.committer.target = some (img, start) → ∀ k < img.needed,
    ∀ p < (j.state.committedPending.map Prod.snd).sum,
      (start + k) % ringSize ≠ (j.state.cursors.tailBlock + p) % ringSize

/-- **Ring space.** It is accounted for in every state of every run, whatever fails. -/
theorem ringSpace_of_reaches (blockCount : UInt32) {headSeq tailSeq initialHeadBlock : ℕ}
    {ring : ℕ → List UInt8} {superblock : Cursors}
    (h : Reaches (step (blockCount.toNat - 1)) (fun _ _ ↦ True)
      (new headSeq tailSeq initialHeadBlock ring superblock) j) :
    RingSpace (blockCount.toNat - 1) j := by
  have hsize : blockCount.toNat - 1 < 2 ^ 64 :=
    (Nat.sub_le _ _).trans_lt (blockCount.toNat_lt.trans (by decide))
  have hinv : SpaceInv (blockCount.toNat - 1) j ∧ RingWritten (blockCount.toNat - 1) j := by
    refine h.invariant
      (I := fun j ↦ SpaceInv (blockCount.toNat - 1) j ∧ RingWritten (blockCount.toNat - 1) j)
      ⟨⟨⟨[], nil_suffix, rfl, rfl, holds_nil _⟩, nofun, Nat.le_add_right _ _⟩,
        ringWritten_of_target_none rfl⟩ ?_
    rintro j a j' ⟨hspace, hwritten⟩ - hs
    have hstep := takes_of_step hs
    exact ⟨hspace.step hsize hwritten hstep, hwritten.step hstep⟩
  obtain ⟨⟨live, hsuffix, hpending, hhead, hholds⟩, htarget, hroom⟩ := hinv.1
  have hsum : (j.state.committedPending.map Prod.snd).sum = (layout live).length := by
    rw [hpending, sum_entries]
  have hle : j.state.cursors.headBlock ≤ j.state.cursors.tailBlock + (blockCount.toNat - 1) :=
    (Nat.le_add_right _ _).trans hroom
  refine ⟨by rw [hsum, hhead], ?_, by omega, ⟨live, hsuffix, hpending, hholds⟩, ?_⟩
  · rw [Journal.used, hsum]
    omega
  · intro img start ht k hk p hp
    rw [frontier, Committer.reserved, ht] at hroom
    change j.state.cursors.headBlock + img.needed ≤ _ at hroom
    obtain rfl := htarget img start ht
    obtain ⟨d, hd⟩ := Nat.exists_eq_add_of_le
      (show j.state.cursors.tailBlock + p ≤ j.state.cursors.headBlock + k by omega)
    rw [hd]
    exact add_mod_ne_mod (by omega) (by omega)

/-- Two commits to a ring of five blocks, of which the first has been retired when the second is
written, around the end of the ring. -/
theorem ringSpace_two_commits :
    ∃ j : Journal Unit, Reaches (step ((6 : UInt32).toNat - 1)) (fun _ _ ↦ True)
        (new 1 1 3 (fun _ ↦ []) ⟨1, 1, 0, 3⟩) j ∧
      j.state.committedPending = [(2, 3)] ∧ j.state.cursors.tailBlock = 6 ∧
      RingSpace ((6 : UInt32).toNat - 1) j := by
  have h : Reaches (step ((6 : UInt32).toNat - 1)) (fun _ _ ↦ True)
    (new 1 1 3 (fun _ ↦ []) ⟨1, 1, 0, 3⟩ : Journal Unit) _ := .refl
  have h := h.play [oneBlock 7, .sealActive, .pop, .capture fun _ ↦ Page.zero]
    (fun _ _ _ ↦ trivial) rfl
  have h := h.tail (a := .checkSpace) trivial (step_checkSpace (.fits rfl (by decide) (by decide)))
  have h := h.play [.ringWrite 0, .ringWrite 1, .drained true, .flushed true,
    .commitWritten true true, .record, oneBlock 8, .sealIfFull, .sweep 2, .readCursors,
    .writeCursors true true, .pop, .capture fun _ ↦ Page.zero] (fun _ _ _ ↦ trivial) rfl
  have h := h.tail (a := .checkSpace) trivial (step_checkSpace (.fits rfl (by decide) (by decide)))
  have h := h.play [.ringWrite 0, .ringWrite 1, .drained true, .flushed true,
    .commitWritten true true, .record] (fun _ _ _ ↦ trivial) rfl
  exact ⟨_, h, rfl, rfl, ringSpace_of_reaches 6 h⟩

end Edos.Journal

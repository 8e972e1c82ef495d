import Edos.Journal.Machine

/-!
# Where transactions go

Most steps of the journal leave the queues as they are; the others move one transaction on. `Flow`
says this once for all steps, and what is to hold of every transaction on its way, or of every
image, is derived from it.
-/

namespace Edos.Journal

open List Std

variable {P : Type*} {ringSize : ℕ} {j j' : Journal P} {a : Action P}

/-- No error while the committer holds a transaction. -/
def KeepsPopped (j : Journal P) : Action P → Prop
  | .checkpointFails => False
  | .drained ok | .flushed ok | .commitWritten _ ok => ok = true
  | .writeCursors _ ok => j.committer.inFlight ≠ [] → ok = true
  | _ => True

/-- Nothing enters or leaves the queues, and the committer takes up nothing new. -/
structure Stays (j j' : Journal P) : Prop where
  active : j'.state.active = j.state.active
  sealed : j'.state.sealed = j.state.sealed
  committedSeq : j'.state.committedSeq = j.state.committedSeq
  headSeq : j'.state.cursors.headSeq = j.state.cursors.headSeq
  history : j'.history = j.history
  tx : ∀ tx, j'.committer.tx = some tx → j.committer.tx = some tx
  image : ∀ img, j'.committer.image = some img → j.committer.image = some img

theorem Stays.refl (j : Journal P) : Stays j j :=
  ⟨rfl, rfl, rfl, rfl, rfl, fun _ h ↦ h, fun _ h ↦ h⟩

theorem Stays.committer (hstate : j'.state = j.state) (hhistory : j'.history = j.history)
    (htx : ∀ tx, j'.committer.tx = some tx → j.committer.tx = some tx)
    (himage : ∀ img, j'.committer.image = some img → j.committer.image = some img) :
    Stays j j' := by
  refine ⟨?_, ?_, ?_, ?_, hhistory, htx, himage⟩ <;> rw [hstate]

/-- The journal when the committer has recorded an image. -/
abbrev recorded (j : Journal P) (img : TxImage) (start : ℕ) : Journal P :=
  { j with
    state.cursors.headBlock := start + img.needed
    state.committedSeq := img.seq
    state.committedPending := j.state.committedPending ++ [(img.seq, img.needed)]
    committer := .publishing none
    history := j.history ++ [img] }

/-- What a step does to the transactions on their way to the ring. -/
inductive Flow (j : Journal P) : Action P → Journal P → Prop
  | keep {a : Action P} {j' : Journal P} (hs : Stays j j')
      (hflight : (∀ img, j.committer.image = some img → j.committer.inFlight = [img.seq]) →
        j'.committer.inFlight = j.committer.inFlight) : Flow j a j'
  | lose {a : Action P} {j' : Journal P} (hs : Stays j j') (hc : j'.committer = .idle)
      (hlost : ¬KeepsPopped j a) : Flow j a j'
  | merge (blocks : ExtTreeMap UInt64 P) (revokes : ExtTreeSet UInt64) :
      Flow j (.merge blocks revokes) { j with state.active := j.state.active.merge blocks revokes }
  | seals {a : Action P} {j₁ j' : Journal P} (ha : a = .sealIfFull ∨ a = .sealActive)
      (hseal : j.sealActive = some j₁) (hs : Stays j₁ j')
      (hflight : j'.committer.inFlight = j₁.committer.inFlight) : Flow j a j'
  | pop {tx : Transaction P} {rest : List (Transaction P)} (hc : j.committer = .draining)
      (hs : j.state.sealed = tx :: rest) :
      Flow j .pop { j with state.sealed := rest, committer := .popped tx }
  | commitEmpty {tx : Transaction P} (hc : j.committer = .popped tx) (he : tx.isEmpty = true) :
      Flow j .commitEmpty { j with state.committedSeq := tx.seq, committer := .draining }
  | capture {tx : Transaction P} (content : P → Page) (hc : j.committer = .popped tx) :
      Flow j (.capture content) { j with committer := .checking tx (tx.capture content) 0 }
  | giveUp {tx : Transaction P} {img : TxImage} {attempt : ℕ}
      (hc : j.committer = .checking tx img attempt) :
      Flow j .checkSpace { j with state.sealed := tx :: j.state.sealed, committer := .idle }
  | record {img : TxImage} {start : ℕ} (hc : j.committer = .committed img start) :
      Flow j .record (j.recorded img start)

theorem Takes.flow (h : Takes ringSize j a j') : Flow j a j' := by
  cases h with
  | merge blocks revokes => exact .merge blocks revokes
  | sealIfFull _ hseal => exact .seals (.inl rfl) hseal (.refl j') rfl
  | sealActive hc hseal =>
    refine .seals (.inr rfl) hseal (.committer rfl rfl ?_ ?_) ?_ <;> dsimp only
    · split_ifs <;> exact fun _ h ↦ nomatch h
    · split_ifs <;> exact fun _ h ↦ nomatch h
    · rw [(sealActive_frame hseal).1, hc]
      split_ifs <;> rfl
  | pop hc hs => exact .pop hc hs
  | commitEmpty hc he => exact .commitEmpty hc he
  | capture content hc => exact .capture content hc
  | giveUp hc => exact .giveUp hc
  | record hc => exact .record hc
  | popNone hc | readPublishing hc =>
    exact .keep (.committer rfl rfl (fun _ h ↦ nomatch h) fun _ h ↦ nomatch h)
      fun _ ↦ by rw [hc]; rfl
  | fits hc =>
    exact .keep (.committer rfl rfl (fun _ h ↦ nomatch h) fun _ h ↦ by rw [hc]; exact h)
      fun himage ↦ (himage _ (by rw [hc]; rfl)).symm
  | checkpoint hc | readAdvancing hc | ringWrite hc | drained hc =>
    exact .keep (.committer rfl rfl (fun _ h ↦ by rw [hc]; exact h) fun _ h ↦ by rw [hc]; exact h)
      fun _ ↦ by rw [hc]; rfl
  | checkpointFails | drainFails =>
    exact .lose (.committer rfl rfl (fun _ h ↦ nomatch h) fun _ h ↦ nomatch h) rfl nofun
  | flushed ok hc | @commitWritten _ _ _ ok hc =>
    cases ok with
    | true =>
      exact .keep (.committer rfl rfl (fun _ h ↦ nomatch h) fun _ h ↦ by rw [hc]; exact h)
        fun _ ↦ by rw [hc]; rfl
    | false => exact .lose (.committer rfl rfl (fun _ h ↦ nomatch h) fun _ h ↦ nomatch h) rfl nofun
  | @writeAdvancing _ _ _ _ _ ok hc =>
    cases ok with
    | true =>
      exact .keep (.committer rfl rfl (fun _ h ↦ by rw [hc]; exact h) fun _ h ↦ by rw [hc]; exact h)
        fun _ ↦ by rw [hc]; rfl
    | false =>
      refine .lose (.committer rfl rfl (fun _ h ↦ nomatch h) fun _ h ↦ nomatch h) rfl fun hkeep ↦ ?_
      cases hkeep (by rw [hc]; exact cons_ne_nil _ _)
  | @writePublishing _ _ ok hc =>
    cases ok <;>
      exact .keep (.committer rfl rfl (fun _ h ↦ nomatch h) fun _ h ↦ nomatch h)
        fun _ ↦ by rw [hc]; rfl
  | checkpointSweep min hc =>
    refine .keep ⟨JournalState.sweep_active _ _, JournalState.sweep_sealed _ _,
      JournalState.sweep_committedSeq _ _, (JournalState.sweep_head _ _).1, rfl, ?_, ?_⟩
      fun _ ↦ ?_ <;>
      rw [hc] <;> dsimp only <;> split_ifs <;> first | exact fun _ h ↦ h | rfl
  | sweep min =>
    exact .keep ⟨JournalState.sweep_active _ _, JournalState.sweep_sealed _ _,
      JournalState.sweep_committedSeq _ _, (JournalState.sweep_head _ _).1, rfl, fun _ h ↦ h,
      fun _ h ↦ h⟩ fun _ ↦ rfl
  | advancerReads | advancerWrites =>
    exact .keep (.committer rfl rfl (fun _ h ↦ h) fun _ h ↦ h) fun _ ↦ rfl

/-! ## Transactions on the way, and their images -/

/-- A property of the open transaction, and one of those that are sealed and not written yet. -/
structure AllTx (A T : Transaction P → Prop) (j : Journal P) : Prop where
  active : A j.state.active
  sealed : ∀ tx ∈ j.state.sealed, T tx
  held : ∀ tx, j.committer.tx = some tx → T tx

namespace AllTx

variable {A T : Transaction P → Prop}

theorem frame (h : AllTx A T j) (hactive : j'.state.active = j.state.active)
    (hsealed : ∀ tx ∈ j'.state.sealed, tx ∈ j.state.sealed ∨ j.committer.tx = some tx)
    (htx : ∀ tx, j'.committer.tx = some tx → tx ∈ j.state.sealed ∨ j.committer.tx = some tx) :
    AllTx A T j' where
  active := by
    rw [hactive]
    exact h.active
  sealed tx ht := (hsealed tx ht).elim (h.sealed tx) (h.held tx)
  held tx ht := (htx tx ht).elim (h.sealed tx) (h.held tx)

theorem stays (h : AllTx A T j) (hs : Stays j j') : AllTx A T j' :=
  h.frame hs.active (fun _ htx ↦ .inl (hs.sealed ▸ htx)) fun tx htx ↦ .inr (hs.tx tx htx)

theorem sealActive (h : AllTx A T j)
    (hnew : A (.new (j.state.cursors.headSeq + 1) (j.txIdCounter + 1)))
    (hold : j.state.active.isEmpty = false → T j.state.active) (hseal : j.sealActive = some j') :
    AllTx A T j' := by
  rcases sealActive_eq_some hseal with ⟨-, rfl⟩ | ⟨hne, rfl⟩
  · exact h
  refine ⟨hnew, ?_, h.held⟩
  rw [forall_mem_append, forall_mem_singleton]
  exact ⟨h.sealed, hold hne⟩

/-- **Step.** -/
theorem step (h : AllTx A T j) (hnew : A (.new (j.state.cursors.headSeq + 1) (j.txIdCounter + 1)))
    (hmerge : ∀ blocks revokes, a = .merge blocks revokes → A (j.state.active.merge blocks revokes))
    (hsealed : a = .sealIfFull ∨ a = .sealActive → j.state.active.isEmpty = false →
      T j.state.active)
    (hstep : Takes ringSize j a j') : AllTx A T j' := by
  cases hstep.flow with
  | keep hs | lose hs => exact h.stays hs
  | merge blocks revokes => exact ⟨hmerge _ _ rfl, h.sealed, h.held⟩
  | seals ha hseal hs => exact (h.sealActive hnew (hsealed ha) hseal).stays hs
  | pop _ hs =>
    refine h.frame rfl (fun tx htx ↦ .inl ?_) fun tx htx ↦ .inl ?_
    · rw [hs]
      exact mem_cons_of_mem _ htx
    · rw [hs, ← Option.some.inj htx]
      exact mem_cons_self
  | giveUp hc =>
    refine h.frame rfl (fun tx htx ↦ ?_) fun _ h ↦ nomatch h
    rcases mem_cons.mp htx with rfl | htx
    · exact .inr (by rw [hc]; rfl)
    · exact .inl htx
  | capture _ hc => exact h.frame rfl (fun _ ↦ .inl) fun tx htx ↦ .inr (by rw [hc]; exact htx)
  | commitEmpty | record => exact h.frame rfl (fun _ ↦ .inl) fun _ h ↦ nomatch h

end AllTx

theorem popped_step {tx : Transaction P} (hstep : Takes ringSize j a j')
    (hc : j'.committer = .popped tx) : a = .pop ∨ j.committer = .popped tx := by
  cases hstep with
  | merge | sweep | advancerReads | advancerWrites => exact .inr hc
  | sealIfFull _ hseal => exact .inr ((sealActive_frame hseal).1.symm.trans hc)
  | pop | popNone => exact .inl rfl
  | sealActive | checkpointSweep | flushed | commitWritten | writeAdvancing | writePublishing =>
    split_ifs at hc
  | _ => cases hc

theorem image_step {img : TxImage} (hstep : Takes ringSize j a j')
    (himg : j'.committer.image = some img) :
    j.committer.image = some img ∨
      ∃ content tx, a = .capture content ∧ j.committer = .popped tx ∧ img = tx.capture content := by
  cases hstep.flow with
  | keep hs | lose hs => exact .inl (hs.image img himg)
  | merge => exact .inl himg
  | seals _ hseal hs =>
    rw [← (sealActive_frame hseal).1]
    exact .inl (hs.image img himg)
  | capture content hc => exact .inr ⟨content, _, rfl, hc, (Option.some.inj himg).symm⟩
  | pop | commitEmpty | giveUp | record => cases himg

theorem history_step (hstep : Takes ringSize j a j') :
    j'.history = j.history ∨
      ∃ img start, j.committer = .committed img start ∧ j'.history = j.history ++ [img] := by
  cases hstep with
  | record hc => exact .inr ⟨_, _, hc, rfl⟩
  | sealIfFull _ hseal | sealActive _ hseal =>
    obtain ⟨-, -, -, -, hh, -⟩ := sealActive_frame hseal
    exact .inl hh
  | _ => exact .inl rfl

theorem images_step {img : TxImage} (hstep : Takes ringSize j a j')
    (himg : j'.committer.image = some img ∨ img ∈ j'.history) :
    (j.committer.image = some img ∨ img ∈ j.history) ∨
      ∃ content tx, a = .capture content ∧ j.committer = .popped tx ∧ img = tx.capture content := by
  rcases himg with himg | himg
  · exact (image_step hstep himg).imp_left .inl
  rcases history_step hstep with heq | ⟨img', start, hc, heq⟩
  · exact .inl (.inr (heq ▸ himg))
  rw [heq] at himg
  rcases mem_append.mp himg with himg | himg
  · exact .inl (.inr himg)
  · rw [mem_singleton.mp himg, hc]
    exact .inl (.inl rfl)

end Edos.Journal

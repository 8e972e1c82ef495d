import Edos.Journal.Sequence

/-!
# Waiting for a commit

`force_commit_and_wait` is what `fsync` and `sync` rely on: when it returns without an error,
everything merged before the call should be in the ring. It decides once, under the `state` lock,
which sequence number to wait for: that of the open transaction, or of the last one sealed if the
open one is empty. It then waits until `committed_seq` has come that far.

A transaction that the committer has popped is in neither place. If it is the only one, the call
finds nothing to wait for and returns at once, while its blocks are still to be written
(`fsync_returns_before_commit`). And `committed_seq` may pass a transaction that was lost to an
error. `FsyncSafe` rules out both.
-/

namespace Edos

open List Option Std

/-- What a handle's drop has merged, and the number of the transaction it went into. -/
structure Merge (P : Type*) where
  seq : ℕ
  blocks : ExtTreeMap UInt64 P
  revokes : ExtTreeSet UInt64

/-- A call of `force_commit_and_wait`, with the number of merges before it. -/
inductive Caller where
  | waiting (target merged : ℕ)
  | returned (ok : Bool) (merged : ℕ)

/-- The journal and the threads waiting for it. -/
structure Fsync (P : Type*) where
  journal : Journal P
  /-- All merges since the mount. The code does not keep this. -/
  merges : List (Merge P)
  callers : List Caller

namespace Fsync

variable {P : Type*}

inductive Action (P : Type*) where
  | journal (a : Journal.Action P)
  /-- `force_commit_and_wait`, up to the release of the `state` lock. -/
  | call
  /-- A waiting thread looks at `committed_seq`. -/
  | poll (i : ℕ)
  /-- It has waited for thirty seconds. -/
  | timeout (i : ℕ)

/-- The number to wait for. -/
def target (s : JournalState P) : Option ℕ :=
  if s.active.isEmpty then s.sealed.getLast?.map Transaction.seq else some s.active.seq

def mounted (seq block : ℕ) (ring : ℕ → List UInt8) (headSeq headBlock : ℕ) : Fsync P where
  journal := .mounted seq block ring headSeq headBlock
  merges := []
  callers := []

variable (s : Fsync P)

/-- The merges after a step of the journal. -/
def logged : Journal.Action P → List (Merge P)
  | .merge blocks revokes => s.merges ++ [⟨s.journal.state.active.seq, blocks, revokes⟩]
  | _ => s.merges

def step (ringSize : ℕ) : Action P → Option (Fsync P)
  | .journal a => (s.journal.step ringSize a).map fun j ↦
      { s with journal := j, merges := s.logged a }
  | .call => some { s with
      callers := s.callers ++ [(target s.journal.state).elim (.returned true s.merges.length)
        (.waiting · s.merges.length)] }
  | .poll i =>
    match s.callers[i]? with
    | some (.waiting t n) => some { s with
        callers := s.callers.set i
          (if t ≤ s.journal.state.committedSeq then .returned true n else .waiting t n) }
    | _ => none
  | .timeout i =>
    match s.callers[i]? with
    | some (.waiting _ n) => some { s with callers := s.callers.set i (.returned false n) }
    | _ => none

variable {j : Journal P} {m : Merge P} {seq : ℕ}

theorem step_journal {s : Fsync P} {ringSize : ℕ} {a : Journal.Action P}
    (h : s.journal.step ringSize a = some j) :
    s.step ringSize (.journal a) = some { s with journal := j, merges := s.logged a } := by
  simp only [step, h, map_some]

/-- A step on which a caller can rely: no transaction is lost after it has been popped, and a call
that finds nothing to wait for finds nothing with the committer either. -/
def FsyncSafe (s : Fsync P) : Action P → Prop
  | .journal a => s.journal.KeepsPopped a
  | .call => s.journal.state.active.isEmpty = true → s.journal.state.sealed = [] →
      s.journal.committer.inFlight = []
  | _ => True

/-- Everything in the merge is in a transaction that has been committed to the ring. -/
structure Durable (j : Journal P) (m : Merge P) : Prop where
  blocks : ∀ b ∈ m.blocks, ∃ img ∈ j.history, img.seq = m.seq ∧ ∃ page, (b, page) ∈ img.blocks
  revokes : ∀ b ∈ m.revokes, ∃ img ∈ j.history, img.seq = m.seq ∧ b ∈ img.revokes

theorem Durable.mono {j' : Journal P} (h : Durable j m) (hadv : j.Advances j') :
    Durable j' m where
  blocks b hb := by
    obtain ⟨img, himg, hq, hpage⟩ := h.blocks b hb
    exact ⟨img, hadv.history.subset himg, hq, hpage⟩
  revokes b hb := by
    obtain ⟨img, himg, hq, hmem⟩ := h.revokes b hb
    exact ⟨img, hadv.history.subset himg, hq, hmem⟩

/-- Where what has been merged is. -/
structure Traced (seq : ℕ) (j : Journal P) (m : Merge P) : Prop where
  ge : seq ≤ m.seq
  le : m.seq ≤ j.state.active.seq
  blocks : ∀ b ∈ m.blocks, j.Enrols m.seq b
  revokes : ∀ b ∈ m.revokes, j.Revokes m.seq b

/-- A merge with anything in it is committed once its transaction is. -/
theorem Traced.durable (h : Traced seq j m)
    (hrec : (∃ b, b ∈ m.blocks ∨ b ∈ m.revokes) → j.Recorded m.seq) : Durable j m where
  blocks b hb := by
    obtain ⟨img, himg, hq⟩ := hrec ⟨b, .inl hb⟩
    exact ⟨img, himg, hq, (h.blocks b hb).history img himg hq⟩
  revokes b hb := by
    obtain ⟨img, himg, hq⟩ := hrec ⟨b, .inr hb⟩
    exact ⟨img, himg, hq, Journal.Follows.history (h.revokes b hb) img himg hq⟩

/-- While the open transaction is empty, nothing that has been merged is in it. -/
theorem Traced.lt_active (h : Traced seq j m) (hempty : j.state.active.isEmpty = true)
    (hm : ∃ b, b ∈ m.blocks ∨ b ∈ m.revokes) : m.seq < j.state.active.seq := by
  refine Nat.lt_of_le_of_ne h.le fun heq ↦ ?_
  rw [Transaction.isEmpty, Bool.and_eq_true] at hempty
  obtain ⟨b, hb | hb⟩ := hm
  · have hmem := (h.blocks b hb).active heq.symm
    rw [ExtTreeMap.isEmpty_iff.mp hempty.1] at hmem
    exact ExtTreeMap.not_mem_empty hmem
  · have hmem := Journal.Follows.active (h.revokes b hb) heq.symm
    rw [ExtTreeSet.isEmpty_iff.mp hempty.2] at hmem
    exact ExtTreeSet.not_mem_empty hmem

variable {s : Fsync P} {s' : Fsync P} {ringSize seq : ℕ}

/-- What a call has to count on. -/
def Served (s : Fsync P) : Caller → Prop
  | .waiting t n => n ≤ s.merges.length ∧
      ∀ m ∈ s.merges.take n, (∃ b, b ∈ m.blocks ∨ b ∈ m.revokes) → m.seq ≤ t
  | .returned true n => n ≤ s.merges.length ∧ ∀ m ∈ s.merges.take n, Durable s.journal m
  | .returned false _ => True

/-- The invariant behind durability. -/
structure FsyncInv (seq : ℕ) (s : Fsync P) : Prop where
  order : s.journal.InOrder
  accounted : s.journal.Accounted seq
  active : seq ≤ s.journal.state.active.seq
  merges : ∀ m ∈ s.merges, Traced seq s.journal m
  callers : ∀ c ∈ s.callers, Served s c

namespace FsyncInv

theorem traced_step {a : Journal.Action P} {j' : Journal P} (hinv : FsyncInv seq s)
    (hstep : s.journal.Takes ringSize a j') : ∀ m ∈ s.logged a, Traced seq j' m := by
  have hadv := hinv.order.advances hstep
  have hold : ∀ m ∈ s.merges, Traced seq j' m := fun m hm ↦
    have h := hinv.merges m hm
    ⟨h.ge, h.le.trans hadv.active, fun b hb ↦ (h.blocks b hb).step hinv.order hstep,
      fun b hb ↦ (h.revokes b hb).step hinv.order hstep⟩
  cases hstep with
  | merge blocks revokes =>
    rw [Fsync.logged, forall_mem_append, forall_mem_singleton]
    exact ⟨hold, hinv.active, Nat.le_refl _, fun b hb ↦ .of_merge hinv.order revokes hb,
      fun b hb ↦ .of_merge hinv.order blocks hb rfl⟩
  | _ => exact hold

theorem prefix_logged (s : Fsync P) (a : Journal.Action P) : s.merges <+: s.logged a := by
  cases a with
  | merge => exact prefix_append _ _
  | _ => exact prefix_rfl

theorem served_mono {merges : List (Merge P)} {j : Journal P} (hpre : s.merges <+: merges)
    (hadv : s.journal.Advances j) (callers : List Caller) {c : Caller} (h : Served s c) :
    Served ⟨j, merges, callers⟩ c := by
  obtain ⟨more, rfl⟩ := hpre
  cases c with
  | waiting t n =>
    obtain ⟨hn, hall⟩ := h
    refine ⟨hn.trans (length_append ▸ Nat.le_add_right _ _), ?_⟩
    rw [take_append_of_le_length hn]
    exact hall
  | returned ok n =>
    cases ok with
    | false => trivial
    | true =>
      obtain ⟨hn, hall⟩ := h
      refine ⟨hn.trans (length_append ▸ Nat.le_add_right _ _), ?_⟩
      rw [take_append_of_le_length hn]
      exact fun m hm ↦ (hall m hm).mono hadv

/-- A call that finds something to wait for waits for everything that has been merged. -/
theorem le_target (hinv : FsyncInv seq s) {t : ℕ} (ht : target s.journal.state = some t)
    {m : Merge P} (hm : m ∈ s.merges) (hne : ∃ b, b ∈ m.blocks ∨ b ∈ m.revokes) : m.seq ≤ t := by
  have htraced := hinv.merges m hm
  rw [target] at ht
  split_ifs at ht with hempty
  · obtain ⟨tx, htx, rfl⟩ := map_eq_some_iff.mp ht
    obtain ⟨init, hsealed⟩ := getLast?_eq_some_iff.mp htx
    have hsplit : s.journal.waiting
        = s.journal.committer.inFlight ++ init.map Transaction.seq ++ [tx.seq] := by
      rw [Journal.waiting, hsealed, map_append, append_assoc]
      rfl
    have hlast : tx.seq ∈ s.journal.waiting := by
      rw [hsplit]
      exact mem_append_right _ (mem_singleton_self _)
    rcases hinv.accounted.all m.seq htraced.ge (htraced.lt_active hempty hne) with hq |
      ⟨img, himg, hq⟩
    · -- the last one sealed has the largest number of those on the way
      have hsorted := (pairwise_append.mp (List.Pairwise.of_cons hinv.order.sorted)).1
      rw [hsplit] at hsorted hq
      rcases mem_append.mp hq with hq | hq
      · exact ((pairwise_append.mp hsorted).2.2 _ hq _ (mem_singleton_self _)).le
      · exact (mem_singleton.mp hq).le
    · rw [← hq]
      exact ((hinv.order.history img himg).trans_lt (hinv.order.waiting_lt hlast).1).le
  · rw [← some.inj ht]
    exact htraced.le

/-- A call that finds nothing to wait for, and nothing with the committer, may return. -/
theorem durable_of_none (hinv : FsyncInv seq s)
    (hsafe : s.journal.state.active.isEmpty = true → s.journal.state.sealed = [] →
      s.journal.committer.inFlight = [])
    (ht : target s.journal.state = none) {m : Merge P} (hm : m ∈ s.merges) :
    Durable s.journal m := by
  have htraced := hinv.merges m hm
  rw [target] at ht
  split_ifs at ht with hempty
  have hsealed : s.journal.state.sealed = [] :=
    getLast?_eq_none_iff.mp (map_eq_none_iff.mp ht)
  refine htraced.durable fun hne ↦ ?_
  refine (hinv.accounted.all m.seq htraced.ge (htraced.lt_active hempty hne)).resolve_left ?_
  rw [Journal.waiting, hsafe hempty hsealed, hsealed]
  exact not_mem_nil

theorem served_call (hinv : FsyncInv seq s) (hsafe : FsyncSafe s .call) :
    Served s ((target s.journal.state).elim (.returned true s.merges.length)
      (.waiting · s.merges.length)) := by
  cases ht : target s.journal.state with
  | none =>
    refine ⟨Nat.le_refl _, fun m hm ↦ ?_⟩
    exact hinv.durable_of_none hsafe ht (mem_of_mem_take hm)
  | some t =>
    refine ⟨Nat.le_refl _, fun m hm ↦ ?_⟩
    exact hinv.le_target ht (mem_of_mem_take hm)

theorem served_poll (hinv : FsyncInv seq s) {t n : ℕ} (h : Served s (.waiting t n))
    (ht : t ≤ s.journal.state.committedSeq) : Served s (.returned true n) := by
  refine ⟨h.1, fun m hm ↦ ?_⟩
  have htraced := hinv.merges m (mem_of_mem_take hm)
  refine htraced.durable fun hne ↦ ?_
  exact hinv.accounted.recorded hinv.order htraced.ge ((h.2 m hm hne).trans ht)

/-- **Step.** -/
theorem step {a : Action P} (hinv : FsyncInv seq s) (hsafe : FsyncSafe s a)
    (hstep : s.step ringSize a = some s') : FsyncInv seq s' := by
  have hset {i : ℕ} {c : Caller} (hc : Served s c) : FsyncInv seq { s with
      callers := s.callers.set i c } := by
    refine ⟨hinv.order, hinv.accounted, hinv.active, hinv.merges, fun c' hc' ↦ ?_⟩
    rcases mem_or_eq_of_mem_set hc' with hc' | rfl
    · exact served_mono prefix_rfl (.refl _) _ (hinv.callers c' hc')
    · exact served_mono prefix_rfl (.refl _) _ hc
  cases a with
  | journal a =>
    obtain ⟨j, hj, rfl⟩ := map_eq_some_iff.mp hstep
    have hj := Journal.takes_of_step hj
    have hadv := hinv.order.advances hj
    exact ⟨hinv.order.step hj, hinv.accounted.step hinv.order hsafe hj,
      hinv.active.trans hadv.active, hinv.traced_step hj,
      fun c hc ↦ served_mono (prefix_logged s a) hadv _ (hinv.callers c hc)⟩
  | call =>
    cases hstep
    refine ⟨hinv.order, hinv.accounted, hinv.active, hinv.merges, ?_⟩
    rw [forall_mem_append, forall_mem_singleton]
    exact ⟨hinv.callers, hinv.served_call hsafe⟩
  | poll i =>
    rw [Fsync.step] at hstep
    split at hstep
    · rename_i t n hi
      cases hstep
      have hserved := hinv.callers _ (mem_of_getElem? hi)
      refine hset ?_
      split_ifs with ht
      · exact hinv.served_poll hserved ht
      · exact hserved
    · cases hstep
  | timeout i =>
    rw [Fsync.step] at hstep
    split at hstep
    · cases hstep
      exact hset trivial
    · cases hstep

end FsyncInv

theorem fsyncInv_mounted (hseq : 0 < seq) (block : ℕ) (ring : ℕ → List UInt8)
    (headSeq headBlock : ℕ) :
    FsyncInv seq (mounted seq block ring headSeq headBlock : Fsync P) where
  order := Journal.inOrder_mounted hseq ..
  accounted := Journal.accounted_mounted ..
  active := Nat.le_refl seq
  merges _ h := nomatch h
  callers _ h := nomatch h

/-- **Durability.** In a run whose steps can be relied on, from a mount at any sequence number but
0, whatever had been merged before a call that has returned without an error is in a transaction
that is committed to the ring. -/
theorem durable_of_reaches {block headSeq headBlock : ℕ} {ring : ℕ → List UInt8} (hseq : 0 < seq)
    (h : Reaches (fun s ↦ s.step ringSize) FsyncSafe
      (mounted seq block ring headSeq headBlock) s) {i n : ℕ}
    (hi : s.callers[i]? = some (.returned true n)) {m : Merge P} (hm : m ∈ s.merges.take n) :
    Durable s.journal m := by
  have hinv : FsyncInv seq s := h.invariant (fsyncInv_mounted hseq ..)
    fun _ _ _ hinv hsafe hstep ↦ hinv.step hsafe hstep
  exact (hinv.callers _ (mem_of_getElem? hi)).2 m hm

/-- A block is merged, a call waits for the open transaction, and returns once it is committed. -/
theorem durable_one_commit :
    ∃ (s : Fsync Unit) (m : Merge Unit), Reaches (fun s ↦ s.step 16) FsyncSafe
        (mounted 1 0 (fun _ ↦ []) 1 0) s ∧
      s.callers[0]? = some (.returned true 1) ∧ s.merges = [m] ∧ (7 : UInt64) ∈ m.blocks ∧
      Durable s.journal m := by
  have h : Reaches (fun s : Fsync Unit ↦ s.step 16) FsyncSafe (mounted 1 0 (fun _ ↦ []) 1 0) _ :=
    .refl
  have h := h.tail (a := .journal (Journal.oneBlock 7)) (by trivial) rfl
  have h := h.tail (a := .call) (by exact fun h ↦ absurd h (by decide)) rfl
  have h := h.play [.journal .sealActive, .journal .pop, .journal (.capture fun _ ↦ Page.zero)]
    (fun _ _ h ↦ by fin_cases h <;> trivial) rfl
  have h := h.tail (a := .journal .checkSpace) (by trivial)
    (step_journal (Journal.step_checkSpace (.fits rfl (by decide) (by decide))))
  have h := h.play [.journal (.ringWrite 0), .journal (.ringWrite 1)]
    (fun _ _ h ↦ by fin_cases h <;> trivial) rfl
  have h := h.tail (a := .journal (.drained true)) (by rfl) rfl
  have h := h.tail (a := .journal (.flushed true)) (by rfl) rfl
  have h := h.tail (a := .journal (.commitWritten true true)) (by rfl) rfl
  have h := h.play [.journal .record, .poll 0] (fun _ _ h ↦ by fin_cases h <;> trivial) rfl
  exact ⟨_, _, h, rfl, rfl, by decide, durable_of_reaches (i := 0) (n := 1) (by decide) h rfl
    mem_cons_self⟩

/-- **A call returns before the commit.** A block is merged, and the committer seals and pops the
transaction; a call finds the open transaction empty and nothing sealed, and returns without an
error. Nothing has been written to the ring. -/
theorem fsync_returns_before_commit :
    ∃ (s : Fsync Unit) (m : Merge Unit), Reaches (fun s ↦ s.step 16) (fun _ _ ↦ True)
        (mounted 1 0 (fun _ ↦ []) 1 0) s ∧
      s.callers[0]? = some (.returned true 1) ∧ s.merges = [m] ∧ (7 : UInt64) ∈ m.blocks ∧
      s.journal.history = [] ∧ ¬Durable s.journal m := by
  have h : Reaches (fun s : Fsync Unit ↦ s.step 16) (fun _ _ ↦ True)
    (mounted 1 0 (fun _ ↦ []) 1 0) _ := .refl
  have h := h.play [.journal (Journal.oneBlock 7), .journal .sealActive, .journal .pop, .call]
    (fun _ _ _ ↦ trivial) rfl
  refine ⟨_, _, h, rfl, rfl, by decide, rfl, fun hdurable ↦ ?_⟩
  obtain ⟨img, himg, -⟩ := hdurable.blocks 7 (by decide)
  exact absurd himg not_mem_nil

end Fsync

end Edos

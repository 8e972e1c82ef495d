import Edos.Fs.PageCache

/-!
# The list of dirty inodes

A written page reaches the disk only if its inode is in the list that the next pass takes. A pass
takes the list before it flushes the inodes in it, and forgets an inode whose flush fails, that has
no file system any more, or one of whose keys the snapshot passes over. `Relisted` is what a run
must meet for no inode to be forgotten.
-/

namespace Edos

open List Option

/-- The keys of the pages in the snapshot of a flush. -/
def FlushStage.keys : FlushStage → List ℕ
  | .flushing copied rest => copied.map Prod.fst ++ rest.map Prod.fst
  | .clearing cleared rest => (cleared ++ rest).map Prod.fst

/-- A write is at its `mark_dirty` calls: what comes after them is `register_dirty_inode`. -/
def WriteStage.Marking : WriteStage → Prop
  | .mark _ => True
  | _ => False

/-- A call sees to it that a key of an inode is written: a pass that has the inode to come, or the
key in its snapshot, or a write that has still to register the inode. -/
def VfsCall.Keeps (i k : ℕ) : VfsCall → Prop
  | .write j stage => j = i ∧ stage.Marking
  | .flushDirtyInodes live current => i ∈ live ∨ ∃ stage, current = some (i, stage) ∧ k ∈ stage.keys
  | _ => False

namespace PageCache

variable {s s' : PageCache} {t : ℕ} {c' : Option VfsCall}

/-- A dirty key of an inode that is registered, or that some call sees to. -/
def Kept (s : PageCache) (i k : ℕ) : Prop := i ∈ s.dirtyInodes ∨ s.Has (VfsCall.Keeps i k)

variable {i k : ℕ} {c : VfsCall}

theorem Kept.setCall (h : s.Kept i k)
    (hown : ∀ c, s.calls t = some c → c.Keeps i k → (s.setCall t c').Kept i k) :
    (s.setCall t c').Kept i k := by
  obtain h | ⟨u, c, hc, hP⟩ := h
  · exact .inl h
  · by_cases hu : u = t
    · exact hown c (hu ▸ hc) hP
    · exact .inr ⟨u, c, (setCall_calls_of_ne s c' hu).trans hc, hP⟩

theorem Kept.congr (h : s.Kept i k) (hcalls : s'.calls = s.calls)
    (hlist : ∀ j ∈ s.dirtyInodes, j ∈ s'.dirtyInodes) : s'.Kept i k :=
  h.imp (hlist i) (has_congr hcalls).mpr

/-- The next step of a flush: the keys that it leaves are keys from before, and when it is over,
none of the snapshot. -/
theorem advanceFlush_spec (s : PageCache) (i : ℕ) (stage : FlushStage) :
    (s.advanceFlush i stage).1.calls = s.calls ∧
      (s.advanceFlush i stage).1.dirtyInodes = s.dirtyInodes ∧
      (∀ j, ∀ k ∈ ((s.advanceFlush i stage).1.inodes j).dirtyKeys, k ∈ (s.inodes j).dirtyKeys) ∧
      ∀ k ∈ ((s.advanceFlush i stage).1.inodes i).dirtyKeys, k ∈ stage.keys →
        ∃ stage', (s.advanceFlush i stage).2 = some stage' ∧ k ∈ stage'.keys := by
  match stage with
  | .flushing copied ((k, n) :: rest) =>
    refine ⟨rfl, rfl, fun _ _ h ↦ h, fun j _ hj ↦ ⟨_, rfl, ?_⟩⟩
    simp only [FlushStage.keys, map_append, map_cons, map_nil] at hj ⊢
    simpa using hj
  | .flushing copied [] =>
    refine ⟨rfl, rfl, fun _ _ h ↦ h, fun j _ hj ↦ ⟨_, rfl, ?_⟩⟩
    simpa [FlushStage.keys] using hj
  | .clearing cleared ((k, n, v) :: rest) =>
    refine ⟨rfl, rfl, fun _ _ h ↦ h, fun j _ hj ↦ ⟨_, rfl, ?_⟩⟩
    rwa [FlushStage.keys, append_assoc, singleton_append]
  | .clearing cleared [] =>
    refine ⟨rfl, rfl, fun j k h ↦ ?_, fun k h hk ↦ ?_⟩
    · exact mem_of_mem_setInode (fun _ ↦ mem_of_mem_filter) h
    · change k ∈ ((s.setInode i _).inodes i).dirtyKeys at h
      rw [setInode_same, InodePages.mem_retainKeys, Bool.not_eq_true', List.any_eq_false] at h
      rw [FlushStage.keys, append_nil] at hk
      obtain ⟨c, hc, rfl⟩ := List.mem_map.mp hk
      exact absurd (beq_self_eq_true c.1) (h.2 c hc)

/-- The next step of a write: the keys that it adds are of its inode, which it has then still to
register, and once it is over the inode is registered. -/
theorem advanceWrite_spec (s : PageCache) (i : ℕ) (stage : WriteStage) :
    (s.advanceWrite i stage).1.calls = s.calls ∧
      (∀ j ∈ s.dirtyInodes, j ∈ (s.advanceWrite i stage).1.dirtyInodes) ∧
      (∀ j, ∀ k ∈ ((s.advanceWrite i stage).1.inodes j).dirtyKeys,
        k ∈ (s.inodes j).dirtyKeys ∨ j = i ∧ stage.Marking) ∧
      (stage.Marking → i ∈ (s.advanceWrite i stage).1.dirtyInodes ∨
        ∃ stage', (s.advanceWrite i stage).2 = some stage' ∧ stage'.Marking) := by
  match stage with
  | .fill modified (m :: todo) =>
    refine ⟨?_, ?_, ?_, fun h ↦ h.elim⟩ <;> rw [advanceWrite] <;> split
    · rfl
    · rfl
    · exact fun _ h ↦ h
    · exact fun _ h ↦ h
    · exact fun _ _ h ↦ .inl h
    · exact fun _ _ h ↦ .inl (mem_of_mem_setInode (p := (s.inodes i).addPage m s.serial)
        (fun _ h ↦ h) h)
  | .copy _ _ _ _ | .fill _ [] => exact ⟨rfl, fun _ h ↦ h, fun _ _ h ↦ .inl h, fun h ↦ h.elim⟩
  | .mark (m :: todo) =>
    obtain ⟨hcalls, hlist, -⟩ := s.markDirty_same i m
    refine ⟨hcalls, fun j hj ↦ by rwa [advanceWrite, hlist], ?_, fun _ ↦ .inr ⟨_, rfl, trivial⟩⟩
    intro j k h
    by_cases hj : j = i
    · exact .inr ⟨hj, trivial⟩
    · rw [advanceWrite, markDirty_inodes, Function.update_of_ne hj] at h
      exact .inl h
  | .mark [] =>
    obtain ⟨hcalls, hinodes, -⟩ := s.registerDirtyInode_same i
    refine ⟨hcalls, fun j hj ↦ ?_, fun j k h ↦ ?_, fun _ ↦ .inl ?_⟩
    · exact (mem_registerDirtyInode s).mpr (.inl hj)
    · rw [advanceWrite, hinodes] at h
      exact .inl h
    · exact (mem_registerDirtyInode s).mpr (.inr rfl)

/-- When a pass turns to an inode, the inode is registered again, or has nothing to write, or its
file system is there and each of its dirty keys has a page. The flush of an inode fails only if the
inode is registered again or has nothing to write any more. -/
def Relisted (s : PageCache) : Action → Prop
  | .advance t => ∀ i live, s.calls t = some (.flushDirtyInodes (i :: live) none) →
      i ∈ s.dirtyInodes ∨ (s.inodes i).dirtyKeys = [] ∨
        s.backed i = true ∧ ∀ k ∈ (s.inodes i).dirtyKeys, ∃ n, (s.inodes i).pages k = some n
  | .fail t => ∀ i live stage, s.calls t = some (.flushDirtyInodes live (some (i, stage))) →
      i ∈ s.dirtyInodes ∨ (s.inodes i).dirtyKeys = []
  | _ => True

/-- Every dirty key is kept. -/
def AllKept (s : PageCache) : Prop := ∀ i, ∀ k ∈ (s.inodes i).dirtyKeys, s.Kept i k

theorem AllKept.advance_write (h : s.AllKept) {stage : WriteStage}
    (hcall : s.calls t = some (.write i stage)) : (s.advance t (.write i stage)).AllKept := by
  obtain ⟨hcalls, hlist, hkeys, hmarking⟩ := s.advanceWrite_spec i stage
  -- the write itself keeps every key of its inode, from its first mark to the registration
  have hown : ∀ k, stage.Marking → (s.advance t (.write i stage)).Kept i k := by
    intro k hstage
    obtain hi | ⟨stage', hr, hstage'⟩ := hmarking hstage
    · exact .inl hi
    · refine .inr ?_
      rw [advance, hr]
      exact has_of_setCall ⟨rfl, hstage'⟩
  intro j k hk
  obtain hk | ⟨rfl, hstage⟩ := hkeys j k hk
  · refine ((h j k hk).congr hcalls hlist).setCall fun c hc hkeep ↦ ?_
    cases (hcalls ▸ hc).symm.trans hcall
    obtain ⟨rfl, hstage⟩ := hkeep
    exact hown k hstage
  · exact hown k hstage

theorem AllKept.advance_flush (h : s.AllKept) {stage : FlushStage}
    (hcall : s.calls t = some c)
    (hkeep : ∀ j k, c.Keeps j k → k ∈ ((s.advanceFlush i stage).1.inodes j).dirtyKeys →
      ∃ d, c' = some d ∧ d.Keeps j k) :
    ((s.advanceFlush i stage).1.setCall t c').AllKept := by
  obtain ⟨hcalls, hlist, hkeys, -⟩ := s.advanceFlush_spec i stage
  intro j k hk
  refine ((h j k (hkeys j k hk)).congr hcalls fun _ hj ↦ hlist ▸ hj).setCall fun d hd hkept ↦ ?_
  cases (hcalls ▸ hd).symm.trans hcall
  obtain ⟨d, rfl, hd⟩ := hkeep j k hkept hk
  exact .inr (has_of_setCall hd)

theorem AllKept.advance_next (h : s.AllKept) {live : List ℕ}
    (hcall : s.calls t = some (.flushDirtyInodes (i :: live) none)) (hC : s.Relisted (.advance t)) :
    (s.advance t (.flushDirtyInodes (i :: live) none)).AllKept := by
  intro j k hk
  refine (h j k hk).setCall fun c hc hkeep ↦ ?_
  cases hcall.symm.trans hc
  obtain hj | ⟨_, hstage, -⟩ := hkeep
  · obtain rfl | hj := mem_cons.mp hj
    · obtain hlist | hnil | ⟨hbacked, hpages⟩ := hC j live hcall
      · exact .inl hlist
      · exact absurd (hnil ▸ hk : k ∈ []) not_mem_nil
      · -- the key has a page, so it is in the snapshot
        obtain ⟨n, hn⟩ := hpages k hk
        have hmem : (k, n) ∈ (s.inodes j).dirtyPages :=
          (InodePages.mem_dirtyPages _).mpr ⟨hk, hn⟩
        have hflush : s.beginFlush j = some (.flushing [] (s.inodes j).dirtyPages) := by
          rw [beginFlush]
          split
          · next hnil => rw [hnil] at hmem; exact absurd hmem not_mem_nil
          · rfl
        refine .inr (has_of_setCall (.inr ⟨.flushing [] (s.inodes j).dirtyPages, ?_, ?_⟩))
        · rw [if_pos hbacked, hflush]
          rfl
        · exact List.mem_map.mpr ⟨_, hmem, rfl⟩
    · exact .inr (has_of_setCall (.inl hj))
  · cases hstage

theorem AllKept.fail (h : s.AllKept) (hcall : s.calls t = some c) (hC : s.Relisted (.fail t))
    (hs : s.fail t c = some s') : s'.AllKept := by
  intro j k
  match c, hs with
  | .write _ (.fill _ _), rfl | .write _ (.copy _ _ _ _), rfl =>
    refine fun hk ↦ (h j k hk).setCall fun c hc hkeep ↦ ?_
    cases hcall.symm.trans hc
    exact hkeep.2.elim
  | .flushFile _ (.flushing _ _), rfl =>
    refine fun hk ↦ (h j k hk).setCall fun c hc hkeep ↦ ?_
    cases hcall.symm.trans hc
    exact hkeep.elim
  | .flushDirtyInodes live (some (i, .flushing _ _)), rfl =>
    refine fun hk ↦ (h j k hk).setCall fun c hc hkeep ↦ ?_
    cases hcall.symm.trans hc
    obtain hj | ⟨_, hstage, -⟩ := hkeep
    · exact .inr (has_of_setCall (.inl hj))
    · cases hstage
      obtain hlist | hnil := hC _ _ _ hcall
      · exact .inl hlist
      · exact absurd (hnil ▸ hk : k ∈ []) not_mem_nil

theorem AllKept.advance (h : s.AllKept) (hcall : s.calls t = some c)
    (hC : s.Relisted (.advance t)) : (s.advance t c).AllKept := by
  match c with
  | .write i stage => exact h.advance_write hcall
  | .flushFile i stage => exact h.advance_flush hcall fun _ _ hkeep ↦ hkeep.elim
  | .flushDirtyInodes live (some (i, stage)) =>
    refine h.advance_flush hcall fun j k hkeep hk ↦ ⟨_, rfl, ?_⟩
    obtain hj | ⟨_, hstage, hkey⟩ := hkeep
    · exact .inl hj
    · cases hstage
      obtain ⟨stage', hr, hkey'⟩ := (s.advanceFlush_spec i stage).2.2.2 k hk hkey
      exact .inr ⟨stage', by rw [hr]; rfl, hkey'⟩
  | .flushDirtyInodes (i :: live) none => exact h.advance_next hcall hC
  | .flushDirtyInodes [] none =>
    intro j k hk
    refine (h j k hk).setCall fun c hc hkeep ↦ ?_
    cases hcall.symm.trans hc
    obtain hj | ⟨_, hstage, -⟩ := hkeep
    · cases hj
    · cases hstage
  | .truncate i fromPage =>
    intro j k hk
    have hk' : k ∈ (s.inodes j).dirtyKeys :=
      mem_of_mem_setInode (fun _ ↦ mem_of_mem_filter) hk
    refine (h j k hk').setCall fun c hc hkeep ↦ ?_
    cases hcall.symm.trans hc
    exact hkeep.elim

/-- A call that is begun by a thread without one takes nothing away. -/
theorem Kept.setCall_of_none (h : s.Kept i k) (hnone : s.calls t = none) :
    (s.setCall t c').Kept i k :=
  h.setCall fun _ hc _ ↦ nomatch hnone.symm.trans hc

theorem AllKept.step {a : Action} (h : s.AllKept) (hC : s.Relisted a) (hs : s.step a = some s') :
    s'.AllKept := by
  cases a with
  | write t i offset count =>
    obtain ⟨hnone, hs⟩ := ite_none_right_eq_some.mp hs
    cases hs
    intro j k hk
    unfold pageCacheWriteCore at hk ⊢
    split_ifs at hk ⊢
    · exact (h j k hk).setCall_of_none hnone
    · exact h j k hk
  | flushFile t i =>
    obtain ⟨hnone, hs⟩ := ite_none_right_eq_some.mp hs
    cases hs
    exact fun j k hk ↦ (h j k hk).setCall_of_none hnone
  | flushDirtyInodes t =>
    obtain ⟨hnone, hs⟩ := ite_none_right_eq_some.mp hs
    cases hs
    intro j k hk
    obtain hj | hhas := h j k hk
    · exact .inr (has_of_setCall (.inl hj))
    · exact .inr (hhas.setCall fun c hc _ ↦ nomatch hnone.symm.trans hc)
  | truncate t i size =>
    obtain ⟨⟨hnone, -⟩, hs⟩ := ite_none_right_eq_some.mp hs
    cases hs
    intro j k hk
    refine (h j k ?_).setCall_of_none hnone
    exact mem_of_mem_setInode (p := (s.inodes i).invalidatePages ((size + 4095) / 4096))
      (fun _ h ↦ h) hk
  | advance t =>
    obtain ⟨c, hc, rfl⟩ := map_eq_some_iff.mp hs
    exact h.advance hc hC
  | fail t =>
    obtain ⟨c, hc, hs⟩ := bind_eq_some_iff.mp hs
    exact h.fail hc hC hs
  | unmount i =>
    cases hs
    exact h

/-- A pass is to flush the inode or is flushing it. -/
def FlushedBy (i : ℕ) : VfsCall → Prop
  | .flushDirtyInodes live current => i ∈ live ∨ ∃ stage, current = some (i, stage)
  | _ => False

/-- A write is to register the inode. -/
def RegisteredBy (i : ℕ) : VfsCall → Prop
  | .write j stage => j = i ∧ stage.Marking
  | _ => False

/-- **Dirty inodes are remembered.** In every run in which a pass leaves no inode behind, an inode
with dirty keys is registered, or a pass in progress has it, or a write in progress that is at its
`mark_dirty` calls will register it. -/
theorem dirtyInode_remembered {s : PageCache} (h : Reaches step Relisted {} s) {i : ℕ}
    (hdirty : (s.inodes i).dirtyKeys ≠ []) :
    i ∈ s.dirtyInodes ∨ s.Has (FlushedBy i) ∨ s.Has (RegisteredBy i) := by
  have hkept : s.AllKept :=
    h.invariant (fun _ _ hk ↦ nomatch hk) fun _ _ _ h hC hs ↦ h.step hC hs
  obtain ⟨k, hk⟩ := exists_mem_of_ne_nil _ hdirty
  obtain hi | ⟨t, c, hc, hkeep⟩ := hkept i k hk
  · exact .inl hi
  · match c, hkeep with
    | .write _ _, hkeep => exact .inr (.inr ⟨t, _, hc, hkeep⟩)
    | .flushDirtyInodes _ _, .inl hj => exact .inr (.inl ⟨t, _, hc, .inl hj⟩)
    | .flushDirtyInodes _ _, .inr ⟨stage, hstage, _⟩ =>
      exact .inr (.inl ⟨t, _, hc, .inr ⟨stage, hstage⟩⟩)

/-- After the write, a pass of thread `1` is at the copy of the page. -/
theorem dirtyInode_remembered_oneByte :
    ∃ s, run step {} (oneByte ++ [.flushDirtyInodes 1, .advance 1]) = some s ∧
      (s.inodes 5).dirtyKeys = [0] ∧
      (5 ∈ s.dirtyInodes ∨ s.Has (FlushedBy 5) ∨ s.Has (RegisteredBy 5)) := by
  have h₀ : Reaches step Relisted {} _ := .tail (a := Action.write 0 5 0 1) .refl trivial rfl
  have h₁ := h₀.tail (a := Action.advance 0) (fun _ _ h ↦ nomatch h) rfl
  have h₂ := h₁.tail (a := Action.advance 0) (fun _ _ h ↦ nomatch h) rfl
  have h₃ := h₂.tail (a := Action.advance 0) (fun _ _ h ↦ nomatch h) rfl
  have h₄ := h₃.tail (a := Action.advance 0) (fun _ _ h ↦ nomatch h) rfl
  have h₅ := h₄.tail (a := Action.advance 0) (fun _ _ h ↦ nomatch h) rfl
  have h₆ := h₅.tail (a := Action.flushDirtyInodes 1) trivial rfl
  have h₇ := h₆.tail (a := Action.advance 1) (fun _ _ h ↦ by
    cases h
    exact .inr (.inr ⟨rfl, fun k hk ↦ ⟨0, by cases mem_singleton.mp hk; rfl⟩⟩)) rfl
  exact ⟨_, rfl, rfl, dirtyInode_remembered h₇ nofun⟩

/-- The flush of the only dirty inode fails. The pass is over, no call is in progress, the page is
still dirty, and no later pass will find its inode. -/
theorem failed_flush_forgets :
    ∃ s, run step {} (oneByte ++ [.flushDirtyInodes 1, .advance 1, .fail 1, .advance 1]) = some s ∧
      (s.inodes 5).dirtyKeys = [0] ∧ s.dirtyInodes = [] ∧ ∀ t, s.calls t = none := by
  refine ⟨_, rfl, rfl, rfl, fun t ↦ ?_⟩
  match t with
  | 0 => rfl
  | 1 => rfl
  | t + 2 => rfl

end PageCache

end Edos

import Edos.Memory.Lifecycle

/-!
# Runs of the calls

Two ways to follow a call. `Ends` is about the runs from one state that do not panic: every check of
a call ends it or lets it go on, so a call is followed step by step, and what it has done before an
error stays done. `Keeps` is about every run; with it, the faults, forks, truncations and the calls
that map nothing are seen to leave the mappings of their process disjoint whole pages.
-/

namespace Edos.Memory

open Fallible Sys

/-! ## Runs that do not panic -/

/-- Every run of `m` from `s` that does not panic ends in `P`. -/
def Sys.Ends {α : Type} (m : Sys α) (s : Task) (P : Except Stop α → Task → Prop) : Prop :=
  ∀ r t, m s = (r, t) → r ≠ .error .panic → P r t

section Ends

variable {α β : Type} {s : Task} {P : Except Stop β → Task → Prop}

theorem ends_pure {b : β} (h : P (.ok b) s) : Ends (pure b) s P := by
  rintro r t ⟨⟩ -
  exact h

theorem ends_throw {e : Stop} (h : P (.error e) s) : Ends (throw e) s P := by
  rintro r t ⟨⟩ -
  exact h

theorem ends_gets {f : Task → α} {k : α → Sys β} (h : Ends (k (f s)) s P) :
    Ends (gets f >>= k) s P := h

variable {k : PUnit → Sys β}

theorem ends_modify {f : Task → Task} (h : Ends (k ⟨⟩) (f s) P) :
    Ends (modify f >>= k) s P := h

theorem ends_ensure {c : Prop} [Decidable c] {e : Errno} (he : P (.error (.errno e)) s)
    (h : c → Ends (k ⟨⟩) s P) : Ends (ensure c e >>= k) s P := by
  rw [ensure]
  split_ifs with hc
  · exact h hc
  · exact ends_throw he

theorem ends_orPanic {x : Option α} {k : α → Sys β} (h : ∀ a, x = some a → Ends (k a) s P) :
    Ends (orPanic x >>= k) s P := by
  cases x with
  | none => exact fun r t hrun hr ↦ absurd (congrArg Prod.fst hrun).symm hr
  | some a => exact h a rfl

theorem ends_virtAddr {addr : ℕ} (h : Canonical addr → Ends (k ⟨⟩) s P) :
    Ends (virtAddr addr >>= k) s P := by
  rw [virtAddr]
  split_ifs with hc
  · exact h hc
  · exact fun r t hrun hr ↦ absurd (congrArg Prod.fst hrun).symm hr

/-- **Composition.** -/
theorem Sys.Ends.bind {m : Sys α} {k : α → Sys β} {Q : Except Stop α → Task → Prop}
    (hm : Ends m s Q) (he : ∀ e t, Q (.error e) t → P (.error e) t)
    (h : ∀ a t, Q (.ok a) t → Ends (k a) t P) : Ends (m >>= k) s P := by
  intro r t hrun hr
  obtain ⟨e, hm', rfl⟩ | ⟨a, t', hm', hrun⟩ := bind_cases hrun
  · exact he e t (hm _ t hm' fun heq ↦ hr (congrArg _ (Except.error.inj heq)))
  · exact h a t' (hm _ t' hm' nofun) r t hrun hr

end Ends

/-! ## Tidy mappings are kept -/

/-- The mappings of the process are disjoint whole pages. -/
def Task.Tidy (t : Task) : Prop := t.proc.vmas.Tidy

variable {V : VmaSet}

theorem VmaSet.Tidy.mapSlots (hV : V.Tidy) (f : List (Option ℕ) → List (Option ℕ))
    (a : ℕ) : (V.findMut a (Vma.mapSlots f)).Tidy :=
  hV.of_ranges fun w hw ↦ by
    rcases (mem_findMut hV.disjoint (f := Vma.mapSlots f) fun _ ↦ rfl).mp hw with
      ⟨hw, -⟩ | ⟨v, hv, -, rfl⟩
    · exact ⟨w, hw, rfl, rfl⟩
    · exact ⟨v, hv, rfl, rfl⟩

theorem VmaSet.Tidy.forChild (hV : V.Tidy) : V.forChild.Tidy :=
  hV.of_ranges fun w hw ↦ by
    have hmem : w ∈ V.vmas.mapValues Vma.forChild fun _ ↦ rfl := hw
    obtain ⟨v, hv, rfl⟩ := OrdMap.mem_mapValues.mp hmem
    exact ⟨v, hv, rfl, rfl⟩

variable {α : Type} {I : Task → Prop}

theorem keeps_orPanic (x : Option α) : Keeps I (orPanic x) fun a ↦ x = some a := by
  cases x with
  | none => exact keeps_throw _
  | some a => exact keeps_pure rfl

theorem keeps_ensure (c : Prop) [Decidable c] (e : Errno) : Keeps I (ensure c e) fun _ ↦ True := by
  rw [ensure]
  split_ifs
  · exact keeps_pure trivial
  · exact keeps_throw _

theorem keeps_read (f : Task → α) : Keeps Task.Tidy (gets f : Sys α) fun _ ↦ True :=
  keeps_gets fun _ _ ↦ trivial

theorem keeps_task : Keeps Task.Tidy (gets id : Sys Task) Task.Tidy := keeps_gets fun _ h ↦ h

theorem keeps_world (f : Task → World) :
    Keeps Task.Tidy (modify fun t ↦ { t with world := f t } : Sys PUnit) fun _ ↦ True :=
  keeps_modify fun _ h ↦ h

theorem keeps_setTable (table : Node 4) : Keeps Task.Tidy (setTable table) fun _ ↦ True :=
  keeps_modify fun _ h ↦ h

theorem keeps_releasePages (drop : FrameAllocator → ℕ → Option FrameAllocator) (pages : List ℕ) :
    Keeps Task.Tidy (releasePages drop pages) fun _ ↦ True :=
  (keeps_read _).bind fun _ _ ↦ (keeps_setTable _).bind fun _ _ ↦ (keeps_orPanic _).bind fun _ _ ↦
    keeps_world _

/-! ### Shared memory -/

theorem keeps_growHeap (frames : ℕ) : Keeps Task.Tidy (growHeap frames) fun _ ↦ True := by
  refine (keeps_read _).bind fun w _ ↦ ?_
  split
  · exact keeps_world _
  · exact keeps_throw _

theorem keeps_sysShmCreate (size vecFrames nodeFrames : ℕ) :
    Keeps Task.Tidy (sysShmCreate size vecFrames nodeFrames) fun _ ↦ True := by
  refine (keeps_ensure _ _).bind fun _ _ ↦ ?_
  cases pageRoundUp size with
  | none => exact keeps_throw _
  | some aligned =>
    refine (keeps_read _).bind fun w _ ↦ (keeps_ensure _ _).bind fun _ _ ↦
      (keeps_growHeap _).bind fun _ _ ↦ (keeps_read _).bind fun w _ ↦ ?_
    split
    · exact (keeps_world _).bind fun _ _ ↦ (keeps_growHeap _).bind fun _ _ ↦
        (keeps_world _).bind fun _ _ ↦ keeps_pure trivial
    · exact (keeps_world _).bind fun _ _ ↦ keeps_throw _

theorem keeps_sysShmDestroy (shmId : ℕ) : Keeps Task.Tidy (sysShmDestroy shmId) fun _ ↦ True := by
  refine (keeps_read _).bind fun w _ ↦ ?_
  cases w.shm.get shmId with
  | none => exact keeps_throw _
  | some shm =>
    dsimp only
    split_ifs
    · exact (keeps_world _).bind fun _ _ ↦ keeps_pure trivial
    · exact (keeps_orPanic _).bind fun _ _ ↦ (keeps_world _).bind fun _ _ ↦ keeps_pure trivial

/-! ### Faults -/

theorem keeps_releasePage (pageId : ℕ) : Keeps Task.Tidy (releasePage pageId) fun _ ↦ True :=
  (keeps_read _).bind fun _ _ ↦ (keeps_orPanic _).bind fun _ _ ↦ keeps_world _

theorem keeps_getOrFillPage (inode idx : ℕ) (fill : Option (List UInt8)) :
    Keeps Task.Tidy (getOrFillPage inode idx fill) fun _ ↦ True := by
  refine (keeps_read _).bind fun w _ ↦ ?_
  cases w.cachedPage inode idx with
  | some p => exact (keeps_world _).bind fun _ _ ↦ keeps_pure trivial
  | none =>
    cases w.frames.allocateFrame with
    | none => exact keeps_pure trivial
    | some gfa =>
      refine (keeps_world _).bind fun _ _ ↦ ?_
      cases fill with
      | none =>
        exact (keeps_orPanic _).bind fun _ _ ↦ (keeps_world _).bind fun _ _ ↦ keeps_pure trivial
      | some bytes => exact (keeps_world _).bind fun _ _ ↦ keeps_pure trivial

theorem keeps_storeCachedPageOnVma (addr pageId : ℕ) :
    Keeps Task.Tidy (storeCachedPageOnVma addr pageId) fun _ ↦ True := by
  refine keeps_task.bind fun u hu ↦ ?_
  cases u.proc.vmas.find addr with
  | none => exact keeps_releasePage pageId
  | some v =>
    dsimp only
    split_ifs
    · exact keeps_releasePage pageId
    · refine Keeps.bind (Q := fun _ ↦ True) (keeps_modify fun t _ ↦ ?_) fun _ _ ↦ ?_
      · exact VmaSet.Tidy.mapSlots hu _ addr
      · split
        · exact keeps_pure trivial
        · exact keeps_releasePage _

theorem keeps_checkFile (inode idx : ℕ) (gone past : FaultReject) :
    Keeps Task.Tidy (checkFile inode idx gone past) fun _ ↦ True := by
  refine (keeps_read _).bind fun w _ ↦ ?_
  cases w.files inode with
  | none => exact keeps_throw _
  | some file =>
    dsimp only
    split_ifs
    · exact keeps_throw _
    · exact keeps_pure trivial

theorem keeps_filePage (file : File) (inode idx : ℕ) (fill : Option (List UInt8)) :
    Keeps Task.Tidy (filePage file inode idx fill) fun _ ↦ True := by
  rw [filePage]
  split_ifs
  · exact keeps_getOrFillPage inode idx fill
  · exact keeps_pure trivial

theorem keeps_installPrivate (addr : ℕ) (flags : PageFlags) (frame : ℕ) (bytes : List UInt8)
    (failed : FaultReject) :
    Keeps Task.Tidy (installPrivate addr flags frame bytes failed) fun _ ↦ True := by
  refine (keeps_read _).bind fun u _ ↦ (keeps_world _).bind fun _ _ ↦ ?_
  split
  · exact (keeps_setTable _).bind fun _ _ ↦ keeps_world _
  · exact (keeps_setTable _).bind fun _ _ ↦ (keeps_orPanic _).bind fun _ _ ↦
      (keeps_world _).bind fun _ _ ↦ keeps_throw _

theorem keeps_faultInZeroPage (addr : ℕ) (flags : PageFlags) :
    Keeps Task.Tidy (faultInZeroPage addr flags) fun _ ↦ True := by
  refine (keeps_read _).bind fun u _ ↦ ?_
  cases u.world.frames.allocateFrame with
  | none => exact keeps_throw _
  | some gfa => exact (keeps_world _).bind fun _ _ ↦ keeps_installPrivate _ _ _ _ _

theorem keeps_faultInFilePage (addr : ℕ) (flags : PageFlags) (inode idx : ℕ)
    (fill : Option (List UInt8)) :
    Keeps Task.Tidy (faultInFilePage addr flags inode idx fill) fun _ ↦ True := by
  refine (keeps_read _).bind fun w _ ↦ (keeps_checkFile _ _ _ _).bind fun file _ ↦
    (keeps_filePage file _ _ _).bind fun p _ ↦ ?_
  cases p with
  | none => exact keeps_throw _
  | some p =>
    refine (keeps_read _).bind fun u _ ↦ (keeps_orPanic _).bind fun fa _ ↦ ?_
    split
    · exact (keeps_setTable _).bind fun _ _ ↦ (keeps_world _).bind fun _ _ ↦
        keeps_storeCachedPageOnVma _ _
    · exact (keeps_setTable _).bind fun _ _ ↦ (keeps_orPanic _).bind fun _ _ ↦
        (keeps_world _).bind fun _ _ ↦ (keeps_releasePage _).bind fun _ _ ↦ keeps_throw _

theorem keeps_faultInRelocPage (addr : ℕ) (flags : PageFlags) (inode idx : ℕ) (reloc : Reloc)
    (fill : Option (List UInt8)) :
    Keeps Task.Tidy (faultInRelocPage addr flags inode idx reloc fill) fun _ ↦ True := by
  refine (keeps_checkFile _ _ _ _).bind fun file _ ↦ (keeps_filePage file _ _ _).bind fun p _ ↦ ?_
  cases p with
  | none => exact keeps_throw _
  | some p =>
    refine (keeps_read _).bind fun u _ ↦ ?_
    cases u.world.frames.allocateFrame with
    | none => exact (keeps_releasePage _).bind fun _ _ ↦ keeps_throw _
    | some gfa =>
      exact (keeps_world _).bind fun _ _ ↦ (keeps_releasePage _).bind fun _ _ ↦
        keeps_installPrivate _ _ _ _ _

/-- **A demand fault**, whatever comes of it. -/
theorem keeps_handleDemandFault (addr : ℕ) (isWrite isExec : Bool) (fill : Option (List UInt8)) :
    Keeps Task.Tidy (handleDemandFault addr isWrite isExec fill) fun _ ↦ True := by
  refine (keeps_read _).bind fun s _ ↦ ?_
  split_ifs
  · exact keeps_throw _
  · cases s.proc.vmas.find addr with
    | none => exact keeps_throw _
    | some vma =>
      dsimp only
      split_ifs
      · exact keeps_throw _
      · exact keeps_throw _
      · split
        · exact keeps_throw _
        · exact keeps_faultInZeroPage _ _
        · exact keeps_faultInFilePage _ _ _ _ _
        · split
          · exact keeps_faultInRelocPage _ _ _ _ _ _
          · exact keeps_faultInFilePage _ _ _ _ _

/-- **A copy-on-write fault.** -/
theorem keeps_cowFault (addr : ℕ) : Keeps Task.Tidy (cowFault addr) fun _ ↦ True :=
  (keeps_read _).bind fun _ _ ↦ (keeps_orPanic _).bind fun _ _ ↦ (keeps_setTable _).bind fun _ _ ↦
    (keeps_world _).bind fun _ _ ↦ keeps_pure trivial

/-! ### Fork and truncation -/

/-- **Fork.** The child's mappings are those of the parent. -/
theorem keeps_sysFork (childPid : ℕ) :
    Keeps Task.Tidy (sysFork childPid) fun child ↦ child.vmas.Tidy := by
  refine keeps_task.bind fun s hs ↦ (keeps_orPanic _).bind fun c _ ↦
    (keeps_setTable _).bind fun _ _ ↦ (keeps_world _).bind fun _ _ ↦ ?_
  split
  · exact keeps_throw _
  · exact (keeps_world _).bind fun _ _ ↦ keeps_pure hs.forChild

theorem keeps_invalidateSlots (v : Vma) (slots : List ℕ) :
    Keeps Task.Tidy (invalidateSlots v slots) fun _ ↦ True := by
  induction slots with
  | nil => exact keeps_pure trivial
  | cons slot slots ih =>
    exact (keeps_releasePages _ _).bind fun _ _ ↦ (keeps_read _).bind fun _ _ ↦
      (keeps_orPanic _).bind fun _ _ ↦ (keeps_world _).bind fun _ _ ↦ ih

/-- **The pass of a truncation over the mappings of a process.** -/
theorem keeps_invalidateVmas (inode newSize : ℕ) (vs : List Vma) :
    Keeps Task.Tidy (invalidateVmas inode newSize vs) fun _ ↦ True := by
  induction vs with
  | nil => exact keeps_pure trivial
  | cons v vs ih =>
    refine Keeps.bind (Q := fun _ ↦ True) ?_ fun _ _ ↦ ih
    rw [invalidateVma]
    split
    · dsimp only
      split_ifs
      · exact (keeps_invalidateSlots v _).bind fun _ _ ↦
          keeps_modify fun t ht ↦ VmaSet.Tidy.mapSlots ht _ v.start
      · exact keeps_pure trivial
    · exact keeps_pure trivial

end Edos.Memory

import Edos.Fs.PageCache

/-!
# The dirty pages of an inode

A flush writes what it copied, and its cleanup then removes the key of every page in its snapshot. A
page that is modified after the copy is marked again, but `mark_dirty` finds the key in the list and
adds nothing, and the cleanup removes it: the page has contents that no flush has written, and no
later flush will look at it. The same happens when the mark comes between `clear_dirty` and the
removal of the keys, or when `truncate` has removed the pages of an inode and not yet their keys.

`Unraced` says that no `mark_dirty` falls into such a window. Under it every page with contents that
no flush has written is dirty, or has a `mark_dirty` to come.
-/

namespace Edos

open Function List Option

/-- The pages that a flush has copied, with what was in them. -/
def FlushStage.copied : FlushStage → List (ℕ × ℕ × ℕ)
  | .flushing copied _ => copied
  | .clearing cleared rest => cleared ++ rest

/-- The pages that a flush has still to copy. -/
def FlushStage.toCopy : FlushStage → List (ℕ × ℕ)
  | .flushing _ rest => rest
  | .clearing _ _ => []

/-- If page `k` is in the snapshot of a flush, it is the page `n`, and what the flush writes of it
is the contents `v`: it has copied these, or has still to copy the page. -/
def FlushStage.Current (stage : FlushStage) (k n v : ℕ) : Prop :=
  (∀ m, (k, m) ∈ stage.toCopy → m = n) ∧ ∀ m w, (k, m, w) ∈ stage.copied → m = n ∧ w = v

/-- The pages that a write has modified and not yet marked. -/
def WriteStage.Owes (k : ℕ) : WriteStage → Prop
  | .fill modified _ | .copy modified _ _ _ => k ∈ modified
  | .mark todo => k ∈ todo

namespace VfsCall

/-- A write has still to mark a page that it has modified. -/
def Owes (i k : ℕ) : VfsCall → Prop
  | .write j stage => j = i ∧ stage.Owes k
  | _ => False

/-- The flush that a call is in. -/
def flush : VfsCall → Option (ℕ × FlushStage)
  | .flushFile i stage => some (i, stage)
  | .flushDirtyInodes _ current => current
  | _ => none

/-- A call will remove the key of a page although it has not copied what is in the page now. -/
def Drops (i k n v : ℕ) : VfsCall → Prop
  | .truncate j fromPage => j = i ∧ fromPage ≤ k
  | c => ∃ stage, c.flush = some (i, stage) ∧ ¬ stage.Current k n v

/-- A flush has written what is in a page and is at its cleanup. -/
def Cleans (i k n v : ℕ) (c : VfsCall) : Prop :=
  ∃ cleared rest, c.flush = some (i, .clearing cleared rest) ∧ (k, n, v) ∈ cleared ++ rest

end VfsCall

namespace PageCache

variable {s s' : PageCache} {t i k n : ℕ} {c' : Option VfsCall}

/-- What is in a page. -/
def version (s : PageCache) (i k n : ℕ) : ℕ := (s.frames ⟨i, k, n⟩).version

@[simp] theorem setCall_version : (s.setCall t c').version i k n = s.version i k n := rfl

theorem version_setDirty (r : PageRef) (dirty : Bool) :
    (s.setDirty r dirty).version i k n = s.version i k n := by
  by_cases hr : (⟨i, k, n⟩ : PageRef) = r
  · simp only [version, setDirty, hr, update_self]
  · simp only [version, setDirty, update_of_ne hr]

/-- The page has been modified, and no flush that returned `Ok` has written what is in it. -/
def Unsaved (s : PageCache) (i k n : ℕ) : Prop :=
  0 < s.version i k n ∧ (⟨i, k, n⟩, s.version i k n) ∉ s.written

/-- The key of the page is in the list, the page is marked dirty unless a flush has just written it,
and no call is about to remove the key. -/
structure Safe (s : PageCache) (i k n : ℕ) : Prop where
  key : k ∈ (s.inodes i).dirtyKeys
  dirty : (s.frames ⟨i, k, n⟩).dirty = true ∨ s.Has (VfsCall.Cleans i k n (s.version i k n))
  notDropped : ¬ s.Has (VfsCall.Drops i k n (s.version i k n))

/-- Every cached page with contents that no flush has written is safe, or has a mark to come. -/
def Accounted (s : PageCache) : Prop :=
  ∀ ⦃i k n⦄, (s.inodes i).pages k = some n → s.Unsaved i k n →
    ¬ s.Has (VfsCall.Owes i k) → s.Safe i k n

/-- A page is marked only when no call is about to remove its key without having copied what is in
the page, and a write fails only before it has modified a page. -/
def Unraced (s : PageCache) : Action → Prop
  | .advance t => ∀ i k todo n, s.calls t = some (.write i (.mark (k :: todo))) →
      (s.inodes i).pages k = some n → ¬ s.Has (VfsCall.Drops i k n (s.version i k n))
  | .fail t => ∀ i stage k, s.calls t = some (.write i stage) → ¬ stage.Owes k
  | _ => True

theorem Unsaved.of_frame (h : s'.Unsaved i k n)
    (hframe : (s'.frames ⟨i, k, n⟩).version = (s.frames ⟨i, k, n⟩).version)
    (hwritten : ∀ x ∈ s.written, x ∈ s'.written) : s.Unsaved i k n := by
  have hv : s'.version i k n = s.version i k n := hframe
  exact ⟨hv ▸ h.1, fun hw ↦ h.2 (hv ▸ hwritten _ hw)⟩

theorem Safe.of_frame (h : s.Safe i k n) (hkey : k ∈ (s'.inodes i).dirtyKeys)
    (hframe : s'.frames ⟨i, k, n⟩ = s.frames ⟨i, k, n⟩)
    (hclean : s.Has (VfsCall.Cleans i k n (s.version i k n)) →
      s'.Has (VfsCall.Cleans i k n (s.version i k n)))
    (hdrop : ¬ s'.Has (VfsCall.Drops i k n (s.version i k n))) : s'.Safe i k n := by
  have hv : s'.version i k n = s.version i k n := by rw [version, hframe, version]
  exact ⟨hkey, hframe ▸ h.dirty.imp id fun hc ↦ hv ▸ hclean hc, hv ▸ hdrop⟩

variable {s₁ : PageCache} {j : ℕ} {stage : WriteStage} {stage' : Option WriteStage} {c : VfsCall}

/-- The step of a write takes nothing away from a page that it leaves alone. -/
theorem Safe.of_write (h : s.Safe i k n) (hcall : s.calls t = some (.write j stage))
    (hcalls : s₁.calls = s.calls) (hkey : k ∈ (s₁.inodes i).dirtyKeys)
    (hframe : s₁.frames ⟨i, k, n⟩ = s.frames ⟨i, k, n⟩) :
    (s₁.setCall t (stage'.map (.write j))).Safe i k n := by
  refine h.of_frame hkey hframe (fun hc ↦ ?_) fun hd ↦ ?_
  · refine ((has_congr hcalls).mpr hc).setCall fun c hc hP ↦ ?_
    cases (hcalls ▸ hc).symm.trans hcall
    obtain ⟨_, _, hflush, -⟩ := hP
    cases hflush
  · obtain hd | ⟨d, hd, hP⟩ := hd.of_setCall
    · exact h.notDropped ((has_congr hcalls).mp hd)
    · obtain ⟨_, -, rfl⟩ := map_eq_some_iff.mp hd
      obtain ⟨_, hflush, -⟩ := hP
      cases hflush

/-- What a call owes before the step of a write, it owes after it if the write itself still does. -/
theorem owed_of_write (hcall : s.calls t = some (.write j stage)) (hcalls : s₁.calls = s.calls)
    (hown : i = j → stage.Owes k → ∃ d, stage' = some d ∧ d.Owes k) (h : s.Has (VfsCall.Owes i k)) :
    (s₁.setCall t (stage'.map (.write j))).Has (VfsCall.Owes i k) := by
  refine ((has_congr hcalls).mpr h).setCall fun c hc hP ↦ ?_
  cases (hcalls ▸ hc).symm.trans hcall
  obtain ⟨rfl, hP⟩ := hP
  obtain ⟨d, rfl, hd⟩ := hown rfl hP
  exact ⟨_, rfl, rfl, hd⟩

/-- A step of a write that marks no page: each cached page that now has something to be written is
one that the write has still to mark, or is as it was. -/
theorem Accounted.of_write (h : s.Accounted) (hcall : s.calls t = some (.write j stage))
    (hcalls : s₁.calls = s.calls)
    (hown : ∀ k, stage.Owes k → ∃ d, stage' = some d ∧ d.Owes k)
    (hkeys : ∀ i, (s₁.inodes i).dirtyKeys = (s.inodes i).dirtyKeys)
    (hdata : ∀ i k n, (s₁.inodes i).pages k = some n → s₁.Unsaved i k n →
      (i = j ∧ ∃ d, stage' = some d ∧ d.Owes k) ∨
        (s.inodes i).pages k = some n ∧ s.Unsaved i k n ∧
          s₁.frames ⟨i, k, n⟩ = s.frames ⟨i, k, n⟩) :
    (s₁.setCall t (stage'.map (.write j))).Accounted := by
  intro i k n hp hu ho
  obtain ⟨rfl, d, rfl, hd⟩ | ⟨hp, hu, hframe⟩ := hdata i k n hp hu
  · exact absurd (has_of_setCall ⟨rfl, hd⟩) ho
  · have hsafe := h hp hu fun hk ↦ ho (owed_of_write hcall hcalls (fun _ ↦ hown k) hk)
    exact hsafe.of_write hcall hcalls (hkeys i ▸ hsafe.key) hframe

/-- **The mark.** Nothing is about to remove the key that it adds, or finds, in the list. -/
theorem Accounted.mark (h : s.Accounted) {m : ℕ} {todo : List ℕ}
    (hcall : s.calls t = some (.write j (.mark (m :: todo))))
    (hC : ∀ n, (s.inodes j).pages m = some n → ¬ s.Has (VfsCall.Drops j m n (s.version j m n))) :
    ((s.markDirty j m).setCall t ((some (.mark todo)).map (.write j))).Accounted := by
  intro i k n hp' hu ho
  obtain ⟨hcalls, -, hwritten⟩ := s.markDirty_same j m
  have hp : (s.inodes i).pages k = some n := by rwa [setCall_inodes, markDirty_pages] at hp'
  by_cases hik : i = j ∧ k = m
  · obtain ⟨rfl, rfl⟩ := hik
    have hframe := s.markDirty_frame i k hp
    have hv : (s.markDirty i k).version i k n = s.version i k n := congrArg _ hframe
    refine ⟨?_, .inl (congrArg _ hframe), fun hd ↦ ?_⟩
    · rw [setCall_inodes, markDirty_inodes, update_self]
      exact (InodePages.mem_pushKey _).mpr (.inr rfl)
    · obtain hd | ⟨d, hd, hP⟩ := hd.of_setCall
      · exact hC n hp ((has_congr hcalls).mp (hv ▸ hd))
      · cases hd
        obtain ⟨_, hflush, -⟩ := hP
        cases hflush
  · have hframe := s.markDirty_frame_of_ne j m (r := ⟨i, k, n⟩) (not_and_or.mp hik)
    have hu : s.Unsaved i k n := hu.of_frame (congrArg _ hframe) fun _ hw ↦ by
      rwa [setCall_written, hwritten]
    have hsafe := h hp hu fun hk ↦ ho (owed_of_write hcall hcalls (fun hi hk ↦ ?_) hk)
    · refine hsafe.of_write hcall hcalls ?_ hframe
      rw [markDirty_inodes]
      by_cases hi : i = j
      · subst hi
        rw [update_self]
        exact (InodePages.mem_pushKey _).mpr (.inl hsafe.key)
      · rw [update_of_ne hi]
        exact hsafe.key
    · obtain rfl | hk := mem_cons.mp hk
      · exact absurd ⟨hi, rfl⟩ hik
      · exact ⟨_, rfl, hk⟩

theorem Accounted.advance_write (h : s.Accounted) (hcall : s.calls t = some (.write j stage))
    (hC : s.Unraced (.advance t)) : (s.advance t (.write j stage)).Accounted := by
  match stage with
  | .fill modified (m :: todo) =>
    rw [advance, advanceWrite]
    split
    · exact h.of_write hcall rfl (fun _ hk ↦ ⟨_, rfl, hk⟩) (fun _ ↦ rfl)
        fun _ _ _ hp hu ↦ .inr ⟨hp, hu, rfl⟩
    · refine h.of_write hcall rfl (fun _ hk ↦ ⟨_, rfl, hk⟩) (fun i ↦ ?_) fun i k n hp hu ↦ .inr ?_
      · exact addPage_dirtyKeys ..
      · obtain hr | hp := eq_or_pages_of_addPage hp
        · cases hr
          have hv : (s.addPage j m).version j m s.serial = 0 :=
            congrArg CachedPage.version (addPage_frame s j m)
          exact absurd hu.1 (hv ▸ Nat.lt_irrefl 0)
        · have hr : (⟨i, k, n⟩ : PageRef) ≠ ⟨j, m, s.serial⟩ := by
            rintro ⟨⟩
            simp_all
          have hframe : (s.addPage j m).frames ⟨i, k, n⟩ = s.frames ⟨i, k, n⟩ :=
            update_of_ne hr ..
          exact ⟨hp, hu.of_frame (congrArg _ hframe) fun _ hw ↦ hw, hframe⟩
  | .copy modified m l todo =>
    refine h.of_write hcall rfl (fun _ hk ↦ ⟨_, rfl, mem_append_left _ hk⟩) (fun _ ↦ rfl)
      fun i k n hp hu ↦ ?_
    by_cases hr : (⟨i, k, n⟩ : PageRef) = ⟨j, m, l⟩
    · cases hr
      exact .inl ⟨rfl, _, rfl, mem_append_right _ (mem_singleton_self m)⟩
    · have hframe : (s.modify ⟨j, m, l⟩).frames ⟨i, k, n⟩ = s.frames ⟨i, k, n⟩ :=
        update_of_ne hr ..
      exact .inr ⟨hp, hu.of_frame (congrArg _ hframe) fun _ hw ↦ hw, hframe⟩
  | .fill modified [] =>
    exact h.of_write hcall rfl (fun _ hk ↦ ⟨_, rfl, hk⟩) (fun _ ↦ rfl)
      fun _ _ _ hp hu ↦ .inr ⟨hp, hu, rfl⟩
  | .mark (m :: todo) => exact h.mark hcall fun n ↦ hC j m todo n hcall
  | .mark [] =>
    obtain ⟨hcalls, hinodes, hframes, hwritten⟩ := s.registerDirtyInode_same j
    refine h.of_write hcall hcalls (fun _ hk ↦ nomatch hk)
      (fun _ ↦ by rw [advanceWrite, hinodes]) fun i k n hp hu ↦ .inr ?_
    rw [advanceWrite, hinodes] at hp
    have hframe := congrFun hframes ⟨i, k, n⟩
    exact ⟨hp, hu.of_frame (congrArg _ hframe) fun _ hw ↦ by rwa [advanceWrite, hwritten], hframe⟩

/-! ## Flushes -/

/-- A call of which a flush is the present part, or that is between two of them. -/
def Flushes : VfsCall → Prop
  | .flushFile _ _ | .flushDirtyInodes _ _ => True
  | _ => False

/-- A call that is in a flush at `stage` becomes one that is in the same flush at `stage'`, if the
flush goes on. -/
structure Continues (c : VfsCall) (c' : Option VfsCall) (j : ℕ) (stage : FlushStage)
    (stage' : Option FlushStage) : Prop where
  flush : c.flush = some (j, stage)
  next : ∀ {d}, c' = some d → Flushes d ∧ d.flush = stage'.map (Prod.mk j)
  goesOn : ∀ {st}, stage' = some st → ∃ d, c' = some d

section Continues

variable {s₁ : PageCache} {j : ℕ} {c : VfsCall} {stage : FlushStage} {stage' : Option FlushStage}
  (hC : Continues c c' j stage stage') (hcall : s.calls t = some c) (hcalls : s₁.calls = s.calls)

include hC hcall hcalls

theorem Continues.owed
    (h : s.Has (VfsCall.Owes i k)) : (s₁.setCall t c').Has (VfsCall.Owes i k) := by
  refine ((has_congr hcalls).mpr h).setCall fun d hd hP ↦ ?_
  cases (hcalls ▸ hd).symm.trans hcall
  match c, hC.flush with
  | .flushFile _ _, _ => exact hP.elim
  | .flushDirtyInodes _ _, _ => exact hP.elim

omit hcall in
/-- What drops a key after the step did so before, or is the flush that goes on. -/
theorem Continues.drops {v : ℕ} (h : (s₁.setCall t c').Has (VfsCall.Drops i k n v)) :
    s.Has (VfsCall.Drops i k n v) ∨ i = j ∧ ∃ st, stage' = some st ∧ ¬ st.Current k n v := by
  obtain h | ⟨d, hd, hP⟩ := h.of_setCall
  · exact .inl ((has_congr hcalls).mp h)
  · obtain ⟨hfl, hflush⟩ := hC.next hd
    have hP : ∃ st, d.flush = some (i, st) ∧ ¬ st.Current k n v := by
      match d, hfl with
      | .flushFile _ _, _ => exact hP
      | .flushDirtyInodes _ _, _ => exact hP
    obtain ⟨st, hst, hcur⟩ := hP
    obtain ⟨st', hst', heq⟩ := map_eq_some_iff.mp (hflush.symm.trans hst)
    cases heq
    exact .inr ⟨rfl, st, hst', hcur⟩

theorem Continues.cleans {v : ℕ} (h : s.Has (VfsCall.Cleans i k n v))
    (hown : ∀ cleared rest, i = j → stage = .clearing cleared rest → (k, n, v) ∈ cleared ++ rest →
      ∃ cleared' rest', stage' = some (.clearing cleared' rest') ∧ (k, n, v) ∈ cleared' ++ rest') :
    (s₁.setCall t c').Has (VfsCall.Cleans i k n v) := by
  refine ((has_congr hcalls).mpr h).setCall fun d hd hP ↦ ?_
  cases (hcalls ▸ hd).symm.trans hcall
  obtain ⟨cleared, rest, hflush, hmem⟩ := hP
  cases hC.flush.symm.trans hflush
  obtain ⟨cleared', rest', rfl, hmem'⟩ := hown cleared rest rfl rfl hmem
  obtain ⟨d, hd⟩ := hC.goesOn rfl
  exact ⟨d, hd, cleared', rest', (hC.next hd).2, hmem'⟩

omit hcalls in
/-- What is safe is what the flush would write of it. -/
theorem Continues.current (h : s.Safe j k n) : stage.Current k n (s.version j k n) := by
  by_contra hcur
  refine h.notDropped ⟨t, c, hcall, ?_⟩
  match c, hC.flush with
  | .flushFile _ _, hf => exact ⟨stage, hf, hcur⟩
  | .flushDirtyInodes _ _, hf => exact ⟨stage, hf, hcur⟩

end Continues

theorem Accounted.clear (h : s.Accounted) {m l v : ℕ} {cleared rest}
    (hcall : s.calls t = some c) (hC : Continues c c' j (.clearing cleared ((m, l, v) :: rest))
      (some (.clearing (cleared ++ [(m, l, v)]) rest))) :
    ((s.setDirty ⟨j, m, l⟩ false).setCall t c').Accounted := by
  intro i k n hp hu ho
  have hv := version_setDirty (s := s) (i := i) (k := k) (n := n) ⟨j, m, l⟩ false
  have hsafe := h hp (hu.of_frame hv fun _ hw ↦ hw) fun hk ↦ ho (hC.owed hcall rfl hk)
  have hclean : ∀ {w}, s.Has (VfsCall.Cleans i k n w) →
      ((s.setDirty ⟨j, m, l⟩ false).setCall t c').Has (VfsCall.Cleans i k n w) := by
    refine fun hc ↦ hC.cleans hcall rfl hc fun _ _ _ hst hmem ↦ ⟨_, _, rfl, ?_⟩
    cases hst
    rwa [append_assoc, singleton_append]
  have hdrop : ¬ ((s.setDirty ⟨j, m, l⟩ false).setCall t c').Has
      (VfsCall.Drops i k n (s.version i k n)) := by
    intro hd
    obtain hd | ⟨rfl, _, hst, hcur⟩ := hC.drops rfl hd
    · exact hsafe.notDropped hd
    · cases hst
      refine hcur ⟨nofun, ?_⟩
      rw [FlushStage.copied, append_assoc, singleton_append]
      exact (hC.current hcall hsafe).2
  by_cases hr : (⟨i, k, n⟩ : PageRef) = ⟨j, m, l⟩
  · -- the flush has written what is in the page
    obtain ⟨rfl, rfl, rfl⟩ : i = j ∧ k = m ∧ n = l := by simpa using hr
    have hmem : (k, n, v) ∈ cleared ++ (k, n, v) :: rest := by simp
    obtain ⟨-, hw⟩ := (hC.current hcall hsafe).2 n v hmem
    refine ⟨hsafe.key, .inr ?_, hv ▸ hdrop⟩
    obtain ⟨d, hd⟩ := hC.goesOn rfl
    exact ⟨t, d, (setCall_calls_same ..).trans hd, _, _, (hC.next hd).2, by
      rw [setCall_version, hv, ← hw]; simp⟩
  · exact hsafe.of_frame hsafe.key (update_of_ne hr ..) hclean hdrop

theorem Accounted.retain (h : s.Accounted) {cleared} (hcall : s.calls t = some c)
    (hC : Continues c c' j (.clearing cleared []) none) :
    ((s.retain j cleared).setCall t c').Accounted := by
  intro i k n hp hu ho
  have hp : (s.inodes i).pages k = some n :=
    pages_of_pages_setInode (p := (s.inodes j).retainKeys _) (fun _ _ h ↦ h) hp
  have hsafe := h hp (hu.of_frame rfl fun _ hw ↦ mem_append_left _ hw) fun hk ↦
    ho (hC.owed hcall rfl hk)
  -- the flush has not copied the page: it would have written what is in it now
  have hcopied : i = j → ∀ m w, (k, m, w) ∉ cleared := by
    rintro rfl m w hm
    obtain ⟨rfl, rfl⟩ :=
      (hC.current hcall hsafe).2 m w (by rwa [FlushStage.copied, append_nil])
    exact hu.2 (mem_append_right _ (List.mem_map.mpr ⟨_, hm, rfl⟩))
  refine hsafe.of_frame ?_ rfl (fun hc ↦ ?_) fun hd ↦ ?_
  · change k ∈ ((s.setInode j _).inodes i).dirtyKeys
    by_cases hi : i = j
    · subst hi
      rw [setInode_same, InodePages.mem_retainKeys, Bool.not_eq_true', List.any_eq_false]
      refine ⟨hsafe.key, fun ⟨k', m, w⟩ hx hk ↦ ?_⟩
      cases eq_of_beq hk
      exact hcopied rfl m w hx
    · rw [setInode_of_ne _ _ hi]
      exact hsafe.key
  · refine hC.cleans hcall rfl hc fun _ _ hi hst hmem ↦ ?_
    cases hst
    exact absurd (by rwa [append_nil] at hmem) (hcopied hi _ _)
  · obtain hd | ⟨-, _, hst, -⟩ := hC.drops rfl hd
    · exact hsafe.notDropped hd
    · cases hst

theorem Accounted.advanceFlush (h : s.Accounted) {stage : FlushStage} (hcall : s.calls t = some c)
    (hC : Continues c c' j stage (s.advanceFlush j stage).2) :
    ((s.advanceFlush j stage).1.setCall t c').Accounted := by
  intro i k n hp hu ho
  match stage with
  | .flushing copied ((m, l) :: rest) =>
    have hsafe := h hp hu fun hk ↦ ho (hC.owed hcall rfl hk)
    refine hsafe.of_frame hsafe.key rfl (fun hc ↦ hC.cleans hcall rfl hc nofun) fun hd ↦ ?_
    obtain hd | ⟨rfl, _, hst, hcur⟩ := hC.drops rfl hd
    · exact hsafe.notDropped hd
    · cases hst
      obtain ⟨hrest, hcopied⟩ := hC.current hcall hsafe
      refine hcur ⟨fun m' hm ↦ hrest m' (mem_cons_of_mem _ hm), fun m' w hm ↦ ?_⟩
      obtain hm | hm := mem_append.mp hm
      · exact hcopied m' w hm
      · -- the copy is of the page as it is now
        cases mem_singleton.mp hm
        have hl := hrest l mem_cons_self
        exact ⟨hl, hl ▸ rfl⟩
  | .flushing copied [] =>
    have hsafe := h hp hu fun hk ↦ ho (hC.owed hcall rfl hk)
    refine hsafe.of_frame hsafe.key rfl (fun hc ↦ hC.cleans hcall rfl hc nofun) fun hd ↦ ?_
    obtain hd | ⟨rfl, _, hst, hcur⟩ := hC.drops rfl hd
    · exact hsafe.notDropped hd
    · cases hst
      exact hcur ⟨nofun, (hC.current hcall hsafe).2⟩
  | .clearing cleared ((m, l, v) :: rest) => exact h.clear hcall hC hp hu ho
  | .clearing cleared [] => exact h.retain hcall hC hp hu ho

/-- A thread has another call, with nothing done to the pages: the old one owed no mark and was at
no cleanup, and the new one drops no key that it should not. -/
theorem Accounted.setCall (h : s.Accounted)
    (hold : ∀ c, s.calls t = some c → (∀ i k, ¬ c.Owes i k) ∧ ∀ i k n v, ¬ c.Cleans i k n v)
    (hnew : ∀ d, c' = some d → ∀ i k n, (s.inodes i).pages k = some n →
      ¬ d.Drops i k n (s.version i k n)) : (s.setCall t c').Accounted := by
  intro i k n hp hu ho
  have hsafe := h hp hu fun hk ↦ ho (hk.setCall fun c hc hP ↦ absurd hP ((hold c hc).1 i k))
  refine hsafe.of_frame hsafe.key rfl
    (fun hc ↦ hc.setCall fun c hc hP ↦ absurd hP ((hold c hc).2 i k n _)) fun hd ↦ ?_
  obtain hd | ⟨d, hd, hP⟩ := hd.of_setCall
  · exact hsafe.notDropped hd
  · exact hnew d hd i k n hp hP

/-- A flush that has just taken its snapshot has still to copy every page in it. -/
theorem current_of_beginFlush {stage : FlushStage} (h : s.beginFlush j = some stage)
    (hp : (s.inodes j).pages k = some n) {v : ℕ} : stage.Current k n v := by
  rw [beginFlush] at h
  split at h
  · cases h
  · cases h
    refine ⟨fun m hm ↦ ?_, nofun⟩
    rw [FlushStage.toCopy, InodePages.mem_dirtyPages] at hm
    exact some.inj (hm.2.symm.trans hp)

/-- What a step does to the list of inodes, to the locks and to the mounts is of no concern. -/
theorem Accounted.congr (h : s.Accounted) (hinodes : s'.inodes = s.inodes)
    (hframes : s'.frames = s.frames) (hcalls : s'.calls = s.calls)
    (hwritten : s'.written = s.written) : s'.Accounted := by
  intro i k n hp hu ho
  have hsafe := h (hinodes ▸ hp) (hu.of_frame (by rw [hframes]) fun _ hw ↦ hwritten ▸ hw)
    fun hk ↦ ho ((has_congr hcalls).mpr hk)
  exact hsafe.of_frame (hinodes ▸ hsafe.key) (by rw [hframes]) (has_congr hcalls).mpr
    fun hd ↦ hsafe.notDropped ((has_congr hcalls).mp hd)

theorem Accounted.invalidatePages (h : s.Accounted) (j fromPage : ℕ) (hnone : s.calls t = none) :
    ((s.setInode j ((s.inodes j).invalidatePages fromPage)).setCall t
      (some (.truncate j fromPage))).Accounted := by
  intro i k n hp hu ho
  have hk : j = i → k < fromPage := by
    rintro rfl
    rw [setCall_inodes, setInode_same] at hp
    exact ((InodePages.invalidatePages_pages _).mp hp).1
  have hp : (s.inodes i).pages k = some n :=
    pages_of_pages_setInode (fun _ _ h ↦ ((InodePages.invalidatePages_pages _).mp h).2) hp
  have hsafe := h hp hu fun hk ↦
    ho (Has.setCall hk fun c hc _ ↦ nomatch hnone.symm.trans hc)
  refine hsafe.of_frame ?_ rfl
    (fun hc ↦ Has.setCall hc fun c hc _ ↦ nomatch hnone.symm.trans hc) fun hd ↦ ?_
  · by_cases hi : i = j
    · subst hi
      rw [setCall_inodes, setInode_same]
      exact hsafe.key
    · rw [setCall_inodes, setInode_of_ne _ _ hi]
      exact hsafe.key
  · obtain hd | ⟨d, hd, hP⟩ := hd.of_setCall
    · exact hsafe.notDropped hd
    · cases hd
      exact absurd (hk hP.1) (not_lt.mpr hP.2)

/-- `truncate` removes the keys from an index on, and there are no pages to them. -/
theorem Accounted.invalidateKeys (h : s.Accounted) {fromPage : ℕ}
    (hcall : s.calls t = some (.truncate j fromPage)) :
    ((s.setInode j ((s.inodes j).retainKeys (· < fromPage))).setCall t none).Accounted := by
  intro i k n hp hu ho
  have hp : (s.inodes i).pages k = some n :=
    pages_of_pages_setInode (p := (s.inodes j).retainKeys _) (fun _ _ h ↦ h) hp
  have hsafe := h hp hu fun hk ↦ ho (Has.setCall hk fun c hc hP ↦ by
    cases hcall.symm.trans hc
    exact hP.elim)
  refine hsafe.of_frame ?_ rfl (fun hc ↦ Has.setCall hc fun c hc hP ↦ ?_) fun hd ↦ ?_
  · by_cases hi : i = j
    · subst hi
      rw [setCall_inodes, setInode_same, InodePages.mem_retainKeys, decide_eq_true_iff]
      refine ⟨hsafe.key, Nat.lt_of_not_le fun hk ↦ ?_⟩
      exact hsafe.notDropped ⟨t, _, hcall, rfl, hk⟩
    · rw [setCall_inodes, setInode_of_ne _ _ hi]
      exact hsafe.key
  · cases hcall.symm.trans hc
    obtain ⟨_, _, hflush, -⟩ := hP
    cases hflush
  · obtain hd | ⟨d, hd, -⟩ := hd.of_setCall
    · exact hsafe.notDropped hd
    · cases hd

theorem Accounted.advance (h : s.Accounted) (hcall : s.calls t = some c)
    (hC : s.Unraced (.advance t)) : (s.advance t c).Accounted := by
  match c with
  | .write i stage => exact h.advance_write hcall hC
  | .flushFile i stage =>
    refine h.advanceFlush hcall ⟨rfl, fun hd ↦ ?_, fun hst ↦ ⟨_, by rw [hst]; rfl⟩⟩
    obtain ⟨st, hst, rfl⟩ := map_eq_some_iff.mp hd
    exact ⟨trivial, by rw [hst]; rfl⟩
  | .flushDirtyInodes live (some (i, stage)) =>
    refine h.advanceFlush hcall ⟨rfl, fun hd ↦ ?_, fun _ ↦ ⟨_, rfl⟩⟩
    cases hd
    exact ⟨trivial, rfl⟩
  | .flushDirtyInodes (i :: live) none =>
    refine h.setCall (fun c hc ↦ ?_) fun d hd j k n hp hP ↦ ?_
    · cases hcall.symm.trans hc
      exact ⟨fun _ _ h ↦ h, fun _ _ _ _ ⟨_, _, hflush, _⟩ ↦ by cases hflush⟩
    · cases hd
      obtain ⟨stage, hflush, hcur⟩ := hP
      rw [VfsCall.flush] at hflush
      split_ifs at hflush
      obtain ⟨_, hst, heq⟩ := map_eq_some_iff.mp hflush
      cases heq
      exact hcur (current_of_beginFlush hst hp)
  | .flushDirtyInodes [] none =>
    refine h.setCall (fun c hc ↦ ?_) nofun
    cases hcall.symm.trans hc
    exact ⟨fun _ _ h ↦ h, fun _ _ _ _ ⟨_, _, hflush, _⟩ ↦ by cases hflush⟩
  | .truncate i fromPage =>
    exact (h.invalidateKeys hcall).congr rfl rfl rfl rfl

theorem Accounted.fail (h : s.Accounted) (hcall : s.calls t = some c) (hC : s.Unraced (.fail t))
    (hs : s.fail t c = some s') : s'.Accounted := by
  match c, hs with
  | .write i (.fill _ _), rfl | .write i (.copy _ _ _ _), rfl =>
    refine h.setCall (fun c hc ↦ ?_) nofun
    cases hcall.symm.trans hc
    exact ⟨fun _ k hk ↦ hC i _ k hcall hk.2, fun _ _ _ _ ⟨_, _, hflush, _⟩ ↦ by cases hflush⟩
  | .flushFile _ (.flushing _ _), rfl =>
    refine h.setCall (fun c hc ↦ ?_) nofun
    cases hcall.symm.trans hc
    exact ⟨fun _ _ h ↦ h, fun _ _ _ _ ⟨_, _, hflush, _⟩ ↦ by cases hflush⟩
  | .flushDirtyInodes live (some (_, .flushing _ _)), rfl =>
    refine h.setCall (fun c hc ↦ ?_) fun d hd _ _ _ _ hP ↦ ?_
    · cases hcall.symm.trans hc
      exact ⟨fun _ _ h ↦ h, fun _ _ _ _ ⟨_, _, hflush, _⟩ ↦ by cases hflush⟩
    · cases hd
      obtain ⟨_, hflush, -⟩ := hP
      cases hflush

theorem Accounted.step {a : Action} (h : s.Accounted) (hC : s.Unraced a)
    (hs : s.step a = some s') : s'.Accounted := by
  cases a with
  | write t i offset count =>
    obtain ⟨hnone, hs⟩ := ite_none_right_eq_some.mp hs
    cases hs
    rw [pageCacheWriteCore]
    split_ifs
    · refine h.setCall (fun c hc ↦ nomatch hnone.symm.trans hc) fun d hd _ _ _ _ hP ↦ ?_
      cases hd
      obtain ⟨_, hflush, -⟩ := hP
      cases hflush
    · exact h
  | flushFile t i =>
    obtain ⟨hnone, hs⟩ := ite_none_right_eq_some.mp hs
    cases hs
    refine h.setCall (fun c hc ↦ nomatch hnone.symm.trans hc) fun d hd _ _ _ hp hP ↦ ?_
    obtain ⟨stage, hst, rfl⟩ := map_eq_some_iff.mp hd
    obtain ⟨_, hflush, hcur⟩ := hP
    cases hflush
    exact hcur (current_of_beginFlush hst hp)
  | flushDirtyInodes t =>
    obtain ⟨hnone, hs⟩ := ite_none_right_eq_some.mp hs
    cases hs
    refine Accounted.setCall (h.congr rfl rfl rfl rfl)
      (fun c hc ↦ nomatch hnone.symm.trans hc) fun d hd _ _ _ _ hP ↦ ?_
    cases hd
    obtain ⟨_, hflush, -⟩ := hP
    cases hflush
  | truncate t i size =>
    obtain ⟨⟨hnone, -⟩, hs⟩ := ite_none_right_eq_some.mp hs
    cases hs
    exact (h.invalidatePages i _ hnone).congr rfl rfl rfl rfl
  | advance t =>
    obtain ⟨c, hc, rfl⟩ := map_eq_some_iff.mp hs
    exact h.advance hc hC
  | fail t =>
    obtain ⟨c, hc, hs⟩ := bind_eq_some_iff.mp hs
    exact h.fail hc hC hs
  | unmount i =>
    cases hs
    exact h.congr rfl rfl rfl rfl

/-- **No write is lost.** In every run in which no mark falls between the copy of its page and the
end of the flush, a cached page with contents that no flush has written, and with no mark to come,
has its key in the list; and it is marked dirty, unless a flush that has written these contents is
just clearing the mark. -/
theorem unsaved_page_dirty {s : PageCache} (h : Reaches step Unraced {} s) {i k n : ℕ}
    (hp : (s.inodes i).pages k = some n) (hu : s.Unsaved i k n)
    (ho : ¬ s.Has (VfsCall.Owes i k)) :
    k ∈ (s.inodes i).dirtyKeys ∧ ((s.frames ⟨i, k, n⟩).dirty = true ∨
      s.Has (VfsCall.Cleans i k n (s.version i k n))) := by
  have hacc : s.Accounted :=
    h.invariant (fun _ _ _ hp ↦ nomatch hp) fun _ _ _ h hC hs ↦ h.step hC hs
  exact ⟨(hacc hp hu ho).key, (hacc hp hu ho).dirty⟩

/-- Nothing is in the way of a thread that is the only one with a call. -/
theorem unraced_of_idle (h : ∀ u ≠ t, s.calls u = none) : s.Unraced (.advance t) := by
  rintro i k todo n hcall - ⟨u, c, hc, hP⟩
  by_cases hu : u = t
  · cases hcall.symm.trans (hu ▸ hc)
    obtain ⟨_, hflush, -⟩ := hP
    cases hflush
  · cases (h u hu).symm.trans hc

/-- A byte is written and flushed, and written again after the flush has copied the page. The second
write marks the page when the flush has returned. -/
theorem unsaved_page_dirty_lateMark :
    ∃ s, Reaches step Unraced {} s ∧ (s.inodes 5).pages 0 = some 0 ∧ s.Unsaved 5 0 0 ∧
      (0 ∈ (s.inodes 5).dirtyKeys ∧ ((s.frames ⟨5, 0, 0⟩).dirty = true ∨
        s.Has (VfsCall.Cleans 5 0 0 (s.version 5 0 0)))) := by
  have h₀ : Reaches step Unraced {} _ := .tail (a := Action.write 0 5 0 1) .refl trivial rfl
  have h₁ := h₀.tail (a := Action.advance 0) (fun _ _ _ _ h ↦ nomatch h) rfl
  have h₂ := h₁.tail (a := Action.advance 0) (fun _ _ _ _ h ↦ nomatch h) rfl
  have h₃ := h₂.tail (a := Action.advance 0) (fun _ _ _ _ h ↦ nomatch h) rfl
  have h₄ := h₃.tail (a := Action.advance 0)
    (unraced_of_idle fun u hu ↦ match u with | 0 => absurd rfl hu | _ + 1 => rfl) rfl
  have h₅ := h₄.tail (a := Action.advance 0) (fun _ _ _ _ h ↦ nomatch h) rfl
  have h₆ := h₅.tail (a := Action.flushFile 1 5) trivial rfl
  have h₇ := h₆.tail (a := Action.advance 1) (fun _ _ _ _ h ↦ nomatch h) rfl
  have h₈ := h₇.tail (a := Action.write 0 5 0 1) trivial rfl
  have h₉ := h₈.tail (a := Action.advance 0) (fun _ _ _ _ h ↦ nomatch h) rfl
  have h₁₀ := h₉.tail (a := Action.advance 0) (fun _ _ _ _ h ↦ nomatch h) rfl
  have h₁₁ := h₁₀.tail (a := Action.advance 1) (fun _ _ _ _ h ↦ nomatch h) rfl
  have h₁₂ := h₁₁.tail (a := Action.advance 1) (fun _ _ _ _ h ↦ nomatch h) rfl
  have h₁₃ := h₁₂.tail (a := Action.advance 1) (fun _ _ _ _ h ↦ nomatch h) rfl
  have h₁₄ := h₁₃.tail (a := Action.advance 0) (fun _ _ _ _ h ↦ nomatch h) rfl
  have h₁₅ := h₁₄.tail (a := Action.advance 0)
    (unraced_of_idle fun u hu ↦ match u with | 0 => absurd rfl hu | 1 => rfl | _ + 2 => rfl) rfl
  refine ⟨_, h₁₅, rfl, ⟨Nat.succ_pos 1, by decide⟩,
    unsaved_page_dirty h₁₅ rfl ⟨Nat.succ_pos 1, by decide⟩ ?_⟩
  rintro ⟨u, c, hc, hP⟩
  match u with
  | 0 =>
    cases hc
    exact absurd hP.2 not_mem_nil
  | 1 => cases hc
  | u + 2 => cases hc

/-- A byte is written, the flush of thread `1` copies the page, another byte is written and marked,
and the flush returns. No call is in progress, no flush has written the page as it is, and nothing
says that it is dirty. -/
theorem marked_write_lost :
    ∃ s, run step {} (oneByte ++ [.flushFile 1 5, .advance 1] ++ oneByte ++
        [.advance 1, .advance 1, .advance 1]) = some s ∧
      (s.inodes 5).pages 0 = some 0 ∧ s.Unsaved 5 0 0 ∧ (∀ t, s.calls t = none) ∧
      (s.inodes 5).dirtyKeys = [] ∧ (s.frames ⟨5, 0, 0⟩).dirty = false := by
  refine ⟨_, rfl, rfl, ⟨Nat.succ_pos 1, by decide⟩, fun t ↦ ?_, rfl, rfl⟩
  match t with
  | 0 => rfl
  | 1 => rfl
  | t + 2 => rfl

end PageCache

end Edos

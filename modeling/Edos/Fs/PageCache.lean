import Edos.Lib.Transition
import Mathlib.Algebra.Ring.Nat

/-!
# The page cache of files

Each inode has its own map of cached pages and the list of those that are dirty. A write modifies
the pages it covers and marks them; `flush_dirty_bulk` writes the marked ones back; the inodes with
something to write back are in one global list, which a writeback pass takes as a whole.

Calls run side by side, and a lock is held for one step of a call only, so the state has the calls
that are in progress and `step` moves one of them by one step.

What is in a page is the number of times it has been modified. `written` is a ghost: the contents
that flushes which returned `Ok` have written.
-/

namespace Edos

open Function

/-- `CachedPage`, with the number of modifications for the bytes. -/
structure CachedPage where
  version : ℕ := 0
  dirty : Bool := false

/-- An `Arc<CachedPage>`. A page that is read again after `invalidate_from` is another one, and has
another serial number. -/
structure PageRef where
  ino : ℕ
  index : ℕ
  serial : ℕ
  deriving DecidableEq

/-- `InodePages`: `pages` gives the serial number of the page that is cached at an index. -/
structure InodePages where
  pages : ℕ → Option ℕ := fun _ ↦ none
  dirtyKeys : List ℕ := []

namespace InodePages

variable (p : InodePages)

def addPage (k n : ℕ) : InodePages := { p with pages := update p.pages k (some n) }

/-- The part of `mark_dirty` that is about `dirty_keys`. -/
def pushKey (k : ℕ) : InodePages :=
  if k ∈ p.dirtyKeys then p else { p with dirtyKeys := p.dirtyKeys ++ [k] }

/-- The snapshot of `flush_dirty_bulk`: a dirty key without a page is passed over. -/
def dirtyPages : List (ℕ × ℕ) := p.dirtyKeys.filterMap fun k ↦ (p.pages k).map (Prod.mk k)

def retainKeys (keep : ℕ → Bool) : InodePages := { p with dirtyKeys := p.dirtyKeys.filter keep }

/-- The first half of `invalidate_from`. -/
def invalidatePages (fromPage : ℕ) : InodePages :=
  { p with pages := fun k ↦ if k < fromPage then p.pages k else none }

@[simp] theorem pushKey_pages (k : ℕ) : (p.pushKey k).pages = p.pages := by
  rw [pushKey]
  split <;> rfl

@[simp] theorem mem_pushKey {j k : ℕ} : j ∈ (p.pushKey k).dirtyKeys ↔ j ∈ p.dirtyKeys ∨ j = k := by
  rw [pushKey]
  split <;> aesop

@[simp] theorem mem_retainKeys {keep : ℕ → Bool} {k : ℕ} :
    k ∈ (p.retainKeys keep).dirtyKeys ↔ k ∈ p.dirtyKeys ∧ keep k = true := List.mem_filter

theorem invalidatePages_pages {fromPage k n : ℕ} :
    (p.invalidatePages fromPage).pages k = some n ↔ k < fromPage ∧ p.pages k = some n := by
  simp only [invalidatePages, Option.ite_none_right_eq_some]

@[simp] theorem mem_dirtyPages {k n : ℕ} :
    (k, n) ∈ p.dirtyPages ↔ k ∈ p.dirtyKeys ∧ p.pages k = some n := by
  simp only [dirtyPages, List.mem_filterMap, Option.map_eq_some_iff, Prod.mk.injEq]
  constructor
  · rintro ⟨j, hj, m, hm, rfl, rfl⟩
    exact ⟨hj, hm⟩
  · rintro ⟨hk, hn⟩
    exact ⟨k, hk, n, hn, rfl, rfl⟩

end InodePages

/-! ## Calls in progress -/

/-- Where a `page_cache_write_core` call is: in its first loop, with the pages it has modified and
those to come (`update_size` follows when there are none), or in that loop with a page in hand, or
in its second loop, with the pages still to mark (`register_dirty_inode` follows). -/
inductive WriteStage
  | fill (modified todo : List ℕ)
  | copy (modified : List ℕ) (k n : ℕ) (todo : List ℕ)
  | mark (todo : List ℕ)

/-- Where a `flush_dirty_bulk` call is: in `flush_fn`, with the pages copied so far, each with what
was in it, and those to come; or clearing the flags of the pages it has copied, with those whose
flag it has cleared and those to come. -/
inductive FlushStage
  | flushing (copied : List (ℕ × ℕ × ℕ)) (rest : List (ℕ × ℕ))
  | clearing (cleared rest : List (ℕ × ℕ × ℕ))

/-- A call in progress. A `flush_dirty_inodes` pass has the inodes still to come and the flush of
the present one; a `truncate` is between the two halves of `invalidate_from`. -/
inductive VfsCall
  | write (i : ℕ) (stage : WriteStage)
  | flushFile (i : ℕ) (stage : FlushStage)
  | flushDirtyInodes (live : List ℕ) (current : Option (ℕ × FlushStage))
  | truncate (i fromPage : ℕ)

/-- The page caches of all inodes, the pages, the list `DIRTY_INODES`, the inodes whose file system
can still be found, those whose lock is held for writing, and the call of each thread. -/
structure PageCache where
  inodes : ℕ → InodePages := fun _ ↦ {}
  frames : PageRef → CachedPage := fun _ ↦ {}
  serial : ℕ := 0
  dirtyInodes : List ℕ := []
  backed : ℕ → Bool := fun _ ↦ true
  locked : ℕ → Bool := fun _ ↦ false
  calls : ℕ → Option VfsCall := fun _ ↦ none
  written : List (PageRef × ℕ) := []

namespace PageCache

variable (s : PageCache)

def setCall (t : ℕ) (c : Option VfsCall) : PageCache :=
  { s with calls := update s.calls t c }

def setInode (i : ℕ) (p : InodePages) : PageCache :=
  { s with inodes := update s.inodes i p }

/-- A page that was not cached is read in. -/
def addPage (i k : ℕ) : PageCache :=
  { s.setInode i ((s.inodes i).addPage k s.serial) with
    frames := update s.frames ⟨i, k, s.serial⟩ {}
    serial := s.serial + 1 }

/-- A page is written to. -/
def modify (r : PageRef) : PageCache :=
  { s with frames := update s.frames r
            { s.frames r with version := (s.frames r).version + 1 } }

def setDirty (r : PageRef) (dirty : Bool) : PageCache :=
  { s with frames := update s.frames r { s.frames r with dirty } }

def markDirty (i k : ℕ) : PageCache :=
  match (s.inodes i).pages k with
  | some n => (s.setDirty ⟨i, k, n⟩ true).setInode i ((s.inodes i).pushKey k)
  | none => s.setInode i ((s.inodes i).pushKey k)

/-- The end of a flush that has written what it copied. -/
def retain (i : ℕ) (copied : List (ℕ × ℕ × ℕ)) : PageCache :=
  { s.setInode i ((s.inodes i).retainKeys fun k ↦ !(copied.any fun c ↦ c.1 == k)) with
    written := s.written ++ copied.map fun c ↦ (⟨i, c.1, c.2.1⟩, c.2.2) }

def registerDirtyInode (i : ℕ) : PageCache :=
  if i ∈ s.dirtyInodes then s else { s with dirtyInodes := s.dirtyInodes ++ [i] }

/-- The next step of a `page_cache_write_core` call. -/
def advanceWrite (i : ℕ) : WriteStage → PageCache × Option WriteStage
  | .fill modified (k :: todo) =>
    match (s.inodes i).pages k with
    | some n => (s, some (.copy modified k n todo))
    | none => (s.addPage i k, some (.copy modified k s.serial todo))
  | .copy modified k n todo => (s.modify ⟨i, k, n⟩, some (.fill (modified ++ [k]) todo))
  | .fill modified [] => (s, some (.mark modified))
  | .mark (k :: todo) => (s.markDirty i k, some (.mark todo))
  | .mark [] => (s.registerDirtyInode i, none)

/-- `flush_dirty_bulk` up to the call of `flush_fn`, or `none` when there is nothing to write. -/
def beginFlush (i : ℕ) : Option FlushStage :=
  match (s.inodes i).dirtyPages with
  | [] => none
  | dirty => some (.flushing [] dirty)

/-- The next step of a `flush_dirty_bulk` call. -/
def advanceFlush (i : ℕ) : FlushStage → PageCache × Option FlushStage
  | .flushing copied ((k, n) :: rest) =>
    (s, some (.flushing (copied ++ [(k, n, (s.frames ⟨i, k, n⟩).version)]) rest))
  | .flushing copied [] => (s, some (.clearing [] copied))
  | .clearing cleared ((k, n, v) :: rest) =>
    (s.setDirty ⟨i, k, n⟩ false, some (.clearing (cleared ++ [(k, n, v)]) rest))
  | .clearing cleared [] => (s.retain i cleared, none)

/-- The next step of a thread. -/
def advance (t : ℕ) : VfsCall → PageCache
  | .write i stage =>
    let r := s.advanceWrite i stage
    r.1.setCall t (r.2.map (.write i))
  | .flushFile i stage =>
    let r := s.advanceFlush i stage
    r.1.setCall t (r.2.map (.flushFile i))
  | .flushDirtyInodes live (some (i, stage)) =>
    let r := s.advanceFlush i stage
    r.1.setCall t (some (.flushDirtyInodes live (r.2.map (Prod.mk i))))
  | .flushDirtyInodes (i :: live) none =>
    -- without a file system, or one that has a page cache, the inode is passed over
    s.setCall t (some (.flushDirtyInodes live
      (if s.backed i then (s.beginFlush i).map (Prod.mk i) else none)))
  | .flushDirtyInodes [] none => s.setCall t none
  | .truncate i fromPage =>
    { s.setInode i ((s.inodes i).retainKeys (· < fromPage)) with
      locked := update s.locked i false }.setCall t none

/-- What is left when the file system fails in the present step of a call. A `flush_dirty_inodes`
pass goes on to the next inode. -/
def fail (t : ℕ) : VfsCall → Option PageCache
  | .write _ (.fill _ _) | .write _ (.copy _ _ _ _) => some (s.setCall t none)
  | .flushFile _ (.flushing _ _) => some (s.setCall t none)
  | .flushDirtyInodes live (some (_, .flushing _ _)) =>
    some (s.setCall t (some (.flushDirtyInodes live none)))
  | _ => none

/-- A thread without a call makes one, a thread takes the next step of its call or fails in it, the
file system of an inode is unmounted. -/
inductive Action
  | write (t i offset count : ℕ)
  | flushFile (t i : ℕ)
  | flushDirtyInodes (t : ℕ)
  | truncate (t i size : ℕ)
  | advance (t : ℕ)
  | fail (t : ℕ)
  | unmount (i : ℕ)

/-- The indices of the pages that a write covers, `start_page..=end_page`. -/
def pageRange (offset count : ℕ) : List ℕ :=
  List.range' (offset / 4096) ((offset + count - 1) / 4096 + 1 - offset / 4096)

/-- `page_cache_write_core` is called: a write of nothing returns at once, and so does one that ends
past the last address. -/
def pageCacheWriteCore (t i offset count : ℕ) : PageCache :=
  if 0 < count ∧ offset + count < 2 ^ 64 then
    s.setCall t (some (.write i (.fill [] (pageRange offset count))))
  else s

/-- `flush_file` is called, and `flush_dirty_bulk` takes its snapshot. -/
def flushFile (t i : ℕ) : PageCache := s.setCall t ((s.beginFlush i).map (.flushFile i))

/-- `flush_dirty_inodes` is called and takes the list. -/
def flushDirtyInodes (t : ℕ) : PageCache :=
  { s with dirtyInodes := [] }.setCall t (some (.flushDirtyInodes s.dirtyInodes none))

/-- `truncate` is called and has the lock of the inode, up to the first half of
`invalidate_from`. -/
def truncate (t i size : ℕ) : PageCache :=
  { s.setInode i ((s.inodes i).invalidatePages ((size + 4095) / 4096)) with
    locked := update s.locked i true }.setCall t
      (some (.truncate i ((size + 4095) / 4096)))

/-- One step of the system. -/
def step (s : PageCache) : Action → Option PageCache
  | .write t i offset count =>
    if s.calls t = none then some (s.pageCacheWriteCore t i offset count) else none
  | .flushFile t i => if s.calls t = none then some (s.flushFile t i) else none
  | .flushDirtyInodes t => if s.calls t = none then some (s.flushDirtyInodes t) else none
  | .truncate t i size =>
    if s.calls t = none ∧ s.locked i = false then some (s.truncate t i size) else none
  | .advance t => (s.calls t).map (s.advance t)
  | .fail t => (s.calls t).bind (s.fail t)
  | .unmount i => some { s with backed := update s.backed i false }

/-- One byte is written to inode `5`, by thread `0`. -/
def oneByte : List Action := .write 0 5 0 1 :: List.replicate 5 (.advance 0)

/-! ## The calls of the others are unchanged -/

variable {s} {s' : PageCache} {P : VfsCall → Prop} {t : ℕ} {c' : Option VfsCall}

/-- Some call in progress satisfies `P`. -/
def Has (s : PageCache) (P : VfsCall → Prop) : Prop := ∃ t c, s.calls t = some c ∧ P c

theorem setCall_calls_same (s : PageCache) (t : ℕ) (c : Option VfsCall) :
    (s.setCall t c).calls t = c := update_self ..

theorem setCall_calls_of_ne (s : PageCache) {t u : ℕ} (c : Option VfsCall) (h : u ≠ t) :
    (s.setCall t c).calls u = s.calls u := update_of_ne h ..

theorem has_congr (h : s'.calls = s.calls) : s'.Has P ↔ s.Has P := by
  rw [Has, h, Has]

/-- The calls of the other threads are unchanged, so what holds of some call still does if the step
keeps it for the thread's own. -/
theorem Has.setCall (h : s.Has P)
    (hown : ∀ c, s.calls t = some c → P c → ∃ d, c' = some d ∧ P d) : (s.setCall t c').Has P := by
  obtain ⟨u, c, hc, hP⟩ := h
  by_cases hu : u = t
  · obtain ⟨d, rfl, hd⟩ := hown c (hu ▸ hc) hP
    exact ⟨t, d, setCall_calls_same .., hd⟩
  · exact ⟨u, c, (setCall_calls_of_ne s c' hu).trans hc, hP⟩

theorem Has.of_setCall (h : (s.setCall t c').Has P) : s.Has P ∨ ∃ d, c' = some d ∧ P d := by
  obtain ⟨u, c, hc, hP⟩ := h
  by_cases hu : u = t
  · rw [hu, setCall_calls_same] at hc
    exact .inr ⟨c, hc, hP⟩
  · rw [setCall_calls_of_ne s c' hu] at hc
    exact .inl ⟨u, c, hc, hP⟩

theorem has_of_setCall {d : VfsCall} (hd : P d) : (s.setCall t (some d)).Has P :=
  ⟨t, d, setCall_calls_same .., hd⟩

section Simp

variable (s) (i j k : ℕ) (p : InodePages) (r : PageRef)

@[simp] theorem setCall_inodes : (s.setCall t c').inodes = s.inodes := rfl
@[simp] theorem setCall_written : (s.setCall t c').written = s.written := rfl

@[simp] theorem setInode_same : (s.setInode i p).inodes i = p := update_self ..

@[simp] theorem setInode_of_ne {i j : ℕ} (h : j ≠ i) : (s.setInode i p).inodes j = s.inodes j :=
  update_of_ne h ..

theorem mem_of_mem_setInode {s : PageCache} {i : ℕ} {p : InodePages}
    (hp : ∀ k ∈ p.dirtyKeys, k ∈ (s.inodes i).dirtyKeys) {j k : ℕ}
    (hk : k ∈ ((s.setInode i p).inodes j).dirtyKeys) : k ∈ (s.inodes j).dirtyKeys := by
  by_cases hj : j = i
  · subst hj
    rw [setInode_same] at hk
    exact hp k hk
  · rwa [setInode_of_ne _ _ hj] at hk

theorem pages_of_pages_setInode {s : PageCache} {i : ℕ} {p : InodePages}
    (hp : ∀ k n, p.pages k = some n → (s.inodes i).pages k = some n) {j k n : ℕ}
    (hk : ((s.setInode i p).inodes j).pages k = some n) : (s.inodes j).pages k = some n := by
  by_cases hj : j = i
  · subst hj
    rw [setInode_same] at hk
    exact hp k n hk
  · rwa [setInode_of_ne _ _ hj] at hk

theorem addPage_dirtyKeys : ((s.addPage i k).inodes j).dirtyKeys = (s.inodes j).dirtyKeys := by
  by_cases hj : j = i
  · subst hj
    exact (congrArg InodePages.dirtyKeys (setInode_same ..)).trans rfl
  · exact congrArg InodePages.dirtyKeys (setInode_of_ne _ _ hj)

theorem addPage_frame : (s.addPage i k).frames ⟨i, k, s.serial⟩ = {} := update_self ..

/-- The only page that is new is the one that has the next number. -/
theorem eq_or_pages_of_addPage {s : PageCache} {i k j m n : ℕ}
    (h : ((s.addPage i k).inodes j).pages m = some n) :
    (⟨j, m, n⟩ : PageRef) = ⟨i, k, s.serial⟩ ∨ (s.inodes j).pages m = some n := by
  by_cases hj : j = i
  · subst hj
    have h : update (s.inodes j).pages k (some s.serial) m = some n :=
      (congrArg (InodePages.pages · m) (setInode_same ..)).symm.trans h
    by_cases hm : m = k
    · subst hm
      rw [update_self] at h
      cases h
      exact .inl rfl
    · rw [update_of_ne hm] at h
      exact .inr h
  · exact .inr ((congrArg (InodePages.pages · m) (setInode_of_ne _ _ hj)).symm.trans h)

theorem markDirty_same : (s.markDirty i k).calls = s.calls ∧
    (s.markDirty i k).dirtyInodes = s.dirtyInodes ∧ (s.markDirty i k).written = s.written := by
  rw [markDirty]
  split <;> exact ⟨rfl, rfl, rfl⟩

theorem markDirty_inodes : (s.markDirty i k).inodes =
    update s.inodes i ((s.inodes i).pushKey k) := by
  rw [markDirty]
  split <;> rfl

theorem markDirty_pages : ((s.markDirty i k).inodes j).pages = (s.inodes j).pages := by
  rw [markDirty_inodes]
  by_cases hj : j = i
  · subst hj
    rw [update_self, InodePages.pushKey_pages]
  · rw [update_of_ne hj]

/-- The mark is of the page that is cached. -/
theorem markDirty_frame {n : ℕ} (h : (s.inodes i).pages k = some n) :
    (s.markDirty i k).frames ⟨i, k, n⟩ = { s.frames ⟨i, k, n⟩ with dirty := true } := by
  rw [markDirty, h]
  exact update_self ..

theorem markDirty_frame_of_ne {r : PageRef} (hr : r.ino ≠ i ∨ r.index ≠ k) :
    (s.markDirty i k).frames r = s.frames r := by
  rw [markDirty]
  split
  · refine update_of_ne (fun h ↦ ?_) ..
    subst h
    exact hr.elim (fun h ↦ h rfl) fun h ↦ h rfl
  · rfl

theorem registerDirtyInode_same : (s.registerDirtyInode i).calls = s.calls ∧
    (s.registerDirtyInode i).inodes = s.inodes ∧ (s.registerDirtyInode i).frames = s.frames ∧
    (s.registerDirtyInode i).written = s.written := by
  rw [registerDirtyInode]
  split <;> exact ⟨rfl, rfl, rfl, rfl⟩

@[simp] theorem mem_registerDirtyInode {i j : ℕ} :
    j ∈ (s.registerDirtyInode i).dirtyInodes ↔ j ∈ s.dirtyInodes ∨ j = i := by
  rw [registerDirtyInode]
  split <;> aesop

end Simp

end PageCache

end Edos

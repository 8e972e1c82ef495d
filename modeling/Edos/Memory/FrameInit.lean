import Edos.Lib.Transition
import Edos.Memory.ContiguousFrames

/-!
# The frame allocator over whole runs

`init_frame_allocator` builds the allocator from the memory map of the boot loader: every frame is
marked allocated, then those of usable regions are freed, then those that hold the bitmap and the
counts are marked again. From there on, the callers hold references: an allocation gives one,
`share` (`inc_refcount`) adds one, a deallocation takes one back. `held` counts them, beside the
allocator.

The run invariant says that the counts of the allocator are those of the callers, and that a frame
is free exactly when it was free in the beginning and nobody holds it.
-/

namespace Edos.Memory

open Function List
open Option hiding or_assoc

/-- An entry of the memory map, in bytes. -/
structure MemoryRegion where
  base : ℕ
  length : ℕ
  usable : Bool

/-- A region that is not empty and aligned to pages. -/
def MemoryRegion.Aligned (r : MemoryRegion) : Prop :=
  r.base % 4096 = 0 ∧ r.length % 4096 = 0 ∧ 0 < r.length

/-- The frame is in the region. -/
def MemoryRegion.Contains (r : MemoryRegion) (frame : ℕ) : Prop :=
  r.base ≤ frame * 4096 ∧ (frame + 1) * 4096 ≤ r.base + r.length

/-- The frame is in a usable region. -/
def Usable (regions : List MemoryRegion) (frame : ℕ) : Prop :=
  ∃ r ∈ regions, r.usable = true ∧ r.Contains frame

/-- `calculate_frame_range`: the first frame and the number of frames. -/
def calculateFrameRange (regions : List MemoryRegion) : Option (ℕ × ℕ) :=
  let usable := regions.filter fun r ↦ r.usable
  match (usable.map fun r ↦ r.base).min?, (usable.map fun r ↦ r.base + r.length).max? with
  | some minAddr, some maxAddr =>
    some (minAddr / 4096, (maxAddr - 1) / 4096 - minAddr / 4096 + 1)
  | _, _ => none

/-- The loop of `find_bitmap_storage`, with the range that is being extended. -/
def findStorage (required : ℕ) : ℕ × ℕ → List (ℕ × ℕ) → Option ℕ
  | current, ranges =>
    if required ≤ current.2 - current.1 then some current.1
    else
      match ranges with
      | [] => none
      | range :: rest =>
        findStorage required (if current.2 = range.1 then (current.1, range.2) else range) rest

/-- `find_bitmap_storage`: the address of the storage. -/
def findBitmapStorage (regions : List MemoryRegion) (required : ℕ) : Option ℕ :=
  match (regions.filter fun r ↦ r.usable).map fun r ↦ (r.base, r.base + r.length) with
  | [] => none
  | first :: rest => findStorage required first rest

/-- The bytes of the bitmap, rounded up to two. -/
def bitmapBytes (frameCount : ℕ) : ℕ := ((frameCount + 7) / 8 + 1) / 2 * 2

/-- The bytes of the bitmap and the counts. -/
def storageSize (frameCount : ℕ) : ℕ := bitmapBytes frameCount + frameCount * 2

namespace FrameAllocator

/-- Every frame is marked allocated. -/
def allAllocated (startFrame frameCount : ℕ) : FrameAllocator where
  bitmap := replicate (bitmapBytes frameCount) 0xFF
  refcounts := replicate frameCount 0
  startFrame := startFrame
  frameCount := frameCount
  nextFreeHint := 0
  frameCount_le_bitmap := by
    rw [length_replicate, bitmapBytes]
    omega
  frameCount_le_refcounts := by rw [length_replicate]

/-- The frames from an index on are marked free. -/
def freeRange (fa : FrameAllocator) (idx : ℕ) : ℕ → FrameAllocator
  | 0 => fa
  | count + 1 => (fa.freeRange idx count).setFrameFree (idx + count)

/-- A region of `mark_non_usable_frames`. -/
def freeRegion (fa : FrameAllocator) (r : MemoryRegion) : FrameAllocator :=
  if r.usable then
    match fa.frameToIndex (r.base / 4096), fa.frameToIndex ((r.base + r.length - 1) / 4096) with
    | some first, some last => fa.freeRange first (last + 1 - first)
    | _, _ => fa
  else fa

def new (regions : List MemoryRegion) (startFrame frameCount : ℕ) : FrameAllocator :=
  regions.foldl freeRegion (allAllocated startFrame frameCount)

/-- A frame is marked allocated, if the bitmap has it. -/
def reserve (fa : FrameAllocator) (frame : ℕ) : FrameAllocator :=
  match fa.frameToIndex frame with
  | some idx => fa.setFrameAllocated idx
  | none => fa

/-- The frames of the storage are marked allocated. -/
def reserveRun (fa : FrameAllocator) (frame : ℕ) : ℕ → FrameAllocator
  | 0 => fa
  | count + 1 => (fa.reserveRun frame count).reserve (frame + count)

end FrameAllocator

/-- The frames that hold the bitmap and the counts: the first, and how many. -/
def storageFrames (regions : List MemoryRegion) : Option (ℕ × ℕ) :=
  (calculateFrameRange regions).bind fun range ↦
    (findBitmapStorage regions (storageSize range.2)).map fun addr ↦
      (addr / 4096, (storageSize range.2 + 4095) / 4096)

/-- `init_frame_allocator`. -/
def initFrameAllocator (regions : List MemoryRegion) : Option FrameAllocator :=
  (calculateFrameRange regions).bind fun range ↦
    (storageFrames regions).map fun storage ↦
      (FrameAllocator.new regions range.1 range.2).reserveRun storage.1 storage.2

namespace FrameAllocator

variable {fa : FrameAllocator}

theorem freeRange_spec (idx count : ℕ) (h : idx + count ≤ fa.frameCount) :
    fa.SameRange (fa.freeRange idx count) ∧ ∀ g, (fa.freeRange idx count).status g
      = if InRun (fa.startFrame + idx) count g then (true, fa.refcount g) else fa.status g := by
  refine status_run (fa.freeRange idx) (fun p ↦ (true, p.2)) fun k hk hrange ↦ ?_
  have hidx : (fa.freeRange idx k).frameToIndex (fa.startFrame + idx + k) = some (idx + k) := by
    rw [hrange.frameToIndex, freeRange, frameToIndex_eq_some]
    omega
  refine ⟨sameRange_setFrameFree _ _, fun g ↦ ?_⟩
  rw [status, freeRange, isFree_setFrameFree hidx, refcount_setFrameFree, update_apply]
  split_ifs <;> rfl

theorem reserve_spec (fa : FrameAllocator) (f : ℕ) :
    fa.SameRange (fa.reserve f) ∧ (fa.reserve f).refcount = fa.refcount ∧
      (fa.reserve f).isFree = update fa.isFree f false := by
  rw [reserve]
  cases hi : fa.frameToIndex f with
  | none =>
    refine ⟨.refl fa, rfl, ?_⟩
    have hself : fa.isFree f = false := by rw [isFree, hi]
    rw [← hself, update_eq_self]
  | some i =>
    exact ⟨sameRange_setFrameAllocated fa i, refcount_setFrameAllocated fa i,
      isFree_setFrameAllocated hi⟩

theorem reserveRun_spec (fa : FrameAllocator) (f count : ℕ) :
    fa.SameRange (fa.reserveRun f count) ∧ ∀ g, (fa.reserveRun f count).status g
      = if InRun f count g then (false, fa.refcount g) else fa.status g := by
  refine status_run (fa.reserveRun f) (fun p ↦ (false, p.2)) fun k _ _ ↦ ?_
  obtain ⟨hrange, hcounts, hfree⟩ := (fa.reserveRun f k).reserve_spec (f + k)
  refine ⟨hrange, fun g ↦ ?_⟩
  rw [status, reserveRun, hcounts, hfree, update_apply]
  split_ifs <;> rfl

theorem freeRegion_spec {r : MemoryRegion} (hr : r.Aligned)
    (hfits : r.usable = true → fa.startFrame ≤ r.base / 4096 ∧
      (r.base + r.length - 1) / 4096 < fa.startFrame + fa.frameCount) :
    fa.SameRange (fa.freeRegion r) ∧ (fa.freeRegion r).refcount = fa.refcount ∧
      ∀ g, (fa.freeRegion r).isFree g = true ↔
        fa.isFree g = true ∨ r.usable = true ∧ r.Contains g := by
  rw [freeRegion]
  by_cases husable : r.usable = true
  · obtain ⟨hbase, hlength, hpos⟩ := hr
    obtain ⟨hstart, hend⟩ := hfits husable
    have hfirst : fa.frameToIndex (r.base / 4096) = some (r.base / 4096 - fa.startFrame) := by
      rw [frameToIndex_eq_some]
      omega
    have hlast : fa.frameToIndex ((r.base + r.length - 1) / 4096)
        = some ((r.base + r.length - 1) / 4096 - fa.startFrame) := by
      rw [frameToIndex_eq_some]
      omega
    rw [if_pos husable, hfirst, hlast]
    obtain ⟨hrange, hstatus⟩ := freeRange_spec (r.base / 4096 - fa.startFrame)
      ((r.base + r.length - 1) / 4096 - fa.startFrame + 1 - (r.base / 4096 - fa.startFrame))
      (show _ ≤ fa.frameCount by omega)
    refine ⟨hrange, funext fun g ↦ (refcount_of_status hstatus g).trans (ite_self _), fun g ↦ ?_⟩
    have hin : InRun (fa.startFrame + (r.base / 4096 - fa.startFrame))
        ((r.base + r.length - 1) / 4096 - fa.startFrame + 1 - (r.base / 4096 - fa.startFrame)) g ↔
        r.Contains g := by
      rw [InRun, MemoryRegion.Contains]
      omega
    rw [isFree_of_status hstatus]
    by_cases hg : r.Contains g
    · rw [if_pos (hin.mpr hg)]
      exact ⟨fun _ ↦ .inr ⟨husable, hg⟩, fun _ ↦ rfl⟩
    · rw [if_neg fun h ↦ hg (hin.mp h)]
      exact ⟨.inl, fun h ↦ h.resolve_right fun h' ↦ hg h'.2⟩
  · rw [if_neg husable]
    exact ⟨.refl fa, rfl, fun g ↦ ⟨.inl, fun h ↦ h.resolve_right fun h' ↦ husable h'.1⟩⟩

theorem foldl_freeRegion_spec {regions : List MemoryRegion} :
    ∀ {fa : FrameAllocator}, (∀ r ∈ regions, r.Aligned) →
      (∀ r ∈ regions, r.usable = true → fa.startFrame ≤ r.base / 4096 ∧
        (r.base + r.length - 1) / 4096 < fa.startFrame + fa.frameCount) →
      fa.SameRange (regions.foldl freeRegion fa) ∧
        (regions.foldl freeRegion fa).refcount = fa.refcount ∧
        ∀ g, (regions.foldl freeRegion fa).isFree g = true ↔
          fa.isFree g = true ∨ Usable regions g := by
  induction regions with
  | nil =>
    intro fa _ _
    exact ⟨.refl fa, rfl, fun g ↦ ⟨.inl, fun h ↦ h.resolve_right fun ⟨r, hr, _⟩ ↦
      absurd hr not_mem_nil⟩⟩
  | cons r rest ih =>
    intro fa haligned hfits
    obtain ⟨hrange, hcounts, hfree⟩ :=
      freeRegion_spec (haligned r mem_cons_self) (hfits r mem_cons_self)
    obtain ⟨hrange', hcounts', hfree'⟩ := @ih (fa.freeRegion r)
      (fun r' hr' ↦ haligned r' (mem_cons_of_mem r hr')) (by
        rw [hrange.1, hrange.2]
        exact fun r' hr' ↦ hfits r' (mem_cons_of_mem r hr'))
    refine ⟨hrange.trans hrange', hcounts'.trans hcounts, fun g ↦ ?_⟩
    rw [foldl_cons, hfree', hfree, or_assoc]
    refine or_congr_right ⟨?_, ?_⟩
    · rintro (hhere | ⟨r', hr', hin⟩)
      · exact ⟨r, mem_cons_self, hhere⟩
      · exact ⟨r', mem_cons_of_mem r hr', hin⟩
    · rintro ⟨r', hr', hin⟩
      rcases mem_cons.mp hr' with rfl | hr'
      · exact .inl hin
      · exact .inr ⟨r', hr', hin⟩

theorem bitAt_allAllocated {n i : ℕ} (hi : i / 8 < n) : bitAt (replicate n 0xFF) i = true := by
  have hones : ∀ j < 8, (0xFF : UInt8).toNat.testBit j = true := by decide
  rw [bitAt, getD_eq_getElem?_getD, getElem?_replicate, if_pos hi]
  exact hones _ (Nat.mod_lt _ (by decide))

theorem isFree_allAllocated (startFrame frameCount f : ℕ) :
    (allAllocated startFrame frameCount).isFree f = false := by
  rw [isFree]
  cases hi : (allAllocated startFrame frameCount).frameToIndex f with
  | none => rfl
  | some i =>
    have hlt : i < frameCount := (frameToIndex_eq_some.mp hi).2
    have hbytes : i / 8 < bitmapBytes frameCount := by
      rw [bitmapBytes]
      omega
    exact congrArg not (bitAt_allAllocated hbytes)

theorem refcount_allAllocated (startFrame frameCount f : ℕ) :
    (allAllocated startFrame frameCount).refcount f = 0 := by
  rw [refcount]
  cases hi : (allAllocated startFrame frameCount).frameToIndex f with
  | none => rfl
  | some i =>
    show (replicate frameCount 0).getD i 0 = 0
    rw [getD_eq_getElem?_getD, getElem?_replicate]
    split_ifs <;> rfl

end FrameAllocator

variable {regions : List MemoryRegion}

theorem calculateFrameRange_eq_some {range : ℕ × ℕ} (h : calculateFrameRange regions = some range) :
    ∃ minAddr maxAddr,
      ((regions.filter fun r ↦ r.usable).map fun r ↦ r.base).min? = some minAddr ∧
      ((regions.filter fun r ↦ r.usable).map fun r ↦ r.base + r.length).max? = some maxAddr ∧
      range = (minAddr / 4096, (maxAddr - 1) / 4096 - minAddr / 4096 + 1) := by
  rw [calculateFrameRange] at h
  split at h
  · rename_i minAddr maxAddr hmin hmax
    exact ⟨minAddr, maxAddr, hmin, hmax, (some.inj h).symm⟩
  · cases h

theorem calculateFrameRange_spec {range : ℕ × ℕ} (h : calculateFrameRange regions = some range)
    {r : MemoryRegion} (hr : r ∈ regions) (husable : r.usable = true) :
    range.1 ≤ r.base / 4096 ∧ (r.base + r.length - 1) / 4096 < range.1 + range.2 := by
  have hmem : r ∈ regions.filter fun r ↦ r.usable := mem_filter.mpr ⟨hr, husable⟩
  obtain ⟨minAddr, maxAddr, hmin, hmax, rfl⟩ := calculateFrameRange_eq_some h
  have hle : minAddr ≤ r.base :=
    (min?_eq_some_iff.mp hmin).2 _ (List.mem_map_of_mem (f := fun r ↦ r.base) hmem)
  have hge : r.base + r.length ≤ maxAddr :=
    (max?_eq_some_iff.mp hmax).2 _
      (List.mem_map_of_mem (f := fun r ↦ r.base + r.length) hmem)
  omega

/-- The storage starts where a usable region does. -/
theorem findStorage_spec {required : ℕ} {addr : ℕ} :
    ∀ {ranges : List (ℕ × ℕ)} {current : ℕ × ℕ}, findStorage required current ranges = some addr →
      addr = current.1 ∨ ∃ range ∈ ranges, addr = range.1 := by
  intro ranges
  induction ranges with
  | nil =>
    intro current h
    rw [findStorage] at h
    split_ifs at h
    exact .inl (some.inj h).symm
  | cons range rest ih =>
    intro current h
    rw [findStorage] at h
    split_ifs at h with hfits hadjacent
    · exact .inl (some.inj h).symm
    · rcases ih h with heq | ⟨range', hmem, heq⟩
      · exact .inl heq
      · exact .inr ⟨range', mem_cons_of_mem _ hmem, heq⟩
    · rcases ih h with heq | ⟨range', hmem, heq⟩
      · exact .inr ⟨range, mem_cons_self, heq⟩
      · exact .inr ⟨range', mem_cons_of_mem _ hmem, heq⟩

theorem findBitmapStorage_spec {required addr : ℕ}
    (h : findBitmapStorage regions required = some addr) :
    ∃ r ∈ regions, r.usable = true ∧ addr = r.base := by
  rw [findBitmapStorage] at h
  have hfrom : ∀ range ∈ (regions.filter fun r ↦ r.usable).map fun r ↦ (r.base, r.base + r.length),
      ∃ r ∈ regions, r.usable = true ∧ range.1 = r.base := by
    intro range hrange
    obtain ⟨r, hr, rfl⟩ := List.mem_map.mp hrange
    exact ⟨r, (mem_filter.mp hr).1, (mem_filter.mp hr).2, rfl⟩
  split at h
  · cases h
  rename_i first rest hranges
  rw [hranges] at hfrom
  rcases findStorage_spec h with rfl | ⟨range, hmem, rfl⟩
  · exact hfrom first mem_cons_self
  · exact hfrom range (mem_cons_of_mem _ hmem)

/-- The frame holds part of the bitmap or of the counts. -/
def InStorage (regions : List MemoryRegion) (frame : ℕ) : Prop :=
  ∃ storage, storageFrames regions = some storage ∧
    FrameAllocator.InRun storage.1 storage.2 frame

/-- **The allocator that `init_frame_allocator` builds**: the usable frames are free but for those
of the storage, of which there is one, and nobody holds any. -/
theorem initFrameAllocator_spec (haligned : ∀ r ∈ regions, r.Aligned) {fa : FrameAllocator}
    (h : initFrameAllocator regions = some fa) :
    (∀ f, fa.isFree f = true ↔ Usable regions f ∧ ¬InStorage regions f) ∧
      (∀ f, fa.refcount f = 0) ∧ ∃ f, fa.Managed f ∧ InStorage regions f := by
  obtain ⟨range, hrange, hrest⟩ := bind_eq_some_iff.mp h
  obtain ⟨storage, hstorage, rfl⟩ := map_eq_some_iff.mp hrest
  have hfits := fun r hr husable ↦ calculateFrameRange_spec hrange (r := r) hr husable
  obtain ⟨hsame, hcounts, hfree⟩ := @FrameAllocator.foldl_freeRegion_spec
    _ (FrameAllocator.allAllocated range.1 range.2) haligned hfits
  obtain ⟨hsame', hstatus⟩ :=
    (FrameAllocator.new regions range.1 range.2).reserveRun_spec storage.1 storage.2
  have hin : ∀ f, InStorage regions f ↔ FrameAllocator.InRun storage.1 storage.2 f := by
    intro f
    refine ⟨?_, fun hf ↦ ⟨storage, hstorage, hf⟩⟩
    rintro ⟨storage', hstorage', hf⟩
    rw [hstorage] at hstorage'
    obtain rfl := some.inj hstorage'
    exact hf
  refine ⟨fun f ↦ ?_, fun f ↦ ?_, storage.1, ?_, (hin _).mpr ?_⟩
  · rw [FrameAllocator.isFree_of_status hstatus, hin]
    by_cases hf : FrameAllocator.InRun storage.1 storage.2 f
    · rw [if_pos hf]
      exact ⟨fun hcontra ↦ (by cases hcontra), fun hcontra ↦ absurd hf hcontra.2⟩
    · rw [if_neg hf, FrameAllocator.new, hfree, FrameAllocator.isFree_allAllocated]
      exact ⟨fun hor ↦ ⟨hor.resolve_left (by decide), hf⟩, fun hand ↦ .inr hand.1⟩
  · rw [FrameAllocator.refcount_of_status hstatus, ite_self, FrameAllocator.new, hcounts,
      FrameAllocator.refcount_allAllocated]
  all_goals
    rw [storageFrames, hrange] at hstorage
    obtain ⟨addr, haddr, rfl⟩ := map_eq_some_iff.mp hstorage
  · obtain ⟨r, hr, husable, rfl⟩ := findBitmapStorage_spec haddr
    obtain ⟨hlow, hhigh⟩ := hfits r hr husable
    have hpos := (haligned r hr).2.2
    rw [hsame'.managed, FrameAllocator.new, hsame.managed, FrameAllocator.managed_iff]
    refine ⟨r.base / 4096 - range.1, FrameAllocator.frameToIndex_eq_some.mpr ?_⟩
    show r.base / 4096 = range.1 + (r.base / 4096 - range.1) ∧ r.base / 4096 - range.1 < range.2
    omega
  · refine ⟨le_rfl, ?_⟩
    obtain ⟨minAddr, maxAddr, -, -, rfl⟩ := calculateFrameRange_eq_some hrange
    have hsize : 0 < storageSize ((maxAddr - 1) / 4096 - minAddr / 4096 + 1) := by
      rw [storageSize]
      omega
    dsimp only at hsize ⊢
    omega

/-! ## Calls -/

/-- The allocator, and how many references to each frame its callers hold. -/
structure FrameTraffic where
  alloc : FrameAllocator
  held : ℕ → ℕ

/-- A call of the allocator. -/
inductive FrameCall
  | allocate
  | allocateContiguous (count : ℕ)
  | deallocate (frame : ℕ)
  | deallocateContiguous (frame count : ℕ)
  | share (frame : ℕ)

namespace FrameTraffic

open FrameAllocator

/-- One call; only references that are held are given back or shared. A call that panics is not
taken. -/
def step (s : FrameTraffic) : FrameCall → Option FrameTraffic
  | .allocate =>
    match s.alloc.allocateFrame with
    | some (f, fa) => some ⟨fa, update s.held f (s.held f + 1)⟩
    | none => some s
  | .allocateContiguous count =>
    (s.alloc.allocateContiguousFrames count).map fun r ↦
      ⟨r.2, fun g ↦ if r.1.any (fun f ↦ InRun f count g) then s.held g + 1 else s.held g⟩
  | .deallocate f =>
    if 0 < s.held f then
      (s.alloc.deallocateFrame f).map fun fa ↦ ⟨fa, update s.held f (s.held f - 1)⟩
    else none
  | .deallocateContiguous f count =>
    if ∀ k < count, 0 < s.held (f + k) then
      some ⟨s.alloc.deallocateContiguousFrames f count,
        fun g ↦ if InRun f count g then s.held g - 1 else s.held g⟩
    else none
  | .share f =>
    if 0 < s.held f then
      (s.alloc.incRefcount f).map fun fa ↦ ⟨fa, update s.held f (s.held f + 1)⟩
    else none

/-- **The run invariant**, from an allocator nobody holds a frame of. -/
structure Counted (fa₀ : FrameAllocator) (s : FrameTraffic) : Prop where
  sameRange : fa₀.SameRange s.alloc
  refcount : ∀ f, s.alloc.refcount f = s.held f
  isFree : ∀ f, s.alloc.isFree f = true ↔ fa₀.isFree f = true ∧ s.held f = 0
  fromFree : ∀ f, 0 < s.held f → fa₀.isFree f = true

variable {fa₀ : FrameAllocator} {s s' : FrameTraffic} {count f : ℕ} {fa : FrameAllocator}

section

variable (h : Counted fa₀ s)

include h

theorem Counted.managed (hf : 0 < s.held f) : s.alloc.Managed f := by
  by_contra hnot
  rw [← h.refcount, refcount_of_not_managed hnot] at hf
  exact absurd hf (lt_irrefl 0)

theorem Counted.taken {held : ℕ → ℕ} (hsame : s.alloc.SameRange fa) (hrun : s.alloc.FreeRun f count)
    (hstatus : ∀ g, fa.status g = if InRun f count g then (false, 1) else s.alloc.status g)
    (hheld : ∀ g, held g = if InRun f count g then s.held g + 1 else s.held g) :
    Counted fa₀ ⟨fa, held⟩ := by
  have hzero : ∀ g, InRun f count g → fa₀.isFree g = true ∧ s.held g = 0 := by
    intro g hg
    have hfree := hrun (g - f) (by rw [InRun] at hg; omega)
    rw [Nat.add_sub_cancel' hg.1] at hfree
    exact (h.isFree g).mp hfree
  refine ⟨h.sameRange.trans hsame, fun g ↦ ?_, fun g ↦ ?_, fun g hg ↦ ?_⟩
  · dsimp only
    rw [refcount_of_status hstatus, hheld, h.refcount]
    split_ifs with hg
    · rw [(hzero g hg).2]
    · rfl
  · dsimp only
    rw [isFree_of_status hstatus, hheld]
    split_ifs with hg
    · simp
    · exact h.isFree g
  · by_cases hin : InRun f count g
    · exact (hzero g hin).1
    · have hpos : 0 < held g := hg
      rw [hheld, if_neg hin] at hpos
      exact h.fromFree g hpos

theorem Counted.dropped {held : ℕ → ℕ} {p : ℕ → Prop}
    [DecidablePred p] (hsame : s.alloc.SameRange fa) (hpos : ∀ g, p g → 0 < s.held g)
    (hstatus : ∀ g, fa.status g = if p g then
      (decide (s.alloc.refcount g ≤ 1) || s.alloc.isFree g, s.alloc.refcount g - 1)
      else s.alloc.status g)
    (hheld : ∀ g, held g = if p g then s.held g - 1 else s.held g) : Counted fa₀ ⟨fa, held⟩ := by
  refine ⟨h.sameRange.trans hsame, fun g ↦ ?_, fun g ↦ ?_, fun g hg ↦ h.fromFree g ?_⟩
  · dsimp only
    rw [refcount_of_status hstatus, hheld, h.refcount]
  · dsimp only
    rw [isFree_of_status hstatus, hheld, h.refcount]
    split_ifs with hg
    · have hheld := hpos g hg
      simp only [Bool.or_eq_true, decide_eq_true_iff, h.isFree, h.fromFree g hheld, true_and]
      omega
    · exact h.isFree g
  · have hpos' : 0 < held g := hg
    rw [hheld] at hpos'
    split_ifs at hpos' <;> omega

theorem Counted.allocated (halloc : s.alloc.allocateFrame = some (f, fa)) :
    Counted fa₀ ⟨fa, update s.held f (s.held f + 1)⟩ := by
  obtain ⟨-, hfree, hsame, hfree', hcounts'⟩ := allocateFrame_spec halloc
  have hone : ∀ g, InRun f 1 g ↔ g = f := by
    intro g
    rw [InRun]
    omega
  refine h.taken hsame (show s.alloc.FreeRun f 1 from fun k hk ↦ ?_) (fun g ↦ ?_) fun g ↦ ?_
  · rw [show f + k = f by omega]
    exact hfree
  · simp only [status, hfree', hcounts', update_apply, hone]
    split_ifs <;> rfl
  · simp only [update_apply, hone]
    split_ifs with hg
    · rw [hg]
    · rfl

/-- The bitmap has an allocated frame: those of the storage stay so. -/
theorem Counted.exists_allocated (hblocked : ∃ f, fa₀.Managed f ∧ fa₀.isFree f = false) :
    ∃ p < s.alloc.frameCount, s.alloc.isFrameAllocated p = true := by
  obtain ⟨f, hmanaged, hset⟩ := hblocked
  obtain ⟨i, hi⟩ := managed_iff.mp (h.sameRange.managed.mpr hmanaged)
  obtain ⟨rfl, hlt⟩ := frameToIndex_eq_some.mp hi
  have hnot : s.alloc.isFree (s.alloc.startFrame + i) = false := by
    rw [← Bool.not_eq_true, h.isFree]
    rintro ⟨hfree, -⟩
    rw [hset] at hfree
    cases hfree
  rw [isFree_add] at hnot
  exact ⟨i, hlt, by simpa using hnot⟩

theorem Counted.allocatedRun (hblocked : ∃ f, fa₀.Managed f ∧ fa₀.isFree f = false)
    {r : Option ℕ × FrameAllocator} (hr : s.alloc.allocateContiguousFrames count = some r) :
    Counted fa₀ ⟨r.2, fun g ↦ if r.1.any (fun f ↦ InRun f count g) then s.held g + 1
      else s.held g⟩ := by
  rcases lt_or_ge count 2 with hsmall | hlarge
  · obtain rfl | rfl : count = 0 ∨ count = 1 := by omega
    · obtain rfl := some.inj hr
      exact h
    · rw [allocateContiguousFrames, if_neg (by decide), if_pos rfl] at hr
      split at hr <;> obtain rfl := some.inj hr
      · rename_i f fa halloc
        have hheld : update s.held f (s.held f + 1)
            = fun g ↦ if (some f).any (fun f ↦ InRun f 1 g) then s.held g + 1 else s.held g := by
          funext g
          rw [update_apply, any_some]
          by_cases hg : g = f
          · rw [if_pos hg, if_pos (decide_eq_true (show InRun f 1 g by rw [InRun]; omega)), hg]
          · rw [if_neg hg, if_neg]
            rw [decide_eq_true_iff, InRun]
            omega
        exact hheld ▸ h.allocated halloc
      · exact h
  · rcases allocateContiguousFrames_spec hlarge (.inr (h.exists_allocated hblocked)) with
      ⟨hnone, -⟩ | ⟨f, fa, hsome, hrun, -, hsame, hstatus⟩
    · rw [hnone] at hr
      obtain rfl := some.inj hr
      exact h
    · rw [hsome] at hr
      obtain rfl := some.inj hr
      refine h.taken hsame hrun hstatus fun g ↦ ?_
      simp only [any_some, decide_eq_true_iff]

theorem Counted.deallocatedRun (hheld : ∀ k < count, 0 < s.held (f + k)) :
    Counted fa₀ ⟨s.alloc.deallocateContiguousFrames f count,
      fun g ↦ if InRun f count g then s.held g - 1 else s.held g⟩ := by
  have hpos : ∀ g, InRun f count g → 0 < s.held g := by
    intro g hg
    have hk := hheld (g - f) (by rw [InRun] at hg; omega)
    rwa [Nat.add_sub_cancel' hg.1] at hk
  cases hi : s.alloc.frameToIndex f with
  | none =>
    have hzero : count = 0 := by
      by_contra hne
      obtain ⟨i, hsome⟩ := managed_iff.mp (h.managed (hheld 0 (Nat.pos_of_ne_zero hne)))
      rw [add_zero, hi] at hsome
      cases hsome
    subst hzero
    have hnot : ∀ g, ¬InRun f 0 g := fun g hg ↦ by
      rw [InRun] at hg
      omega
    simp only [hnot, if_false, deallocateContiguousFrames, hi]
    exact h
  | some i =>
    obtain ⟨rfl, hlt⟩ := frameToIndex_eq_some.mp hi
    have hfits : i + count ≤ s.alloc.frameCount := by
      cases count with
      | zero => omega
      | succ n =>
        obtain ⟨j, hj⟩ := managed_iff.mp (h.managed (hheld n (Nat.lt_succ_self n)))
        have := frameToIndex_eq_some.mp hj
        omega
    obtain ⟨hsame, hstatus⟩ := dropRun_spec hfits
    rw [deallocateContiguousFrames, hi]
    exact h.dropped (p := InRun (s.alloc.startFrame + i) count) hsame hpos hstatus fun g ↦ rfl

theorem Counted.step (hblocked : ∃ f, fa₀.Managed f ∧ fa₀.isFree f = false) {a : FrameCall}
    (hstep : s.step a = some s') : Counted fa₀ s' := by
  cases a with rw [FrameTraffic.step] at hstep
  | allocate =>
    split at hstep <;> obtain rfl := some.inj hstep
    · rename_i halloc
      exact h.allocated halloc
    · exact h
  | allocateContiguous count =>
    obtain ⟨r, hr, rfl⟩ := map_eq_some_iff.mp hstep
    exact h.allocatedRun hblocked hr
  | deallocate f =>
    split_ifs at hstep with hheld
    obtain ⟨fa, hfa, rfl⟩ := map_eq_some_iff.mp hstep
    obtain ⟨hsame, hfree, hcounts⟩ := deallocateFrame_spec hfa
    rw [if_pos (h.managed hheld)] at hcounts
    refine h.dropped (p := (· = f)) hsame (fun g hg ↦ hg ▸ hheld) (fun g ↦ ?_) fun g ↦ ?_
    · rw [status, hcounts, hfree]
      have hpos : 0 < s.alloc.refcount f := (h.refcount f).symm ▸ hheld
      by_cases hg : g = f
      · subst hg
        rw [if_pos rfl, update_self]
        by_cases hlast : s.alloc.refcount g = 1
        · simp [h.managed hheld, hlast]
        · simp [hlast, show ¬s.alloc.refcount g ≤ 1 by omega]
      · rw [if_neg hg, update_of_ne hg, status]
        split_ifs
        · rw [update_of_ne hg]
        · rfl
    · rw [update_apply]
      by_cases hg : g = f
      · rw [if_pos hg, if_pos hg, hg]
      · rw [if_neg hg, if_neg hg]
  | deallocateContiguous f count =>
    split_ifs at hstep with hheld
    obtain rfl := some.inj hstep
    exact h.deallocatedRun hheld
  | share f =>
    split_ifs at hstep with hheld
    obtain ⟨fa, hfa, rfl⟩ := map_eq_some_iff.mp hstep
    obtain ⟨hsame, hfree, hcounts⟩ := incRefcount_spec hfa
    rw [if_pos (h.managed hheld)] at hcounts
    have hother : ∀ g, update s.held f (s.held f + 1) g = 0 ↔ s.held g = 0 := by
      intro g
      rw [update_apply]
      by_cases hg : g = f
      · rw [if_pos hg, hg]
        omega
      · rw [if_neg hg]
    refine ⟨h.sameRange.trans hsame, fun g ↦ ?_, fun g ↦ ?_, fun g hg ↦ h.fromFree g ?_⟩
    · show fa.refcount g = update s.held f (s.held f + 1) g
      rw [hcounts, update_apply, update_apply, h.refcount, h.refcount]
    · rw [hfree, h.isFree, hother]
    · exact Nat.pos_of_ne_zero fun hzero ↦ absurd ((hother g).mpr hzero) (Nat.ne_of_gt hg)

end

/-- A frame that can be handed out: it is usable, it does not hold the allocator's own data, and
nobody holds it. -/
def Available (regions : List MemoryRegion) (s : FrameTraffic) (f : ℕ) : Prop :=
  Usable regions f ∧ ¬InStorage regions f ∧ s.held f = 0

/-- **The frame allocator is sound and complete**, from the state that `init_frame_allocator`
builds and after any calls that give back or share only what is held. -/
theorem frames_sound_and_complete {regions : List MemoryRegion}
    (haligned : ∀ r ∈ regions, r.Aligned) {fa₀ : FrameAllocator}
    (hinit : initFrameAllocator regions = some fa₀) {s : FrameTraffic}
    (hrun : Reaches FrameTraffic.step (fun _ _ ↦ True) ⟨fa₀, fun _ ↦ 0⟩ s) :
    (∀ f fa, s.alloc.allocateFrame = some (f, fa) → s.Available regions f) ∧
      (s.alloc.allocateFrame = none ↔ ∀ f, ¬s.Available regions f) ∧
      (∀ count f fa, s.alloc.allocateContiguousFrames count = some (some f, fa) →
        ∀ k < count, s.Available regions (f + k)) ∧
      (∀ count ≥ 2,
        (∃ fa, s.alloc.allocateContiguousFrames count = some (none, fa)) ∧
            (∀ g, ¬∀ k < count, s.Available regions (g + k)) ∨
          ∃ f fa, s.alloc.allocateContiguousFrames count = some (some f, fa) ∧
            (∀ k < count, s.Available regions (f + k)) ∧
            ∀ g < f, ¬∀ k < count, s.Available regions (g + k)) ∧
      ∀ f, s.alloc.isFree f = true → s.alloc.refcount f = 0 := by
  obtain ⟨hfree₀, hcounts₀, f₀, hmanaged₀, hstorage₀⟩ := initFrameAllocator_spec haligned hinit
  have hblocked : ∃ f, fa₀.Managed f ∧ fa₀.isFree f = false := by
    refine ⟨f₀, hmanaged₀, ?_⟩
    rw [← Bool.not_eq_true, hfree₀]
    exact fun hc ↦ hc.2 hstorage₀
  have hstart : Counted fa₀ ⟨fa₀, fun _ ↦ 0⟩ :=
    ⟨.refl fa₀, hcounts₀, fun f ↦ ⟨fun h ↦ ⟨h, rfl⟩, fun h ↦ h.1⟩,
      fun f hf ↦ absurd hf (lt_irrefl 0)⟩
  have h : Counted fa₀ s := hrun.invariant hstart fun _ _ _ hs _ hstep ↦ hs.step hblocked hstep
  have hfree : ∀ f, s.alloc.isFree f = true ↔ s.Available regions f := fun f ↦ by
    rw [h.isFree, hfree₀, and_assoc]
    rfl
  have hrunIff : ∀ f count, s.alloc.FreeRun f count ↔ ∀ k < count, s.Available regions (f + k) :=
    fun f count ↦ forall₂_congr fun k _ ↦ hfree (f + k)
  refine ⟨fun f fa halloc ↦ ?_, ?_, fun count f fa halloc ↦ ?_, fun count hcount ↦ ?_,
    fun f hf ↦ ?_⟩
  · exact (hfree f).mp (allocateFrame_spec halloc).2.1
  · rw [allocateFrame_eq_none]
    exact forall_congr' fun f ↦ by rw [← Bool.not_eq_true, hfree]
  · exact (hrunIff f count).mp
      (freeRun_of_allocateContiguousFrames (h.exists_allocated hblocked) halloc)
  · rcases allocateContiguousFrames_spec hcount (.inr (h.exists_allocated hblocked)) with
      ⟨hnone, hno⟩ | ⟨f, fa, hsome, hf, hlowest, -⟩
    · exact .inl ⟨⟨_, hnone⟩, fun g ↦ (hrunIff g count).not.mp (hno g)⟩
    · exact .inr ⟨f, fa, hsome, (hrunIff f count).mp hf,
        fun g hg ↦ (hrunIff g count).not.mp (hlowest g hg)⟩
  · rw [h.refcount]
    exact ((h.isFree f).mp hf).2

/-- Eight usable frames, from the second on. -/
def eightFrames : List MemoryRegion := [⟨4096, 32768, true⟩]

/-- A frame that was handed out, shared and given back once is held by one, and not available. -/
theorem frames_sound_and_complete_eight :
    ∃ fa₀ s, initFrameAllocator eightFrames = some fa₀ ∧
      run step ⟨fa₀, fun _ ↦ 0⟩ [.allocate, .share 2, .deallocate 2] = some s ∧ s.held 2 = 1 ∧
      (s.alloc.allocateFrame = none ↔ ∀ f, ¬Available eightFrames s f) := by
  obtain ⟨s, hs⟩ := isSome_iff_exists.mp (show ((initFrameAllocator eightFrames).bind fun fa ↦
    run step ⟨fa, fun _ ↦ 0⟩ [.allocate, .share 2, .deallocate 2]).isSome = true by decide +kernel)
  have hheld : ((initFrameAllocator eightFrames).bind fun fa ↦
      run step ⟨fa, fun _ ↦ 0⟩ [.allocate, .share 2, .deallocate 2]).map (fun s ↦ s.held 2) =
      some 1 := by decide +kernel
  rw [hs, Option.map_some, some.injEq] at hheld
  obtain ⟨fa₀, hinit, hrun⟩ := bind_eq_some_iff.mp hs
  have haligned : ∀ r ∈ eightFrames, r.Aligned := by
    intro r hr
    rw [mem_singleton.mp hr]
    exact ⟨rfl, rfl, by decide⟩
  have hreaches := reaches_of_run (C := fun _ _ ↦ True) (fun _ _ _ ↦ trivial) hrun
  exact ⟨fa₀, s, hinit, hrun, hheld, (frames_sound_and_complete haligned hinit hreaches).2.1⟩

end FrameTraffic

end Edos.Memory

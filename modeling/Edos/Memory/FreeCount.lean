import Edos.Memory.FrameInit
import Edos.Memory.Syscalls

/-!
# The count of free frames

`stats` counts the bits that are set in the whole bitmap and takes that from the number of frames.
The bitmap is filled with ones and rounded up to two bytes, and nothing clears the bits behind the
last frame (`Padded`), so the count is right only where there are none: `freeFrames_exact_iff`.
Elsewhere the padding is taken for allocated frames (`padding_counted_as_allocated`), and
`SharedMemory::new` refuses a request by that count. A request that passes it may still fail: the
list of its frames comes from the kernel heap, which grows by frames of the same allocator.
-/

namespace Edos.Memory.FrameAllocator

open Function List Option

variable {fa fa' : FrameAllocator} {f : ℕ} {regions : List MemoryRegion}

/-- The indices of the free frames. -/
def freeSet (fa : FrameAllocator) : Finset ℕ :=
  (Finset.range fa.frameCount).filter fun i ↦ fa.isFree (fa.startFrame + i) = true

/-! ## The bitmap -/

/-- The bitmap has the bytes that `init_frame_allocator` gives it, and the bits that are of no frame
are set. -/
structure Padded (fa : FrameAllocator) : Prop where
  length_eq : fa.bitmap.length = bitmapBytes fa.frameCount
  ones : ∀ i, fa.frameCount ≤ i → i < fa.bitmap.length * 8 → bitAt fa.bitmap i = true

namespace Padded

theorem setFrameFree (h : fa.Padded) (i : ℕ) : (fa.setFrameFree i).Padded := by
  rw [FrameAllocator.setFrameFree]
  split
  · exact h
  · rename_i hi
    refine ⟨(length_clearBit _ _).trans h.length_eq, fun j hj hlt ↦ ?_⟩
    dsimp only at hj hlt ⊢
    rw [length_clearBit] at hlt
    rw [bitAt_clearBit (by have := fa.frameCount_le_bitmap; omega), h.ones j hj hlt]
    simpa using show j ≠ i by omega

theorem setFrameAllocated (h : fa.Padded) (i : ℕ) : (fa.setFrameAllocated i).Padded := by
  rw [FrameAllocator.setFrameAllocated]
  split_ifs with hi
  · exact h
  · refine ⟨(length_setBit _ _).trans h.length_eq, fun j hj hlt ↦ ?_⟩
    dsimp only at hj hlt ⊢
    rw [length_setBit] at hlt
    rw [bitAt_setBit (by have := fa.frameCount_le_bitmap; omega), h.ones j hj hlt, Bool.true_or]

theorem setRefcount (h : fa.Padded) (i n : ℕ) : (fa.setRefcount i n).Padded :=
  ⟨h.length_eq, h.ones⟩

theorem setHint (h : fa.Padded) (hint : ℕ) : (fa.setHint hint).Padded := ⟨h.length_eq, h.ones⟩

theorem freeRegion (h : fa.Padded) (r : MemoryRegion) : (fa.freeRegion r).Padded := by
  have hrange (idx count : ℕ) : (fa.freeRange idx count).Padded := by
    induction count with
    | zero => exact h
    | succ count ih => exact ih.setFrameFree (idx + count)
  rw [FrameAllocator.freeRegion]
  split_ifs
  · split
    · exact hrange _ _
    · exact h
  · exact h

/-- `init_frame_allocator` sets every bit and clears those of the usable frames. -/
theorem init (h : initFrameAllocator regions = some fa) : fa.Padded := by
  obtain ⟨range, -, h⟩ := bind_eq_some_iff.mp h
  obtain ⟨storage, -, rfl⟩ := map_eq_some_iff.mp h
  have hnew : (new regions range.1 range.2).Padded := by
    refine foldlRecOn regions FrameAllocator.freeRegion ?_ fun fa h r _ ↦ h.freeRegion r
    refine ⟨length_replicate, fun i _ hlt ↦ bitAt_allAllocated ?_⟩
    rw [allAllocated, length_replicate] at hlt
    omega
  induction storage.2 with
  | zero => exact hnew
  | succ count ih =>
    rw [reserveRun, FrameAllocator.reserve]
    split
    · exact ih.setFrameAllocated _
    · exact ih

theorem allocateFrame (h : fa.Padded) (halloc : fa.allocateFrame = some (f, fa')) : fa'.Padded := by
  obtain ⟨idx, -, heq⟩ := map_eq_some_iff.mp halloc
  cases heq
  exact ((h.setHint _).setFrameAllocated _).setRefcount _ _

theorem markRun (h : fa.Padded) (idx count : ℕ) : (fa.markRun idx count).Padded := by
  induction count with
  | zero => exact h
  | succ count ih => exact (ih.setFrameAllocated _).setRefcount _ _

theorem dropReference (h : fa.Padded) (idx : ℕ) : (fa.dropReference idx).Padded := by
  rw [FrameAllocator.dropReference]
  split_ifs
  · exact h
  · exact h.setRefcount _ _
  · exact (h.setRefcount _ _).setFrameFree _

theorem dropRun (h : fa.Padded) (idx count : ℕ) : (fa.dropRun idx count).Padded := by
  induction count with
  | zero => exact h
  | succ count ih => exact ih.dropReference _

theorem allocateContiguousFrames {count : ℕ} {r : Option ℕ × FrameAllocator} (h : fa.Padded)
    (hr : fa.allocateContiguousFrames count = some r) : r.2.Padded := by
  rw [FrameAllocator.allocateContiguousFrames] at hr
  split_ifs at hr
  · cases hr
    exact h
  · split at hr
    · rename_i halloc
      cases hr
      exact h.allocateFrame halloc
    · cases hr
      exact h
  · split at hr
    · cases hr
    · cases hr
      exact h
    · cases hr
      exact (h.markRun _ _).setHint _

theorem deallocateFrame (h : fa.Padded) (hfree : fa.deallocateFrame f = some fa') : fa'.Padded := by
  rw [FrameAllocator.deallocateFrame] at hfree
  split at hfree
  · split_ifs at hfree
    · cases hfree
      exact h.setRefcount _ _
    · cases hfree
      exact (h.setRefcount _ _).setFrameFree _
  · cases hfree
    exact h

theorem incRefcount (h : fa.Padded) (hinc : fa.incRefcount f = some fa') : fa'.Padded := by
  rw [FrameAllocator.incRefcount] at hinc
  split at hinc
  · split_ifs at hinc
    cases hinc
    exact h.setRefcount _ _
  · cases hinc
    exact h

/-- No call of the allocator writes the padding. -/
theorem step {s s' : FrameTraffic} {a : FrameCall} (h : s.alloc.Padded)
    (hstep : s.step a = some s') : s'.alloc.Padded := by
  cases a with rw [FrameTraffic.step] at hstep
  | allocate =>
    split at hstep <;> obtain rfl := some.inj hstep
    · rename_i halloc
      exact h.allocateFrame halloc
    · exact h
  | allocateContiguous count =>
    obtain ⟨r, hr, rfl⟩ := map_eq_some_iff.mp hstep
    exact h.allocateContiguousFrames hr
  | deallocate f =>
    split_ifs at hstep
    obtain ⟨fa, hfa, rfl⟩ := map_eq_some_iff.mp hstep
    exact h.deallocateFrame hfa
  | deallocateContiguous f count =>
    split_ifs at hstep
    obtain rfl := some.inj hstep
    change (s.alloc.deallocateContiguousFrames f count).Padded
    rw [deallocateContiguousFrames]
    split
    · exact h.dropRun _ _
    · exact h
  | share f =>
    split_ifs at hstep
    obtain ⟨fa, hfa, rfl⟩ := map_eq_some_iff.mp hstep
    exact h.incRefcount hfa

end Padded

/-! ## Counting -/

/-- A bit of the bitmap is set, or it is that of a free frame. -/
theorem allocatedFrames_add_card (h : fa.Padded) :
    fa.allocatedFrames + fa.freeSet.card = bitmapBytes fa.frameCount * 8 := by
  have hle := fa.frameCount_le_bitmap
  have hfree : fa.freeSet =
      (Finset.range (fa.bitmap.length * 8)).filter fun i ↦ ¬bitAt fa.bitmap i = true := by
    ext i
    rw [freeSet, Finset.mem_filter, Finset.mem_filter, Finset.mem_range,
      Finset.mem_range, isFree_add]
    refine ⟨fun ⟨hi, hclear⟩ ↦ ⟨by omega, ?_⟩, fun ⟨hi, hclear⟩ ↦ ?_⟩
    · rw [isFrameAllocated_of_lt hi, Bool.not_eq_true'] at hclear
      rw [hclear]
      decide
    · have hlt : i < fa.frameCount := by
        by_contra hge
        exact hclear (h.ones i (not_lt.mp hge) hi)
      rw [isFrameAllocated_of_lt hlt, Bool.not_eq_true']
      exact ⟨hlt, Bool.not_eq_true _ ▸ hclear⟩
  have hcard : fa.freeSet.card =
      (range (fa.bitmap.length * 8)).countP fun i ↦ ¬bitAt fa.bitmap i = true := by
    rw [hfree, countP_eq_length_filter]
    rfl
  rw [allocatedFrames, hcard, ← length_eq_countP_add_countP, length_range, h.length_eq]

/-- The bitmap has no padding iff the frames fill pairs of bytes. -/
theorem bitmapBytes_eq_iff (n : ℕ) : bitmapBytes n * 8 = n ↔ 16 ∣ n := by
  rw [bitmapBytes]
  omega

theorem freeSet_allocateFrame (h : fa.allocateFrame = some (f, fa')) :
    fa'.freeSet.card + 1 = fa.freeSet.card := by
  obtain ⟨hman, hfree, hrange, hfree', -⟩ := allocateFrame_spec h
  obtain ⟨i, hi⟩ := managed_iff.mp hman
  obtain ⟨rfl, hlt⟩ := frameToIndex_eq_some.mp hi
  have hmem : i ∈ fa.freeSet := Finset.mem_filter.mpr ⟨Finset.mem_range.mpr hlt, hfree⟩
  have herase : fa'.freeSet = fa.freeSet.erase i := by
    ext j
    rw [Finset.mem_erase, freeSet, freeSet, Finset.mem_filter, Finset.mem_filter,
      hrange.1, hrange.2, hfree', update_apply]
    by_cases hj : j = i
    · simp [hj]
    · simp [hj]
  rw [herase, Finset.card_erase_add_one hmem]

/-- **The frames that can be handed out** are the free ones. -/
theorem allocateFrames_iff (n : ℕ) : (allocateFrames n fa).1 = true ↔ n ≤ fa.freeSet.card := by
  induction n generalizing fa with
  | zero => simp [allocateFrames]
  | succ n ih =>
    rw [allocateFrames]
    cases h : fa.allocateFrame with
    | none =>
      have hnone := allocateFrame_eq_none.mp h
      have hempty : fa.freeSet = ∅ := Finset.filter_false_of_mem fun i _ ↦ by simp [hnone]
      simp [hempty]
    | some p =>
      obtain ⟨f, fa'⟩ := p
      rw [← freeSet_allocateFrame h, Nat.add_le_add_iff_right, ← ih]

/-- What is left after frames were handed out. -/
theorem card_allocateFrames {n : ℕ} (h : (allocateFrames n fa).1 = true) :
    (allocateFrames n fa).2.2.freeSet.card + n = fa.freeSet.card := by
  induction n generalizing fa with
  | zero => rfl
  | succ n ih =>
    rw [allocateFrames] at h ⊢
    cases halloc : fa.allocateFrame with
    | none => simp [halloc] at h
    | some p =>
      obtain ⟨f, fa'⟩ := p
      rw [halloc] at h
      have hrest := ih h
      have hone := freeSet_allocateFrame halloc
      change (allocateFrames n fa').2.2.freeSet.card + (n + 1) = _
      omega

theorem length_allocateFrames {n : ℕ} (h : (allocateFrames n fa).1 = true) :
    (allocateFrames n fa).2.1.length = n := by
  induction n generalizing fa with
  | zero => rfl
  | succ n ih =>
    rw [allocateFrames] at h ⊢
    cases halloc : fa.allocateFrame with
    | none => simp [halloc] at h
    | some p =>
      rw [halloc] at h
      exact congrArg (· + 1) (ih h)

theorem ensure_bind {α : Type} (c : Prop) [Decidable c] (e : Errno) (k : PUnit → Sys α) (s : Task) :
    (Sys.ensure c e >>= k) s = if c then k ⟨⟩ s else (.error (.errno e), s) := by
  rw [Sys.ensure]
  split_ifs <;> rfl

theorem growHeap_bind {α : Type} (n : ℕ) (k : PUnit → Sys α) (s : Task) :
    (growHeap n >>= k) s =
      if (allocateFrames n s.world.frames).1 = true then
        k ⟨⟩ { s with world := { s.world with frames := (allocateFrames n s.world.frames).2.2 } }
      else (.error .panic, s) := by
  change Fallible.andThen _ k s = _
  rw [Fallible.andThen, growHeap, Fallible.gets_bind]
  rcases allocateFrames n s.world.frames with ⟨_ | _, fs, fa⟩ <;> rfl

/-- **When a region is granted**: the count admits it, and the frames suffice for it and for what
the heap takes. -/
theorem sysShmCreate_ok_iff {s : Task} {size aligned : ℕ} (vec node : ℕ) (hs : s.world.frames = fa)
    (hsize : size ≠ 0) (hround : pageRoundUp size = some aligned) :
    (∃ id, (sysShmCreate size vec node s).1 = .ok id) ↔ aligned / pageSize ≤ fa.freeFrames ∧
      (allocateFrames (vec + aligned / pageSize + node) fa).1 = true := by
  have hpages : aligned / pageSize ≠ 0 := by
    obtain ⟨hle, hd⟩ := VmaSet.pageRoundUp_eq_some hround
    exact (Nat.div_pos (Nat.le_of_dvd (by omega) hd) (by decide)).ne'
  subst hs
  rw [sysShmCreate, ensure_bind, if_pos hsize, hround]
  dsimp only
  rw [Fallible.gets_bind, ensure_bind]
  by_cases hcount : aligned / pageSize ≤ s.world.frames.freeFrames
  swap
  · rw [if_neg hcount]
    exact iff_of_false nofun fun h ↦ hcount h.1
  rw [if_pos hcount, growHeap_bind]
  generalize aligned / pageSize = pages at hpages hcount ⊢
  -- each of the three allocations succeeds iff the frames left by those before it suffice
  have htotal : (allocateFrames (vec + pages + node) s.world.frames).1 = true ↔ _ :=
    allocateFrames_iff _
  by_cases hvec : (allocateFrames vec s.world.frames).1 = true
  swap
  · rw [if_neg hvec]
    rw [allocateFrames_iff] at hvec
    exact iff_of_false nofun fun h ↦ hvec (by have := htotal.mp h.2; omega)
  have hleft := card_allocateFrames hvec
  rw [if_pos hvec, Fallible.gets_bind]
  dsimp only
  generalize (allocateFrames vec s.world.frames).2.2 = fa at hleft ⊢
  by_cases hall : (allocateFrames pages fa).1 = true
  · have hlen := length_allocateFrames hall
    have hrest := card_allocateFrames hall
    rcases hres : allocateFrames pages fa with ⟨_ | _, _ | ⟨f, fs⟩, fa'⟩
    all_goals rw [hres] at hall hlen hrest
    · exact nomatch hall
    · exact nomatch hall
    · exact absurd hlen.symm hpages
    change (∃ id, ((growHeap node >>= _) _).1 = _) ↔ _
    have hnode : (allocateFrames node fa').1 = true ↔ _ := allocateFrames_iff _
    dsimp only at hrest
    rw [growHeap_bind]
    split_ifs with hok
    · exact iff_of_true ⟨_, rfl⟩ ⟨hcount, htotal.mpr (by have := hnode.mp hok; omega)⟩
    · refine iff_of_false nofun fun h ↦ hok (hnode.mpr ?_)
      have := htotal.mp h.2
      omega
  · have hno := mt (allocateFrames_iff _).mpr hall
    rcases hres : allocateFrames pages fa with ⟨_ | _, fs, fa'⟩
    · exact iff_of_false nofun fun h ↦ hno (by have := htotal.mp h.2; omega)
    · exact absurd (by rw [hres]) hall

/-- **The count of free frames is exact**, and a request that fits is granted, iff the bitmap has no
padding and the frames that the heap takes for the request fit too. -/
theorem freeFrames_exact_iff {fa₀ : FrameAllocator} (hinit : initFrameAllocator regions = some fa₀)
    {s : FrameTraffic} (hrun : Reaches FrameTraffic.step (fun _ _ ↦ True) ⟨fa₀, fun _ ↦ 0⟩ s)
    {t : Task} (ht : t.world.frames = s.alloc) {size aligned : ℕ} (hsize : size ≠ 0)
    (hround : pageRoundUp size = some aligned) (vec node : ℕ) :
    (s.alloc.allocatedFrames ≤ s.alloc.frameCount ∧
        (∀ n, (allocateFrames n s.alloc).1 = true ↔ n ≤ s.alloc.freeFrames) ∧
        ((allocateFrames (aligned / pageSize) s.alloc).1 = true →
          ∃ id, (sysShmCreate size vec node t).1 = .ok id)) ↔
      16 ∣ s.alloc.frameCount ∧
        ((allocateFrames (aligned / pageSize) s.alloc).1 = true →
          (allocateFrames (vec + aligned / pageSize + node) s.alloc).1 = true) := by
  have hpadded : s.alloc.Padded := by
    refine hrun.invariant (I := fun s ↦ s.alloc.Padded) (Padded.init hinit) ?_
    exact fun _ _ _ hs _ hstep ↦ hs.step hstep
  have hsum := allocatedFrames_add_card hpadded
  have hfree : s.alloc.freeFrames = s.alloc.frameCount - s.alloc.allocatedFrames := rfl
  rw [sysShmCreate_ok_iff vec node ht hsize hround, ← bitmapBytes_eq_iff]
  refine ⟨fun ⟨hle, hexact, hgrant⟩ ↦ ⟨?_, fun hfit ↦ (hgrant hfit).2⟩, fun ⟨hfull, hfits⟩ ↦ ?_⟩
  · -- the count is that of the free frames only if no bit is left over
    have hcard := (hexact s.alloc.freeSet.card).mp ((allocateFrames_iff _).mpr le_rfl)
    have hpad := s.alloc.frameCount_le_bitmap
    rw [hpadded.length_eq] at hpad
    omega
  · have hcard : s.alloc.freeFrames = s.alloc.freeSet.card := by omega
    refine ⟨by omega, fun n ↦ by rw [hcard, allocateFrames_iff], fun hfit ↦ ⟨?_, hfits hfit⟩⟩
    rwa [hcard, ← allocateFrames_iff]

/-- Sixteen usable frames, from the second on. -/
def sixteenUsable : List MemoryRegion := [⟨4096, 65536, true⟩]

/-- A task without mappings, and nothing shared or cached. -/
def bareTask (frames : FrameAllocator) : Task where
  world := ⟨frames, fun _ ↦ [], emptyTable 3, [], .empty, 0, .empty, 0, fun _ ↦ none, fun _ ↦ []⟩
  proc := ⟨0, .new, 0, 0, emptyTable 3, none, none, 0, fun _ ↦ none⟩

/-- After a frame was handed out and shared, and another handed out and given back, fourteen frames
are left. A region of eleven pages gets them, if the heap takes the other three. -/
theorem freeFrames_exact_iff_sixteen :
    ∃ fa₀ s, initFrameAllocator sixteenUsable = some fa₀ ∧
      run FrameTraffic.step ⟨fa₀, fun _ ↦ 0⟩
        [.allocate, .share 2, .allocate, .deallocate 3] = some s ∧
      (∀ n, (allocateFrames n s.alloc).1 = true ↔ n ≤ s.alloc.freeFrames) ∧
        s.alloc.freeFrames = 14 ∧
      ∃ id, (sysShmCreate 45000 2 1 (bareTask s.alloc)).1 = .ok id := by
  obtain ⟨s, hs⟩ := isSome_iff_exists.mp (show ((initFrameAllocator sixteenUsable).bind fun fa ↦
    run FrameTraffic.step ⟨fa, fun _ ↦ 0⟩
      [.allocate, .share 2, .allocate, .deallocate 3]).isSome = true
    by decide +kernel)
  have hcounts : ((initFrameAllocator sixteenUsable).bind fun fa ↦
      run FrameTraffic.step ⟨fa, fun _ ↦ 0⟩ [.allocate, .share 2, .allocate, .deallocate 3]).map
      (fun s ↦ (s.alloc.frameCount, s.alloc.freeFrames, (allocateFrames 11 s.alloc).1,
        (allocateFrames 14 s.alloc).1)) = some (16, 14, true, true) := by decide +kernel
  rw [hs, Option.map_some, some.injEq, Prod.mk.injEq, Prod.mk.injEq, Prod.mk.injEq] at hcounts
  obtain ⟨hframes, hfree, hpages, hall⟩ := hcounts
  obtain ⟨fa₀, hinit, hrun⟩ := bind_eq_some_iff.mp hs
  obtain ⟨-, hexact, hgrant⟩ :=
    (freeFrames_exact_iff hinit (reaches_of_run (fun _ _ _ ↦ trivial) hrun)
      (t := bareTask s.alloc) rfl (show 45000 ≠ 0 by decide) rfl 2 1).mpr
      ⟨by rw [hframes], fun _ ↦ hall⟩
  exact ⟨fa₀, s, hinit, hrun, hexact, hfree, hgrant hpages⟩

/-- **Padding is counted as allocated frames.** Of eight frames nine are counted as allocated, which
underflows. Of twenty-four frames fifteen are counted as free where twenty-three can be handed out,
and a region of sixteen pages is refused. -/
theorem padding_counted_as_allocated :
    (initFrameAllocator FrameTraffic.eightFrames).map
        (fun fa ↦ (fa.frameCount, fa.allocatedFrames)) = some (8, 9) ∧
      ∃ fa, initFrameAllocator [⟨4096, 98304, true⟩] = some fa ∧
        fa.freeFrames = 15 ∧ (allocateFrames 23 fa).1 = true ∧
        ∀ (vec node : ℕ) (s : Task), s.world.frames = fa →
          (sysShmCreate 65536 vec node s).1 = .error (.errno .ENOMEM) := by
  refine ⟨by decide +kernel, ?_⟩
  obtain ⟨fa, hinit⟩ := isSome_iff_exists.mp
    (show (initFrameAllocator [⟨4096, 98304, true⟩]).isSome = true by decide)
  have hcounts : (initFrameAllocator [⟨4096, 98304, true⟩]).map
      (fun fa ↦ (fa.freeFrames, (allocateFrames 23 fa).1)) = some (15, true) := by decide +kernel
  rw [hinit, Option.map_some, some.injEq, Prod.mk.injEq] at hcounts
  refine ⟨fa, hinit, hcounts.1, hcounts.2, ?_⟩
  rintro vec node s rfl
  rw [sysShmCreate, show pageRoundUp 65536 = some 65536 from rfl]
  change ((Sys.ensure (65536 / pageSize ≤ s.world.frames.freeFrames) .ENOMEM >>= _) s).1 = _
  rw [Sys.ensure, if_neg (by rw [hcounts.1]; decide)]
  rfl

end Edos.Memory.FrameAllocator

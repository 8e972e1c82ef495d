import Edos.Efs.Bitmap

/-!
# The frame allocator

Physical frames, which are numbered, are handed out from a bitmap with a reference count for each
frame. A frame outside the range of the bitmap has no count, and every operation on it does nothing.
There are two ways to drop a reference: `deallocate_frame` clears the bit when the last one goes,
`dec_refcount` never does.

An operation that the kernel guards by an assertion returns nothing where the assertion fails. The
operations are described by what they do to two functions of a frame, whether it is free (`isFree`)
and its count (`refcount`). What a longer walk does is summed up by `Took`, frames it allocates and
references it adds, and `Gave`, frames it frees and references it drops.
-/

namespace Edos.Memory

open Function List Option

/-- `BitmapFrameAllocator`. -/
structure FrameAllocator where
  bitmap : List UInt8
  refcounts : List ℕ
  startFrame : ℕ
  frameCount : ℕ
  nextFreeHint : ℕ
  /-- Asserted by `new`: there is a bit for every frame. -/
  frameCount_le_bitmap : frameCount ≤ bitmap.length * 8
  /-- Asserted by `new`: there is a count for every frame. -/
  frameCount_le_refcounts : frameCount ≤ refcounts.length

namespace FrameAllocator

/-- `frame_to_index`. -/
def frameToIndex (fa : FrameAllocator) (frame : ℕ) : Option ℕ :=
  if frame < fa.startFrame then none
  else if fa.frameCount ≤ frame - fa.startFrame then none
  else some (frame - fa.startFrame)

/-- `set_frame_allocated`. -/
def setFrameAllocated (fa : FrameAllocator) (index : ℕ) : FrameAllocator :=
  if fa.frameCount ≤ index then fa
  else
    { fa with
      bitmap := setBit fa.bitmap index
      frameCount_le_bitmap := by rw [length_setBit]; exact fa.frameCount_le_bitmap }

/-- `set_frame_free`. -/
def setFrameFree (fa : FrameAllocator) (index : ℕ) : FrameAllocator :=
  if fa.frameCount ≤ index then fa
  else
    { fa with
      bitmap := clearBit fa.bitmap index
      nextFreeHint := if index < fa.nextFreeHint then index else fa.nextFreeHint
      frameCount_le_bitmap := by rw [length_clearBit]; exact fa.frameCount_le_bitmap }

/-- Write a count. -/
def setRefcount (fa : FrameAllocator) (index count : ℕ) : FrameAllocator :=
  { fa with
    refcounts := fa.refcounts.set index count
    frameCount_le_refcounts := by rw [length_set]; exact fa.frameCount_le_refcounts }

/-- The scan of whole bytes in `scan_free_from`. -/
def scanBytes (frameCount : ℕ) : ℕ → List UInt8 → Option ℕ
  | _, [] => none
  | byteIdx, byte :: rest =>
    if byte ≠ 0xFF ∧ byteIdx * 8 + trailingOnes 8 byte.toNat < frameCount then
      some (byteIdx * 8 + trailingOnes 8 byte.toNat)
    else scanBytes frameCount (byteIdx + 1) rest

/-- `scan_free_from`: the bits of the first byte that are below `start` are taken for allocated. -/
def scanFreeFrom (fa : FrameAllocator) (start : ℕ) : Option ℕ :=
  if fa.frameCount ≤ start then none
  else
    let byteIdx := start / 8
    let mask : UInt8 := (1 <<< UInt8.ofNat (start % 8)) - 1
    scanBytes fa.frameCount byteIdx ((fa.bitmap.getD byteIdx 0 ||| mask) ::
      (fa.bitmap.take ((fa.frameCount + 7) / 8)).drop (byteIdx + 1))

/-- `find_free_frame`: the scan starts at the hint, and once more from the beginning. -/
def findFreeFrame (fa : FrameAllocator) : Option ℕ :=
  match fa.scanFreeFrom fa.nextFreeHint with
  | some idx => some idx
  | none => if 0 < fa.nextFreeHint then fa.scanFreeFrom 0 else none

/-- Move the hint. -/
def setHint (fa : FrameAllocator) (hint : ℕ) : FrameAllocator := { fa with nextFreeHint := hint }

/-- `allocate_frame`. -/
def allocateFrame (fa : FrameAllocator) : Option (ℕ × FrameAllocator) :=
  (fa.findFreeFrame).map fun idx ↦
    (fa.startFrame + idx, ((fa.setHint (idx + 1)).setFrameAllocated idx).setRefcount idx 1)

/-- `refcount`. -/
def refcount (fa : FrameAllocator) (frame : ℕ) : ℕ :=
  match fa.frameToIndex frame with
  | some idx => fa.refcounts.getD idx 0
  | none => 0

/-- `inc_refcount`; the count is a `u16`. -/
def incRefcount (fa : FrameAllocator) (frame : ℕ) : Option FrameAllocator :=
  match fa.frameToIndex frame with
  | some idx =>
    if fa.refcounts.getD idx 0 + 1 < 2 ^ 16 then
      some (fa.setRefcount idx (fa.refcounts.getD idx 0 + 1))
    else none
  | none => some fa

/-- `dec_refcount`. -/
def decRefcount (fa : FrameAllocator) (frame : ℕ) : Option FrameAllocator :=
  match fa.frameToIndex frame with
  | some idx =>
    if 0 < fa.refcounts.getD idx 0 then some (fa.setRefcount idx (fa.refcounts.getD idx 0 - 1))
    else none
  | none => some fa

/-- `deallocate_frame`. -/
def deallocateFrame (fa : FrameAllocator) (frame : ℕ) : Option FrameAllocator :=
  match fa.frameToIndex frame with
  | some idx =>
    if fa.refcounts.getD idx 0 = 0 then none
    else if 1 < fa.refcounts.getD idx 0 then
      some (fa.setRefcount idx (fa.refcounts.getD idx 0 - 1))
    else some ((fa.setRefcount idx 0).setFrameFree idx)
  | none => some fa

/-- The bit of a frame is clear. -/
def isFree (fa : FrameAllocator) (frame : ℕ) : Bool :=
  match fa.frameToIndex frame with
  | some idx => !bitAt fa.bitmap idx
  | none => false

/-- The frame is in the range of the bitmap. -/
def Managed (fa : FrameAllocator) (frame : ℕ) : Prop := (fa.frameToIndex frame).isSome = true

instance (fa : FrameAllocator) (frame : ℕ) : Decidable (fa.Managed frame) :=
  inferInstanceAs (Decidable (_ = true))

/-! ## What the operations do -/

variable {fa fa' : FrameAllocator} {f g : ℕ} {i : ℕ}

theorem frameToIndex_eq_some :
    fa.frameToIndex f = some i ↔ f = fa.startFrame + i ∧ i < fa.frameCount := by
  rw [frameToIndex]
  split_ifs with h₁ h₂
  · simp only [false_iff]
    omega
  · simp only [false_iff]
    omega
  · rw [some.injEq]
    omega

/-- Two allocators over the same frames. -/
def SameRange (fa fa' : FrameAllocator) : Prop :=
  fa'.startFrame = fa.startFrame ∧ fa'.frameCount = fa.frameCount

theorem SameRange.refl (fa : FrameAllocator) : fa.SameRange fa := ⟨rfl, rfl⟩

theorem SameRange.trans {fa'' : FrameAllocator} (h : fa.SameRange fa') (h' : fa'.SameRange fa'') :
    fa.SameRange fa'' := ⟨h'.1.trans h.1, h'.2.trans h.2⟩

theorem SameRange.frameToIndex (h : fa.SameRange fa') : fa'.frameToIndex = fa.frameToIndex := by
  funext f
  rw [FrameAllocator.frameToIndex, FrameAllocator.frameToIndex, h.1, h.2]

theorem SameRange.managed (h : fa.SameRange fa') : fa'.Managed f ↔ fa.Managed f := by
  rw [Managed, Managed, h.frameToIndex]

theorem index_eq (hf : fa.frameToIndex f = some i) {j : ℕ} (hg : fa.frameToIndex g = some j) :
    i = j ↔ g = f := by
  obtain ⟨rfl, -⟩ := frameToIndex_eq_some.mp hf
  obtain ⟨rfl, -⟩ := frameToIndex_eq_some.mp hg
  omega

theorem sameRange_setHint (fa : FrameAllocator) (hint : ℕ) : fa.SameRange (fa.setHint hint) :=
  ⟨rfl, rfl⟩

theorem sameRange_setRefcount (fa : FrameAllocator) (i n : ℕ) : fa.SameRange (fa.setRefcount i n) :=
  ⟨rfl, rfl⟩

theorem isFree_setRefcount (fa : FrameAllocator) (i n : ℕ) :
    (fa.setRefcount i n).isFree = fa.isFree := rfl

theorem indexed_update {α : Type} {φ φ' : ℕ → α} {d x : α} (hf : fa.frameToIndex f = some i)
    (h : ∀ j < fa.frameCount, φ' j = if j = i then x else φ j) :
    (fun g ↦ match fa.frameToIndex g with | some j => φ' j | none => d) =
      update (fun g ↦ match fa.frameToIndex g with | some j => φ j | none => d) f x := by
  funext g
  rw [update_apply]
  cases hg : fa.frameToIndex g with
  | none => rw [if_neg fun h ↦ by rw [h, hf] at hg; cases hg]
  | some j =>
    dsimp only
    rw [h j (frameToIndex_eq_some.mp hg).2]
    exact if_congr (eq_comm.trans (index_eq hf hg)) rfl rfl

theorem refcount_setRefcount (hf : fa.frameToIndex f = some i) (n : ℕ) :
    (fa.setRefcount i n).refcount = update fa.refcount f n := by
  refine indexed_update hf fun j hj ↦ ?_
  have hlt := hj.trans_le fa.frameCount_le_refcounts
  rw [setRefcount, getD_eq_getElem?_getD, getElem?_set, getD_eq_getElem?_getD]
  by_cases hij : i = j
  · simp [hij, hlt]
  · simp [hij, Ne.symm hij]

theorem sameRange_setFrameAllocated (fa : FrameAllocator) (i : ℕ) :
    fa.SameRange (fa.setFrameAllocated i) := by
  rw [setFrameAllocated]
  split_ifs <;> exact ⟨rfl, rfl⟩

theorem sameRange_setFrameFree (fa : FrameAllocator) (i : ℕ) :
    fa.SameRange (fa.setFrameFree i) := by
  rw [setFrameFree]
  split_ifs <;> exact ⟨rfl, rfl⟩

theorem div_eight_lt (hf : fa.frameToIndex f = some i) : i / 8 < fa.bitmap.length := by
  have := (frameToIndex_eq_some.mp hf).2
  have := fa.frameCount_le_bitmap
  omega

theorem isFree_setFrameAllocated (hf : fa.frameToIndex f = some i) :
    (fa.setFrameAllocated i).isFree = update fa.isFree f false := by
  rw [setFrameAllocated, if_neg (not_le.mpr (frameToIndex_eq_some.mp hf).2)]
  refine indexed_update hf fun j _ ↦ ?_
  rw [bitAt_setBit (div_eight_lt hf)]
  by_cases hj : j = i <;> simp [hj]

theorem isFree_setFrameFree (hf : fa.frameToIndex f = some i) :
    (fa.setFrameFree i).isFree = update fa.isFree f true := by
  rw [setFrameFree, if_neg (not_le.mpr (frameToIndex_eq_some.mp hf).2)]
  refine indexed_update hf fun j _ ↦ ?_
  rw [bitAt_clearBit (div_eight_lt hf)]
  by_cases hj : j = i <;> simp [hj]

theorem refcount_setFrameFree (fa : FrameAllocator) (i : ℕ) :
    (fa.setFrameFree i).refcount = fa.refcount := by
  rw [setFrameFree]
  split_ifs <;> rfl

theorem refcount_setFrameAllocated (fa : FrameAllocator) (i : ℕ) :
    (fa.setFrameAllocated i).refcount = fa.refcount := by
  rw [setFrameAllocated]
  split_ifs <;> rfl

/-! ### The scan -/

theorem scanBytes_spec {n bi : ℕ} {bytes : List UInt8} (bitmap : List UInt8)
    (hbytes : ∀ k byte, bytes[k]? = some byte → ∀ j < 8, byte.toNat.testBit j = false →
      bitAt bitmap ((bi + k) * 8 + j) = false)
    (h : scanBytes n bi bytes = some i) : i < n ∧ bitAt bitmap i = false := by
  induction bytes generalizing bi with
  | nil => cases h
  | cons byte rest ih =>
    rw [scanBytes] at h
    split_ifs at h with hfound
    · cases h
      have hne : byte.toNat ≠ 2 ^ 8 - 1 := fun heq ↦ hfound.1 (UInt8.toNat_inj.mp heq)
      obtain ⟨hlt, hclear⟩ := trailingOnes_spec byte.toNat_lt hne
      exact ⟨hfound.2, hbytes 0 byte rfl _ hlt hclear⟩
    · refine ih (fun k b hk j hj hb ↦ ?_) h
      have := hbytes (k + 1) b hk j hj hb
      rwa [show bi + 1 + k = bi + (k + 1) by omega]

theorem scanFreeFrom_spec {start : ℕ} (h : fa.scanFreeFrom start = some i) :
    i < fa.frameCount ∧ bitAt fa.bitmap i = false := by
  rw [scanFreeFrom] at h
  split_ifs at h with hge
  refine scanBytes_spec fa.bitmap (fun k byte hk j hj hclear ↦ ?_) h
  cases k with
  | zero =>
    cases hk
    rw [UInt8.toNat_or, Nat.testBit_or, Bool.or_eq_false_iff] at hclear
    rw [bitAt, show (start / 8 + 0) * 8 + j = start / 8 * 8 + j by omega,
      show (start / 8 * 8 + j) / 8 = start / 8 by omega, show (start / 8 * 8 + j) % 8 = j by omega]
    exact hclear.1
  | succ k =>
    rw [getElem?_cons_succ, getElem?_drop, getElem?_take] at hk
    split_ifs at hk
    rw [bitAt, show ((start / 8 + (k + 1)) * 8 + j) / 8 = start / 8 + 1 + k by omega,
      show ((start / 8 + (k + 1)) * 8 + j) % 8 = j by omega, getD_eq_getElem?_getD, hk]
    exact hclear

theorem findFreeFrame_spec (h : fa.findFreeFrame = some i) :
    i < fa.frameCount ∧ bitAt fa.bitmap i = false := by
  rw [findFreeFrame] at h
  split at h
  · rename_i hscan
    cases h
    exact scanFreeFrom_spec hscan
  · split_ifs at h
    exact scanFreeFrom_spec h

/-! ### The operations -/

/-- **Allocation** takes a free frame and gives it one owner. -/
theorem allocateFrame_spec (h : fa.allocateFrame = some (f, fa')) :
    fa.Managed f ∧ fa.isFree f = true ∧ fa.SameRange fa' ∧
      fa'.isFree = update fa.isFree f false ∧
      fa'.refcount = update fa.refcount f 1 := by
  obtain ⟨i, hi, heq⟩ := map_eq_some_iff.mp h
  obtain ⟨hlt, hclear⟩ := findFreeFrame_spec hi
  cases heq
  have hidx : fa.frameToIndex (fa.startFrame + i) = some i := frameToIndex_eq_some.mpr ⟨rfl, hlt⟩
  refine ⟨?_, ?_, ?_, ?_, ?_⟩
  · rw [Managed, hidx]
    rfl
  · rw [isFree, hidx]
    dsimp only
    rw [hclear]
    rfl
  · exact (fa.sameRange_setHint _).trans
      (.trans (sameRange_setFrameAllocated _ i) (sameRange_setRefcount _ i 1))
  · have hhint : (fa.setHint (i + 1)).frameToIndex (fa.startFrame + i) = some i := hidx
    rw [isFree_setRefcount, isFree_setFrameAllocated hhint]
    rfl
  · have hset : ((fa.setHint (i + 1)).setFrameAllocated i).frameToIndex (fa.startFrame + i) =
        some i := by
      rw [(sameRange_setFrameAllocated _ i).frameToIndex]
      exact hidx
    rw [refcount_setRefcount hset, refcount_setFrameAllocated]
    rfl

theorem managed_iff : fa.Managed f ↔ ∃ i, fa.frameToIndex f = some i := isSome_iff_exists

theorem refcount_of_index (hi : fa.frameToIndex f = some i) :
    fa.refcount f = fa.refcounts.getD i 0 := by rw [refcount, hi]

theorem refcount_of_not_managed (h : ¬fa.Managed f) : fa.refcount f = 0 := by
  rw [refcount]
  cases hi : fa.frameToIndex f with
  | none => rfl
  | some i => exact absurd (managed_iff.mpr ⟨i, hi⟩) h

theorem managed_of_isFree (h : fa.isFree f = true) : fa.Managed f := by
  rw [isFree] at h
  split at h
  · rename_i i hi
    exact managed_iff.mpr ⟨i, hi⟩
  · cases h

theorem refcount_changed {φ : ℕ → ℕ} (hnone : fa.frameToIndex f = none → fa' = fa)
    (hsome : ∀ i, fa.frameToIndex f = some i → fa' = fa.setRefcount i (φ (fa.refcounts.getD i 0))) :
    fa.SameRange fa' ∧ fa'.isFree = fa.isFree ∧
      fa'.refcount = if fa.Managed f then update fa.refcount f (φ (fa.refcount f))
        else fa.refcount := by
  cases hi : fa.frameToIndex f with
  | none =>
    rw [hnone hi, if_neg fun h ↦ by rw [Managed, hi] at h; cases h]
    exact ⟨.refl fa, rfl, rfl⟩
  | some i =>
    rw [hsome i hi, if_pos (managed_iff.mpr ⟨i, hi⟩), refcount_setRefcount hi, refcount_of_index hi]
    exact ⟨sameRange_setRefcount fa i _, rfl, rfl⟩

/-- **A new reference.** -/
theorem incRefcount_spec (h : fa.incRefcount f = some fa') :
    fa.SameRange fa' ∧ fa'.isFree = fa.isFree ∧
      fa'.refcount = if fa.Managed f then update fa.refcount f (fa.refcount f + 1)
        else fa.refcount := by
  refine refcount_changed (φ := (· + 1)) (fun hi ↦ ?_) fun i hi ↦ ?_ <;> rw [incRefcount, hi] at h
  · exact (some.inj h).symm
  · dsimp only at h
    split_ifs at h
    exact (some.inj h).symm

/-- **A reference dropped** by `dec_refcount`: the frame stays allocated. -/
theorem decRefcount_spec (h : fa.decRefcount f = some fa') :
    fa.SameRange fa' ∧ fa'.isFree = fa.isFree ∧
      fa'.refcount = if fa.Managed f then update fa.refcount f (fa.refcount f - 1)
        else fa.refcount := by
  refine refcount_changed (φ := (· - 1)) (fun hi ↦ ?_) fun i hi ↦ ?_ <;> rw [decRefcount, hi] at h
  · exact (some.inj h).symm
  · dsimp only at h
    split_ifs at h
    exact (some.inj h).symm

theorem decRefcount_eq_none : fa.decRefcount f = none ↔ fa.Managed f ∧ fa.refcount f = 0 := by
  rw [decRefcount, Managed]
  cases hi : fa.frameToIndex f with
  | none => simp
  | some i =>
    rw [refcount_of_index hi]
    simp

/-- **A reference dropped** by `deallocate_frame`: the last one frees the frame. -/
theorem deallocateFrame_spec (h : fa.deallocateFrame f = some fa') :
    fa.SameRange fa' ∧
      (fa'.isFree = if fa.Managed f ∧ fa.refcount f = 1 then update fa.isFree f true
        else fa.isFree) ∧
      fa'.refcount = if fa.Managed f then update fa.refcount f (fa.refcount f - 1)
        else fa.refcount := by
  rw [deallocateFrame] at h
  cases hi : fa.frameToIndex f with
  | none =>
    have hnot : ¬fa.Managed f := fun h ↦ by
      rw [Managed, hi] at h
      cases h
    rw [hi] at h
    cases h
    exact ⟨.refl fa, by rw [if_neg fun h ↦ hnot h.1], by rw [if_neg hnot]⟩
  | some i =>
    have hman : fa.Managed f := managed_iff.mpr ⟨i, hi⟩
    rw [hi] at h
    dsimp only at h
    rw [← refcount_of_index hi] at h
    split_ifs at h with h0 h1
    · cases h
      refine ⟨sameRange_setRefcount fa i _, ?_, ?_⟩
      · rw [if_neg fun h ↦ h1.ne' h.2, isFree_setRefcount]
      · rw [if_pos hman, refcount_setRefcount hi]
    · cases h
      have hrc : fa.refcount f = 1 := by omega
      have hi' : (fa.setRefcount i 0).frameToIndex f = some i := hi
      refine ⟨.trans (sameRange_setRefcount fa i 0) (sameRange_setFrameFree _ i), ?_, ?_⟩
      · rw [if_pos ⟨hman, hrc⟩, isFree_setFrameFree hi', isFree_setRefcount]
      · rw [if_pos hman, refcount_setFrameFree, refcount_setRefcount hi, hrc]

theorem refcount_of_deallocateFrame_eq_none (h : fa.deallocateFrame f = none) :
    fa.refcount f = 0 := by
  rw [deallocateFrame] at h
  cases hi : fa.frameToIndex f with
  | none => simp [hi] at h
  | some i =>
    rw [hi] at h
    dsimp only at h
    split_ifs at h with h0
    rw [refcount_of_index hi, h0]

end FrameAllocator

/-! ## What a walk takes and gives back -/

/-- `ts` are frames that were free and are now allocated, with one owner each; every frame has one
more reference for each time it is in `ls`. -/
structure Took (fa : FrameAllocator) (ts ls : List ℕ) (fa' : FrameAllocator) : Prop where
  range : fa.SameRange fa'
  nodup : ts.Nodup
  free : ∀ f ∈ ts, fa.isFree f = true
  isFree : ∀ f, fa'.isFree f = (fa.isFree f && f ∉ ts)
  refcount : ∀ f, fa.Managed f →
    fa'.refcount f = if f ∈ ts then 1 else fa.refcount f + ls.count f

/-- `ts` are frames that were allocated, each with one owner, and are now free; every frame has one
reference less for each time it is in `ls`. -/
structure Gave (fa : FrameAllocator) (ts ls : List ℕ) (fa' : FrameAllocator) : Prop where
  range : fa.SameRange fa'
  isFree : ∀ f, fa'.isFree f = (fa.isFree f || f ∈ ts)
  refcount : ∀ f, fa'.refcount f = fa.refcount f - (ts.count f + ls.count f)

variable {fa fa' fa'' : FrameAllocator} {ts ts' ls ls' : List ℕ} {f : ℕ}

namespace Took

theorem refl (fa : FrameAllocator) : Took fa [] [] fa where
  range := .refl fa
  nodup := nodup_nil
  free f hf := absurd hf not_mem_nil
  isFree f := by simp
  refcount f _ := by rw [if_neg not_mem_nil, count_nil, add_zero]

theorem not_mem (h : Took fa ts ls fa') (hf : fa.isFree f = false) : f ∉ ts := fun hts ↦ by
  rw [h.free f hts] at hf
  cases hf

theorem busy (h : Took fa ts ls fa') (hf : fa.isFree f = false) : fa'.isFree f = false := by
  rw [h.isFree, hf, Bool.false_and]

/-- One walk after the other. A frame that the second one refers to must not be one that the first
one allocated. -/
theorem trans (h : Took fa ts ls fa') (h' : Took fa' ts' ls' fa'')
    (hls' : ∀ f ∈ ls', fa.isFree f = false) : Took fa (ts ++ ts') (ls ++ ls') fa'' where
  range := h.range.trans h'.range
  nodup := by
    refine nodup_append.mpr ⟨h.nodup, h'.nodup, fun f hf g hg heq ↦ ?_⟩
    have := h'.free g hg
    rw [h.isFree, ← heq] at this
    simp [hf] at this
  free f hf := by
    rcases mem_append.mp hf with hf | hf
    · exact h.free f hf
    · have := h'.free f hf
      rw [h.isFree, Bool.and_eq_true] at this
      exact this.1
  isFree f := by
    rw [h'.isFree, h.isFree]
    simp [mem_append, Bool.and_assoc]
  refcount f hf := by
    rw [h'.refcount f (h.range.managed.mpr hf), h.refcount f hf]
    by_cases hts' : f ∈ ts'
    · rw [if_pos hts', if_pos (mem_append_right ts hts')]
    · rw [if_neg hts']
      by_cases hts : f ∈ ts
      · have hnot : f ∉ ls' := fun hmem ↦ h.not_mem (hls' f hmem) hts
        rw [if_pos hts, if_pos (mem_append_left ts' hts), count_eq_zero_of_not_mem hnot]
      · rw [if_neg hts, if_neg fun h ↦ (mem_append.mp h).elim hts hts', count_append, add_assoc]

theorem of_allocate (h : fa.allocateFrame = some (f, fa')) : Took fa [f] [] fa' := by
  obtain ⟨hman, hfree, hrange, hisFree, hrc⟩ := FrameAllocator.allocateFrame_spec h
  refine ⟨hrange, nodup_singleton f, fun g hg ↦ ?_, fun g ↦ ?_, fun g _ ↦ ?_⟩
  · rwa [mem_singleton.mp hg]
  · rw [hisFree, update_apply]
    by_cases hg : g = f <;> simp [hg]
  · rw [hrc, update_apply]
    by_cases hg : g = f <;> simp [hg]

theorem of_inc (h : fa.incRefcount f = some fa') : Took fa [] [f] fa' := by
  obtain ⟨hrange, hisFree, hrc⟩ := FrameAllocator.incRefcount_spec h
  refine ⟨hrange, nodup_nil, fun g hg ↦ absurd hg not_mem_nil, fun g ↦ ?_, fun g hg ↦ ?_⟩
  · rw [hisFree]
    simp
  · rw [hrc, if_neg not_mem_nil]
    by_cases heq : g = f
    · subst heq
      rw [if_pos hg, update_self, count_singleton_self]
    · have hcount : [f].count g = 0 := count_eq_zero.mpr fun h ↦ heq (mem_singleton.mp h)
      split_ifs
      · rw [update_of_ne heq, hcount, add_zero]
      · rw [hcount, add_zero]

end Took

namespace Gave

theorem refl (fa : FrameAllocator) : Gave fa [] [] fa where
  range := .refl fa
  isFree f := by simp
  refcount f := by simp

theorem trans (h : Gave fa ts ls fa') (h' : Gave fa' ts' ls' fa'') :
    Gave fa (ts ++ ts') (ls ++ ls') fa'' where
  range := h.range.trans h'.range
  isFree f := by
    rw [h'.isFree, h.isFree]
    simp [mem_append, Bool.or_assoc]
  refcount f := by
    rw [h'.refcount, h.refcount, count_append, count_append]
    omega

theorem exists_dec (h : fa.Managed f → 0 < fa.refcount f) :
    ∃ fa', fa.decRefcount f = some fa' ∧ Gave fa [] [f] fa' := by
  cases hdec : fa.decRefcount f with
  | none =>
    obtain ⟨hman, hzero⟩ := FrameAllocator.decRefcount_eq_none.mp hdec
    exact absurd hzero (h hman).ne'
  | some fa' =>
    obtain ⟨hrange, hisFree, hrc⟩ := FrameAllocator.decRefcount_spec hdec
    refine ⟨fa', rfl, hrange, fun g ↦ by simp [hisFree], fun g ↦ ?_⟩
    rw [hrc, count_nil, zero_add]
    by_cases hg : g = f
    · subst hg
      rw [count_singleton_self]
      split_ifs with hm
      · rw [update_self]
      · rw [FrameAllocator.refcount_of_not_managed hm]
    · rw [count_eq_zero.mpr fun h ↦ hg (mem_singleton.mp h), Nat.sub_zero]
      split_ifs
      · rw [update_of_ne hg]
      · rfl

theorem exists_deallocate (hman : fa.Managed f) (h : fa.refcount f = 1) :
    ∃ fa', fa.deallocateFrame f = some fa' ∧ Gave fa [f] [] fa' := by
  cases hdec : fa.deallocateFrame f with
  | none =>
    have := FrameAllocator.refcount_of_deallocateFrame_eq_none hdec
    omega
  | some fa' =>
    obtain ⟨hrange, hisFree, hrc⟩ := FrameAllocator.deallocateFrame_spec hdec
    refine ⟨fa', rfl, hrange, fun g ↦ ?_, fun g ↦ ?_⟩
    · rw [hisFree, if_pos ⟨hman, h⟩, update_apply]
      by_cases hg : g = f <;> simp [hg]
    · rw [hrc, if_pos hman, count_nil, add_zero, update_apply]
      by_cases hg : g = f
      · simp [hg]
      · rw [if_neg hg, count_eq_zero.mpr fun h ↦ hg (mem_singleton.mp h), Nat.sub_zero]

theorem perm (h : Gave fa ts ls fa') (hts : ts.Perm ts') : Gave fa ts' ls fa' where
  range := h.range
  isFree f := by
    rw [h.isFree]
    simp [hts.mem_iff]
  refcount f := by rw [h.refcount, hts.count_eq]

end Gave

/-- Enough references for the walk: every table has its one owner and is no page, and a frame has at
least one reference for each leaf that maps it. -/
structure Returnable (fa : FrameAllocator) (ts ls : List ℕ) : Prop where
  nodup : ts.Nodup
  managed : ∀ f ∈ ts, fa.Managed f
  owned : ∀ f ∈ ts, fa.refcount f = 1
  apart : ∀ f ∈ ts, f ∉ ls
  counted : ∀ f, fa.Managed f → ls.count f ≤ fa.refcount f

theorem Returnable.rest (h : Returnable fa (ts ++ ts') (ls ++ ls')) (hgave : Gave fa ts ls fa') :
    Returnable fa' ts' ls' := by
  obtain ⟨-, hnodup, hdisj⟩ := nodup_append.mp h.nodup
  have hout {f : ℕ} (hf : f ∈ ts') : f ∉ ts := fun hf' ↦ hdisj f hf' f hf rfl
  refine ⟨hnodup, fun f hf ↦ ?_, fun f hf ↦ ?_, fun f hf hls ↦ ?_, fun f hf ↦ ?_⟩
  · exact hgave.range.managed.mpr (h.managed f (mem_append_right ts hf))
  · have hls : f ∉ ls := fun hls ↦
      h.apart f (mem_append_right ts hf) (mem_append_left ls' hls)
    rw [hgave.refcount, h.owned f (mem_append_right ts hf),
      count_eq_zero_of_not_mem (hout hf), count_eq_zero_of_not_mem hls]
  · exact h.apart f (mem_append_right ts hf) (mem_append_right ls hls)
  · have hcount := h.counted f (hgave.range.managed.mp hf)
    rw [count_append] at hcount
    rw [hgave.refcount]
    by_cases hts : f ∈ ts
    · have hls : f ∉ ls ++ ls' := h.apart f (mem_append_left ts' hts)
      rw [count_eq_zero_of_not_mem fun h ↦ hls (mem_append_right ls h)]
      exact Nat.zero_le _
    · rw [count_eq_zero_of_not_mem hts]
      omega

theorem Returnable.left (h : Returnable fa (ts ++ ts') (ls ++ ls')) : Returnable fa ts ls where
  nodup := (nodup_append.mp h.nodup).1
  managed f hf := h.managed f (mem_append_left ts' hf)
  owned f hf := h.owned f (mem_append_left ts' hf)
  apart f hf hls := h.apart f (mem_append_left ts' hf) (mem_append_left ls' hls)
  counted f hf := by
    have := h.counted f hf
    rw [count_append] at this
    omega

theorem Returnable.perm (h : Returnable fa ts ls) (hts : ts.Perm ts') : Returnable fa ts' ls where
  nodup := hts.nodup_iff.mp h.nodup
  managed f hf := h.managed f (hts.mem_iff.mpr hf)
  owned f hf := h.owned f (hts.mem_iff.mpr hf)
  apart f hf := h.apart f (hts.mem_iff.mpr hf)
  counted := h.counted

end Edos.Memory

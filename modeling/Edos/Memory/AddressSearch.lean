import Edos.Memory.Syscalls

/-!
# The search for the address of a mapping

`VmaSet::reserve` scans the mappings above a floor with a cursor and takes the first gap that holds
the length asked for, rounded to whole pages. The mappings themselves need not be whole pages: an
ELF segment ends where its image ends. `Fits` says what a gap is in terms of pages, and for a range
of whole pages it is the same as being vacant (`vacant_iff_pages`). The scan never passes a gap
(`firstFitFrom_of_vacant`), so what it returns is the lowest one.

The end of the range becomes a `VirtAddr` before the mapping is inserted. The search admits a range
that ends at `USER_VA_END`, as `insert` does, and that address is not canonical
(`reserve_last_page_panics`).
-/

namespace Edos.Memory.VmaSet

open Option

variable {s : VmaSet} {len cursor a found base : ℕ} {l : List Vma}

/-- What a call of `VmaSet::reserve` answers, with the `VirtAddr` that it makes of the end of the
range: `none` is the panic on an address that is not canonical. -/
def reserveChecked (s : VmaSet) (hint length : ℕ) (prot : VmaProt) (flags : VmaFlags)
    (backing : VmaBacking) : Option (Except VmaError ℕ) :=
  match s.reserve hint length prot flags backing with
  | (.error e, _, _) => some (.error e)
  | (.ok start, _, endAddr) => if Canonical endAddr then some (.ok start) else none

/-- The `len` bytes from `a` on start at a page boundary of the user half, end in it, and hold no
page that a mapping has an address in. -/
def Fits (s : VmaSet) (len a : ℕ) : Prop :=
  pageSize ∣ a ∧ a + len ≤ userVaEnd ∧
    ∀ v ∈ s, ∀ x, v.start ≤ x → x < v.endAddr → alignDown x < a ∨ a + len ≤ alignDown x

/-- The mappings are non-empty and inside the user half. -/
def InUserHalf (s : VmaSet) : Prop := ∀ v ∈ s, v.start < v.endAddr ∧ v.endAddr ≤ userVaEnd

/-- **Pages and addresses.** A range of whole pages holds no page of a mapping iff it holds no
address of it. -/
theorem vacant_iff_pages (hs : s.InUserHalf) (ha : pageSize ∣ a) (hd : pageSize ∣ len)
    (hlen : 0 < len) : s.Vacant a (a + len) ↔
      ∀ v ∈ s, ∀ x, v.start ≤ x → x < v.endAddr → alignDown x < a ∨ a + len ≤ alignDown x := by
  obtain ⟨p, rfl⟩ := ha
  obtain ⟨n, rfl⟩ := hd
  simp only [alignDown, pageSize] at hlen ⊢
  refine forall₂_congr fun v hv ↦ ⟨fun h x hle hlt ↦ ?_, fun h ↦ ?_⟩
  · rcases h with h | h <;> omega
  · -- otherwise the range and the mapping share the larger of their first addresses
    have hlt := (hs v hv).1
    by_contra hno
    rw [not_or, not_le, not_le] at hno
    rcases h (max (4096 * p) v.start) (le_max_right _ _) (by omega) with h | h <;> omega

theorem firstFitFrom_le (hl : ∀ v ∈ l, v.start ≤ userVaEnd)
    (h : firstFitFrom len cursor l = some found) : found + len ≤ userVaEnd := by
  induction l generalizing cursor with
  | nil =>
    obtain ⟨e, he, h⟩ := bind_eq_some_iff.mp h
    obtain ⟨rfl, -⟩ := checkedAdd_eq_some.mp he
    split_ifs at h with hle
    cases h
    exact hle
  | cons v vs ih =>
    obtain ⟨e, he, h⟩ := bind_eq_some_iff.mp h
    obtain ⟨rfl, -⟩ := checkedAdd_eq_some.mp he
    split_ifs at h with hgap
    · cases h
      exact hgap.le.trans (hl v List.mem_cons_self)
    · obtain ⟨r, -, h⟩ := bind_eq_some_iff.mp h
      exact ih (fun w hw ↦ hl w (List.mem_cons_of_mem v hw)) h

/-- A boundary at or above an address of the user half is at or above the next boundary. -/
theorem pageRoundUp_le {e : ℕ} (he : e ≤ userVaEnd) (ha : pageSize ∣ a) (hle : e ≤ a) :
    ∃ r ≤ a, pageRoundUp e = some r := by
  obtain ⟨p, rfl⟩ := ha
  have hlt : e + (pageSize - 1) < 2 ^ 64 := by
    simp only [userVaEnd, pageSize] at he ⊢
    omega
  refine ⟨(e + (pageSize - 1)) / pageSize * pageSize, ?_, ?_⟩
  · simp only [pageSize] at hle ⊢
    omega
  · rw [pageRoundUp, checkedAdd_eq_some.mpr ⟨rfl, hlt⟩, Option.map_some]

/-- **The scan passes no gap**: it stops at the first one that the cursor can reach. -/
theorem firstFitFrom_of_vacant (hl : ∀ v ∈ l, v.endAddr ≤ userVaEnd) (ha : pageSize ∣ a)
    (hend : a + len ≤ userVaEnd) (hle : cursor ≤ a)
    (hfree : ∀ v ∈ l, v.endAddr ≤ a ∨ a + len ≤ v.start) :
    ∃ found ≤ a, firstFitFrom len cursor l = some found := by
  have hadd {cursor : ℕ} (hle : cursor ≤ a) : checkedAdd cursor len = some (cursor + len) := by
    refine checkedAdd_eq_some.mpr ⟨rfl, ?_⟩
    simp only [userVaEnd] at hend
    omega
  induction l generalizing cursor with
  | nil =>
    refine ⟨cursor, hle, ?_⟩
    rw [firstFitFrom, hadd hle, bind_some, if_pos (by omega)]
  | cons v vs ih =>
    rw [firstFitFrom, hadd hle, bind_some]
    by_cases hgap : v.start ≥ cursor + len
    · exact ⟨cursor, hle, by rw [if_pos hgap]⟩
    · have hv : v.endAddr ≤ a := (hfree v List.mem_cons_self).resolve_right (by omega)
      obtain ⟨r, hr, hround⟩ := pageRoundUp_le (hl v List.mem_cons_self) ha hv
      rw [if_neg hgap, hround, bind_some]
      exact ih (fun w hw ↦ hl w (List.mem_cons_of_mem v hw)) (max_le hle hr)
        fun w hw ↦ hfree w (List.mem_cons_of_mem v hw)

theorem firstFit_le (hs : s.InUserHalf) (h : s.firstFit base len = some found) :
    found + len ≤ userVaEnd := by
  have hl (v : Vma) (hv : v ∈ s.vmas.toList.filter (base ≤ ·.start)) : v.start ≤ userVaEnd :=
    have hin := hs v (List.mem_filter.mp hv).1
    hin.1.le.trans hin.2
  rw [firstFit] at h
  split at h
  · obtain ⟨r, -, h⟩ := bind_eq_some_iff.mp h
    exact firstFitFrom_le hl h
  · exact firstFitFrom_le hl h

theorem firstFit_of_vacant (hs : s.InUserHalf) (hlen : 0 < len) (ha : pageSize ∣ a)
    (hend : a + len ≤ userVaEnd) (hle : base ≤ a) (hfree : s.Vacant a (a + len)) :
    ∃ found ≤ a, s.firstFit base len = some found := by
  have hscan {cursor : ℕ} (hle : cursor ≤ a) : ∃ found ≤ a,
      firstFitFrom len cursor (s.vmas.toList.filter (base ≤ ·.start)) = some found :=
    firstFitFrom_of_vacant (fun v hv ↦ (hs v (List.mem_filter.mp hv).1).2) ha hend hle
      fun v hv ↦ hfree v (List.mem_filter.mp hv).1
  rw [firstFit]
  cases hfloor : s.vmas.floor base with
  | none => exact hscan hle
  | some prev =>
    obtain ⟨hprev, hstart, -⟩ := OrdMap.floor_eq_some.mp hfloor
    have hend : prev.endAddr ≤ a := (hfree prev hprev).resolve_right (by omega)
    obtain ⟨r, hr, hround⟩ := pageRoundUp_le (hs prev hprev).2 ha hend
    dsimp only
    rw [hround, bind_some]
    exact hscan (max_le hle hr)

/-- **First fit, and complete.** The search returns the lowest address that fits, or nothing if none
does. -/
theorem firstFit_cases (hs : s.Disjoint) (hin : s.InUserHalf) (hd : pageSize ∣ len) (hlen : 0 < len)
    (hbase : pageSize ∣ base) :
    (∃ found, s.firstFit base len = some found ∧ IsLeast {a | base ≤ a ∧ s.Fits len a} found) ∨
      s.firstFit base len = none ∧ ∀ a, base ≤ a → ¬s.Fits len a := by
  have hcomplete {a : ℕ} (hge : base ≤ a) (ha : s.Fits len a) :
      ∃ found ≤ a, s.firstFit base len = some found := by
    obtain ⟨hda, hend, hpages⟩ := ha
    exact firstFit_of_vacant hin hlen hda hend hge ((vacant_iff_pages hin hda hd hlen).mpr hpages)
  cases hfit : s.firstFit base len with
  | none =>
    refine .inr ⟨rfl, fun a hge ha ↦ ?_⟩
    obtain ⟨found, -, h⟩ := hcomplete hge ha
    exact nomatch hfit.symm.trans h
  | some found =>
    obtain ⟨hge, hdf, hfree⟩ := firstFit_spec hs hbase hfit
    have hfits : s.Fits len found :=
      ⟨hdf, firstFit_le hin hfit, (vacant_iff_pages hin hdf hd hlen).mp hfree⟩
    refine .inl ⟨found, rfl, ⟨hge, hfits⟩, fun a ha ↦ ?_⟩
    obtain ⟨found', hle, h⟩ := hcomplete ha.1 ha.2
    cases hfit.symm.trans h
    exact hle

/-- The length in whole pages, however large it is. -/
def wholePages (length : ℕ) : ℕ := (length + (pageSize - 1)) / pageSize * pageSize

/-- The addresses at or above the floor of the search at which the pages of the mapping fit. -/
def Candidates (s : VmaSet) (hint length : ℕ) : Set ℕ :=
  {a | s.searchBase hint ≤ a ∧ s.Fits (wholePages length) a}

variable {hint length : ℕ}

theorem pageRoundUp_of_lt (h : length + (pageSize - 1) < 2 ^ 64) :
    pageRoundUp length = some (wholePages length) := by
  rw [pageRoundUp, checkedAdd_eq_some.mpr ⟨rfl, h⟩, Option.map_some, wholePages]

theorem pageRoundUp_of_le (h : 2 ^ 64 ≤ length + (pageSize - 1)) : pageRoundUp length = none := by
  rw [pageRoundUp, checkedAdd, if_neg h.not_gt, Option.map_none]

/-- A length that cannot be rounded is longer than the user half. -/
theorem not_fits_of_le (h : 2 ^ 64 ≤ length + (pageSize - 1)) : ¬s.Fits (wholePages length) a := by
  rintro ⟨-, hend, -⟩
  simp only [wholePages, pageSize, userVaEnd] at h hend
  omega

/-- **What a call answers**, in terms of the addresses that fit: the lowest one, unless its range
ends where the user half ends. -/
theorem reserveChecked_cases (prot : VmaProt) (flags : VmaFlags) (backing : VmaBacking)
    (hs : s.Disjoint) (hin : s.InUserHalf) (hlength : 0 < length)
    (hround : length + (pageSize - 1) < 2 ^ 64) :
    (∃ found, IsLeast (s.Candidates hint length) found ∧
        s.reserveChecked hint length prot flags backing =
          if found = userVaEnd - wholePages length then none else some (.ok found)) ∨
      (∀ a, a ∉ s.Candidates hint length) ∧
        s.reserveChecked hint length prot flags backing = some (.error .noSpace) := by
  have hpages := pageRoundUp_of_lt hround
  obtain ⟨hle, hd⟩ := pageRoundUp_eq_some hpages
  unfold reserveChecked
  rw [reserve_eq hpages]
  obtain ⟨found, hfit, hleast⟩ | ⟨hfit, hnone⟩ :=
    firstFit_cases hs hin hd (by omega) (s.learnBase hint).mmapBase_aligned
  · change s.firstFit (s.searchBase hint) _ = some found at hfit
    have hend : found + wholePages length ≤ userVaEnd := hleast.1.2.2.1
    have hcanonical : Canonical (found + wholePages length) ↔
        found ≠ userVaEnd - wholePages length := by
      simp only [Canonical, userVaEnd] at hend ⊢
      omega
    refine .inl ⟨found, hleast, ?_⟩
    simp only [hfit, if_pos hend, hcanonical, ne_eq, ite_not]
  · change s.firstFit (s.searchBase hint) _ = none at hfit
    refine .inr ⟨fun a ha ↦ hnone a ha.1 ha.2, ?_⟩
    simp only [hfit]

/-- **`reserve` returns the lowest address that fits**, and reports that there is no space exactly
if there is none, iff the length can be rounded and the lowest range does not end where the user
half ends. -/
theorem reserve_isLeast (hint length : ℕ) (prot : VmaProt) (flags : VmaFlags) (backing : VmaBacking)
    (hs : s.Disjoint) (hin : s.InUserHalf) (hlength : 0 < length) :
    ((∀ start, s.reserveChecked hint length prot flags backing = some (.ok start) ↔
        IsLeast (s.Candidates hint length) start) ∧
      (s.reserveChecked hint length prot flags backing = some (.error .noSpace) ↔
        ∀ a, a ∉ s.Candidates hint length)) ↔
    length + (pageSize - 1) < 2 ^ 64 ∧
      ¬IsLeast (s.Candidates hint length) (userVaEnd - wholePages length) := by
  by_cases hround : length + (pageSize - 1) < 2 ^ 64
  · obtain ⟨found, hleast, hres⟩ | ⟨hnone, hres⟩ :=
      reserveChecked_cases prot flags backing hs hin hlength hround
    · have hmem := hleast.1
      have hunique {start : ℕ} (h : IsLeast (s.Candidates hint length) start) : found = start :=
        le_antisymm (hleast.2 h.1) (h.2 hmem)
      by_cases hlast : found = userVaEnd - wholePages length
      · -- the lowest range ends where the user half ends: the call panics
        rw [if_pos hlast] at hres
        refine iff_of_false (fun h ↦ ?_) fun h ↦ h.2 (hlast ▸ hleast)
        exact nomatch hres.symm.trans ((h.1 found).mpr hleast)
      · rw [if_neg hlast] at hres
        refine iff_of_true ⟨fun start ↦ ⟨fun h ↦ ?_, fun h ↦ ?_⟩, fun h ↦ ?_, fun h ↦ ?_⟩
          ⟨hround, fun h ↦ hlast (hunique h)⟩
        · cases hres.symm.trans h
          exact hleast
        · rw [hres, hunique h]
        · exact nomatch hres.symm.trans h
        · exact absurd hmem (h found)
    · refine iff_of_true ⟨fun start ↦ ⟨fun h ↦ ?_, fun h ↦ ?_⟩, fun _ ↦ hnone, fun _ ↦ hres⟩
        ⟨hround, fun h ↦ hnone _ h.1⟩
      · exact nomatch hres.symm.trans h
      · exact absurd h.1 (hnone start)
  · -- nothing fits, and the answer is another error
    have hres : s.reserveChecked hint length prot flags backing =
        some (.error .outOfUserSpace) := by
      unfold reserveChecked reserve
      simp only [pageRoundUp_of_le (not_lt.mp hround)]
    refine iff_of_false (fun h ↦ ?_) fun h ↦ hround h.1
    exact nomatch hres.symm.trans (h.2.mpr fun a ha ↦ not_fits_of_le (not_lt.mp hround) ha.2)

/-- One mapping of a page and a half from the third page on. -/
def ragged : VmaSet :=
  new.insertValidated ⟨8192, 14336, ⟨true, true, false⟩, ⟨true, false, false, false⟩, .anonymous⟩

/-- Two pages from the second one on do not fit below the mapping; they fit behind its last page. -/
theorem reserve_isLeast_ragged :
    ragged.reserveChecked 4096 5000 ⟨true, true, false⟩ ⟨true, false, false, false⟩ .anonymous =
        some (.ok 16384) ∧
      IsLeast (ragged.Candidates 4096 5000) 16384 := by
  have hmem {v : Vma} (hv : v ∈ ragged) : v.start = 8192 ∧ v.endAddr = 14336 := by
    rcases mem_insertValidated.mp hv with rfl | ⟨hv, -⟩
    · exact ⟨rfl, rfl⟩
    · exact absurd hv List.not_mem_nil
  have hres : ragged.reserveChecked 4096 5000 ⟨true, true, false⟩ ⟨true, false, false, false⟩
      .anonymous = some (.ok 16384) := by decide +kernel
  refine ⟨hres, (((reserve_isLeast 4096 5000 ⟨true, true, false⟩ ⟨true, false, false, false⟩
    .anonymous (fun v hv w hw hlt ↦ ?_) (fun v hv ↦ ?_) (by decide)).mpr
    ⟨by decide, ?_⟩).1 _).mp hres⟩
  · rw [(hmem hv).1, (hmem hw).1] at hlt
    exact absurd hlt (lt_irrefl _)
  · rw [(hmem hv).1, (hmem hv).2]
    decide
  · intro hleast
    have hfits : ragged.Fits 8192 16384 := by
      refine ⟨by decide, by decide, fun v hv x hle hlt ↦ ?_⟩
      rw [(hmem hv).2] at hlt
      simp only [alignDown, pageSize]
      omega
    exact absurd (hleast.2 ⟨by decide, hfits⟩) (by decide)

/-- **The last page.** In an empty address space the search finds the range from its base to the end
of the user half, and the call panics; a length that cannot be rounded is out of the user space, not
without space. -/
theorem reserve_last_page_panics :
    IsLeast (new.Candidates 4096 (userVaEnd - 4096)) 4096 ∧
      new.reserveChecked 4096 (userVaEnd - 4096) ⟨true, true, false⟩ ⟨true, false, false, false⟩
        .anonymous = none ∧
      new.reserveChecked 4096 (2 ^ 64 - 1) ⟨true, true, false⟩ ⟨true, false, false, false⟩
        .anonymous = some (.error .outOfUserSpace) := by
  refine ⟨⟨⟨by decide, by decide, by decide, fun v hv ↦ absurd hv List.not_mem_nil⟩,
    fun a ha ↦ ?_⟩, by decide +kernel, by decide +kernel⟩
  exact le_trans (by decide) ha.1

end Edos.Memory.VmaSet

import Edos.Memory.Effects

/-!
# The shootdown of a truncation

`invalidate_mappings_above` takes the pages behind the new end of a file out of every table that
maps them, and tells the other processors afterwards, with one range for each mapping: the first
page behind the end and the number of pages that were present. `shootVma` is that part of the pass
over a mapping, and the tables it leaves are those of `invalidateVmas` (`invalidateVmas_table`).

The pages that were present need not be the first ones. A page is shot down iff a range of some
mapping reaches it, in whatever process (`truncate_shoots_down_iff`), as is the case where no page
is missing before one that is present (`Vma.NoHole.reaches`); behind a hole it may stay in the other
processors' buffers (`sparse_page_not_shot_down`).
-/

namespace Edos.Memory

open List Option Sys

/-- The pages of a mapping that lie behind the new end of a file: the first, and how many. -/
def Vma.behind (inode newSize : ℕ) (v : Vma) : ℕ × ℕ :=
  match v.backing with
  | .fileBacked ino fileOffset _ _ _ =>
    let first := firstInvalidSlot fileOffset newSize
    if ino = inode then (v.start / pageSize + first, v.size / pageSize - first) else (0, 0)
  | _ => (0, 0)

/-- What `invalidate_mappings_above` does with a mapping: the range for the shootdown (the first
page, and the number of entries it took out), if there is one, and the table. -/
def shootVma (inode newSize : ℕ) (v : Vma) (t : Node 4) : List (ℕ × ℕ) × Node 4 :=
  let (first, count) := v.behind inode newSize
  let (frames, t) := unmapPages (pageRange first count) t
  (if frames.length > 0 then [(first, frames.length)] else [], t)

/-- The pass over the mappings of a process. -/
def shootVmas (inode newSize : ℕ) : List Vma → Node 4 → List (ℕ × ℕ) × Node 4
  | [], t => ([], t)
  | v :: vs, t =>
    let (range, t) := shootVma inode newSize v t
    let (ranges, t) := shootVmas inode newSize vs t
    (range ++ ranges, t)

/-- The ranges that `invalidate_mappings_above` passes to `tlb_shootdown`. -/
def shootdownRanges (inode newSize : ℕ) (procs : List Process) : List (ℕ × ℕ) :=
  procs.flatMap fun p ↦ (shootVmas inode newSize p.vmas.vmas.toList p.table).1

/-- The page has an entry. -/
def Present (t : Node 4) (page : ℕ) : Prop := (translate 3 t page).isSome = true

/-- The pages of a mapping behind the new end. -/
def Vma.pagesBehind (inode newSize : ℕ) (v : Vma) : List ℕ :=
  pageRange (v.behind inode newSize).1 (v.behind inode newSize).2

/-- How many of them are present. -/
def Vma.presentBehind (inode newSize : ℕ) (t : Node 4) (v : Vma) : ℕ :=
  (v.pagesBehind inode newSize).countP fun page ↦ (translate 3 t page).isSome

/-- As many pages as are present behind the new end, counted from the first one behind it, take in
the page. -/
def Vma.Reaches (inode newSize : ℕ) (t : Node 4) (v : Vma) (page : ℕ) : Prop :=
  (v.behind inode newSize).1 ≤ page ∧
    page < (v.behind inode newSize).1 + v.presentBehind inode newSize t

/-- In the pages behind the new end, none is missing before one that is present. -/
def Vma.NoHole (inode newSize : ℕ) (t : Node 4) (v : Vma) : Prop :=
  ∀ i j, (v.behind inode newSize).1 ≤ i → i < j →
    j < (v.behind inode newSize).1 + (v.behind inode newSize).2 → Present t j → Present t i

/-! ## Pages are taken out -/

variable {t : Node 4} {inode newSize a n p q : ℕ} {v : Vma} {vs : List Vma}

theorem unmapPages_of_present (hp : Present t p) (ps : List ℕ) :
    (unmapPages (p :: ps) t).1.length = (unmapPages ps (setLeaf 3 t p none)).1.length + 1 ∧
      (unmapPages (p :: ps) t).2 = (unmapPages ps (setLeaf 3 t p none)).2 := by
  obtain ⟨e, he⟩ := isSome_iff_exists.mp hp
  simp [unmapPages, he]

theorem unmapPages_of_absent (hp : ¬Present t p) (ps : List ℕ) :
    unmapPages (p :: ps) t = unmapPages ps t := by
  simp [unmapPages, Option.not_isSome_iff_eq_none.mp hp]

theorem translate_setLeaf_none (hp : Present t p) (hlt : p < 512 ^ 4) (hq : q < 512 ^ 4) :
    translate 3 (setLeaf 3 t p none) q = if q = p then none else translate 3 t q := by
  have hpath : SamePath 3 q p ↔ q = p := by
    rw [SamePath, Nat.mod_eq_of_lt hlt, Nat.mod_eq_of_lt hq]
  rw [translate_setLeaf none hp, if_congr hpath rfl rfl]

/-- **What is left** after pages were taken out. -/
theorem translate_unmapPages {ps : List ℕ} (hps : ∀ p ∈ ps, p < 512 ^ 4) (hq : q < 512 ^ 4) :
    translate 3 (unmapPages ps t).2 q = if q ∈ ps then none else translate 3 t q := by
  induction ps generalizing t with
  | nil => simp [unmapPages]
  | cons p ps ih =>
    have ih {t : Node 4} := ih (t := t) fun p hp ↦ hps p (mem_cons_of_mem _ hp)
    by_cases hp : Present t p
    · rw [(unmapPages_of_present hp ps).2, ih, translate_setLeaf_none hp (hps p mem_cons_self) hq]
      by_cases hqp : q = p <;> simp [hqp]
    · rw [unmapPages_of_absent hp, ih]
      by_cases hqp : q = p
      · simp [hqp, Option.not_isSome_iff_eq_none.mp hp]
      · simp [hqp]

/-- As many pages are taken out as were present. -/
theorem length_unmapPages {ps : List ℕ} (hnodup : ps.Nodup) (hps : ∀ p ∈ ps, p < 512 ^ 4) :
    (unmapPages ps t).1.length = ps.countP fun page ↦ (translate 3 t page).isSome := by
  induction ps generalizing t with
  | nil => rfl
  | cons p ps ih =>
    obtain ⟨hnot, hnodup⟩ := nodup_cons.mp hnodup
    have ih {t : Node 4} := ih (t := t) hnodup fun p hp ↦ hps p (mem_cons_of_mem _ hp)
    by_cases hp : Present t p
    · rw [(unmapPages_of_present hp ps).1, ih, countP_cons,
        if_pos (show (translate 3 t p).isSome = true from hp)]
      congr 1
      refine countP_congr fun q hq ↦ ?_
      rw [translate_setLeaf_none hp (hps p mem_cons_self) (hps q (mem_cons_of_mem _ hq)),
        if_neg (ne_of_mem_of_not_mem hq hnot)]
    · rw [unmapPages_of_absent hp, ih, countP_cons,
        if_neg (show ¬(translate 3 t p).isSome = true from hp), add_zero]

/-! ## The passes -/

/-- Whole pages of the user half. -/
def Vma.Pages (v : Vma) : Prop :=
  v.start ≤ v.endAddr ∧ pageSize ∣ v.start ∧ v.endAddr ≤ userVaEnd

theorem Vma.pagesBehind_le (hv : v.Pages) (hp : p ∈ v.pagesBehind inode newSize) :
    v.start ≤ p * pageSize ∧ p * pageSize < v.endAddr := by
  obtain ⟨hle, ⟨k, hk⟩, -⟩ := hv
  rw [pagesBehind, pageRange, mem_range'_1] at hp
  revert hp
  rw [behind]
  split
  · dsimp only
    split_ifs
    · rw [Vma.size, hk]
      simp only [pageSize]
      omega
    · omega
  · omega

theorem Vma.pagesBehind_lt (hv : v.Pages) (hp : p ∈ v.pagesBehind inode newSize) : p < 512 ^ 4 := by
  have hlt := (pagesBehind_le hv hp).2.trans_le hv.2.2
  simp only [pageSize, userVaEnd] at hlt
  omega

/-- Mappings that lie one behind the other have no slot in common. -/
theorem Vma.not_mem_pagesBehind {w : Vma} (hv : v.Pages) (hw : w.Pages) (hle : v.endAddr ≤ w.start)
    (hq : q ∈ w.pagesBehind inode newSize) : q ∉ v.pagesBehind inode newSize := by
  intro hmem
  have hbefore := (pagesBehind_le hv hmem).2
  have hbehind := (pagesBehind_le hw hq).1
  omega

/-- The range of a mapping is that of its present slots. -/
theorem shootVma_ranges (hv : v.Pages) : (shootVma inode newSize v t).1 =
    if 0 < v.presentBehind inode newSize t then
      [((v.behind inode newSize).1, v.presentBehind inode newSize t)] else [] := by
  have hlen : (unmapPages (v.pagesBehind inode newSize) t).1.length
      = v.presentBehind inode newSize t :=
    length_unmapPages nodup_range' fun _ ↦ Vma.pagesBehind_lt hv
  rw [← hlen]
  rfl

theorem translate_shootVma (hv : v.Pages) (hq : q < 512 ^ 4) :
    translate 3 (shootVma inode newSize v t).2 q =
      if q ∈ v.pagesBehind inode newSize then none else translate 3 t q :=
  translate_unmapPages (fun _ ↦ Vma.pagesBehind_lt hv) hq

/-- **What is left** after the pass. -/
theorem translate_shootVmas (hvs : ∀ v ∈ vs, v.Pages) (hq : q < 512 ^ 4) :
    translate 3 (shootVmas inode newSize vs t).2 q =
      if ∃ v ∈ vs, q ∈ v.pagesBehind inode newSize then none else translate 3 t q := by
  induction vs generalizing t with
  | nil => simp [shootVmas]
  | cons v vs ih =>
    obtain ⟨hv, hvs⟩ := forall_mem_cons.mp hvs
    rw [shootVmas, ih hvs, translate_shootVma hv hq]
    by_cases hmem : q ∈ v.pagesBehind inode newSize <;> simp [hmem]

/-- **The ranges of a process.** A mapping that comes later loses no page to an earlier one, so its
range is by the table before the pass. -/
theorem reaches_of_shootVmas (hdisjoint : vs.Pairwise fun v w ↦ v.endAddr ≤ w.start)
    (hvs : ∀ v ∈ vs, v.Pages) :
    (∃ r ∈ (shootVmas inode newSize vs t).1, r.1 ≤ q ∧ q < r.1 + r.2) ↔
      ∃ v ∈ vs, v.Reaches inode newSize t q := by
  induction vs generalizing t with
  | nil => simp [shootVmas]
  | cons v vs ih =>
    obtain ⟨hfirst, hrest⟩ := pairwise_cons.mp hdisjoint
    obtain ⟨hv, hvs⟩ := forall_mem_cons.mp hvs
    have hkept (w : Vma) (hw : w ∈ vs) :
        w.presentBehind inode newSize (shootVma inode newSize v t).2 =
          w.presentBehind inode newSize t := by
      refine countP_congr fun page hpage ↦ ?_
      rw [translate_shootVma hv (Vma.pagesBehind_lt (hvs w hw) hpage),
        if_neg (Vma.not_mem_pagesBehind hv (hvs w hw) (hfirst w hw) hpage)]
    have hlater : (∃ w ∈ vs, w.Reaches inode newSize (shootVma inode newSize v t).2 q) ↔
        ∃ w ∈ vs, w.Reaches inode newSize t q := by
      refine exists_congr fun w ↦ and_congr_right fun hw ↦ ?_
      rw [Vma.Reaches, hkept w hw, Vma.Reaches]
    have hhere : (∃ r ∈ (shootVma inode newSize v t).1, r.1 ≤ q ∧ q < r.1 + r.2) ↔
        v.Reaches inode newSize t q := by
      rw [shootVma_ranges hv, Vma.Reaches]
      split_ifs with hpos
      · simp
      · simp
        omega
    rw [exists_mem_cons_iff, ← hhere, ← hlater, ← ih hrest hvs, shootVmas]
    simp only [mem_append, or_and_right, exists_or]

/-- Where no page is missing before one that is present, the range reaches every page that is. -/
theorem Vma.NoHole.reaches (h : v.NoHole inode newSize t) (hq : q ∈ v.pagesBehind inode newSize)
    (hp : Present t q) : v.Reaches inode newSize t q := by
  obtain ⟨hle, hlt⟩ := mem_range'_1.mp hq
  refine ⟨hle, ?_⟩
  have hsub : range' (v.behind inode newSize).1 (q + 1 - (v.behind inode newSize).1) <+
      v.pagesBehind inode newSize := by
    rw [pagesBehind, pageRange]
    exact range'_sublist_right.mpr (by omega)
  have hcount := hsub.countP_le (p := fun page ↦ (translate 3 t page).isSome)
  rw [countP_eq_length.mpr, length_range'] at hcount
  · rw [presentBehind]
    omega
  · intro i hi
    obtain ⟨hi, hiq⟩ := mem_range'_1.mp hi
    rcases eq_or_lt_of_le (show i ≤ q by omega) with rfl | hiq
    · exact hp
    · exact h i q hi hiq hlt hp

theorem unmapPages_cons (ps : List ℕ) :
    (unmapPages (p :: ps) t).2 = (unmapPages ps (unmapPages [p] t).2).2 := by
  by_cases hp : Present t p
  · rw [(unmapPages_of_present hp ps).2, (unmapPages_of_present hp []).2, unmapPages]
  · rw [unmapPages_of_absent hp, unmapPages_of_absent hp, unmapPages]

theorem invalidateSlots_table {s : Task} (slots : List ℕ) :
    Ends (invalidateSlots v slots) s fun r t ↦ r = .ok ⟨⟩ →
      t.proc.table = (unmapPages (slots.map (v.start / pageSize + ·)) s.proc.table).2 := by
  induction slots generalizing s with
  | nil => exact ends_pure fun _ ↦ rfl
  | cons slot slots ih =>
    have hrelease : Ends (releasePages FrameAllocator.decRefcount [v.start / pageSize + slot]) s
        fun r t ↦ r = .ok ⟨⟩ →
          t.proc.table = (unmapPages [v.start / pageSize + slot] s.proc.table).2 :=
      ends_gets (ends_modify (ends_orPanic fun _ _ ↦ ends_modify (ends_pure fun _ ↦ rfl)))
    refine hrelease.bind (fun _ _ _ ↦ nofun) fun _ t ht ↦ ?_
    refine ends_gets (ends_orPanic fun w _ ↦ ends_modify ?_)
    rw [map_cons, unmapPages_cons, ← ht rfl]
    exact ih

/-- **The tables** are those that the pass of a truncation leaves. -/
theorem invalidateVmas_table {s : Task} :
    Ends (invalidateVmas inode newSize vs) s fun r t ↦ r = .ok ⟨⟩ →
      t.proc.table = (shootVmas inode newSize vs s.proc.table).2 := by
  induction vs generalizing s with
  | nil => exact ends_pure fun _ ↦ rfl
  | cons v vs ih =>
    have hvma : Ends (invalidateVma inode newSize v) s fun r t ↦ r = .ok ⟨⟩ →
        t.proc.table = (unmapPages (pageRange (v.behind inode newSize).1 (v.behind inode newSize).2)
          s.proc.table).2 := by
      rw [invalidateVma, Vma.behind]
      cases v.backing with
      | fileBacked ino fileOffset _ _ _ =>
        dsimp only
        by_cases hino : ino = inode
        · rw [if_pos hino]
          split_ifs with h
          · refine (invalidateSlots_table _).bind (by rintro _ _ _ ⟨⟩) fun _ t ht ↦ ?_
            rw [map_add_range'] at ht
            rintro r t ⟨⟩ - -
            exact ht rfl
          · rw [Nat.sub_eq_zero_of_le (not_lt.mp fun hlt ↦ h ⟨hino, hlt⟩)]
            exact ends_pure fun _ ↦ rfl
        · rw [if_neg fun h ↦ hino h.1, if_neg hino]
          exact ends_pure fun _ ↦ rfl
      | _ => exact ends_pure fun _ ↦ rfl
    refine hvma.bind (by rintro _ _ _ ⟨⟩) fun _ t ht ↦ ?_
    have ih := ih (s := t)
    rw [ht rfl] at ih
    exact ih

/-- **What is left** after a truncation: the pages behind the new end in a mapping of the file have
no entry, and every other page has the entry it had. -/
theorem truncate_unmaps_exactly {s : Task} (hvs : ∀ v ∈ vs, v.Pages) (hq : q < 512 ^ 4) :
    Ends (invalidateVmas inode newSize vs) s fun r t ↦ r = .ok ⟨⟩ →
      translate 3 t.proc.table q =
        if ∃ v ∈ vs, q ∈ v.pagesBehind inode newSize then none else translate 3 s.proc.table q := by
  intro r t hrun hpanic hr
  rw [invalidateVmas_table r t hrun hpanic hr]
  exact translate_shootVmas hvs hq

/-- **Every page that a truncation unmaps is shot down** iff every page that is present behind the
new end is reached by the range of a mapping, be it that of another process. -/
theorem truncate_shoots_down_iff {procs : List Process} (hprocs : ∀ p ∈ procs, p.vmas.Tidy)
    (huser : ∀ p ∈ procs, ∀ v ∈ p.vmas, v.endAddr ≤ userVaEnd) :
    (∀ p ∈ procs, ∀ page < 512 ^ 4, Present p.table page →
        ¬Present (shootVmas inode newSize p.vmas.vmas.toList p.table).2 page →
        ∃ r ∈ shootdownRanges inode newSize procs, r.1 ≤ page ∧ page < r.1 + r.2) ↔
      ∀ p ∈ procs, ∀ v ∈ p.vmas, ∀ page ∈ v.pagesBehind inode newSize, Present p.table page →
        ∃ p' ∈ procs, ∃ w ∈ p'.vmas, w.Reaches inode newSize p'.table page := by
  have hdisjoint (p : Process) (hp : p ∈ procs) :
      p.vmas.vmas.toList.Pairwise fun v w ↦ v.endAddr ≤ w.start :=
    p.vmas.vmas.sorted.imp_of_mem fun hv hw hlt ↦ (hprocs p hp).disjoint _ hv _ hw hlt
  have hpages (p : Process) (hp : p ∈ procs) (v : Vma) (hv : v ∈ p.vmas.vmas.toList) : v.Pages :=
    have haligned := (hprocs p hp).aligned v hv
    ⟨haligned.1, haligned.2.1, huser p hp v hv⟩
  have hreached (page : ℕ) :
      (∃ r ∈ shootdownRanges inode newSize procs, r.1 ≤ page ∧ page < r.1 + r.2) ↔
        ∃ p ∈ procs, ∃ w ∈ p.vmas, w.Reaches inode newSize p.table page := by
    simp only [shootdownRanges, mem_flatMap]
    constructor
    · rintro ⟨r, ⟨p, hp, hr⟩, hin⟩
      exact ⟨p, hp, (reaches_of_shootVmas (hdisjoint p hp) (hpages p hp)).mp ⟨r, hr, hin⟩⟩
    · rintro ⟨p, hp, hw⟩
      obtain ⟨r, hr, hin⟩ := (reaches_of_shootVmas (hdisjoint p hp) (hpages p hp)).mpr hw
      exact ⟨r, ⟨p, hp, hr⟩, hin⟩
  simp only [hreached]
  refine forall₂_congr fun p hp ↦
    ⟨fun h v hv page hpage hpresent ↦ ?_, fun h page hlt hpresent ↦ ?_⟩
  · have hlt := Vma.pagesBehind_lt (hpages p hp v hv) hpage
    refine h page hlt hpresent ?_
    rw [Present, translate_shootVmas (hpages p hp) hlt, if_pos ⟨v, hv, hpage⟩]
    exact Bool.false_ne_true
  · rw [Present, translate_shootVmas (hpages p hp) hlt]
    split_ifs with hgone
    · obtain ⟨v, hv, hpage⟩ := hgone
      exact fun _ ↦ h v hv page hpage hpresent
    · exact fun hno ↦ absurd hpresent hno

/-- A process that maps three pages of the file `7`, of which some are present. -/
def threePages (present : List ℕ) : Process where
  pid := 1
  vmas := VmaSet.new.insertValidated ⟨0x400000, 0x403000, ⟨true, true, false⟩,
    ⟨false, true, false, false⟩, .fileBacked 7 0 true true [none, none, none]⟩
  nextMmapAddr := 0x10000000
  root := 0
  table := present.foldl (fun t p ↦ (mapPage 3 t p (9, ⟨true, true, true, false, false⟩)
    oneProcess.world.frames).2.1) (emptyTable 3)
  reloc := none
  tls := none
  stackTop := 0x7ff000000000
  fds := fun _ ↦ none

/-- The first page lies before the new end and keeps its entry, the second one goes. -/
theorem truncate_keeps_first_page :
    let r := invalidateVmas 7 0x1000 (threePages [0x400, 0x401]).vmas.vmas.toList
      ⟨{ oneProcess.world with frames := oneProcess.world.frames.setRefcount 9 1 },
        threePages [0x400, 0x401]⟩
    r.1 = .ok ⟨⟩ ∧
      translate 3 r.2.proc.table 0x400 = some (9, ⟨true, true, true, false, false⟩) ∧
      translate 3 r.2.proc.table 0x401 = none := by
  intro r
  have hok : r.1 = .ok ⟨⟩ := by decide +kernel
  have hleft {q : ℕ} (hq : q < 512 ^ 4) := truncate_unmaps_exactly (by
    unfold Vma.Pages
    decide) hq r.1 r.2 rfl (by rw [hok]; nofun) hok
  rw [hleft (by decide), hleft (by decide)]
  exact ⟨hok, by decide +kernel, by decide +kernel⟩

theorem truncate_shoots_down_two :
    ∃ r ∈ shootdownRanges 7 0 [threePages [0x400, 0x401]], r.1 ≤ 0x401 ∧ 0x401 < r.1 + r.2 := by
  have hmem {p : Process} (hp : p ∈ [threePages [0x400, 0x401]]) {v : Vma} (hv : v ∈ p.vmas) :
      p.table = (threePages [0x400, 0x401]).table ∧ v.start = 0x400000 ∧ v.endAddr = 0x403000 ∧
        v.behind 7 0 = (0x400, 3) := by
    rw [mem_singleton.mp hp] at hv ⊢
    rcases VmaSet.mem_insertValidated.mp hv with rfl | ⟨hv, -⟩
    · exact ⟨rfl, rfl, rfl, by decide +kernel⟩
    · exact absurd hv not_mem_nil
  refine (truncate_shoots_down_iff (fun p hp ↦ ⟨fun v hv ↦ ?_, fun v hv w hw hlt ↦ ?_⟩)
    fun p hp v hv ↦ ?_).mpr (fun p hp v hv page hpage hpresent ↦
      ⟨p, hp, v, hv, Vma.NoHole.reaches (fun i j hi hij hj hpj ↦ ?_) hpage hpresent⟩) _
    mem_cons_self 0x401 (by decide) (by unfold Present; decide +kernel)
    (by unfold Present; decide +kernel)
  · rw [(hmem hp hv).2.1, (hmem hp hv).2.2.1]
    decide
  · rw [(hmem hp hv).2.1, (hmem hp hw).2.1] at hlt
    exact absurd hlt (lt_irrefl _)
  · rw [(hmem hp hv).2.2.1]
    decide
  · rw [(hmem hp hv).2.2.2] at hi hj
    rw [(hmem hp hv).1] at hpj ⊢
    have hpresent : ∀ j < 3, Present (threePages [0x400, 0x401]).table (0x400 + j) →
        ∀ i < j, Present (threePages [0x400, 0x401]).table (0x400 + i) := by
      unfold Present
      decide +kernel
    obtain ⟨i, rfl⟩ := Nat.exists_eq_add_of_le hi
    obtain ⟨j, rfl⟩ := Nat.exists_eq_add_of_le (hi.trans hij.le)
    exact hpresent j (by omega) hpj i (by omega)

/-- **A page behind a hole is not shot down.** Only the third page is present. A truncation to
nothing takes it out, and the one range it passes on is the first page. -/
theorem sparse_page_not_shot_down :
    Present (threePages [0x402]).table 0x402 ∧
      ¬Present (shootVmas 7 0 (threePages [0x402]).vmas.vmas.toList (threePages [0x402]).table).2
        0x402 ∧
      shootdownRanges 7 0 [threePages [0x402]] = [(0x400, 1)] := by
  unfold Present
  decide +kernel

end Edos.Memory

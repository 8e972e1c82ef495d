import Edos.Lib.OrdMap
import Mathlib.Algebra.Ring.Nat

/-!
# The mappings of an address space

A process's address space is described by a set of mappings (`Vma`), kept in the order of their
start addresses and keyed by nothing else. The operations are those of the kernel's `VmaSet`:
lookup, insert, split at a page boundary, removal of a range, and the first-fit search that picks
the address of a new mapping.

Nothing in the set itself keeps two mappings apart. `Tidy` says that they are whole pages and do not
overlap; every operation keeps it, except that `insert` has to be given a range that is `Vacant`.
The search returns such a range.
-/

namespace Edos.Memory

open Option

def pageSize : ℕ := 4096

/-- `USER_VA_END`: the user half of the address space ends here. -/
def userVaEnd : ℕ := 0x0000800000000000

def checkedAdd (a b : ℕ) : Option ℕ := if a + b < 2 ^ 64 then some (a + b) else none

/-- `page_round_up`: the next page boundary, or nothing if that wraps. -/
def pageRoundUp (addr : ℕ) : Option ℕ :=
  (checkedAdd addr (pageSize - 1)).map fun a ↦ a / pageSize * pageSize

/-- `align_down(4096)`. -/
def alignDown (addr : ℕ) : ℕ := addr / pageSize * pageSize

structure VmaProt where
  read : Bool
  write : Bool
  exec : Bool
  deriving DecidableEq, Repr

structure VmaFlags where
  isPrivate : Bool
  shared : Bool
  growsdown : Bool
  lazy : Bool
  deriving DecidableEq, Repr

/-- `VmaBacking`. A file is named by the number of its inode, and an entry of `pages` by the number
of the cached page it holds. -/
inductive VmaBacking where
  | anonymous
  | physical (physBase : ℕ)
  | sharedMemory (shmId : ℕ)
  | tls
  | stack
  | fileBacked (inode fileOffset : ℕ) (shared writableMapping : Bool) (pages : List (Option ℕ))
  deriving DecidableEq, Repr

/-- `Vma`: the addresses `[start, endAddr)`. -/
structure Vma where
  start : ℕ
  endAddr : ℕ
  prot : VmaProt
  flags : VmaFlags
  backing : VmaBacking
  deriving DecidableEq, Repr

namespace Vma

def contains (v : Vma) (addr : ℕ) : Bool := v.start ≤ addr ∧ addr < v.endAddr

def size (v : Vma) : ℕ := v.endAddr - v.start

theorem contains_iff {v : Vma} {addr : ℕ} :
    v.contains addr = true ↔ v.start ≤ addr ∧ addr < v.endAddr := by
  rw [contains, decide_eq_true_eq]

/-- What is left below a boundary inside the mapping. -/
def head (v : Vma) (addr : ℕ) : Vma :=
  { v with
    endAddr := addr
    backing := match v.backing with
      | .fileBacked inode fileOffset shared writable pages =>
        .fileBacked inode fileOffset shared writable (pages.take ((addr - v.start) / pageSize))
      | other => other }

/-- What starts at a boundary inside the mapping. -/
def tail (v : Vma) (addr : ℕ) : Vma :=
  { v with
    start := addr
    backing := match v.backing with
      | .fileBacked inode fileOffset shared writable pages =>
        .fileBacked inode (fileOffset + (addr - v.start)) shared writable
          (pages.drop ((addr - v.start) / pageSize))
      | other => other }

@[simp] theorem tail_start (v : Vma) (a : ℕ) : (v.tail a).start = a := rfl

/-- A page boundary inside the mapping. -/
def Straddles (v : Vma) (a : ℕ) : Prop := v.start < a ∧ a < v.endAddr

instance (v : Vma) (a : ℕ) : Decidable (v.Straddles a) := inferInstanceAs (Decidable (_ ∧ _))

end Vma

/-- What a mapping shows, whatever part of it: all but the place in the file and the pages held. -/
def VmaBacking.source : VmaBacking → VmaBacking
  | .fileBacked inode _ shared writable _ => .fileBacked inode 0 shared writable []
  | other => other

/-- A part of a mapping, whatever its protection. -/
structure Vma.Part (w v : Vma) : Prop where
  start_le : v.start ≤ w.start
  le_endAddr : w.endAddr ≤ v.endAddr
  flags : w.flags = v.flags
  source : w.backing.source = v.backing.source

/-- A part of a mapping, with its protection. -/
structure Vma.Piece (w v : Vma) : Prop extends w.Part v where
  prot : w.prot = v.prot

namespace Vma

theorem Part.refl (v : Vma) : v.Part v := ⟨le_rfl, le_rfl, rfl, rfl⟩

theorem Part.trans {u v w : Vma} (h : u.Part v) (h' : v.Part w) : u.Part w :=
  ⟨h'.start_le.trans h.start_le, h.le_endAddr.trans h'.le_endAddr,
    h.flags.trans h'.flags, h.source.trans h'.source⟩

theorem Piece.refl (v : Vma) : v.Piece v := ⟨.refl v, rfl⟩

theorem Piece.trans {u v w : Vma} (h : u.Piece v) (h' : v.Piece w) : u.Piece w :=
  ⟨h.toPart.trans h'.toPart, h.prot.trans h'.prot⟩

theorem piece_head {v : Vma} {a : ℕ} (h : v.Straddles a) : (v.head a).Piece v := by
  refine ⟨⟨le_rfl, h.2.le, rfl, ?_⟩, rfl⟩
  rw [head]
  cases v.backing <;> rfl

theorem piece_tail {v : Vma} {a : ℕ} (h : v.Straddles a) : (v.tail a).Piece v := by
  refine ⟨⟨h.1.le, le_rfl, rfl, ?_⟩, rfl⟩
  rw [tail]
  cases v.backing <;> rfl

end Vma

inductive VmaError where
  | outOfUserSpace
  | noSpace
  deriving DecidableEq, Repr

/-- `VmaSet`. The search for a free range starts at `mmapBase`, which is a page boundary, and zero
until the first search. -/
structure VmaSet where
  vmas : OrdMap Vma Vma.start
  mmapBase : ℕ
  mmapBase_aligned : pageSize ∣ mmapBase
  deriving DecidableEq

namespace VmaSet

instance : Membership Vma VmaSet := ⟨fun s v ↦ v ∈ s.vmas⟩

theorem mem_vmas {s : VmaSet} {v : Vma} : v ∈ s.vmas ↔ v ∈ s := Iff.rfl

def new : VmaSet := ⟨OrdMap.empty, 0, ⟨0, rfl⟩⟩

def find (s : VmaSet) (addr : ℕ) : Option Vma := (s.vmas.floor addr).filter (·.contains addr)

/-- `VmaSet::find_mut`, and a change to what it finds that keeps the start address. -/
def findMut (s : VmaSet) (addr : ℕ) (change : Vma → Vma) : VmaSet :=
  match s.find addr with
  | some v => { s with vmas := s.vmas.insert (change v) }
  | none => s

def insertValidated (s : VmaSet) (v : Vma) : VmaSet := { s with vmas := s.vmas.insert v }

def insert (s : VmaSet) (v : Vma) : Except VmaError VmaSet :=
  if v.endAddr < v.start ∨ v.endAddr > userVaEnd then .error .outOfUserSpace
  else .ok (s.insertValidated v)

def remove (s : VmaSet) (start : ℕ) : Option Vma × VmaSet :=
  (s.vmas.get start, { s with vmas := s.vmas.erase start })

def splitAt (s : VmaSet) (addr : ℕ) : VmaSet :=
  let aligned := alignDown addr
  match s.vmas.below aligned with
  | some v =>
    if v.contains aligned ∧ v.start ≠ aligned then
      { s with vmas := ((s.vmas.erase v.start).insert (v.head aligned)).insert (v.tail aligned) }
    else s
  | none => s

/-- `VmaSet::remove_range`: the mappings taken out, and what stays. -/
def removeRange (s : VmaSet) (start endAddr : ℕ) : List Vma × VmaSet :=
  let cut := (s.splitAt start).splitAt endAddr
  (cut.vmas.between start endAddr, { cut with vmas := cut.vmas.eraseBetween start endAddr })

/-- The loop of `VmaSet::first_fit` over the mappings above the floor. -/
def firstFitFrom (len : ℕ) : ℕ → List Vma → Option ℕ
  | cursor, [] => (checkedAdd cursor len).bind fun e ↦ if e ≤ userVaEnd then some cursor else none
  | cursor, v :: vs => (checkedAdd cursor len).bind fun e ↦
      if v.start ≥ e then some cursor
      else (pageRoundUp v.endAddr).bind fun r ↦ firstFitFrom len (max cursor r) vs

def firstFit (s : VmaSet) (floor len : ℕ) : Option ℕ :=
  let above := s.vmas.toList.filter (floor ≤ ·.start)
  match s.vmas.floor floor with
  | some prev => (pageRoundUp prev.endAddr).bind fun r ↦ firstFitFrom len (max floor r) above
  | none => firstFitFrom len floor above

/-- Where the search starts: the floor that was learned, or the hint of the first caller. -/
def searchBase (s : VmaSet) (hint : ℕ) : ℕ :=
  if s.mmapBase = 0 then (hint + 0xfff) % 2 ^ 64 / pageSize * pageSize else s.mmapBase

/-- The set with the floor that a search has learned. -/
def learnBase (s : VmaSet) (hint : ℕ) : VmaSet where
  vmas := s.vmas
  mmapBase := s.searchBase hint
  mmapBase_aligned := by
    rw [searchBase]
    split_ifs
    · exact Nat.dvd_mul_left _ _
    · exact s.mmapBase_aligned

/-- `VmaSet::find_free_address`: the answer, the set with its floor, and the new hint. -/
def findFreeAddress (s : VmaSet) (hint length : ℕ) : Except VmaError ℕ × VmaSet × ℕ :=
  match pageRoundUp length with
  | none => (.error .outOfUserSpace, s, hint)
  | some len =>
    match s.firstFit (s.searchBase hint) len with
    | none => (.error .noSpace, s.learnBase hint, hint)
    | some found => (.ok found, s.learnBase hint, found + len)

def reserve (s : VmaSet) (hint length : ℕ) (prot : VmaProt) (flags : VmaFlags)
    (backing : VmaBacking) : Except VmaError ℕ × VmaSet × ℕ :=
  match pageRoundUp length with
  | none => (.error .outOfUserSpace, s, hint)
  | some length =>
    match s.findFreeAddress hint length with
    | (.error e, s, hint) => (.error e, s, hint)
    | (.ok start, s, hint) =>
      match checkedAdd start length with
      | none => (.error .outOfUserSpace, s, hint)
      | some endAddr =>
        match s.insert ⟨start, endAddr, prot, flags, backing⟩ with
        | .error e => (.error e, s, hint)
        | .ok s => (.ok start, s, hint)

/-! ## Mappings that do not overlap -/

/-- No two mappings overlap: the one that starts first ends before the other starts. -/
def Disjoint (s : VmaSet) : Prop := ∀ v ∈ s, ∀ w ∈ s, v.start < w.start → v.endAddr ≤ w.start

/-- Every mapping consists of whole pages. -/
def PageAligned (s : VmaSet) : Prop :=
  ∀ v ∈ s, v.start ≤ v.endAddr ∧ pageSize ∣ v.start ∧ pageSize ∣ v.endAddr

/-- Whole pages that do not overlap. -/
structure Tidy (s : VmaSet) : Prop where
  aligned : s.PageAligned
  disjoint : s.Disjoint

/-- No mapping has an address in `[a, b)`. -/
def Vacant (s : VmaSet) (a b : ℕ) : Prop := ∀ v ∈ s, v.endAddr ≤ a ∨ b ≤ v.start

variable {s : VmaSet} {v w : Vma} {addr a b : ℕ} {t : VmaSet} {c hint length : ℕ}

theorem Tidy.learnBase (hs : s.Tidy) (base : ℕ) : (s.learnBase base).Tidy :=
  ⟨hs.aligned, hs.disjoint⟩

theorem mem_of_find (h : s.find addr = some v) : v ∈ s ∧ v.start ≤ addr ∧ addr < v.endAddr := by
  obtain ⟨hfloor, hcontains⟩ := filter_eq_some_iff.mp h
  exact ⟨(OrdMap.floor_eq_some.mp hfloor).1, Vma.contains_iff.mp hcontains⟩

/-- **Lookup.** Where mappings do not overlap, the lookup finds the one that contains the address.
-/
theorem find_eq_some_iff (hs : s.Disjoint) :
    s.find addr = some v ↔ v ∈ s ∧ v.start ≤ addr ∧ addr < v.endAddr := by
  refine ⟨mem_of_find, ?_⟩
  rintro ⟨hv, hle, hlt⟩
  refine filter_eq_some_iff.mpr ⟨OrdMap.floor_eq_some.mpr ⟨hv, hle, fun w hw hwle ↦ ?_⟩,
    Vma.contains_iff.mpr ⟨hle, hlt⟩⟩
  by_contra hgt
  have := hs v hv w hw (by omega)
  omega

theorem find_eq_none_iff (hs : s.Disjoint) :
    s.find addr = none ↔ ∀ v ∈ s, ¬(v.start ≤ addr ∧ addr < v.endAddr) := by
  rw [eq_none_iff_forall_ne_some]
  refine forall_congr' fun v ↦ ?_
  rw [ne_eq, find_eq_some_iff hs, not_and]

/-! ### Insert -/

theorem mem_insertValidated : w ∈ s.insertValidated v ↔ w = v ∨ w ∈ s ∧ w.start ≠ v.start :=
  OrdMap.mem_insert

theorem insert_eq_ok (h : s.insert v = .ok t) : t = s.insertValidated v := by
  rw [insert] at h
  split_ifs at h
  exact (Except.ok.inj h).symm

/-- **A mapping entered in a vacant range overlaps no other.** -/
theorem Tidy.insertValidated (hs : s.Tidy) (hv : v.start ≤ v.endAddr)
    (haligned : pageSize ∣ v.start ∧ pageSize ∣ v.endAddr) (hfree : s.Vacant v.start v.endAddr) :
    (s.insertValidated v).Tidy where
  aligned w hw := by
    rcases mem_insertValidated.mp hw with rfl | ⟨hw, -⟩
    · exact ⟨hv, haligned⟩
    · exact hs.aligned w hw
  disjoint u hu w hw huw := by
    rcases mem_insertValidated.mp hu with rfl | ⟨hu', -⟩ <;>
      rcases mem_insertValidated.mp hw with rfl | ⟨hw', -⟩
    · omega
    · have := hs.aligned w hw'
      rcases hfree w hw' with h | h <;> omega
    · rcases hfree u hu' with h | h <;> omega
    · exact hs.disjoint u hu' w hw' huw

/-- What was mapped stays mapped when a vacant range is filled. -/
theorem mem_insertValidated_of_vacant (hfree : s.Vacant v.start v.endAddr)
    (hv : v.start < v.endAddr) (hw : w ∈ s) (haddr : w.start ≤ addr ∧ addr < w.endAddr) :
    w ∈ s.insertValidated v := by
  refine mem_insertValidated.mpr (.inr ⟨hw, fun heq ↦ ?_⟩)
  rcases hfree w hw with h | h <;> omega

theorem mem_iff_of_none {p q : Vma → Prop} (hno : ∀ v ∈ s, ¬p v) :
    w ∈ s ↔ w ∈ s ∧ ¬p w ∨ ∃ v ∈ s, p v ∧ q v := by
  refine ⟨fun h ↦ .inl ⟨h, hno w h⟩, ?_⟩
  rintro (⟨h, -⟩ | ⟨v, hv, hp, -⟩)
  · exact h
  · exact absurd hp (hno v hv)

/-- **Change in place.** The mapping that contains the address, if there is one, is changed. -/
theorem mem_findMut (hs : s.Disjoint) {f : Vma → Vma} (hf : ∀ v, (f v).start = v.start) :
    w ∈ s.findMut a f ↔ w ∈ s ∧ ¬(w.start ≤ a ∧ a < w.endAddr) ∨
      ∃ v ∈ s, (v.start ≤ a ∧ a < v.endAddr) ∧ w = f v := by
  rw [findMut]
  cases hfind : s.find a with
  | none => exact mem_iff_of_none ((find_eq_none_iff hs).mp hfind)
  | some v =>
    obtain ⟨hv, hin⟩ := (find_eq_some_iff hs).mp hfind
    have hone (u : Vma) (hu : u ∈ s) (h : u.start ≤ a ∧ a < u.endAddr) : u = v :=
      some.inj (((find_eq_some_iff hs).mpr ⟨hu, h⟩).symm.trans hfind)
    refine OrdMap.mem_insert.trans ⟨?_, ?_⟩
    · rintro (rfl | ⟨hw, hne⟩)
      · exact .inr ⟨v, hv, hin, rfl⟩
      · refine .inl ⟨hw, fun h ↦ hne ?_⟩
        rw [hone w hw h, hf]
    · rintro (⟨hw, hout⟩ | ⟨u, hu, h, rfl⟩)
      · refine .inr ⟨hw, fun heq ↦ hout ?_⟩
        rw [OrdMap.eq_of_key_eq hw hv (heq.trans (hf v))]
        exact hin
      · rw [hone u hu h]
        exact .inl rfl

/-! ### Remove -/

theorem mem_remove : w ∈ (s.remove a).2 ↔ w ∈ s ∧ w.start ≠ a := OrdMap.mem_erase

theorem Tidy.of_subset (hs : s.Tidy) (h : ∀ v ∈ t, v ∈ s) : t.Tidy where
  aligned v hv := hs.aligned v (h v hv)
  disjoint v hv w hw := hs.disjoint v (h v hv) w (h w hw)

theorem Tidy.remove (hs : s.Tidy) (a : ℕ) : (s.remove a).2.Tidy :=
  hs.of_subset fun _ hv ↦ (mem_remove.mp hv).1

/-! ### Split -/

theorem eq_of_straddles (hs : s.Disjoint) (hv : v ∈ s) (hw : w ∈ s) (h : v.Straddles a)
    (h' : w.Straddles a) : v = w := by
  by_contra hne
  have hne' : v.start ≠ w.start := fun heq ↦ hne (OrdMap.eq_of_key_eq hv hw heq)
  obtain ⟨h₁, h₂⟩ := h
  obtain ⟨h₃, h₄⟩ := h'
  rcases lt_or_gt_of_ne hne' with hlt | hlt
  · have := hs v hv w hw hlt
    omega
  · have := hs w hw v hv hlt
    omega

/-- **Split.** The mapping with the boundary inside it, if there is one, is replaced by its parts.
-/
theorem mem_splitAt (hs : s.Disjoint) :
    w ∈ s.splitAt a ↔ w ∈ s ∧ ¬w.Straddles (alignDown a) ∨
      ∃ v ∈ s, v.Straddles (alignDown a) ∧
        (w = v.head (alignDown a) ∨ w = v.tail (alignDown a)) := by
  rw [splitAt]
  cases hbelow : s.vmas.below (alignDown a) with
  | none =>
    have hge := OrdMap.below_eq_none.mp hbelow
    exact mem_iff_of_none (p := (·.Straddles (alignDown a))) fun v hv h ↦
      Nat.not_lt.mpr (hge v hv) h.1
  | some v =>
    obtain ⟨hv, hlt, hmax⟩ := OrdMap.below_eq_some.mp hbelow
    -- the last mapping below the boundary is the only one that can have it inside
    have hone (u : Vma) (hu : u ∈ s) (h : u.Straddles (alignDown a)) : u = v := by
      have hle := hmax u hu h.1
      refine OrdMap.eq_of_key_eq hu hv (hle.antisymm ?_)
      by_contra hlt'
      have := hs u hu v hv (by omega)
      have := h.2
      omega
    dsimp only
    split_ifs with hin
    · have hst : v.Straddles (alignDown a) := ⟨hlt, (Vma.contains_iff.mp hin.1).2⟩
      rw [← mem_vmas, OrdMap.mem_insert, OrdMap.mem_insert, OrdMap.mem_erase]
      constructor
      · rintro (rfl | ⟨rfl | ⟨⟨hw, hne⟩, -⟩, -⟩)
        · exact .inr ⟨v, hv, hst, .inr rfl⟩
        · exact .inr ⟨v, hv, hst, .inl rfl⟩
        · refine .inl ⟨hw, fun h ↦ hne ?_⟩
          rw [hone w hw h]
      · rintro (⟨hw, hno⟩ | ⟨u, hu, hust, rfl | rfl⟩)
        · refine .inr ⟨.inr ⟨⟨hw, fun heq ↦ ?_⟩, fun heq ↦ ?_⟩, fun heq ↦ ?_⟩
          · exact hno (OrdMap.eq_of_key_eq hw hv heq ▸ hst)
          · exact hno (OrdMap.eq_of_key_eq hw hv heq ▸ hst)
          · have := hs v hv w hw (by rw [heq]; exact hlt)
            rw [Vma.tail_start] at heq
            have := hst.2
            omega
        · rw [hone u hu hust]
          exact .inr ⟨.inl rfl, fun heq ↦ hlt.ne heq⟩
        · rw [hone u hu hust]
          exact .inl rfl
    · refine mem_iff_of_none (p := (·.Straddles (alignDown a))) fun u hu h ↦ ?_
      rw [hone u hu h] at h
      exact hin ⟨Vma.contains_iff.mpr ⟨h.1.le, h.2⟩, h.1.ne⟩

theorem exists_mem_splitAt (hs : s.Disjoint) (hv : v ∈ s)
    (haddr : v.start ≤ addr ∧ addr < v.endAddr)
    (a : ℕ) : ∃ w ∈ s.splitAt a, w.Piece v ∧ w.start ≤ addr ∧ addr < w.endAddr := by
  by_cases hst : v.Straddles (alignDown a)
  · by_cases hlt : addr < alignDown a
    · exact ⟨v.head _, (mem_splitAt hs).mpr (.inr ⟨v, hv, hst, .inl rfl⟩), Vma.piece_head hst,
        haddr.1, hlt⟩
    · exact ⟨v.tail _, (mem_splitAt hs).mpr (.inr ⟨v, hv, hst, .inr rfl⟩), Vma.piece_tail hst,
        Nat.le_of_not_lt hlt, haddr.2⟩
  · exact ⟨v, (mem_splitAt hs).mpr (.inl ⟨hv, hst⟩), .refl v, haddr⟩

theorem Tidy.splitAt (hs : s.Tidy) (a : ℕ) : (s.splitAt a).Tidy where
  aligned w hw := by
    have hd : pageSize ∣ alignDown a := Nat.dvd_mul_left _ _
    rcases (mem_splitAt hs.disjoint).mp hw with ⟨hw, -⟩ | ⟨v, hv, hst, rfl | rfl⟩
    · exact hs.aligned w hw
    · exact ⟨hst.1.le, (hs.aligned v hv).2.1, hd⟩
    · exact ⟨hst.2.le, hd, (hs.aligned v hv).2.2⟩
  disjoint u hu w hw huw := by
    rcases (mem_splitAt hs.disjoint).mp hu with ⟨hu, hnu⟩ | ⟨v, hv, hst, hu⟩ <;>
      rcases (mem_splitAt hs.disjoint).mp hw with ⟨hw, -⟩ | ⟨v', hv', hst', hw⟩
    · exact hs.disjoint u hu w hw huw
    · obtain ⟨h₁, h₂⟩ := hst'
      rcases lt_trichotomy u.start v'.start with h | h | h
      · have := hs.disjoint u hu v' hv' h
        rcases hw with rfl | rfl
        · exact this
        · exact this.trans h₁.le
      · exact absurd (OrdMap.eq_of_key_eq hu hv' h ▸ ⟨h₁, h₂⟩) hnu
      · have := hs.disjoint v' hv' u hu h
        rcases hw with rfl | rfl
        · exact absurd (huw.trans h) (lt_irrefl _)
        · rw [Vma.tail_start] at huw
          omega
    · obtain ⟨h₁, h₂⟩ := hst
      rcases hu with rfl | rfl
      · exact h₂.le.trans (hs.disjoint v hv w hw huw)
      · exact hs.disjoint v hv w hw (h₁.trans huw)
    · obtain rfl := eq_of_straddles hs.disjoint hv hv' hst hst'
      obtain ⟨h₁, h₂⟩ := hst
      rcases hu with rfl | rfl <;> rcases hw with rfl | rfl
      · exact absurd huw (lt_irrefl _)
      · exact le_rfl
      · exact absurd (huw.trans h₁) (lt_irrefl _)
      · exact absurd huw (lt_irrefl _)

/-! ### Removal of a range -/

theorem mem_removeRange :
    w ∈ (s.removeRange a b).2 ↔ w ∈ (s.splitAt a).splitAt b ∧ ¬(a ≤ w.start ∧ w.start < b) :=
  OrdMap.mem_eraseBetween

theorem mem_removed :
    w ∈ (s.removeRange a b).1 ↔ w ∈ (s.splitAt a).splitAt b ∧ a ≤ w.start ∧ w.start < b :=
  OrdMap.mem_between

theorem exists_mem_cut (hs : s.Tidy) (hv : v ∈ s) (haddr : v.start ≤ addr ∧ addr < v.endAddr)
    (a b : ℕ) : ∃ w ∈ (s.splitAt a).splitAt b, w.Piece v ∧ w.start ≤ addr ∧ addr < w.endAddr := by
  obtain ⟨u, hu, huv, hin⟩ := exists_mem_splitAt hs.disjoint hv haddr a
  obtain ⟨w, hw, hwu, hin⟩ := exists_mem_splitAt (hs.splitAt a).disjoint hu hin b
  exact ⟨w, hw, hwu.trans huv, hin⟩

/-- No mapping crosses a boundary at which the set was cut. -/
theorem not_straddles_splitAt (hs : s.Disjoint) (hw : w ∈ s.splitAt a) :
    ¬w.Straddles (alignDown a) := by
  rcases (mem_splitAt hs).mp hw with ⟨-, h⟩ | ⟨v, -, -, rfl | rfl⟩
  · exact h
  · exact fun h ↦ absurd h.2 (lt_irrefl _)
  · exact fun h ↦ absurd h.1 (lt_irrefl _)

/-- **What is taken out lies in the range**, if the range ends at a page boundary. -/
theorem removed_subset (hs : s.Tidy) (hb : pageSize ∣ b)
    (hw : w ∈ (s.removeRange a b).1) : w.endAddr ≤ b := by
  obtain ⟨hmem, -, hlt⟩ := mem_removed.mp hw
  have hno := not_straddles_splitAt (hs.splitAt a).disjoint hmem
  rw [alignDown, Nat.div_mul_cancel hb] at hno
  exact Nat.le_of_not_lt fun h ↦ hno ⟨hlt, h⟩

/-- An address outside the range stays mapped, by a part of what mapped it. -/
theorem exists_mem_removeRange (hs : s.Tidy) (hb : pageSize ∣ b) (hv : v ∈ s)
    (haddr : v.start ≤ addr ∧ addr < v.endAddr) (hout : addr < a ∨ b ≤ addr) :
    ∃ w ∈ (s.removeRange a b).2, w.Piece v ∧ w.start ≤ addr ∧ addr < w.endAddr := by
  obtain ⟨w, hw, hwv, hin⟩ := exists_mem_cut hs hv haddr a b
  refine ⟨w, mem_removeRange.mpr ⟨hw, fun h ↦ ?_⟩, hwv, hin⟩
  have := removed_subset hs hb (mem_removed.mpr ⟨hw, h⟩)
  omega

/-! ### The search for a free range -/

theorem checkedAdd_eq_some {a b : ℕ} : checkedAdd a b = some c ↔ c = a + b ∧ a + b < 2 ^ 64 := by
  rw [checkedAdd]
  split_ifs with h
  · rw [some.injEq]
    exact ⟨fun heq ↦ ⟨heq.symm, h⟩, fun heq ↦ heq.1.symm⟩
  · exact ⟨fun heq ↦ (nomatch heq), fun heq ↦ absurd heq.2 h⟩

theorem pageRoundUp_eq_some (h : pageRoundUp addr = some c) :
    addr ≤ c ∧ pageSize ∣ c := by
  obtain ⟨x, hx, rfl⟩ := map_eq_some_iff.mp h
  obtain ⟨rfl, -⟩ := checkedAdd_eq_some.mp hx
  refine ⟨?_, Nat.dvd_mul_left _ _⟩
  simp only [pageSize]
  omega

variable {len : ℕ}

theorem pageRoundUp_idem (h : pageRoundUp length = some len) : pageRoundUp len = some len := by
  obtain ⟨x, hx, rfl⟩ := map_eq_some_iff.mp h
  obtain ⟨rfl, hlt⟩ := checkedAdd_eq_some.mp hx
  refine map_eq_some_iff.mpr ⟨_, checkedAdd_eq_some.mpr ⟨rfl, ?_⟩, ?_⟩ <;>
    simp only [pageSize] at hlt ⊢ <;> omega

theorem dvd_max (ha : pageSize ∣ a) (hb : pageSize ∣ b) : pageSize ∣ max a b := by
  rcases le_total a b with h | h
  · rwa [max_eq_right h]
  · rwa [max_eq_left h]

/-- The loop returns a gap: what it has passed ends before the gap, what is left starts behind it.
-/
theorem firstFitFrom_spec {cursor found : ℕ} {l : List Vma}
    (hl : l.Pairwise fun v w ↦ v.start < w.start) (hd : pageSize ∣ cursor)
    (h : firstFitFrom len cursor l = some found) :
    cursor ≤ found ∧ pageSize ∣ found ∧ ∀ v ∈ l, v.endAddr ≤ found ∨ found + len ≤ v.start := by
  induction l generalizing cursor with
  | nil =>
    obtain ⟨e, he, h⟩ := bind_eq_some_iff.mp h
    split_ifs at h
    cases h
    exact ⟨le_rfl, hd, fun v hv ↦ absurd hv List.not_mem_nil⟩
  | cons v vs ih =>
    obtain ⟨hfirst, hrest⟩ := List.pairwise_cons.mp hl
    obtain ⟨e, he, h⟩ := bind_eq_some_iff.mp h
    obtain ⟨rfl, -⟩ := checkedAdd_eq_some.mp he
    split_ifs at h with hgap
    · cases h
      refine ⟨le_rfl, hd, fun w hw ↦ .inr ?_⟩
      rcases List.mem_cons.mp hw with rfl | hw
      · exact hgap
      · exact hgap.le.trans (hfirst w hw).le
    · obtain ⟨r, hr, h⟩ := bind_eq_some_iff.mp h
      obtain ⟨hle, hdr⟩ := pageRoundUp_eq_some hr
      have hd' := dvd_max hd hdr
      obtain ⟨hge, hdf, hfree⟩ := ih hrest hd' h
      refine ⟨(le_max_left _ _).trans hge, hdf, fun w hw ↦ ?_⟩
      rcases List.mem_cons.mp hw with rfl | hw
      · exact .inl (hle.trans ((le_max_right _ _).trans hge))
      · exact hfree w hw

theorem firstFit_spec {base found : ℕ} (hs : s.Disjoint) (hd : pageSize ∣ base)
    (h : s.firstFit base len = some found) :
    base ≤ found ∧ pageSize ∣ found ∧ s.Vacant found (found + len) := by
  have hsorted : (s.vmas.toList.filter (base ≤ ·.start)).Pairwise fun v w ↦ v.start < w.start :=
    s.vmas.sorted.filter _
  have habove (v : Vma) (hv : v ∈ s) (hle : base ≤ v.start) :
      v ∈ s.vmas.toList.filter (base ≤ ·.start) :=
    List.mem_filter.mpr ⟨hv, decide_eq_true hle⟩
  rw [firstFit] at h
  cases hfloor : s.vmas.floor base with
  | none =>
    rw [hfloor] at h
    obtain ⟨hge, hdf, hfree⟩ := firstFitFrom_spec hsorted hd h
    exact ⟨hge, hdf, fun v hv ↦ hfree v (habove v hv (OrdMap.floor_eq_none.mp hfloor v hv).le)⟩
  | some prev =>
    rw [hfloor] at h
    obtain ⟨hprev, hle, hmax⟩ := OrdMap.floor_eq_some.mp hfloor
    obtain ⟨r, hr, h⟩ := bind_eq_some_iff.mp h
    obtain ⟨hler, hdr⟩ := pageRoundUp_eq_some hr
    have hd' := dvd_max hd hdr
    obtain ⟨hge, hdf, hfree⟩ := firstFitFrom_spec hsorted hd' h
    refine ⟨(le_max_left _ _).trans hge, hdf, fun v hv ↦ ?_⟩
    by_cases hbase : base ≤ v.start
    · exact hfree v (habove v hv hbase)
    · -- a mapping below the floor ends where the last of them starts, or is the last of them
      left
      rcases (hmax v hv (by omega)).lt_or_eq with hlt | heq
      · have := hs v hv prev hprev hlt
        omega
      · rw [OrdMap.eq_of_key_eq hv hprev heq]
        exact hler.trans ((le_max_right _ _).trans hge)

/-- **What `reserve` does** with a length that can be rounded: the search decides. -/
theorem reserve_eq (hround : pageRoundUp length = some len) (prot : VmaProt) (flags : VmaFlags)
    (backing : VmaBacking) :
    s.reserve hint length prot flags backing =
      match s.firstFit (s.searchBase hint) len with
      | none => (.error .noSpace, s.learnBase hint, hint)
      | some start =>
        if start + len ≤ userVaEnd then
          (.ok start, (s.learnBase hint).insertValidated ⟨start, start + len, prot, flags, backing⟩,
            start + len)
        else (.error .outOfUserSpace, s.learnBase hint, start + len) := by
  unfold reserve
  simp only [hround]
  unfold findFreeAddress
  simp only [pageRoundUp_idem hround]
  cases s.firstFit (s.searchBase hint) len with
  | none => rfl
  | some start =>
    dsimp only
    by_cases hle : start + len ≤ userVaEnd
    · have hin : ¬(start + len < start ∨ start + len > userVaEnd) := by omega
      have hend : checkedAdd start len = some (start + len) :=
        checkedAdd_eq_some.mpr ⟨rfl, hle.trans_lt (by decide)⟩
      simp only [hend, insert, if_neg hin, if_pos hle]
    · have hout : start + len < start ∨ start + len > userVaEnd := by omega
      rw [if_neg hle, checkedAdd]
      split_ifs with hlt
      · simp only [insert, if_pos hout]
      · rfl

end VmaSet

end Edos.Memory

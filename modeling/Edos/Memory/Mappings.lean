import Edos.Memory.Effects

/-!
# Mappings do not overlap

The mappings of a process are a map keyed by start address, so entering one says nothing about the
ranges of the others: that they do not overlap is up to the callers. A range that the kernel
searches for is vacant. A range that the caller names is entered without a look at what is there,
and a mapping that starts at the same address is silently replaced by it. While callers name only
vacant ranges the mappings stay disjoint whole pages (`Tidy`), and a call that succeeds takes away
no address it was not asked to (`Retains`).

The kernel is not confined to the calls that map and unmap: faults, forks and truncations run in
between.
-/

namespace Edos.Memory

open Fallible List Option Sys

/-! ## What stays mapped -/

/-- A mapping with the protection that `VmaSet.retag` gives it. -/
def Vma.retag (prot : VmaProt) (vs : List Vma) (v : Vma) : Vma :=
  if ∃ u ∈ vs, v.start ≤ u.start ∧ u.start < v.endAddr then { v with prot := prot } else v

namespace VmaSet

/-- The mappings after the cuts at the ends of a range. -/
def cut (s : VmaSet) (a b : ℕ) : VmaSet := (s.splitAt a).splitAt b

variable {s t u : VmaSet} {asked : ℕ → Prop}

/-- Every address that `s` maps and that was not asked for is mapped in `t`, by a part of what
mapped it. -/
def Retains (asked : ℕ → Prop) (s t : VmaSet) : Prop :=
  ∀ v ∈ s, ∀ a, v.start ≤ a ∧ a < v.endAddr → ¬asked a →
    ∃ w ∈ t, w.Part v ∧ w.start ≤ a ∧ a < w.endAddr

theorem Retains.of_subset (h : ∀ v ∈ s, v ∈ t) : s.Retains asked t :=
  fun v hv _ ha _ ↦ ⟨v, h v hv, .refl v, ha⟩

theorem Retains.trans (h : s.Retains asked t) (h' : t.Retains asked u) : s.Retains asked u := by
  intro v hv a ha hno
  obtain ⟨w, hw, hwv, hin⟩ := h v hv a ha hno
  obtain ⟨x, hx, hxw, hin'⟩ := h' w hw a hin hno
  exact ⟨x, hx, hxw.trans hwv, hin'⟩

theorem retains_cut (hs : s.Tidy) (a b : ℕ) : s.Retains asked (s.cut a b) := by
  intro v hv x hx _
  obtain ⟨w, hw, hwv, hin⟩ := exists_mem_cut hs hv hx a b
  exact ⟨w, hw, hwv.toPart, hin⟩

/-! ### `sys_mprotect` -/

theorem Tidy.cut (hs : s.Tidy) (a b : ℕ) : (s.cut a b).Tidy := (hs.splitAt a).splitAt b

/-- **The protection is written** to the mappings at the given addresses. -/
theorem mem_retag (hs : s.Tidy) (prot : VmaProt) (vs : List Vma) {w : Vma} :
    w ∈ s.retag prot vs ↔ ∃ v ∈ s, w = v.retag prot vs := by
  induction vs generalizing s with
  | nil =>
    have hnil (v : Vma) : v.retag prot [] = v := by
      rw [Vma.retag, if_neg]
      rintro ⟨u, hu, -⟩
      exact absurd hu not_mem_nil
    simp only [hnil, exists_eq_right']
    rfl
  | cons u vs ih =>
    have hin (v : Vma) : v.retag prot (u :: vs) =
        (if v.start ≤ u.start ∧ u.start < v.endAddr then { v with prot := prot } else v).retag
          prot vs := by
      by_cases h : v.start ≤ u.start ∧ u.start < v.endAddr
      · rw [if_pos h, Vma.retag, if_pos ⟨u, mem_cons_self, h⟩, Vma.retag]
        split_ifs <;> rfl
      · rw [if_neg h, Vma.retag, Vma.retag]
        simp only [mem_cons, exists_eq_or_imp, h, false_or]
    have hmut {x : Vma} := mem_findMut (w := x) (a := u.start) hs.disjoint
      (f := fun w ↦ { w with prot := prot }) fun _ ↦ rfl
    have htidy : (s.findMut u.start fun w ↦ { w with prot := prot }).Tidy :=
      hs.of_ranges fun w hw ↦ by
        rcases hmut.mp hw with ⟨hw, -⟩ | ⟨v, hv, -, rfl⟩
        · exact ⟨w, hw, rfl, rfl⟩
        · exact ⟨v, hv, rfl, rfl⟩
    rw [retag, ih htidy]
    simp only [hin]
    constructor
    · rintro ⟨v', hv', rfl⟩
      rcases hmut.mp hv' with ⟨hv, hout⟩ | ⟨v, hv, h, rfl⟩
      · exact ⟨v', hv, by rw [if_neg hout]⟩
      · exact ⟨v, hv, by rw [if_pos h]⟩
    · rintro ⟨v, hv, rfl⟩
      by_cases h : v.start ≤ u.start ∧ u.start < v.endAddr
      · exact ⟨_, hmut.mpr (.inr ⟨v, hv, h, rfl⟩), by rw [if_pos h]⟩
      · exact ⟨v, hmut.mpr (.inl ⟨hv, h⟩), by rw [if_neg h]⟩

theorem Tidy.retag (hs : s.Tidy) (prot : VmaProt) (vs : List Vma) : (s.retag prot vs).Tidy :=
  hs.of_ranges fun w hw ↦ by
    obtain ⟨v, hv, rfl⟩ := (mem_retag hs prot vs).mp hw
    refine ⟨v, hv, ?_⟩
    rw [Vma.retag]
    split_ifs <;> exact ⟨rfl, rfl⟩

theorem retains_retag (hs : s.Tidy) (prot : VmaProt) (vs : List Vma) :
    s.Retains asked (s.retag prot vs) := by
  intro v hv a ha _
  refine ⟨v.retag prot vs, (mem_retag hs prot vs).mpr ⟨v, hv, rfl⟩, ?_⟩
  rw [Vma.retag]
  split_ifs
  · exact ⟨⟨le_rfl, le_rfl, rfl, rfl⟩, ha⟩
  · exact ⟨.refl v, ha⟩

/-! ## The calls

Each leaves tidy mappings tidy, and takes away no address it was not asked to. -/

/-- A range that a caller names is vacant. -/
def FreeAt (s : VmaSet) (addr length : ℕ) : Prop :=
  addr ≠ 0 → ∀ endAddr, rangeEnd addr length = some endAddr → s.Vacant addr endAddr

/-- The addresses of the mapping that starts at an address. -/
def InMappingAt (V : VmaSet) (addr a : ℕ) : Prop :=
  ∃ v ∈ V, v.start = addr ∧ v.start ≤ a ∧ a < v.endAddr

end VmaSet

theorem rangeEnd_eq_some {addr length endAddr : ℕ} (h : rangeEnd addr length = some endAddr) :
    ∃ len, pageRoundUp length = some len ∧ endAddr = addr + len := by
  obtain ⟨len, hlen, h⟩ := Option.bind_eq_some_iff.mp h
  exact ⟨len, hlen, (VmaSet.checkedAdd_eq_some.mp h).1⟩

/-- The addresses of a range. -/
def InRange (addr length a : ℕ) : Prop :=
  addr ≤ a ∧ ∃ endAddr, rangeEnd addr length = some endAddr ∧ a < endAddr

/-- What a call that is asked for the addresses `asked` leaves of the mappings `V`. -/
structure Spares {α : Type} (asked : ℕ → Prop) (V : VmaSet) (r : Except Stop α)
    (t : Task) : Prop where
  tidy : t.proc.vmas.Tidy
  retains : ∀ x, r = .ok x → V.Retains asked t.proc.vmas

section Calls

variable {α β : Type} {asked : ℕ → Prop} {V : VmaSet} {s t : Task} {addr length : ℕ}

theorem Spares.of_error {e : Stop} (h : t.proc.vmas.Tidy) :
    Spares asked V (.error e : Except Stop α) t := ⟨h, nofun⟩

theorem Spares.of_ok {x : α} {y : β} (h : Spares asked V (.ok x) t) {t' : Task}
    (ht : t'.proc.vmas = t.proc.vmas) : Spares asked V (.ok y) t' := by
  refine ⟨ht ▸ h.tidy, fun _ _ ↦ ?_⟩
  rw [ht]
  exact h.retains x rfl

/-- **A range that was vacant is entered.** -/
theorem spares_insert {v : Vma} {x : α} (hV : V.Tidy) (hlt : v.start < v.endAddr)
    (hd : pageSize ∣ v.start ∧ pageSize ∣ v.endAddr) (hfree : V.Vacant v.start v.endAddr)
    (ht : t.proc.vmas.vmas = V.vmas.insert v) : Spares asked V (.ok x) t := by
  have hmem {w : Vma} : w ∈ t.proc.vmas ↔ w ∈ V.insertValidated v := by
    rw [← VmaSet.mem_vmas, ht]
    rfl
  refine ⟨(hV.insertValidated hlt.le hd hfree).of_subset fun w hw ↦ hmem.mp hw,
    fun _ _ u hu a ha _ ↦ ?_⟩
  exact ⟨u, hmem.mpr (VmaSet.mem_insertValidated_of_vacant hfree hlt hu ha), .refl u, ha⟩

/-! ### A range is claimed -/

variable {prot : VmaProt} {flags : VmaFlags} {backing : VmaBacking}

theorem claimAt_spares (hs : s.proc.vmas.Tidy) (hlen : length ≠ 0) (haddr : pageSize ∣ addr)
    (h0 : addr ≠ 0) (hfree : s.proc.vmas.FreeAt addr length) :
    Ends (claimAt addr length prot flags backing) s (Spares asked s.proc.vmas) := by
  unfold claimAt
  cases hend : rangeEnd addr length with
  | none => exact ends_throw (.of_error hs)
  | some endAddr =>
    refine ends_ensure (.of_error hs) fun _ ↦ ends_virtAddr fun _ ↦ ends_gets ?_
    rw [id_eq]
    cases hins : s.proc.vmas.insert ⟨addr, endAddr, prot, flags, backing⟩ with
    | error e => exact ends_throw (.of_error hs)
    | ok vmas =>
      obtain ⟨len, hround, rfl⟩ := rangeEnd_eq_some hend
      obtain ⟨hle, hd⟩ := VmaSet.pageRoundUp_eq_some hround
      have hspares {t : Task} (ht : t.proc.vmas = vmas) :
          Spares asked s.proc.vmas (.ok addr) t := by
        refine spares_insert (v := ⟨addr, addr + len, prot, flags, backing⟩) hs
          (show addr < addr + len by omega) ⟨haddr, Nat.dvd_add haddr hd⟩ (hfree h0 _ hend) ?_
        rw [ht, VmaSet.insert_eq_ok hins]
        rfl
      refine ends_modify ?_
      cases s.proc.vmas.vmas.get addr with
      | none => exact ends_pure (hspares rfl)
      | some old => exact ends_orPanic fun w _ ↦ ends_modify (ends_pure (hspares rfl))

theorem claimFree_spares (hs : s.proc.vmas.Tidy) (hlen : length ≠ 0) :
    Ends (claimFree length prot flags backing) s (Spares asked s.proc.vmas) := by
  refine ends_gets ?_
  rw [id_eq]
  cases hround : pageRoundUp length with
  | none =>
    unfold VmaSet.reserve
    rw [hround]
    exact ends_modify (ends_throw (.of_error hs))
  | some len =>
    have hs' : (s.proc.vmas.learnBase s.proc.nextMmapAddr).Tidy := VmaSet.Tidy.learnBase hs _
    obtain ⟨hle, hd⟩ := VmaSet.pageRoundUp_eq_some hround
    rw [VmaSet.reserve_eq hround]
    cases hfit : s.proc.vmas.firstFit (s.proc.vmas.searchBase s.proc.nextMmapAddr) len with
    | none => exact ends_modify (ends_throw (.of_error hs'))
    | some start =>
      obtain ⟨-, hstart, hvacant⟩ :=
        VmaSet.firstFit_spec hs.disjoint (VmaSet.learnBase _ _).mmapBase_aligned hfit
      dsimp only
      split_ifs
      · refine ends_virtAddr fun _ ↦ ends_modify (ends_pure ?_)
        exact spares_insert hs (show start < start + len by omega) ⟨hstart, Nat.dvd_add hstart hd⟩
          hvacant rfl
      · exact ends_modify (ends_throw (.of_error hs'))

/-- **A range is claimed**, or no mapping changes. -/
theorem claimRange_spares (hs : s.proc.vmas.Tidy) (hlen : length ≠ 0) (haddr : pageSize ∣ addr)
    (hfree : s.proc.vmas.FreeAt addr length) :
    Ends (claimRange addr length prot flags backing) s (Spares asked s.proc.vmas) := by
  rw [claimRange]
  split_ifs with h0
  · exact claimFree_spares hs hlen
  · exact claimAt_spares hs hlen haddr h0 hfree

/-- Frames behind a range change no mapping; if they run out, the range is given back. -/
theorem installFrames_spares {mapAddr : ℕ} {flags : PageFlags} {frames : List ℕ} {x : α}
    (h : Spares asked V (.ok x) s) :
    Ends (installFrames mapAddr flags frames) s (Spares asked V) := by
  refine ends_gets (ends_modify ?_)
  split_ifs
  · exact ends_modify (ends_modify (ends_throw (.of_error (h.tidy.remove mapAddr))))
  · rintro r t ⟨⟩ -
    exact h.of_ok rfl

/-! ### `sys_mmap` -/

theorem sysMmap_spares {prot flags r8 r9 : ℕ} (hs : s.proc.vmas.Tidy)
    (hfree : s.proc.vmas.FreeAt addr length) :
    Ends (sysMmap addr length prot flags r8 r9) s (Spares asked s.proc.vmas) := by
  refine ends_ensure (.of_error hs) fun hlen ↦ ends_ensure (.of_error hs) fun haddr ↦ ?_
  have hclaim {prot : VmaProt} {flags : VmaFlags} {backing : VmaBacking} :
      Ends (claimRange addr length prot flags backing) s (Spares asked s.proc.vmas) :=
    claimRange_spares hs hlen (Nat.dvd_of_mod_eq_zero haddr) hfree
  split_ifs
  · refine ends_ensure (.of_error hs) fun _ ↦ ends_gets (ends_orPanic fun _ _ ↦
      ends_ensure (.of_error hs) fun _ ↦ ?_)
    refine hclaim.bind (fun _ _ h ↦ .of_error h.tidy) fun start t h ↦ ?_
    exact (installFrames_spares h).bind (fun _ _ h ↦ .of_error h.tidy) fun _ _ h ↦
      ends_pure (h.of_ok rfl)
  · exact ends_ensure (.of_error hs) fun _ ↦ hclaim
  · refine ends_ensure (.of_error hs) fun _ ↦ ends_ensure (.of_error hs) fun _ ↦
      ends_ensure (.of_error hs) fun _ ↦ ends_ensure (.of_error hs) fun _ ↦ ends_gets ?_
    split
    · refine ends_ensure (.of_error hs) fun _ ↦ ends_ensure (.of_error hs) fun _ ↦ ?_
      split
      · exact ends_throw (.of_error hs)
      · refine ends_ensure (.of_error hs) fun _ ↦ ?_
        exact hclaim.bind (fun _ _ h ↦ .of_error h.tidy) fun start t h ↦
          ends_modify (ends_pure (h.of_ok rfl))
    · exact ends_throw (.of_error hs)

/-! ### `sys_mprotect` and `sys_munmap` -/

theorem sysMprotect_spares {prot : ℕ} (hs : s.proc.vmas.Tidy) :
    Ends (sysMprotect addr length prot) s (Spares asked s.proc.vmas) := by
  refine ends_ensure (.of_error hs) fun _ ↦ ?_
  cases rangeEnd addr length with
  | none => exact ends_throw (.of_error hs)
  | some endAddr =>
    have hcut := hs.cut addr endAddr
    refine ends_ensure (.of_error hs) fun _ ↦ ends_virtAddr fun _ ↦ ends_gets (ends_modify ?_)
    refine ends_ensure (.of_error hcut) fun _ ↦ ends_modify (ends_modify (ends_pure ?_))
    exact ⟨hcut.retag _ _, fun _ _ ↦ (VmaSet.retains_cut hs addr endAddr).trans
      (VmaSet.retains_retag hcut _ _)⟩

/-- What stays of the mappings while those in a range are unmapped: nothing new, and all that was
left outside the range. -/
def VmaSet.Between (V : VmaSet) (a b : ℕ) (t : Task) : Prop :=
  (∀ w ∈ t.proc.vmas, w ∈ V.cut a b) ∧ ∀ w ∈ (V.removeRange a b).2, w ∈ t.proc.vmas

theorem keeps_between_unmapVmas {a b : ℕ} {vs : List Vma}
    (hvs : ∀ v ∈ vs, v ∈ (V.removeRange a b).1) :
    Keeps (V.Between a b) (unmapVmas vs) fun _ ↦ True := by
  have hrelease (drop : FrameAllocator → ℕ → Option FrameAllocator) (pages : List ℕ) :
      Keeps (V.Between a b) (releasePages drop pages) fun _ ↦ True := by
    refine (keeps_gets (Q := fun _ ↦ True) fun _ _ ↦ trivial).bind fun _ _ ↦ ?_
    refine (keeps_modify fun _ h ↦ ?_).bind fun _ _ ↦ (keeps_orPanic _).bind fun _ _ ↦
      keeps_modify fun _ h ↦ ?_
    · exact h
    · exact h
  -- a mapping that is put back is one of those taken out, so it hides none that was left
  have hback {v : Vma} (hv : v ∈ (V.removeRange a b).1) :
      Keeps (V.Between a b) (putBack v) fun _ ↦ True := by
    obtain ⟨hcut, hin⟩ := VmaSet.mem_removed.mp hv
    refine (keeps_modify fun t ht ↦ ⟨fun w hw ↦ ?_, fun w hw ↦ ?_⟩).bind fun _ _ ↦
      keeps_pure trivial
    · rcases VmaSet.mem_insertValidated.mp hw with rfl | ⟨hw, -⟩
      · exact hcut
      · exact ht.1 w hw
    · refine VmaSet.mem_insertValidated.mpr (.inr ⟨ht.2 w hw, fun heq ↦ ?_⟩)
      exact (VmaSet.mem_removeRange.mp hw).2 (heq ▸ hin)
  induction vs with
  | nil => exact keeps_pure trivial
  | cons v vs ih =>
    refine Keeps.bind (Q := fun _ ↦ True) ?_ fun _ _ ↦
      (ih fun u hu ↦ hvs u (mem_cons_of_mem v hu)).bind fun _ _ ↦ keeps_pure trivial
    rw [unmapVma]
    split
    · exact (hrelease _ _).bind fun _ _ ↦ keeps_pure trivial
    · exact (keeps_modify fun _ h ↦ h).bind fun _ _ ↦ keeps_pure trivial
    · exact (hrelease _ _).bind fun _ _ ↦ (keeps_gets (Q := fun _ ↦ True) fun _ _ ↦ trivial).bind
        fun _ _ ↦ (keeps_orPanic _).bind fun _ _ ↦ (keeps_modify fun _ h ↦ h).bind fun _ _ ↦
          keeps_pure trivial
    all_goals exact hback (hvs v mem_cons_self)

theorem sysMunmap_spares (hs : s.proc.vmas.Tidy) :
    Ends (sysMunmap addr length) s (Spares (InRange addr length) s.proc.vmas) := by
  refine ends_ensure (.of_error hs) fun hargs ↦ ends_virtAddr fun _ ↦ ?_
  cases hend : rangeEnd addr length with
  | none => exact ends_throw (.of_error hs)
  | some endAddr =>
    have hdvd : pageSize ∣ endAddr := by
      obtain ⟨len, hlen, rfl⟩ := rangeEnd_eq_some hend
      exact Nat.dvd_add (Nat.dvd_of_mod_eq_zero hargs.2) (VmaSet.pageRoundUp_eq_some hlen).2
    have hspares {α : Type} {r : Except Stop α} {t : Task}
        (ht : s.proc.vmas.Between addr endAddr t) :
        Spares (InRange addr length) s.proc.vmas r t := by
      refine ⟨(hs.cut addr endAddr).of_subset ht.1, fun _ _ v hv a ha hno ↦ ?_⟩
      have hout : a < addr ∨ endAddr ≤ a := by
        by_contra hin
        exact hno ⟨by omega, endAddr, hend, by omega⟩
      obtain ⟨w, hw, hwv, hin⟩ := VmaSet.exists_mem_removeRange hs hdvd hv ha hout
      exact ⟨w, ht.2 w hw, hwv.toPart, hin⟩
    have hstart : s.proc.vmas.Between addr endAddr { s with proc := { s.proc with
        vmas := (s.proc.vmas.removeRange addr endAddr).2 } } :=
      ⟨fun w hw ↦ (VmaSet.mem_removeRange.mp hw).1, fun w hw ↦ hw⟩
    refine ends_virtAddr fun _ ↦ ends_gets (ends_modify (ends_ensure (hspares hstart) fun _ ↦ ?_))
    have hrun : Ends (unmapVmas (s.proc.vmas.removeRange addr endAddr).1) _
        fun _ t ↦ s.proc.vmas.Between addr endAddr t :=
      fun r t h _ ↦ (keeps_between_unmapVmas fun _ hv ↦ hv).state h hstart
    exact hrun.bind (fun _ _ h ↦ hspares h) fun _ t h ↦
      ends_ensure (hspares h) fun _ ↦ ends_pure (hspares h)

/-! ### Shared memory -/

theorem sysShmMap_spares {shmId prot : ℕ} (hs : s.proc.vmas.Tidy)
    (hfree : ∀ shm, s.world.shm.get shmId = some shm → s.proc.vmas.FreeAt addr shm.size) :
    Ends (sysShmMap shmId addr prot) s (Spares asked s.proc.vmas) := by
  refine ends_gets ?_
  cases hget : s.world.shm.get shmId with
  | none => exact ends_throw (.of_error hs)
  | some shm =>
    refine ends_ensure (.of_error hs) fun hhint ↦ ?_
    have haddr : pageSize ∣ addr := by
      rcases hhint with rfl | ⟨hd, -⟩
      · exact Nat.dvd_zero _
      · exact Nat.dvd_of_mod_eq_zero hd
    have hclaim : Ends (claimRange addr shm.size (vmaProtFrom prot) ⟨false, true, false, false⟩
        (.sharedMemory shmId)) s (Spares asked s.proc.vmas) :=
      claimRange_spares hs shm.size_ne_zero haddr (hfree shm hget)
    refine hclaim.bind (fun _ _ h ↦ .of_error h.tidy) fun start t h ↦ ?_
    refine (installFrames_spares h).bind (fun _ _ h ↦ .of_error h.tidy) fun _ t h ↦ ends_gets ?_
    split
    · exact ends_modify (ends_pure (h.of_ok rfl))
    · exact ends_modify (ends_modify (ends_throw (.of_error (h.tidy.remove start))))

theorem sysShmUnmap_spares (hs : s.proc.vmas.Tidy) :
    Ends (sysShmUnmap addr) s (Spares (s.proc.vmas.InMappingAt addr) s.proc.vmas) := by
  refine ends_virtAddr fun _ ↦ ends_gets ?_
  cases hget : s.proc.vmas.vmas.get addr with
  | none =>
    simp only [VmaSet.remove, id_eq, hget]
    exact ends_throw (.of_error hs)
  | some v =>
    obtain ⟨hv, hstart⟩ := OrdMap.mem_of_get hget
    simp only [VmaSet.remove, id_eq, hget]
    split
    · refine ends_modify (ends_orPanic fun w _ ↦ ends_modify (ends_modify (ends_pure ?_)))
      refine ⟨hs.remove addr, fun _ _ u hu a ha hno ↦ ?_⟩
      exact ⟨u, VmaSet.mem_remove.mpr ⟨hu, fun heq ↦ hno ⟨u, hu, heq, ha⟩⟩, .refl u, ha⟩
    · -- any other mapping is put back
      refine ends_modify (ends_throw (.of_error (hs.of_subset fun w hw ↦ ?_)))
      rcases VmaSet.mem_insertValidated.mp hw with rfl | ⟨hw, -⟩
      · exact hv
      · exact (VmaSet.mem_remove.mp hw).1

end Calls

/-! ## The kernel -/

/-- The calls that map and unmap. -/
def Action.MapCall : Action → Prop
  | .mmap _ _ _ _ _ _ _ => True
  | .mprotect _ _ _ _ => True
  | .munmap _ _ _ => True
  | .shmMap _ _ _ _ => True
  | .shmUnmap _ _ => True
  | _ => False

/-- The addresses that a call is asked to unmap in the process it is run for. -/
def Action.Asked (V : VmaSet) : Action → ℕ → Prop
  | .munmap _ addr length => InRange addr length
  | .shmUnmap _ addr => V.InMappingAt addr
  | _ => fun _ ↦ False

namespace Kernel

/-- The mappings of every process are disjoint whole pages. -/
def Tidy (k : Kernel) : Prop := ∀ p ∈ k.procs, p.vmas.Tidy

/-- A range that a caller names is vacant in its process. -/
def NamesVacant (k : Kernel) : Action → Prop
  | .mmap pid addr length _ _ _ _ => ∀ p ∈ k.procs, p.pid = pid → p.vmas.FreeAt addr length
  | .shmMap pid shmId addrHint _ => ∀ p ∈ k.procs, p.pid = pid →
      ∀ shm, k.world.shm.get shmId = some shm → p.vmas.FreeAt addrHint shm.size
  | _ => True

variable {k k' : Kernel} {a : Action}

/-- **One call.** -/
theorem mapCall_spares {r : Except Stop ℕ} (hk : k.Tidy) (hfree : k.NamesVacant a) (ha : a.MapCall)
    (h : k.exec a = some (r, k')) :
    ∃ p t, p ∈ k.procs ∧ Spares (a.Asked p.vmas) p.vmas r t ∧
      k' = { k with world := t.world, procs := k.procs.insert { t.proc with pid := p.pid } } := by
  cases a with
  | mmap pid addr length prot flags r8 r9 =>
    obtain ⟨p, t, hp, rfl, hrun, hr, rfl⟩ := asProcess_eq_some h
    exact ⟨p, t, hp, sysMmap_spares (hk p hp) (hfree p hp rfl) r t hrun hr, rfl⟩
  | mprotect pid addr length prot =>
    obtain ⟨p, t, hp, rfl, hrun, hr, rfl⟩ := asProcess_eq_some h
    exact ⟨p, t, hp, sysMprotect_spares (hk p hp) r t hrun hr, rfl⟩
  | munmap pid addr length =>
    obtain ⟨p, t, hp, rfl, hrun, hr, rfl⟩ := asProcess_eq_some h
    exact ⟨p, t, hp, sysMunmap_spares (hk p hp) r t hrun hr, rfl⟩
  | shmMap pid shmId addrHint prot =>
    obtain ⟨p, t, hp, rfl, hrun, hr, rfl⟩ := asProcess_eq_some h
    exact ⟨p, t, hp, sysShmMap_spares (hk p hp) (hfree p hp rfl) r t hrun hr, rfl⟩
  | shmUnmap pid addr =>
    obtain ⟨p, t, hp, rfl, hrun, hr, rfl⟩ := asProcess_eq_some h
    exact ⟨p, t, hp, sysShmUnmap_spares (hk p hp) r t hrun hr, rfl⟩
  | _ => cases ha

theorem Tidy.insert {p : Process} {w : World} {n : ℕ} (hk : k.Tidy) (hp : p.vmas.Tidy) :
    Tidy { world := w, procs := k.procs.insert p, nextPid := n } := by
  intro q hq
  rcases OrdMap.mem_insert.mp hq with rfl | ⟨hq, -⟩
  · exact hp
  · exact hk q hq

/-- A computation that keeps the mappings of its process tidy keeps all tidy. -/
theorem Tidy.asProcess {α : Type} {m : Sys α} {Q : α → Prop} {r : Except Stop α} {pid : ℕ}
    (hk : k.Tidy) (hm : Keeps Task.Tidy m Q) (h : k.asProcess pid m = some (r, k')) :
    k'.Tidy ∧ ∀ a, r = .ok a → Q a := by
  obtain ⟨p, t, hp, -, hrun, -, rfl⟩ := asProcess_eq_some h
  obtain ⟨ht, hQ⟩ := hm ⟨k.world, p⟩ (hk p hp)
  rw [hrun] at ht hQ
  exact ⟨hk.insert ht, hQ⟩

theorem Tidy.invalidateMappersAbove {inode newSize : ℕ} {pids : List ℕ} (hk : k.Tidy)
    (h : k.invalidateMappersAbove inode newSize pids = some k') : k'.Tidy := by
  induction pids generalizing k with
  | nil =>
    cases h
    exact hk
  | cons pid pids ih =>
    rw [Kernel.invalidateMappersAbove] at h
    split at h
    · exact ih hk h
    · obtain ⟨⟨r, k₁⟩, hrun, h⟩ := bind_eq_some_iff.mp h
      exact ih (hk.asProcess (keeps_invalidateVmas inode newSize _) hrun).1 h

/-- **One step.** -/
theorem Tidy.exec {r : Except Stop ℕ} (hk : k.Tidy) (hfree : k.NamesVacant a)
    (h : k.exec a = some (r, k')) : k'.Tidy := by
  have hcall (ha : a.MapCall) : k'.Tidy := by
    obtain ⟨p, t, hp, hspares, rfl⟩ := mapCall_spares hk hfree ha h
    exact hk.insert hspares.tidy
  cases a with
  | mmap | mprotect | munmap | shmMap | shmUnmap => exact hcall trivial
  | shmCreate pid size vec node =>
    exact (hk.asProcess (keeps_sysShmCreate size vec node) h).1
  | shmDestroy pid shmId => exact (hk.asProcess (keeps_sysShmDestroy shmId) h).1
  | demandFault pid addr isWrite isExec fill =>
    obtain ⟨⟨r₁, k₁⟩, hrun, heq⟩ := map_eq_some_iff.mp h
    cases heq
    exact (hk.asProcess (keeps_handleDemandFault addr isWrite isExec fill) hrun).1
  | cowFault pid addr =>
    obtain ⟨⟨r₁, k₁⟩, hrun, heq⟩ := map_eq_some_iff.mp h
    cases heq
    exact (hk.asProcess (keeps_cowFault addr) hrun).1
  | fork pid =>
    obtain ⟨⟨r₁, k₁⟩, hrun, heq⟩ := map_eq_some_iff.mp h
    obtain ⟨hk₁, hchild⟩ := hk.asProcess (keeps_sysFork k.nextPid) hrun
    cases r₁ with
    | error e =>
      cases heq
      exact hk₁
    | ok child =>
      cases heq
      exact hk₁.insert (hchild child rfl)
  | exit pid =>
    obtain ⟨⟨r₁, k₁⟩, hrun, heq⟩ := map_eq_some_iff.mp h
    cases heq
    obtain ⟨p, t, hp, rfl, -, -, rfl⟩ := asProcess_eq_some hrun
    intro q hq
    obtain ⟨hq, hne⟩ := OrdMap.mem_erase.mp hq
    rcases OrdMap.mem_insert.mp hq with rfl | ⟨hq, -⟩
    · exact absurd rfl hne
    · exact hk q hq
  | truncate inode newSize after =>
    obtain ⟨k₁, hrun, h⟩ := bind_eq_some_iff.mp h
    obtain ⟨w, -, heq⟩ := map_eq_some_iff.mp h
    cases heq
    have hk₁ : k₁.Tidy := by
      refine Tidy.invalidateMappersAbove ?_ hrun
      exact hk
    exact hk₁

/-- **Mappings never overlap.** While every range that a caller names is vacant, the mappings of
every process stay disjoint, and a call to map or unmap that succeeds leaves every address mapped,
by a part of what mapped it, that it was not asked to unmap. -/
theorem mappings_disjoint {k₀ k : Kernel} (h₀ : k₀.Tidy) (h : Reaches step NamesVacant k₀ k) :
    k.Tidy ∧ ∀ a r k', k.NamesVacant a → a.MapCall → k.exec a = some (.ok r, k') →
      ∀ p ∈ k.procs, ∃ p' ∈ k'.procs, p'.pid = p.pid ∧
        p.vmas.Retains (a.Asked p.vmas) p'.vmas := by
  have htidy : k.Tidy := h.invariant h₀ fun k a k' hk hfree hstep ↦ by
    obtain ⟨⟨r, k₁⟩, hexec, rfl⟩ := map_eq_some_iff.mp hstep
    exact hk.exec hfree hexec
  refine ⟨htidy, fun a r k' hfree ha hexec p hp ↦ ?_⟩
  obtain ⟨q, t, hq, hspares, rfl⟩ := mapCall_spares htidy hfree ha hexec
  by_cases hpid : p.pid = q.pid
  · obtain rfl := OrdMap.eq_of_key_eq hp hq hpid
    exact ⟨_, OrdMap.mem_insert.mpr (.inl rfl), rfl, hspares.retains r rfl⟩
  · exact ⟨p, OrdMap.mem_insert.mpr (.inr ⟨hp, hpid⟩), rfl, .of_subset fun _ hv ↦ hv⟩

theorem tidy_oneProcess : oneProcess.Tidy := by
  intro p hp
  rcases OrdMap.mem_insert.mp hp with rfl | ⟨hp, -⟩
  · exact ⟨fun v hv ↦ absurd hv OrdMap.not_mem_empty, fun v hv ↦ absurd hv OrdMap.not_mem_empty⟩
  · exact absurd hp OrdMap.not_mem_empty

/-- Two anonymous pages are mapped at an address that the process names, and the first is unmapped.
-/
theorem mappings_disjoint_twoPages : ∃ k k', Reaches step NamesVacant oneProcess k ∧ k.Tidy ∧
    k.exec (.munmap 1 0x10000 0x1000) = some (.ok 0, k') ∧
    ∀ p ∈ k.procs, ∃ p' ∈ k'.procs, p'.pid = p.pid ∧
      p.vmas.Retains (InRange 0x10000 0x1000) p'.vmas := by
  have hrun : ((oneProcess.step (.mmap 1 0x10000 0x2000 3 0x22 0 0)).bind fun k ↦
      (k.exec (.munmap 1 0x10000 0x1000)).map fun e ↦ e.1.toOption) = some (some 0) := by
    decide +kernel
  obtain ⟨k, hk, hrun⟩ := bind_eq_some_iff.mp hrun
  obtain ⟨⟨r, k'⟩, hk', hr⟩ := map_eq_some_iff.mp hrun
  obtain rfl : r = .ok 0 := by
    cases r with
    | error e => cases hr
    | ok x =>
      cases hr
      rfl
  have hfree : oneProcess.NamesVacant (.mmap 1 0x10000 0x2000 3 0x22 0 0) := by
    intro p hp _ _ _ _ v hv
    rcases OrdMap.mem_insert.mp hp with rfl | ⟨hp, -⟩
    · exact absurd hv OrdMap.not_mem_empty
    · exact absurd hp OrdMap.not_mem_empty
  have hreach : Reaches step NamesVacant oneProcess k := Reaches.refl.tail hfree hk
  obtain ⟨htidy, hcall⟩ := mappings_disjoint tidy_oneProcess hreach
  exact ⟨k, k', hreach, htidy, hk', hcall (.munmap 1 0x10000 0x1000) 0 k' trivial trivial hk'⟩

/-- A second mapping that the process puts over a part of its first overlaps it, and one that it
puts at the start of its first replaces it: the call succeeds, and the second page is no longer
mapped. -/
theorem named_range_overlaps :
    (∃ k, Reaches step (fun _ a ↦ a.MapCall) oneProcess k ∧ ¬k.Tidy) ∧
      ∃ k k' p, Reaches step (fun _ a ↦ a.MapCall) oneProcess k ∧ p ∈ k.procs ∧
        k.exec (.mmap 1 0x10000 0x1000 3 0x22 0 0) = some (.ok 0x10000, k') ∧
        ∀ p' ∈ k'.procs, ¬p.vmas.Retains (fun _ ↦ False) p'.vmas := by
  constructor
  · have hrun : ((oneProcess.step (.mmap 1 0x10000 0x2000 3 0x22 0 0)).bind fun k ↦
        k.step (.mmap 1 0x11000 0x1000 3 0x22 0 0)).any fun k ↦ k.procs.toList.any fun p ↦
          p.vmas.vmas.toList.any fun v ↦ p.vmas.vmas.toList.any fun w ↦
            decide (v.start < w.start ∧ w.start < v.endAddr) := by decide +kernel
    obtain ⟨k, hk, hrun⟩ := (Option.any_eq_true _ _).mp hrun
    obtain ⟨k₁, hk₁, hk⟩ := bind_eq_some_iff.mp hk
    obtain ⟨p, hp, hrun⟩ := List.any_eq_true.mp hrun
    obtain ⟨v, hv, hrun⟩ := List.any_eq_true.mp hrun
    obtain ⟨w, hw, hrun⟩ := List.any_eq_true.mp hrun
    refine ⟨k, (Reaches.refl.tail (by trivial) hk₁).tail (by trivial) hk, fun htidy ↦ ?_⟩
    have hbad := of_decide_eq_true hrun
    have := (htidy p hp).disjoint v hv w hw hbad.1
    omega
  · have hrun : (oneProcess.step (.mmap 1 0x10000 0x2000 3 0x22 0 0)).any fun k ↦
        (k.exec (.mmap 1 0x10000 0x1000 3 0x22 0 0)).any fun e ↦
          decide (e.1.toOption = some 0x10000) &&
            k.procs.toList.any (fun p ↦ p.vmas.vmas.toList.any fun v ↦
              decide (v.start ≤ 0x11000 ∧ 0x11000 < v.endAddr)) &&
            e.2.procs.toList.all fun p ↦ p.vmas.vmas.toList.all fun w ↦
              decide (¬(w.start ≤ 0x11000 ∧ 0x11000 < w.endAddr)) := by decide +kernel
    obtain ⟨k, hk, hrun⟩ := (Option.any_eq_true _ _).mp hrun
    obtain ⟨⟨r, k'⟩, hk', hrun⟩ := (Option.any_eq_true _ _).mp hrun
    rw [Bool.and_eq_true, Bool.and_eq_true] at hrun
    obtain ⟨⟨hr, hbefore⟩, hafter⟩ := hrun
    obtain ⟨p, hp, hbefore⟩ := List.any_eq_true.mp hbefore
    obtain ⟨v, hv, hbefore⟩ := List.any_eq_true.mp hbefore
    obtain rfl : r = .ok 0x10000 := by
      cases r with
      | error e => cases of_decide_eq_true hr
      | ok x =>
        cases of_decide_eq_true hr
        rfl
    refine ⟨k, k', p, Reaches.refl.tail (by trivial) hk, hp, hk', fun p' hp' hretains ↦ ?_⟩
    obtain ⟨w, hw, -, hin⟩ := hretains v hv 0x11000 (of_decide_eq_true hbefore) id
    exact of_decide_eq_true (List.all_eq_true.mp (List.all_eq_true.mp hafter p' hp') w hw) hin

end Kernel

end Edos.Memory

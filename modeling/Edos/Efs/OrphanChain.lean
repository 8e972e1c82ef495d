import Edos.Efs.DriverSpec
import Edos.Lib.Chain

/-!
# The orphan chain

A file that has lost its name but is still open is on a chain: `last_orphan` of the superblock is
the newest, `orphan_next` of each inode the one before it. The map `orphan_prev` is in memory and
leads the other way, so that an inode can be taken out from the middle. The chain is a doubly linked
list, one half of it on the disk.

An entry of the chain has 32 bits and an inode number 64. An inode with a larger number is not found
on the chain (`orphan_chain_truncates`); for all others the two halves agree (`orphan_chain_exact`).
-/

namespace Edos.EfsDriver

open Function List

open Fallible

variable {d d' : EfsDriver} {ino : ℕ}

/-! ## The chain -/

/-- The inode behind another one on the chain. -/
def orphanNext (d : EfsDriver) (ino : ℕ) : ℕ := (d.inodes ino).orphanNext.toNat

/-- The two halves of the chain hold these inodes, newest first. -/
structure OrphanChain (d : EfsDriver) (pending : List ℕ) : Prop where
  visits : Visits d.orphanNext 0 d.superblock.lastOrphan.toNat pending
  nodup : pending.Nodup
  prev : ∀ ino, d.orphanPrev ino = predecessor 0 pending ino

theorem orphanNext_eq_update {inode : DiskInode} (h : d'.inodes = update d.inodes ino inode) :
    d'.orphanNext = update d.orphanNext ino inode.orphanNext.toNat := by
  funext x
  rw [orphanNext, h]
  rcases eq_or_ne x ino with rfl | hne
  · rw [update_self, update_self]
  · rw [update_of_ne hne, update_of_ne hne, orphanNext]

theorem orphanNext_congr (h : d'.inodes = d.inodes) : d'.orphanNext = d.orphanNext := by
  funext x
  rw [orphanNext, h, orphanNext]

theorem toNat_ne_zero (n : UInt32) : n.toNat ≠ 0 ↔ n ≠ 0 := by
  rw [Ne, ← UInt32.toNat_zero, UInt32.toNat_inj]

theorem OrphanChain.nodup_zero {pending : List ℕ} (h : d.OrphanChain pending) :
    (0 :: pending).Nodup :=
  nodup_cons.mpr ⟨fun hmem ↦ h.visits.ne_nil hmem rfl, h.nodup⟩

variable {next : UInt32} {prev : ℕ}

theorem linkBack_ok (h : linkBack next prev d = (.ok (), d')) :
    d'.superblock = d.superblock ∧ d'.inodes = d.inodes ∧
      ∀ b, d'.orphanPrev b =
        if next.toNat ≠ 0 ∧ b = next.toNat then some prev else d.orphanPrev b := by
  simp only [toNat_ne_zero]
  rw [linkBack] at h
  split_ifs at h with h0
  · cases h
    refine ⟨rfl, rfl, fun b ↦ ?_⟩
    rw [setOrphanPrev_apply]
    simp only [h0, ne_eq, not_false_eq_true, true_and]
  · cases h
    exact ⟨rfl, rfl, fun b ↦ (if_neg fun hb ↦ h0 hb.1).symm⟩

theorem orphanAdd_ok (h : orphanAdd ino d = (.ok (), d')) :
    ino ≠ 0 ∧ d'.superblock.lastOrphan = .ofNat ino ∧
      d'.inodes = update d.inodes ino
        { d.inodes ino with orphanNext := d.superblock.lastOrphan, linkCount := 0 } ∧
      ∀ b, d'.orphanPrev b =
        if d.superblock.lastOrphan.toNat ≠ 0 ∧ b = d.superblock.lastOrphan.toNat then some ino
        else if b = ino then some 0 else d.orphanPrev b := by
  rw [orphanAdd, gets_bind, modify_bind] at h
  obtain ⟨inode, t, hread, h₁⟩ := bind_ok_iff.mp h
  obtain ⟨rfl, h0, rfl⟩ := readInode_ok hread
  obtain ⟨_, t, hwrite, h₂⟩ := bind_ok_iff.mp h₁
  obtain rfl := writeInode_ok hwrite
  obtain ⟨_, t, hsuper, h₃⟩ := bind_ok_iff.mp h₂
  obtain rfl := writeSuperblock_ok hsuper
  obtain ⟨hsuper, hinodes, hprevs⟩ := linkBack_ok h₃
  refine ⟨h0, by rw [hsuper]; rfl, hinodes, fun b ↦ ?_⟩
  rw [hprevs, setOrphanPrev_apply]
  rfl

theorem linkPast_ok (h : linkPast prev next d = (.ok (), d')) :
    d'.superblock.lastOrphan = (if prev = 0 then next else d.superblock.lastOrphan) ∧
      d'.inodes = (if prev = 0 then d.inodes else update d.inodes prev
        { d.inodes prev with orphanNext := next }) ∧
      d'.orphanPrev = d.orphanPrev := by
  rw [linkPast] at h
  split_ifs at h ⊢ with h0
  · rw [modify_bind] at h
    obtain rfl := writeSuperblock_ok h
    exact ⟨rfl, rfl, rfl⟩
  · obtain ⟨inode, t, hread, h₁⟩ := bind_ok_iff.mp h
    obtain ⟨rfl, -, rfl⟩ := readInode_ok hread
    obtain rfl := writeInode_ok h₁
    exact ⟨rfl, rfl, rfl⟩

/-- What is left of the chain when the inode with this predecessor is out. -/
theorem orphanDel_ok (hprev : d.orphanPrev ino = some prev) (h : orphanDel ino d = (.ok (), d')) :
    d'.superblock.lastOrphan =
        (if prev = 0 then (d.inodes ino).orphanNext else d.superblock.lastOrphan) ∧
      d'.inodes = (if prev = 0 then d.inodes else update d.inodes prev
        { d.inodes prev with orphanNext := (d.inodes ino).orphanNext }) ∧
      ∀ b, d'.orphanPrev b =
        if d.orphanNext ino ≠ 0 ∧ b = d.orphanNext ino then some prev
        else if b = ino then none else d.orphanPrev b := by
  rw [orphanDel, gets_bind, hprev] at h
  change (modify _ >>= _) d = _ at h
  rw [modify_bind] at h
  obtain ⟨inode, t, hread, h₂⟩ := bind_ok_iff.mp h
  obtain ⟨rfl, h0, rfl⟩ := readInode_ok hread
  obtain ⟨_, t, hpast, h₃⟩ := bind_ok_iff.mp h₂
  obtain ⟨hlast, hinodes, hprevs⟩ := linkPast_ok hpast
  obtain ⟨hsuper, hinodes', hprevs'⟩ := linkBack_ok h₃
  refine ⟨by rw [hsuper]; exact hlast, hinodes'.trans hinodes, fun b ↦ ?_⟩
  rw [hprevs', hprevs]
  exact congrArg _ (update_apply d.orphanPrev ino none b)

/-- **`orphan_add` pushes.** -/
theorem OrphanChain.add {pending : List ℕ} (hc : d.OrphanChain pending) (hnew : ino ∉ pending)
    (hino : ino < 2 ^ 32)
    (h : orphanAdd ino d = (.ok (), d')) : d'.OrphanChain (ino :: pending) := by
  obtain ⟨h0, hhead, hinodes, hprev⟩ := orphanAdd_ok h
  refine ⟨?_, nodup_cons.mpr ⟨hnew, hc.nodup⟩, fun b ↦ ?_⟩
  · rw [hhead, UInt32.toNat_ofNat_of_lt' hino, orphanNext_eq_update hinodes]
    exact hc.visits.push h0 hnew
  · rw [hprev, predecessor_push hc.visits hnew, hc.prev]

/-- **`orphan_del` unlinks.** -/
theorem OrphanChain.del {pending : List ℕ} (hc : d.OrphanChain pending)
    (h : orphanDel ino d = (.ok (), d')) : d'.OrphanChain (pending.erase ino) := by
  cases hp : d.orphanPrev ino with
  | none =>
    rw [orphanDel, gets_bind, hp] at h
    cases h
    rw [hc.prev, predecessor_eq_none_iff] at hp
    rwa [erase_of_not_mem hp]
  | some prev =>
    obtain ⟨hlast, hinodes, hprev⟩ := orphanDel_ok hp h
    rw [hc.prev] at hp
    refine ⟨?_, hc.nodup.erase ino, fun b ↦ ?_⟩
    · split_ifs at hlast hinodes with h0
      · subst h0
        rw [hlast, orphanNext_congr hinodes]
        exact hc.visits.unlink_head hc.nodup_zero hp
      · rw [hlast, orphanNext_eq_update hinodes]
        exact hc.visits.unlink hc.nodup_zero hp h0
    · rw [hprev, predecessor_unlink hc.visits hc.nodup_zero hp, hc.prev]

/-! ## Runs -/

/-- A call of the two functions. -/
inductive OrphanCall where
  | add (ino : ℕ)
  | del (ino : ℕ)

/-- What a call does, if it succeeds. -/
def OrphanCall.op : OrphanCall → Op Unit
  | .add ino => orphanAdd ino
  | .del ino => orphanDel ino

/-- The inodes added and not deleted, newest first. -/
def OrphanCall.pending (pending : List ℕ) : OrphanCall → List ℕ
  | .add ino => ino :: pending
  | .del ino => pending.erase ino

/-- The driver, with the inodes added and not deleted. A call that fails ends the run. -/
def orphanStep (s : EfsDriver × List ℕ) (call : OrphanCall) : Option (EfsDriver × List ℕ) :=
  match call.op s.1 with
  | (.ok (), d) => some (d, call.pending s.2)
  | (.error _, _) => none

/-- An inode that is added is not on the chain, and its number fits the 32 bits of a link. -/
def Addressable (s : EfsDriver × List ℕ) : OrphanCall → Prop
  | .add ino => ino ∉ s.2 ∧ ino < 2 ^ 32
  | .del _ => True

/-- Nothing is on the chain. -/
def NoOrphans (d : EfsDriver) : Prop := d.superblock.lastOrphan = 0 ∧ ∀ ino, d.orphanPrev ino = none

theorem NoOrphans.orphanChain (h : d.NoOrphans) : d.OrphanChain [] := by
  refine ⟨?_, nodup_nil, h.2⟩
  rw [h.1]
  rfl

variable {call : OrphanCall}

theorem orphanStep_eq_some {s s' : EfsDriver × List ℕ}
    (h : orphanStep s call = some s') : call.op s.1 = (.ok (), s'.1) ∧ s'.2 = call.pending s.2 := by
  rw [orphanStep] at h
  split at h
  · cases h
    exact ⟨‹_›, rfl⟩
  · cases h

theorem OrphanChain.step {s s' : EfsDriver × List ℕ} (hc : s.1.OrphanChain s.2)
    (hadd : Addressable s call) (h : orphanStep s call = some s') : s'.1.OrphanChain s'.2 := by
  obtain ⟨hop, hpending⟩ := orphanStep_eq_some h
  rw [hpending]
  cases call with
  | add ino => exact hc.add hadd.1 hadd.2 hop
  | del ino => exact hc.del hop

/-- **The orphan chain.** Calls that succeed, in any order, leave the inodes added and not deleted
on the chain, newest first and each once, and `orphan_prev` leads back from each of them and from
nothing else. The numbers of the inodes added have to fit 32 bits. -/
theorem orphan_chain_exact {d₀ d : EfsDriver} {pending : List ℕ} (hempty : d₀.NoOrphans)
    (h : Reaches orphanStep Addressable (d₀, []) (d, pending)) : d.OrphanChain pending :=
  h.invariant (I := fun s ↦ s.1.OrphanChain s.2) hempty.orphanChain
    fun _ _ _ hc hadd hs ↦ hc.step hadd hs

/-- Two files are unlinked, and the first is closed. -/
theorem orphan_chain_exact_twoFiles : ∃ d,
    (blank [.ofBytes []] 64 64).NoOrphans ∧
      Reaches orphanStep Addressable (blank [.ofBytes []] 64 64, []) (d, [7]) ∧
        d.OrphanChain [7] := by
  have hempty : (blank [.ofBytes []] 64 64).NoOrphans := ⟨rfl, fun _ ↦ rfl⟩
  have h₁ : Reaches orphanStep Addressable (blank [.ofBytes []] 64 64, []) _ :=
    .tail (a := OrphanCall.add 5) .refl ⟨not_mem_nil, by decide⟩ rfl
  have h₂ := h₁.tail (a := OrphanCall.add 7) ⟨by decide, by decide⟩ rfl
  have h₃ := h₂.tail (a := OrphanCall.del 5) trivial rfl
  exact ⟨_, hempty, h₃, orphan_chain_exact hempty h₃⟩

/-- An inode is added that is not on the chain. -/
def NotChained (s : EfsDriver × List ℕ) : OrphanCall → Prop
  | .add ino => ino ∉ s.2
  | .del _ => True

/-- The number of the inode is cut to 0, and the chain is empty. -/
theorem orphan_chain_truncates : ∃ d₀ d : EfsDriver, ∃ pending : List ℕ, d₀.NoOrphans ∧
    Reaches orphanStep NotChained (d₀, []) (d, pending) ∧ ¬d.OrphanChain pending := by
  have h : Reaches orphanStep NotChained (blank [.ofBytes [], .ofBytes []] 64 (2 ^ 32 - 1), []) _ :=
    .tail (a := OrphanCall.add (2 ^ 32)) .refl not_mem_nil rfl
  refine ⟨_, _, _, ⟨rfl, fun _ ↦ rfl⟩, h, fun hc ↦ ?_⟩
  exact absurd hc.visits.1 (by decide)

end Edos.EfsDriver

import Edos.Fsck.DirTree

/-!
# The walks end

What the checker follows may be anything: the orphan chain may loop or leave the file system,
directories may contain each other, and a record may have any length. The walks end all the same, as
the sets of what has been visited and the least length of a record see to it. Every round of the
first two walks adds a visit to what they return, so a walk has ended if more fuel does not change
that. A record that is not in use adds nothing, so the loop over the records says whether its fuel
has lasted.
-/

namespace Edos.Fsck

open List

/-- **Every round goes on by twelve bytes at least, within the block, or stops.** -/
theorem dirRound_next {block : List UInt8} {blockSize dirIno logicalBlock offset next : ℕ}
    (h : (dirRound block blockSize dirIno logicalBlock offset).next = some next) :
    offset + 12 ≤ next ∧ next ≤ blockSize := by
  have hadd := add_le_dirEntryMinSize (headerAt block offset).nameLen
  rw [dirEntryHeaderSize] at hadd
  rw [dirRound] at h
  dsimp only at h
  split_ifs at h <;> cases h <;> omega

/-- So the fuel lasts. -/
theorem parseDirBlockFrom_isSome (block : List UInt8) (blockSize dirIno logicalBlock : ℕ)
    {fuel offset : ℕ} (hoffset : offset ≤ blockSize) (hfuel : blockSize < offset + 12 * fuel) :
    (parseDirBlockFrom block blockSize dirIno logicalBlock fuel offset).isSome := by
  induction fuel generalizing offset with
  | zero => omega
  | succ fuel ih =>
    rw [parseDirBlockFrom]
    cases hnext : (dirRound block blockSize dirIno logicalBlock offset).next with
    | none => rfl
    | some next =>
      have hnext := dirRound_next hnext
      rw [Option.isSome_map]
      exact ih hnext.2 (by omega)

namespace Image

variable {img : Image} {dir : ℕ} {e : DirEntry} {visited : List ℕ} {parent : ℕ}

theorem scanned_of_pushed {q : ℕ × ℕ}
    (h : (img.processEntry visited dir parent e).pushed = some q) :
    ∃ info ∈ img.infos, info.ino = q.1 := by
  rw [processEntry] at h
  cases hinfo : findInfo img.infos e.1.inode.toNat with
  | none =>
    simp only [hinfo] at h
    split_ifs at h
  | some info =>
    simp only [hinfo] at h
    obtain ⟨hmem, hino⟩ := findInfo_eq_some hinfo
    split_ifs at h <;> cases h <;> exact ⟨info, hmem, hino⟩

/-- The directories that are visited. -/
def visitedDirs (img : Image) : List ℕ := visitedKeys Prod.fst img.visits

/-- The inodes that the walk can come to: the root, and those that have been scanned. -/
def walkable (img : Image) : Finset ℕ :=
  insert efsRootIno.toNat (img.infos.map InodeInfo.ino).toFinset

theorem card_walkable (img : Image) :
    (img.walkable.filter (· ∉ ([] : List ℕ))).card ≤ img.infos.length + 1 := by
  refine (Finset.card_filter_le _ _).trans ((Finset.card_insert_le _ _).trans ?_)
  exact Nat.succ_le_succ ((toFinset_card_le _).trans_eq (length_map _))

theorem walkable_of_pushed (visited : List ℕ) (q : ℕ × ℕ) :
    ∀ x ∈ (img.outcomes (visited, q)).filterMap EntryOutcome.pushed, x.1 ∈ img.walkable := by
  intro x hx
  obtain ⟨o, ho, hx⟩ := mem_filterMap.mp hx
  obtain ⟨e, -, rfl⟩ := List.mem_map.mp ho
  obtain ⟨info, hmem, hino⟩ := scanned_of_pushed hx
  exact Finset.mem_insert_of_mem (List.mem_toFinset.mpr (List.mem_map.mpr ⟨info, hmem, hino⟩))

theorem walkable_root (img : Image) :
    ∀ x ∈ [(efsRootIno.toNat, efsRootIno.toNat)], x.1 ∈ img.walkable := by
  intro x hx
  rw [mem_singleton.mp hx]
  exact Finset.mem_insert_self _ _

/-- The inodes of the chain are different, and inodes of the file system. -/
theorem chainFrom_fuel {fuel fuel' ino : ℕ} {set : List ℕ} (hset : set.Nodup)
    (hrange : ∀ i ∈ set, 0 < i ∧ i ≤ img.totalInodes) (hino : 0 < ino)
    (hfuel : img.totalInodes < fuel + set.length) (hle : fuel ≤ fuel') :
    img.chainFrom fuel' ino set = img.chainFrom fuel ino set ∧
      (img.chainFrom fuel ino set).1.Nodup := by
  induction fuel generalizing fuel' ino set with
  | zero =>
    have hsub : set ⊆ range' 1 img.totalInodes := fun i hi ↦ by
      have := hrange i hi
      rw [mem_range'_1]
      omega
    have hlen := (hset.subperm hsub).length_le
    rw [length_range'] at hlen
    omega
  | succ fuel ih =>
    obtain ⟨fuel', rfl⟩ : ∃ k, fuel' = k + 1 := ⟨fuel' - 1, by omega⟩
    rw [chainFrom, chainFrom]
    split_ifs with hhigh hmem
    · exact ⟨rfl, hset⟩
    · exact ⟨rfl, hset⟩
    have hset' := nodup_cons.mpr ⟨hmem, hset⟩
    cases img.readInode ino with
    | none => exact ⟨rfl, hset'⟩
    | some inode =>
      dsimp only
      by_cases hnext : inode.orphanNext = 0
      · rw [if_pos hnext, if_pos hnext]
        exact ⟨rfl, hset'⟩
      rw [if_neg hnext, if_neg hnext]
      have hpos : 0 < inode.orphanNext.toNat :=
        Nat.pos_of_ne_zero fun h ↦ hnext (UInt32.toNat_inj.mp h)
      obtain ⟨heq, hnodup⟩ := @ih fuel' inode.orphanNext.toNat (ino :: set) hset'
        (forall_mem_cons.mpr ⟨⟨hino, Nat.le_of_not_lt hhigh⟩, hrange⟩) hpos
        (by rw [length_cons]; omega) (by omega)
      rw [heq]
      exact ⟨rfl, hnodup⟩

end Image

end Edos.Fsck

import Edos.Efs.OrphanChain

/-!
# Unlinked files

`remove_file_inner` puts what it unlinks on the orphan chain, except for a symbolic link. When the
last reference is dropped, `evict_inode` takes it off the chain and frees its blocks and its inode.
The two functions tell files apart by different tests: a named pipe goes on the chain, and
`evict_inode` returns at once for everything that is not a regular file. And a leaf of the extent
tree that cannot be read counts as an empty map, so the blocks of the data stay in use and the call
succeeds all the same (`evict_reclaims_iff`, `not_reclaimed`).
-/

namespace Edos.EfsDriver

open Function List Option

open Fallible

variable {d d₀ d' : EfsDriver} {ino : ℕ}

/-! ## Calls that leave the chain alone -/

/-- The links of the chain, its head and the map back are the same. -/
structure SameLinks (d₀ d : EfsDriver) : Prop where
  next : ∀ x, (d.inodes x).orphanNext = (d₀.inodes x).orphanNext
  last : d.superblock.lastOrphan = d₀.superblock.lastOrphan
  prev : d.orphanPrev = d₀.orphanPrev

theorem SameLinks.refl (d : EfsDriver) : SameLinks d d := ⟨fun _ ↦ rfl, rfl, rfl⟩

variable {pending : List ℕ}

theorem SameLinks.orphanChain (h : SameLinks d₀ d) (hc : d₀.OrphanChain pending) :
    d.OrphanChain pending := by
  refine ⟨?_, hc.nodup, fun x ↦ ?_⟩
  · rw [h.last]
    exact hc.visits.congr fun x _ ↦ by rw [orphanNext, h.next, orphanNext]
  · rw [h.prev, hc.prev]

theorem SameLinks.of_eq (h : SameLinks d₀ d) (hinodes : d'.inodes = d.inodes)
    (hlast : d'.superblock.lastOrphan = d.superblock.lastOrphan)
    (hprev : d'.orphanPrev = d.orphanPrev) : SameLinks d₀ d' :=
  ⟨fun x ↦ by rw [hinodes, h.next], hlast.trans h.last, hprev.trans h.prev⟩

theorem stable_sameLinks (d₀ : EfsDriver) :
    Stable (SameLinks d₀) fun ino inode ↦ inode.orphanNext = (d₀.inodes ino).orphanNext where
  independent _ _ hinodes hprev hlast _ _ h := h.of_eq hinodes hlast hprev
  read _ ino h := h.next ino
  write d ino inode h hinode := by
    refine ⟨fun x ↦ ?_, h.last, h.prev⟩
    rcases eq_or_ne x ino with rfl | hne
    · exact (congrArg DiskInode.orphanNext (update_self ..)).trans hinode
    · exact (congrArg DiskInode.orphanNext (update_of_ne hne ..)).trans (h.next x)
  storage _ _ _ h := h

theorem keepsLinks_freeFileStorage (ino : ℕ) (inode : DiskInode) :
    Keeps (SameLinks d₀) (freeFileStorage ino inode) fun _ ↦ True :=
  (stable_sameLinks d₀).independent.read (readOnly_loadOrDefault inode) fun _ ↦
    (keeps_forM fun b _ ↦ (stable_sameLinks d₀).independent.freeBlock b).bind fun _ _ ↦
    (stable_sameLinks d₀).independent.freeInode (fun _ _ _ h ↦ h.of_eq rfl rfl rfl) ino

/-! ## Bits -/

/-- Where the bits of the bitmaps are. -/
structure Geometry where
  bitmaps : List (ℕ × ℕ)
  blocksPerGroup : ℕ
  inodesPerGroup : ℕ

/-- The bitmap block and the bit of a block. -/
def Geometry.blockPlace (G : Geometry) (b : ℕ) : Option (ℕ × ℕ) :=
  G.bitmaps[b / G.blocksPerGroup]?.map fun p ↦ (p.1, b % G.blocksPerGroup)

/-- The bitmap block and the bit of an inode. -/
def Geometry.inodePlace (G : Geometry) (ino : ℕ) : Option (ℕ × ℕ) :=
  G.bitmaps[(ino - 1) / G.inodesPerGroup]?.map fun p ↦ (p.2, (ino - 1) % G.inodesPerGroup)

def geometry (d : EfsDriver) : Geometry where
  bitmaps := d.bgdTable.map fun bgd ↦ (bgd.blockBitmapBlock.toNat, bgd.inodeBitmapBlock.toNat)
  blocksPerGroup := d.blocksPerGroup
  inodesPerGroup := d.inodesPerGroup

/-- There is a bit at this place, and it is clear. -/
def clearAt (d : EfsDriver) (place : Option (ℕ × ℕ)) : Bool :=
  place.any fun p ↦ !bitAt (d.blocks p.1).bytes p.2

def blockFree (d : EfsDriver) (b : ℕ) : Bool := d.clearAt (d.geometry.blockPlace b)

def inodeFree (d : EfsDriver) (ino : ℕ) : Bool := d.clearAt (d.geometry.inodePlace ino)

theorem geometry_countBlocks (d : EfsDriver) (g : ℕ) (f : ℕ → ℕ) :
    (d.countBlocks g f).geometry = d.geometry := by
  refine congrArg (Geometry.mk · d.blocksPerGroup d.inodesPerGroup) ?_
  refine map_modify_of_eq ?_ d.bgdTable g
  exact fun _ ↦ rfl

theorem geometry_countInodes (d : EfsDriver) (g : ℕ) (f : ℕ → ℕ) :
    (d.countInodes g f).geometry = d.geometry := by
  refine congrArg (Geometry.mk · d.blocksPerGroup d.inodesPerGroup) ?_
  refine map_modify_of_eq ?_ d.bgdTable g
  exact fun _ ↦ rfl

/-- The bits at these places have been cleared, and no others. -/
structure Frees (places : List (Option (ℕ × ℕ))) (d d' : EfsDriver) : Prop where
  geometry : d'.geometry = d.geometry
  clear : ∀ place, d'.clearAt place ↔ d.clearAt place ∨ place ∈ places

theorem Frees.trans {d₁ d₂ d₃ : EfsDriver} {places places' : List (Option (ℕ × ℕ))}
    (h : Frees places d₁ d₂) (h' : Frees places' d₂ d₃) : Frees (places ++ places') d₁ d₃ := by
  refine ⟨h'.geometry.trans h.geometry, fun place ↦ ?_⟩
  rw [h'.clear, h.clear, mem_append]
  tauto

theorem Unchanged.frees (h : Unchanged d d') : Frees [] d d' := by
  obtain ⟨fs, rfl⟩ := h
  exact ⟨rfl, fun place ↦ (or_iff_left not_mem_nil).symm⟩

theorem Frees.of_clearBit {place : Option (ℕ × ℕ)} {blk bit : ℕ}
    (hbit : bit / 8 < journalBlockSize) (hgeometry : d'.geometry = d.geometry)
    (hblocks : d'.blocks = update d.blocks blk ((d.blocks blk).clearBit bit))
    (hplace : place = some (blk, bit)) : Frees [place] d d' := by
  have hlen : bit / 8 < (d.blocks blk).bytes.length := by rwa [(d.blocks blk).length_bytes]
  refine ⟨hgeometry, fun place' ↦ ?_⟩
  rw [mem_singleton, hplace]
  cases place' with
  | none => exact (or_iff_left nofun).symm
  | some p =>
    obtain ⟨blk', bit'⟩ := p
    simp only [clearAt, any_some, Bool.not_eq_true', hblocks, some.injEq, Prod.mk.injEq]
    rcases eq_or_ne blk' blk with rfl | hne
    · rw [update_self, Page.clearBit, bitAt_clearBit hlen]
      rcases eq_or_ne bit' bit with rfl | hbit
      · simp
      · simp [hbit]
    · simp [hne]

variable {b : ℕ}

theorem freeBlock_frees (h : freeBlock b d = (.ok (), d')) :
    Frees [d.geometry.blockPlace b] d d' := by
  obtain ⟨bgd, fs, log, hget, hbit, heq⟩ := freeBlock_ok h
  have hgeometry : d'.geometry = d.geometry := heq ▸ geometry_countBlocks _ _ _
  refine .of_clearBit hbit hgeometry (congrArg blocks heq) ?_
  simp only [Geometry.blockPlace, geometry, getElem?_map, hget, map_some]

theorem freeInode_frees (h : freeInode ino d = (.ok (), d')) :
    Frees [d.geometry.inodePlace ino] d d' := by
  obtain ⟨bgd, fs, log, hget, hbit, heq⟩ := freeInode_ok h
  have hgeometry : d'.geometry = d.geometry := heq ▸ geometry_countInodes _ _ _
  refine .of_clearBit hbit hgeometry (congrArg blocks heq) ?_
  simp only [Geometry.inodePlace, geometry, getElem?_map, hget, map_some]

/-- **A loop of frees.** -/
theorem forM_freeBlock_frees {bs : List ℕ} (h : bs.forM freeBlock d = (.ok (), d')) :
    Frees (bs.map d.geometry.blockPlace) d d' := by
  induction bs generalizing d with
  | nil =>
    cases h
    exact (Unchanged.refl _).frees
  | cons b bs ih =>
    obtain ⟨_, t, hb, h₁⟩ := bind_ok_iff.mp h
    have hfrees := freeBlock_frees hb
    have hrest := ih h₁
    rw [hfrees.geometry] at hrest
    exact hfrees.trans hrest

/-! ## Leaves that cannot be read -/

/-- Blocks are read, or one of the accesses is not answered. -/
theorem readBlocks_cases (bs : List ℕ) (d : EfsDriver) :
    (true ∉ d.faults.take bs.length ∧ ∃ data, (readBlocks bs d).1 = .ok data) ∨
      true ∈ d.faults.take bs.length ∧ (readBlocks bs d).1 = .error (.error .io) := by
  induction bs generalizing d with
  | nil => exact .inl ⟨by simp, [], rfl⟩
  | cons b bs ih =>
    have hio := io_eq d
    cases hf : d.faults.headD false with
    | true =>
      rw [hf, if_pos rfl] at hio
      refine .inr ⟨?_, ?_⟩
      · cases hfaults : d.faults with
        | nil => rw [hfaults] at hf; cases hf
        | cons f fs => rw [hfaults] at hf; cases hf; exact mem_cons_self
      · exact congrArg Prod.fst (bind_of_error (bind_of_error hio))
    | false =>
      rw [hf, if_neg nofun] at hio
      have htake : true ∈ d.faults.take (b :: bs).length ↔ true ∈ d.faults.tail.take bs.length := by
        cases hfaults : d.faults with
        | nil => simp
        | cons f fs => rw [hfaults] at hf; cases hf; simp
      have hread : readBlock b d = (.ok (d.blocks b), { d with faults := d.faults.tail }) :=
        bind_of_ok hio
      rw [htake, readBlocks, bind_of_ok hread]
      refine (ih { d with faults := d.faults.tail }).imp ?_ ?_
      · rintro ⟨hanswers, data, hdata⟩
        exact ⟨hanswers, _, congrArg Prod.fst (bind_of_ok (Prod.ext hdata rfl))⟩
      · rintro ⟨hfails, herror⟩
        exact ⟨hfails, congrArg Prod.fst (bind_of_error (Prod.ext herror rfl))⟩

variable {inode : DiskInode}

/-- The map is what is in the tree if all leaves are read, and otherwise empty. -/
theorem loadOrDefault_ok {map : ExtentMap} (h : loadOrDefault inode d = (.ok map, d')) :
    map = if true ∈ d.faults.take inode.treeBlocks.length then [] else inode.extentsOrNone := by
  cases htree : inode.loadExtentMap with
  | error e =>
    have hload : loadExtentMap inode d = (.error e, d) := by
      rw [loadExtentMap, htree]
      rfl
    have hempty : inode.extentsOrNone = [] := by
      rw [DiskInode.extentsOrNone, htree]
      rfl
    rw [loadOrDefault, hload] at h
    rw [hempty, ite_self]
    cases e <;> cases h
    rfl
  | ok m =>
    have hload : loadExtentMap inode d =
        (readBlocks inode.treeBlocks >>= fun _ ↦ pure m : Op ExtentMap) d := by
      rw [loadExtentMap, htree]
      rfl
    have hmap : inode.extentsOrNone = m := by
      rw [DiskInode.extentsOrNone, htree]
      rfl
    rw [loadOrDefault, hload] at h
    rw [hmap]
    obtain ⟨hanswers, data, hdata⟩ | ⟨hfails, herror⟩ := readBlocks_cases inode.treeBlocks d
    · rw [bind_of_ok (Prod.ext hdata rfl)] at h
      cases h
      rw [if_neg hanswers]
    · rw [bind_of_error (Prod.ext herror rfl)] at h
      cases h
      rw [if_pos hfails]

/-- Which bits are cleared. -/
theorem freeFileStorage_frees (h : freeFileStorage ino inode d = (.ok (), d')) :
    Frees (((if true ∈ d.faults.take inode.treeBlocks.length then [] else
        inode.extentsOrNone.physical) ++ inode.treeBlocks).map d.geometry.blockPlace ++
      [d.geometry.inodePlace ino]) d d' := by
  obtain ⟨map, t, hmap, h₁⟩ := bind_ok_iff.mp h
  obtain ⟨_, u, hblocks, h₂⟩ := bind_ok_iff.mp h₁
  have hload := ((readOnly_loadOrDefault inode).unchanged hmap).frees
  have hfrees := forM_freeBlock_frees hblocks
  have hinode := freeInode_frees h₂
  rw [hfrees.geometry, hload.geometry] at hinode
  rw [hload.geometry] at hfrees
  have hphysical : map.physical = if true ∈ d.faults.take inode.treeBlocks.length then [] else
      inode.extentsOrNone.physical := by
    rw [loadOrDefault_ok hmap]
    split_ifs <;> rfl
  rw [← hphysical]
  exact (hload.trans hfrees).trans hinode

/-- The checksum of the superblock does not matter for where the bits are. -/
theorem geometry_of_checksum {checksum : UInt32} (hbgd : d'.bgdTable = d.bgdTable)
    (hsuper : d'.superblock = { d.superblock with checksum }) : d'.geometry = d.geometry := by
  simp only [geometry, blocksPerGroup, inodesPerGroup, hbgd, hsuper]

theorem writeSuperblock_frame (h : writeSuperblock d = (.ok (), d')) :
    d'.faults = d.faults.tail ∧ d'.geometry = d.geometry ∧
      ∀ b ≠ superblockBlock, d'.blocks b = d.blocks b := by
  obtain rfl := writeSuperblock_ok h
  exact ⟨rfl, geometry_of_checksum rfl rfl, fun b hb ↦ update_of_ne hb ..⟩

/-- Taking an inode off the chain writes to no block but that of the superblock. -/
theorem orphanDel_frame {prev : ℕ} (hprev : d.orphanPrev ino = some prev)
    (h : orphanDel ino d = (.ok (), d')) :
    d'.faults = d.faults.drop (if prev = 0 then 2 else 4) ∧ d'.geometry = d.geometry ∧
      ∀ b ≠ superblockBlock, d'.blocks b = d.blocks b := by
  rw [orphanDel, gets_bind, hprev] at h
  change (modify _ >>= _) d = _ at h
  rw [modify_bind] at h
  obtain ⟨inode, t, hread, h₁⟩ := bind_ok_iff.mp h
  obtain ⟨rfl, -, rfl⟩ := readInode_ok hread
  obtain ⟨_, t, hpast, h₂⟩ := bind_ok_iff.mp h₁
  have hback : d'.faults = t.faults ∧ d'.geometry = t.geometry ∧ d'.blocks = t.blocks := by
    rw [linkBack] at h₂
    split_ifs at h₂ <;> cases h₂ <;> exact ⟨rfl, rfl, rfl⟩
  rw [hback.1, hback.2.1, hback.2.2]
  rw [linkPast] at hpast
  split_ifs at hpast ⊢ with h0
  · rw [modify_bind] at hpast
    obtain ⟨hfaults, hgeometry, hblocks⟩ := writeSuperblock_frame hpast
    refine ⟨hfaults.trans ?_, hgeometry, hblocks⟩
    change d.faults.tail.tail = _
    simp only [← drop_one, drop_drop]
  · obtain ⟨prevInode, u, hread', h₃⟩ := bind_ok_iff.mp hpast
    obtain ⟨rfl, -, rfl⟩ := readInode_ok hread'
    obtain rfl := writeInode_ok h₃
    refine ⟨?_, rfl, fun b _ ↦ rfl⟩
    change d.faults.tail.tail.tail.tail = _
    simp only [← drop_one, drop_drop]

/-! ## Runs -/

/-- What happens to files: one is unlinked, the last reference to one is dropped, or something else
is done that leaves the chain alone. -/
inductive FileAction where
  | unlink (parentIno ino : ℕ) (name : String)
  | evict (ino : ℕ)
  | other (d' : EfsDriver)

/-- A call that fails ends the run, unless it has left the chain alone. -/
def fileStep (d : EfsDriver) : FileAction → Option EfsDriver
  | .unlink parentIno ino name =>
    match removeFileInner parentIno ino (d.inodes ino) name d with
    | (.ok (), d') => some d'
    | (.error _, _) => none
  | .evict ino =>
    match evictInode ino d with
    | (.ok (), d') => some d'
    | (.error _, _) => none
  | .other d' => some d'

variable {parentIno : ℕ} {name : String}

theorem fileStep_unlink (h : (removeFileInner parentIno ino (d.inodes ino) name d).1 = .ok ()) :
    fileStep d (.unlink parentIno ino name) =
      some (removeFileInner parentIno ino (d.inodes ino) name d).2 := by
  rw [fileStep]
  split <;> simp_all

/-- An inode that is unlinked is not on the chain and has a number that fits a link. -/
def Tracked (d : EfsDriver) : FileAction → Prop
  | .unlink _ ino _ => d.orphanPrev ino = none ∧ ino < 2 ^ 32
  | .evict _ => True
  | .other d' => SameLinks d d'

theorem removeFileInner_chains (hc : d.OrphanChain pending) (hnew : d.orphanPrev ino = none)
    (hino : ino < 2 ^ 32) (h : removeFileInner parentIno ino inode name d = (.ok (), d')) :
    d'.OrphanChain (if inode.kind = .symlink then pending else ino :: pending) := by
  obtain ⟨_, t, hremove, h₁⟩ := bind_ok_iff.mp h
  have hct := (((stable_sameLinks d).removeDirEntry parentIno name).state hremove
      (.refl d)).orphanChain hc
  split_ifs at h₁ ⊢ with hkind
  · exact ((keepsLinks_freeFileStorage ino inode).state h₁ (.refl t)).orphanChain hct
  · rw [hc.prev, predecessor_eq_none_iff] at hnew
    exact hct.add hnew hino h₁

theorem evictInode_ok (h : evictInode ino d = (.ok (), d')) :
    ((d.inodes ino).kind ≠ .regular ∧ Unchanged d d') ∨
      (d.inodes ino).kind = .regular ∧ ∃ t t', t = { d with faults := d.faults.tail } ∧
        orphanDel ino t = (.ok (), t') ∧
        freeFileStorage ino (d.inodes ino) t' = (.ok (), d') := by
  obtain ⟨inode, t, hread, h₁⟩ := bind_ok_iff.mp h
  obtain ⟨rfl, -, ht⟩ := readInode_ok hread
  split_ifs at h₁ with hkind
  · cases h₁
    exact .inl ⟨hkind, _, ht⟩
  · obtain ⟨_, t', hdel, h₂⟩ := bind_ok_iff.mp h₁
    exact .inr ⟨not_not.mp hkind, t, t', ht, hdel, h₂⟩

theorem Unchanged.sameLinks (h : Unchanged d d') : SameLinks d d' := by
  obtain ⟨fs, rfl⟩ := h
  exact ⟨fun _ ↦ rfl, rfl, rfl⟩

theorem evictInode_chains (hc : d.OrphanChain pending) (h : evictInode ino d = (.ok (), d')) :
    d'.OrphanChain (if (d.inodes ino).kind = .regular then pending.erase ino else pending) := by
  obtain ⟨hkind, hunchanged⟩ | ⟨hkind, t, t', ht, hdel, hfree⟩ := evictInode_ok h
  · rw [if_neg hkind]
    exact hunchanged.sameLinks.orphanChain hc
  · rw [if_pos hkind]
    have hct := ((show Unchanged d t from ⟨_, ht⟩).sameLinks.orphanChain hc).del hdel
    exact ((keepsLinks_freeFileStorage ino _).state hfree (.refl t')).orphanChain hct

/-- The chain is a list, in every state reached. -/
theorem exists_orphanChain (hempty : d₀.NoOrphans) (h : Reaches fileStep Tracked d₀ d) :
    ∃ pending, d.OrphanChain pending := by
  refine h.invariant (I := fun d ↦ ∃ pending, d.OrphanChain pending) ⟨[], hempty.orphanChain⟩ ?_
  rintro d action d' ⟨pending, hc⟩ htracked hstep
  cases action with
  | unlink parentIno ino name =>
    rw [fileStep] at hstep
    split at hstep
    · cases hstep
      exact ⟨_, removeFileInner_chains hc htracked.1 htracked.2 ‹_›⟩
    · cases hstep
  | evict ino =>
    rw [fileStep] at hstep
    split at hstep
    · cases hstep
      exact ⟨_, evictInode_chains hc ‹_›⟩
    · cases hstep
  | other d'' =>
    cases hstep
    exact ⟨pending, SameLinks.orphanChain htracked hc⟩

/-- An inode is gone: off the chain, its bit clear, and the blocks it had free. -/
structure Reclaimed (ino : ℕ) (inode : DiskInode) (d : EfsDriver) : Prop where
  offChain : ∃ pending, d.OrphanChain pending ∧ ino ∉ pending
  inodeFree : d.inodeFree ino
  blocksFree : ∀ b ∈ inode.ownedBlocks, d.blockFree b

/-- How many accesses an eviction makes before it reads the leaves of the extent tree. -/
def accessesBefore (d : EfsDriver) (ino : ℕ) : ℕ := if d.orphanPrev ino = some 0 then 3 else 5

/-- The device answers when the leaves are read. -/
def LeavesAnswer (d : EfsDriver) (ino : ℕ) : Prop :=
  true ∉ (d.faults.drop (d.accessesBefore ino)).take (d.inodes ino).treeBlocks.length

/-- The blocks of the data have bits of their own: they are not those of the tree or of the inode,
and not in the block of the superblock. -/
structure DataApart (d : EfsDriver) (ino : ℕ) : Prop where
  tree : ∀ b ∈ (d.inodes ino).extentsOrNone.physical,
    d.geometry.blockPlace b ∉ (d.inodes ino).treeBlocks.map d.geometry.blockPlace
  inode : ∀ b ∈ (d.inodes ino).extentsOrNone.physical,
    d.geometry.blockPlace b ≠ d.geometry.inodePlace ino
  superblock : ∀ b ∈ (d.inodes ino).extentsOrNone.physical,
    ∀ p ∈ d.geometry.blockPlace b, p.1 ≠ superblockBlock

/-- Which bits the eviction of a regular file clears, apart from the block of the superblock. -/
theorem evictInode_clears (hkind : (d.inodes ino).kind = .regular)
    (hchained : d.orphanPrev ino ≠ none) (h : evictInode ino d = (.ok (), d')) :
    d'.geometry = d.geometry ∧ ∀ place : Option (ℕ × ℕ), (∀ p ∈ place, p.1 ≠ superblockBlock) →
      (d'.clearAt place ↔ d.clearAt place ∨
        d.LeavesAnswer ino ∧
          place ∈ (d.inodes ino).extentsOrNone.physical.map d.geometry.blockPlace ∨
        place ∈ (d.inodes ino).treeBlocks.map d.geometry.blockPlace ∨
        place = d.geometry.inodePlace ino) := by
  obtain ⟨hkind', -⟩ | ⟨-, t, t', ht, hdel, hfree⟩ := evictInode_ok h
  · exact absurd hkind hkind'
  obtain ⟨prev, hprev⟩ := ne_none_iff_exists'.mp hchained
  have hprev' : t.orphanPrev ino = some prev := by rw [ht, hprev]
  obtain ⟨hfaults, hgeometry, hblocks⟩ := orphanDel_frame hprev' hdel
  have hfrees := freeFileStorage_frees hfree
  have hanswer : true ∉ t'.faults.take (d.inodes ino).treeBlocks.length ↔ d.LeavesAnswer ino := by
    rw [LeavesAnswer, accessesBefore, hprev, hfaults, ht, ← drop_one, drop_drop]
    cases prev <;> rfl
  have hgeometry' : t'.geometry = d.geometry := hgeometry.trans (ht ▸ rfl)
  refine ⟨hfrees.geometry.trans hgeometry', fun place hplace ↦ ?_⟩
  have hkept : t'.clearAt place = d.clearAt place := by
    cases place with
    | none => rfl
    | some p => rw [clearAt, any_some, hblocks p.1 (hplace p rfl), ht]; rfl
  rw [hfrees.clear, hkept, hgeometry', mem_append, mem_singleton, ← hanswer]
  split_ifs with hfails
  · simp [hfails]
  · simp only [hfails, not_false_eq_true, true_and, mem_append, map_append]
    tauto

/-- A file with one block, which a tree with one leaf leads to. -/
def oneBlockFile : DiskInode := ⟨.regular, 1, 100, 0, .extents (.ok [⟨0, 1, 9⟩]) [10]⟩

/-- The file system with the file, its blocks in use. -/
def oneBlockDriver : EfsDriver :=
  { withEntry oneBlockFile with blocks := update (fun _ ↦ .padded []) 3 (.padded [0, 6]) }

/-- The file is unlinked. -/
def oneBlockUnlinked : EfsDriver :=
  (removeFileInner 1 5 (oneBlockDriver.inodes 5) "p" oneBlockDriver).2

theorem reaches_oneBlockUnlinked : Reaches fileStep Tracked oneBlockDriver oneBlockUnlinked :=
  .tail (a := FileAction.unlink 1 5 "p") .refl ⟨rfl, by decide⟩ (fileStep_unlink rfl)

theorem eq_ok_of_toBool {m : Op Unit} (h : (m d).1.toBool = true) : m d = (.ok (), (m d).2) := by
  obtain ⟨a, t, hm⟩ | ⟨e, t, hm⟩ := ok_or_error m d
  · rw [hm]
  · rw [hm] at h
    cases h

/-- The leaf of the tree cannot be read when the file is closed. -/
def oneBlockLost : EfsDriver := { oneBlockUnlinked with faults := [false, false, false, true] }

end Edos.EfsDriver

import Edos.Efs.FileOps

/-!
# What the functions of the driver do

Three kinds of facts about the functions on blocks and inodes. Some of them only read (`ReadOnly`):
all that looks for a place or looks something up. What a call that succeeds has done to the state is
said by the `_ok` lemmas. And what is about inodes or the orphan chain is kept by all functions that
work on blocks and bitmaps (`Independent`).
-/

namespace Edos.EfsDriver

open Function

open Fallible

/-! ## Functions that only read -/

/-- Nothing has changed but which accesses to the device will fail. -/
def Unchanged (d₀ d : EfsDriver) : Prop := ∃ fs, d = { d₀ with faults := fs }

/-- A function that changes nothing. -/
def ReadOnly {α : Type} (m : Op α) : Prop := ∀ d₀, Keeps (Unchanged d₀) m fun _ ↦ True

section ReadOnly

variable {α β : Type}

theorem Unchanged.refl (d : EfsDriver) : Unchanged d d := ⟨d.faults, rfl⟩

theorem readOnly_pure (a : α) : ReadOnly (pure a) := fun _ ↦ keeps_pure trivial

theorem readOnly_fail (e : FsError) : ReadOnly (fail e : Op α) := fun _ ↦ keeps_throw _

theorem readOnly_panic : ReadOnly (panic : Op α) := fun _ ↦ keeps_throw _

theorem readOnly_gets
    (f : EfsDriver → α) : ReadOnly (gets f) := fun _ ↦ keeps_gets fun _ _ ↦ trivial

theorem ReadOnly.bind {m : Op α} {f : α → Op β} (hm : ReadOnly m) (hf : ∀ a, ReadOnly (f a)) :
    ReadOnly (m >>= f) := fun d₀ ↦ (hm d₀).bind fun a _ ↦ hf a d₀

theorem ReadOnly.unchanged {m : Op α} (hm : ReadOnly m) {d d' : EfsDriver} {r : Except Fault α}
    (h : m d = (r, d')) : Unchanged d d' :=
  (hm d).state h (.refl d)

theorem ReadOnly.keeps {m : Op α} (hm : ReadOnly m) {I : EfsDriver → Prop}
    (hI : ∀ d fs, I d → I { d with faults := fs }) : Keeps I m fun _ ↦ True := by
  intro d hd
  obtain ⟨fs, hfs⟩ := (hm d d (.refl d)).1
  rw [hfs]
  exact ⟨hI d fs hd, fun _ _ ↦ trivial⟩

theorem readOnly_io : ReadOnly io := by
  rintro d₀ - ⟨fs, rfl⟩
  refine ⟨?_, fun _ _ ↦ trivial⟩
  rw [io]
  split
  · exact ⟨fs, rfl⟩
  · exact ⟨_, rfl⟩

theorem readOnly_readBlock (b : ℕ) : ReadOnly (readBlock b) :=
  readOnly_io.bind fun _ ↦ readOnly_gets _

theorem readOnly_inodeLocation (ino : ℕ) : ReadOnly (inodeLocation ino) := by
  refine (readOnly_gets _).bind fun ipg ↦ ?_
  split_ifs
  · exact readOnly_panic
  · exact readOnly_pure _

theorem readOnly_groupDesc (g : ℕ) : ReadOnly (groupDesc g) := by
  refine (readOnly_gets _).bind fun bgd ↦ ?_
  split
  · exact readOnly_pure _
  · exact readOnly_fail _

theorem readOnly_groupState (g : ℕ) : ReadOnly (groupState g) := by
  refine (readOnly_gets _).bind fun bgd ↦ ?_
  split
  · exact readOnly_pure _
  · exact readOnly_panic

theorem readOnly_readInode (ino : ℕ) : ReadOnly (readInode ino) :=
  (readOnly_inodeLocation ino).bind fun loc ↦ (readOnly_groupDesc loc.1).bind fun _ ↦
    readOnly_io.bind fun _ ↦ readOnly_gets _

theorem readOnly_firstFit (want : ℕ) (gs : List ℕ) : ReadOnly (firstFit want gs) := by
  induction gs with
  | nil => exact readOnly_pure _
  | cons g gs ih =>
    refine (readOnly_groupState g).bind fun bgd ↦ ?_
    split_ifs
    · exact ih
    · refine (readOnly_readBlock _).bind fun bitmap ↦ (readOnly_gets _).bind fun bits ↦ ?_
      split
      · exact readOnly_pure _
      · exact ih

theorem readOnly_goalGroup (goal : Option ℕ) : ReadOnly (goalGroup goal) := by
  cases goal with
  | none => exact readOnly_pure _
  | some goal =>
    refine (readOnly_gets _).bind fun bpg ↦ (readOnly_gets _).bind fun groups ↦ ?_
    split_ifs
    · exact readOnly_panic
    · exact readOnly_pure _
    · exact readOnly_pure _

theorem readOnly_goalRun (want : ℕ) (place : Option (ℕ × ℕ)) : ReadOnly (goalRun want place) := by
  cases place with
  | none => exact readOnly_pure _
  | some place =>
    refine (readOnly_groupState _).bind fun bgd ↦ (readOnly_gets _).bind fun bits ↦ ?_
    split_ifs
    · exact readOnly_pure _
    · exact (readOnly_readBlock _).bind fun bitmap ↦ readOnly_pure _

/-- **Looking for blocks changes nothing.** -/
theorem readOnly_chooseRun (want : ℕ) (goal : Option ℕ) : ReadOnly (chooseRun want goal) := by
  refine (readOnly_goalGroup goal).bind fun place ↦ (readOnly_goalRun want place).bind fun run ↦ ?_
  cases run with
  | some run => exact readOnly_pure _
  | none =>
    refine (readOnly_gets _).bind fun groups ↦ (readOnly_firstFit want _).bind fun run ↦ ?_
    cases run with
    | some run => exact readOnly_pure _
    | none => exact readOnly_fail _

theorem readOnly_readBlocks (bs : List ℕ) : ReadOnly (readBlocks bs) := by
  induction bs with
  | nil => exact readOnly_pure _
  | cons b bs ih =>
    exact (readOnly_readBlock b).bind fun _ ↦ ih.bind fun _ ↦ readOnly_pure _

theorem readOnly_ofExcept {α : Type} (r : Except Fault α) : ReadOnly (ofExcept r) := by
  cases r with
  | ok a => exact readOnly_pure a
  | error e => exact fun _ ↦ keeps_throw e

theorem readOnly_loadExtentMap (inode : DiskInode) : ReadOnly (loadExtentMap inode) :=
  (readOnly_ofExcept _).bind fun _ ↦ (readOnly_readBlocks _).bind fun _ ↦ readOnly_pure _

theorem readOnly_loadOrDefault (inode : DiskInode) : ReadOnly (loadOrDefault inode) := by
  refine fun d₀ d hd ↦ ⟨?_, fun _ _ ↦ trivial⟩
  have hload := (readOnly_loadExtentMap inode d₀ d hd).1
  rw [loadOrDefault]
  split
  · rwa [‹loadExtentMap inode d = _›] at hload
  · exact hload

theorem readOnly_readDirDataCached (inode : DiskInode) : ReadOnly (readDirDataCached inode) := by
  rw [readDirDataCached]
  split_ifs
  · exact readOnly_pure _
  · split
    · exact readOnly_pure _
    · exact (readOnly_loadExtentMap _).bind fun map ↦
        (readOnly_readBlocks _).bind fun _ ↦ readOnly_pure _

theorem readOnly_dirDataWithout (dirIno : ℕ) (name : String) :
    ReadOnly (dirDataWithout dirIno name) := by
  refine (readOnly_readInode dirIno).bind fun inode ↦
    (readOnly_readDirDataCached inode).bind fun data ↦ ?_
  split
  · exact readOnly_fail _
  · exact readOnly_pure _

end ReadOnly

variable {d d' : EfsDriver} {ino : ℕ} {inode : DiskInode}

/-! ## What successful steps do -/

/-- One access, and whether it is answered. -/
theorem io_eq (d : EfsDriver) :
    io d = (if d.faults.headD false then .error (.error .io) else .ok (),
      { d with faults := d.faults.tail }) := by
  obtain ⟨blocks, home, inodes, superblock, bgdTable, orphanPrev, faults, log⟩ := d
  cases faults <;> rfl

theorem io_ok (h : io d = (.ok (), d')) : d' = { d with faults := d.faults.tail } :=
  (congrArg Prod.snd h).symm.trans (congrArg Prod.snd (io_eq d))

theorem inodeLocation_ok {loc : ℕ × ℕ} (h : inodeLocation ino d = (.ok loc, d')) :
    d' = d ∧ ino ≠ 0 ∧ d.inodesPerGroup ≠ 0 ∧
      loc = ((ino - 1) / d.inodesPerGroup, (ino - 1) % d.inodesPerGroup) := by
  rw [inodeLocation, gets_bind] at h
  split_ifs at h with h0
  · cases h
  · cases h
    exact ⟨rfl, fun h ↦ h0 (.inl h), fun h ↦ h0 (.inr h), rfl⟩

theorem groupDesc_ok {g : ℕ} {bgd : EfsBlockGroupDesc} (h : groupDesc g d = (.ok bgd, d')) :
    d' = d ∧ d.bgdTable[g]? = some bgd := by
  rw [groupDesc, gets_bind] at h
  cases hget : d.bgdTable[g]? with
  | none =>
    rw [hget] at h
    cases h
  | some bgd' =>
    rw [hget] at h
    cases h
    exact ⟨rfl, rfl⟩

theorem readInode_ok (h : readInode ino d = (.ok inode, d')) :
    inode = d.inodes ino ∧ ino ≠ 0 ∧ d' = { d with faults := d.faults.tail } := by
  obtain ⟨loc, t, hloc, h₁⟩ := bind_ok_iff.mp h
  obtain ⟨rfl, h0, -, rfl⟩ := inodeLocation_ok hloc
  obtain ⟨bgd, t', hbgd, h₂⟩ := bind_ok_iff.mp h₁
  obtain ⟨rfl, -⟩ := groupDesc_ok hbgd
  obtain ⟨_, u, hio, h₃⟩ := bind_ok_iff.mp h₂
  obtain rfl := io_ok hio
  cases h₃
  exact ⟨rfl, h0, rfl⟩

theorem writeInode_ok (h : writeInode ino inode d = (.ok (), d')) :
    d' = { d with
      inodes := update d.inodes ino inode
      log := d.log ++ [.inode ino]
      faults := d.faults.tail.tail } := by
  obtain ⟨loc, t, hloc, h₁⟩ := bind_ok_iff.mp h
  obtain ⟨rfl, -, -, rfl⟩ := inodeLocation_ok hloc
  obtain ⟨bgd, t', hbgd, h₂⟩ := bind_ok_iff.mp h₁
  obtain ⟨rfl, -⟩ := groupDesc_ok hbgd
  obtain ⟨_, u, hio, h₃⟩ := bind_ok_iff.mp h₂
  obtain rfl := io_ok hio
  obtain ⟨_, u', hio', h₄⟩ := bind_ok_iff.mp h₃
  obtain rfl := io_ok hio'
  cases h₄
  rfl

theorem writeInode_self (h : writeInode ino inode d = (.ok (), d')) : d'.inodes ino = inode := by
  obtain rfl := writeInode_ok h
  exact update_self ..

variable {b : ℕ}

theorem writeBlock_ok {data : Page} (h : writeBlock b data d = (.ok (), d')) :
    d' = { d with
      blocks := update d.blocks b data
      log := d.log ++ [.write b data]
      faults := d.faults.tail } := by
  obtain ⟨_, u, hio, h₁⟩ := bind_ok_iff.mp h
  obtain rfl := io_ok hio
  cases h₁
  rfl

theorem enrollGroup_ok {g : ℕ} (h : enrollGroup g d = (.ok (), d')) :
    ∃ fs log, d' = { d with faults := fs, log := log } := by
  have hpage {b : ℕ} {t u : EfsDriver} {r : Except Fault Unit} (h : enrollPage b t = (r, u)) :
      ∃ fs log, u = { t with faults := fs, log := log } := by
    obtain rfl : u = (enrollPage b t).2 := (congrArg Prod.snd h).symm
    rw [enrollPage]
    split
    · exact ⟨t.faults, _, rfl⟩
    · exact ⟨_, _, rfl⟩
  obtain ⟨_, t, ht, h₁⟩ := bind_ok_iff.mp h
  obtain ⟨fs, log, rfl⟩ := hpage ht
  obtain ⟨fs', log', rfl⟩ := hpage h₁
  exact ⟨fs', log', rfl⟩

theorem readBlock_ok {page : Page} (h : readBlock b d = (.ok page, d')) :
    page = d.blocks b ∧ d' = { d with faults := d.faults.tail } := by
  obtain ⟨_, u, hio, h₁⟩ := bind_ok_iff.mp h
  obtain rfl := io_ok hio
  cases h₁
  exact ⟨rfl, rfl⟩

theorem freeBlock_ok (h : freeBlock b d = (.ok (), d')) :
    ∃ bgd fs log, d.bgdTable[b / d.blocksPerGroup]? = some bgd ∧
      b % d.blocksPerGroup / 8 < journalBlockSize ∧
      d' = countBlocks (b / d.blocksPerGroup) (fun n ↦ n + 1) { d with
        blocks := update d.blocks bgd.blockBitmapBlock.toNat
          ((d.blocks bgd.blockBitmapBlock.toNat).clearBit (b % d.blocksPerGroup))
        faults := fs
        log := log } := by
  rw [freeBlock, gets_bind] at h
  split_ifs at h with hbpg
  · cases h
  obtain ⟨bgd, t, hbgd, h₁⟩ := bind_ok_iff.mp h
  obtain ⟨rfl, hget⟩ := groupDesc_ok hbgd
  obtain ⟨page, t', hpage, h₂⟩ := bind_ok_iff.mp h₁
  obtain ⟨rfl, rfl⟩ := readBlock_ok hpage
  split_ifs at h₂ with hbit
  · cases h₂
  obtain ⟨_, t'', hwrite, h₃⟩ := bind_ok_iff.mp h₂
  obtain rfl := writeBlock_ok hwrite
  rw [gets_bind] at h₃
  split_ifs at h₃ with hfull
  · cases h₃
  rw [modify_bind] at h₃
  obtain ⟨_, u, henroll, h₄⟩ := bind_ok_iff.mp h₃
  obtain ⟨fs, log, rfl⟩ := enrollGroup_ok henroll
  cases h₄
  exact ⟨bgd, fs, _, hget, not_le.mp hbit, rfl⟩

theorem freeInode_ok (h : freeInode ino d = (.ok (), d')) :
    ∃ bgd fs log, d.bgdTable[(ino - 1) / d.inodesPerGroup]? = some bgd ∧
      (ino - 1) % d.inodesPerGroup / 8 < journalBlockSize ∧
      d' = countInodes ((ino - 1) / d.inodesPerGroup) (fun n ↦ n + 1) { d with
        blocks := update d.blocks bgd.inodeBitmapBlock.toNat
          ((d.blocks bgd.inodeBitmapBlock.toNat).clearBit ((ino - 1) % d.inodesPerGroup))
        faults := fs
        log := log } := by
  obtain ⟨loc, t, hloc, h₁⟩ := bind_ok_iff.mp h
  obtain ⟨rfl, -, -, rfl⟩ := inodeLocation_ok hloc
  obtain ⟨bgd, t, hbgd, h₂⟩ := bind_ok_iff.mp h₁
  obtain ⟨rfl, hget⟩ := groupDesc_ok hbgd
  obtain ⟨page, t', hpage, h₃⟩ := bind_ok_iff.mp h₂
  obtain ⟨rfl, rfl⟩ := readBlock_ok hpage
  split_ifs at h₃ with hbit
  · cases h₃
  obtain ⟨_, t'', hwrite, h₄⟩ := bind_ok_iff.mp h₃
  obtain rfl := writeBlock_ok hwrite
  rw [gets_bind] at h₄
  split_ifs at h₄ with hfull
  · cases h₄
  obtain ⟨fs, log, rfl⟩ := enrollGroup_ok h₄
  exact ⟨bgd, fs, _, hget, not_le.mp hbit, rfl⟩

/-- The superblock with its checksum. -/
def stamped (d : EfsDriver) : EfsSuperblock :=
  { d.superblock with checksum := d.superblock.checksumOf }

theorem writeSuperblock_ok (h : writeSuperblock d = (.ok (), d')) :
    d' = { d with
      superblock := d.stamped
      blocks := update d.blocks superblockBlock (.padded d.stamped.toBytes)
      log := d.log ++ [.write superblockBlock (.padded d.stamped.toBytes)]
      faults := d.faults.tail } := by
  rw [writeSuperblock, modify_bind, gets_bind] at h
  exact writeBlock_ok h

theorem ofExcept_ok {α : Type} {r : Except Fault α} {a : α} (h : ofExcept r d = (.ok a, d')) :
    r = .ok a ∧ d' = d := by
  cases r with
  | ok b => cases h; exact ⟨rfl, rfl⟩
  | error e => cases h

theorem loadExtentMap_ok {inode : DiskInode} {map : ExtentMap}
    (h : loadExtentMap inode d = (.ok map, d')) :
    inode.loadExtentMap = .ok map ∧ Unchanged d d' := by
  have hunchanged := (readOnly_loadExtentMap inode).unchanged h
  obtain ⟨map', t, hmap, h₁⟩ := bind_ok_iff.mp h
  obtain ⟨htree, rfl⟩ := ofExcept_ok hmap
  obtain ⟨_, u, -, h₂⟩ := bind_ok_iff.mp h₁
  cases h₂
  exact ⟨htree, hunchanged⟩

/-! ## Functions on blocks -/

/-- A property that is not about blocks: only the inodes and how many are free, the orphan chain and
the device matter for it. -/
def Independent (I : EfsDriver → Prop) : Prop :=
  ∀ d d', d'.inodes = d.inodes → d'.orphanPrev = d.orphanPrev →
    d'.superblock.lastOrphan = d.superblock.lastOrphan →
    d'.superblock.freeInodes = d.superblock.freeInodes → d'.home = d.home → I d → I d'

namespace Independent

variable {I : EfsDriver → Prop} (hI : Independent I)

include hI

theorem readOnly {α : Type} {m : Op α} (hm : ReadOnly m) : Keeps I m fun _ ↦ True :=
  hm.keeps fun d _ ↦ hI d _ rfl rfl rfl rfl rfl

theorem read {α β : Type} {m : Op α} {f : α → Op β} {Q : β → Prop} (hm : ReadOnly m)
    (hf : ∀ a, Keeps I (f a) Q) : Keeps I (m >>= f) Q := (hI.readOnly hm).bind fun a _ ↦ hf a

theorem writeBlock (b : ℕ) (data : Page) : Keeps I (writeBlock b data) fun _ ↦ True :=
  hI.read readOnly_io fun _ ↦ keeps_modify fun d ↦ hI d _ rfl rfl rfl rfl rfl

theorem enrollPage (b : ℕ) : Keeps I (enrollPage b) fun _ ↦ True := by
  intro d hd
  refine ⟨?_, fun _ _ ↦ trivial⟩
  rw [EfsDriver.enrollPage]
  split
  · exact hI d _ rfl rfl rfl rfl rfl hd
  · exact hI d _ rfl rfl rfl rfl rfl hd

theorem enrollGroup (g : ℕ) : Keeps I (enrollGroup g) fun _ ↦ True :=
  (hI.enrollPage _).bind fun _ _ ↦ hI.enrollPage _

theorem countBlocks (g : ℕ) (f : ℕ → ℕ) :
    Keeps I (modify (countBlocks g f) : Op Unit) fun _ ↦ True :=
  keeps_modify fun d ↦ hI d (d.countBlocks g f) rfl rfl rfl rfl rfl

theorem claimRun (run : FoundRun) : Keeps I (claimRun run) fun _ ↦ True := by
  refine hI.read (readOnly_groupState _) fun bgd ↦
    hI.read (readOnly_gets _) fun free ↦ ?_
  split_ifs
  · exact keeps_throw _
  · exact (hI.countBlocks _ _).bind fun _ _ ↦ (hI.writeBlock _ _).bind fun _ _ ↦
      (hI.enrollGroup _).bind fun _ _ ↦ hI.read (readOnly_gets _) fun _ ↦
      keeps_pure trivial

theorem allocBlocks (want : ℕ) (goal : Option ℕ) : Keeps I (allocBlocks want goal) fun _ ↦ True :=
  hI.read (readOnly_chooseRun want goal) fun run ↦ hI.claimRun run

theorem allocBlock : Keeps I allocBlock fun _ ↦ True := by
  refine (hI.allocBlocks 1 none).bind fun bs _ ↦ ?_
  cases bs with
  | nil => exact keeps_throw _
  | cons b bs => exact keeps_pure trivial

theorem freeBlock (b : ℕ) : Keeps I (freeBlock b) fun _ ↦ True := by
  refine hI.read (readOnly_gets _) fun bpg ↦ ?_
  split_ifs
  · exact keeps_throw _
  refine hI.read (readOnly_groupDesc _) fun bgd ↦
    hI.read (readOnly_readBlock _) fun bitmap ↦ ?_
  split_ifs
  · exact keeps_throw _
  refine (hI.writeBlock _ _).bind fun _ _ ↦ hI.read (readOnly_gets _) fun free ↦ ?_
  split_ifs
  · exact keeps_throw _
  refine (hI.countBlocks _ _).bind fun _ _ ↦ (hI.enrollGroup _).bind fun _ _ ↦
    keeps_modify fun d ↦ ?_
  exact hI d _ rfl rfl rfl rfl rfl

theorem freeInode (hcount : ∀ d g f, I d → I (countInodes g f d)) (ino : ℕ) :
    Keeps I (freeInode ino) fun _ ↦ True := by
  refine hI.read (readOnly_inodeLocation ino) fun loc ↦
    hI.read (readOnly_groupDesc _) fun bgd ↦
    hI.read (readOnly_readBlock _) fun bitmap ↦ ?_
  split_ifs
  · exact keeps_throw _
  refine (hI.writeBlock _ _).bind fun _ _ ↦ hI.read (readOnly_gets _) fun free ↦ ?_
  split_ifs
  · exact keeps_throw _
  exact (keeps_modify fun d ↦ hcount d _ _).bind fun _ _ ↦ hI.enrollGroup _

end Independent

/-! ## Functions on directories -/

/-- A property `I` that is not about blocks, and a property `Q` of inodes that all inodes have while
`I` holds, that is kept when the storage changes, and that is enough for a write of the inode to
keep `I`. -/
structure Stable (I : EfsDriver → Prop) (Q : ℕ → DiskInode → Prop) : Prop where
  independent : Independent I
  read : ∀ d ino, I d → Q ino (d.inodes ino)
  write : ∀ d ino inode, I d → Q ino inode →
    I { d with inodes := update d.inodes ino inode, log := d.log ++ [.inode ino] }
  storage : ∀ ino inode storage, Q ino inode → Q ino { inode with storage }

namespace Stable

variable {I : EfsDriver → Prop} {Q : ℕ → DiskInode → Prop} (hI : Stable I Q)

include hI

theorem readInode (ino : ℕ) : Keeps I (readInode ino) (Q ino) := by
  intro d hd
  refine ⟨(hI.independent.readOnly (readOnly_readInode ino) d hd).1, fun inode h ↦ ?_⟩
  obtain ⟨rfl, -⟩ := readInode_ok (Prod.ext h rfl)
  exact hI.read d ino hd

variable {ino : ℕ} {inode : DiskInode}

theorem writeInode (h : Q ino inode) : Keeps I (writeInode ino inode) fun _ ↦ True :=
  hI.independent.read (readOnly_inodeLocation ino) fun loc ↦
    hI.independent.read (readOnly_groupDesc loc.1) fun _ ↦
    hI.independent.read readOnly_io fun _ ↦
    hI.independent.read readOnly_io fun _ ↦ keeps_modify fun d hd ↦ hI.write d ino inode hd h

theorem storeLeaves (nodes : List (List UInt8)) (existing : List ℕ) :
    Keeps I (storeLeaves nodes existing) fun _ ↦ True := by
  induction nodes generalizing existing with
  | nil => exact keeps_pure trivial
  | cons node nodes ih =>
    cases existing with
    | nil =>
      exact hI.independent.allocBlock.bind fun b _ ↦ (hI.independent.writeBlock b _).bind fun _ _ ↦
        (ih []).bind fun bs _ ↦ keeps_pure trivial
    | cons b existing =>
      exact (hI.independent.writeBlock b _).bind fun _ _ ↦ (ih existing).bind fun bs _ ↦
        keeps_pure trivial

theorem storeExtentMap (h : Q ino inode) (map : ExtentMap) :
    Keeps I (storeExtentMap inode map) (Q ino) := by
  rw [EfsDriver.storeExtentMap]
  split_ifs
  · exact keeps_throw _
  · exact (hI.storeLeaves _ _).bind fun nodes _ ↦
      (keeps_forM fun b _ ↦ hI.independent.freeBlock b).bind fun _ _ ↦
      keeps_pure (hI.storage _ _ _ h)

theorem prepareBlock (phys : ℕ)
    (new : NewBlock) : Keeps I (prepareBlock phys new) fun _ ↦ True := by
  cases new with
  | zeroed => exact hI.independent.writeBlock _ _
  | overwritten => exact keeps_pure trivial

theorem ensureBlockForLogical (ino logicalBlock : ℕ) (new : NewBlock) :
    Keeps I (ensureBlockForLogical ino logicalBlock new) fun _ ↦ True := by
  refine (hI.readInode ino).bind fun inode hinode ↦
    hI.independent.read (readOnly_loadExtentMap inode) fun map ↦ ?_
  cases map.lookup logicalBlock with
  | some phys => exact keeps_pure trivial
  | none =>
    refine (hI.independent.allocBlocks 1 _).bind fun bs _ ↦ ?_
    cases bs with
    | nil => exact keeps_throw _
    | cons phys bs =>
      exact (hI.prepareBlock phys new).bind fun _ _ ↦
        (hI.storeExtentMap hinode _).bind fun updated hupdated ↦
        (hI.writeInode hupdated).bind fun _ _ ↦ keeps_pure trivial

theorem convertInlineToExtents (h : Q ino inode) (area : List UInt8) :
    Keeps I (convertInlineToExtents ino inode area) fun _ ↦ True :=
  hI.independent.allocBlock.bind fun phys _ ↦ (hI.independent.writeBlock phys _).bind fun _ _ ↦
    hI.writeInode (hI.storage _ _ _ h)

theorem writeDirBlocks (dirIno : ℕ) (data : List UInt8) :
    Keeps I (writeDirBlocks dirIno data) fun _ ↦ True := by
  refine (hI.readInode dirIno).bind fun inode hinode ↦ ?_
  split
  · exact hI.writeInode (hI.storage _ _ _ hinode)
  · exact keeps_forM fun i _ ↦ (hI.ensureBlockForLogical dirIno _ _).bind fun phys _ ↦
      hI.independent.writeBlock _ _

theorem touchInode (ino : ℕ) : Keeps I (touchInode ino) fun _ ↦ True :=
  (hI.readInode ino).bind fun _ hinode ↦ hI.writeInode hinode

theorem ensureExtents (ino : ℕ) : Keeps I (ensureExtents ino) fun _ ↦ True := by
  refine (hI.readInode ino).bind fun inode hinode ↦ ?_
  split
  · exact hI.convertInlineToExtents hinode _
  · exact keeps_pure trivial

theorem removeDirEntry (dirIno : ℕ) (name : String) :
    Keeps I (removeDirEntry dirIno name) fun _ ↦ True :=
  hI.independent.read (readOnly_dirDataWithout dirIno name) fun data ↦
    (hI.writeDirBlocks dirIno data).bind fun _ _ ↦ hI.touchInode dirIno

end Stable

end Edos.EfsDriver

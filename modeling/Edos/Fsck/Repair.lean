import Edos.Fsck.DirTree

/-!
# Repair

`--repair` goes through the findings in a fixed order: leaked block bits, leaked inode bits, link
counts, orphans, and last the free counts of the groups and of the superblock. Each pass asks once
whether it should run (deletions that the orphan chain was holding are not asked for). The passes
change the bitmaps and inodes on disk as they go, but the counts of the groups only in memory; the
table of descriptors is written by the last pass, which runs only if the descriptors had a finding
of their own.

The state that the passes change is an image: the disk, the superblock and the descriptors.
-/

namespace Edos.Fsck

/-- What the user says to each pass. -/
structure Answers where
  leakedBlocks : Bool
  leakedInodes : Bool
  linkCounts : Bool
  orphans : Bool
  bgdSums : Bool

/-- With `-y` the answer is always yes. -/
def Answers.yes : Answers := ⟨true, true, true, true, true⟩

/-- `saturating_add(1)`. -/
def saturatingSucc (x : UInt64) : UInt64 := if x.toNat + 1 < 2 ^ 64 then x + 1 else x

namespace Image

/-! ## Writes -/

/-- `write_block`. -/
def writeBlock (img : Image) (b : ℕ) (data : List UInt8) : Image :=
  let padded := data ++ List.replicate (img.blockSize - data.length) 0
  { img with disk := img.disk.write (b * img.blockSize) padded }

/-- `write_struct_at`, for an inode. -/
def writeRecord (img : Image) (slot : ℕ × ℕ) (r : InodeRecord) : Image :=
  { img with disk := img.disk.write (slot.1 * img.blockSize + slot.2) r.toBytes }

/-- The blocks of the superblock and its copies. -/
def superblockCopies (img : Image) : List ℕ :=
  [1, 2 + img.bgdTableBlocks] ++ img.backupGroups.map (· * img.blocksPerGroup)

/-- `write_superblock_all`. -/
def writeSuperblockAll (img : Image) : Image :=
  img.superblockCopies.foldl (fun s b ↦ s.writeBlock b img.sb.toBytes) img

/-- The first blocks of the table and its copies. -/
def tableCopies (img : Image) : List ℕ :=
  [2, 2 + img.bgdTableBlocks + 1] ++ img.backupGroups.map (· * img.blocksPerGroup + 1)

/-- The buffer of `write_bgd_table_at`. -/
def tableBytes (img : Image) : List UInt8 :=
  let bytes := img.bgds.flatMap EfsBlockGroupDesc.toBytes
  bytes ++ List.replicate (img.bgdTableBlocks * img.blockSize - bytes.length) 0

/-- `write_bgd_table_all`. -/
def writeBgdTableAll (img : Image) : Image :=
  img.tableCopies.foldl
    (fun s b ↦ { s with disk := s.disk.write (b * s.blockSize) img.tableBytes }) img

/-- Change the superblock in memory. -/
def setSuperblock (img : Image) (f : EfsSuperblock → EfsSuperblock) : Image :=
  let sb := f img.sb
  { img with sb := { sb with checksum := sb.checksumOf } }

/-- `set_fsck_in_progress`. -/
def setFsckInProgress (img : Image) (value : Bool) : Image :=
  (img.setSuperblock fun sb ↦
    { sb with fsckInProgress := if value then 1 else 0 }).writeSuperblockAll

/-- A bit of a bitmap block is cleared. -/
def clearBitAt (img : Image) (b bit : ℕ) : Image :=
  img.writeBlock b (clearBit (img.readBlock b) bit)

/-- The bit of a block is cleared, and its group counts one free block more. -/
def clearBlockBit (img : Image) (count : UInt64 → UInt64) (b : ℕ) : Image :=
  let g := b / img.blocksPerGroup
  match img.bgds[g]? with
  | none => img
  | some bgd =>
    { img.clearBitAt bgd.blockBitmapBlock.toNat (b % img.blocksPerGroup) with
      bgds := img.bgds.modify g fun bgd ↦
        { bgd with freeBlocksCount := count bgd.freeBlocksCount } }

/-- The bit of an inode, numbered from 0, is cleared, and its group counts one free inode more. -/
def clearInodeBit (img : Image) (count : UInt64 → UInt64) (i : ℕ) : Image :=
  let g := i / img.inodesPerGroup
  match img.bgds[g]? with
  | none => img
  | some bgd =>
    { img.clearBitAt bgd.inodeBitmapBlock.toNat (i % img.inodesPerGroup) with
      bgds := img.bgds.modify g fun bgd ↦
        { bgd with freeInodesCount := count bgd.freeInodesCount } }

/-! ## Passes -/

/-- The indices of the leaked bits of a kind. -/
def leakedBits (kind : BitmapKind) (findings : List Finding) : List ℕ :=
  findings.filterMap fun
    | .leakedBit kind' index => if kind' = kind then some index else none
    | _ => none

/-- `repair_leaked_bitmap_bits`. -/
def repairLeakedBitmapBits (img : Image) (findings : List Finding) (accepted : Bool) : Image :=
  if accepted then (leakedBits .block findings).foldl (clearBlockBit · (· + 1)) img else img

/-- `repair_leaked_inode_bits`. -/
def repairLeakedInodeBits (img : Image) (findings : List Finding) (accepted : Bool) : Image :=
  if accepted then (leakedBits .inode findings).foldl (clearInodeBit · (· + 1)) img else img

/-- A link count is set to what was observed, as a `u16`. -/
def repairLinkCount (img : Image) (x : ℕ × ℕ) : Image :=
  match img.inodeLocation x.1 with
  | none => img
  | some slot =>
    let r := { img.recordAt slot with linkCount := .ofNat (min x.2 65535) }
    img.writeRecord slot { r with checksum := r.checksumOf }

/-- The inodes whose link count is wrong, with what was observed. -/
def linkMismatches (findings : List Finding) : List (ℕ × ℕ) :=
  findings.filterMap fun
    | .linkCount ino _ observed => some (ino, observed)
    | _ => none

/-- `repair_link_counts`. -/
def repairLinkCounts (img : Image) (findings : List Finding) (accepted : Bool) : Image :=
  if accepted then (linkMismatches findings).foldl repairLinkCount img else img

/-- The deletions that the orphan chain was holding. -/
def pendingInodes (findings : List Finding) : List ℕ :=
  findings.filterMap fun
    | .pendingDeletion ino => some ino
    | _ => none

/-- The inodes without a name that are not on the chain. -/
def leakedInodes (findings : List Finding) : List ℕ :=
  findings.filterMap fun
    | .orphanInode ino => some ino
    | _ => none

/-- The inodes that `repair_orphans` deletes. -/
def deletedInfos (infos : List InodeInfo) (findings : List Finding) (accepted : Bool) :
    List InodeInfo :=
  (pendingInodes findings ++ if accepted then leakedInodes findings else []).filterMap
    (findInfo infos)

/-- The blocks that more than one claim was found for. -/
def doubleClaimed (findings : List Finding) : List ℕ :=
  findings.filterMap fun
    | .doubleClaimed b _ _ => some b
    | _ => none

/-- A directory is counted out of its group. -/
def uncountDir (img : Image) (info : InodeInfo) : Image :=
  if info.isDir then
    { img with bgds := img.bgds.modify ((info.ino - 1) / img.inodesPerGroup) fun bgd ↦
        { bgd with usedDirsCount := if bgd.usedDirsCount = 0 then 0 else bgd.usedDirsCount - 1 } }
  else img

/-- The entry of an inode is zeroed. -/
def zeroRecord (img : Image) (ino : ℕ) : Image :=
  match img.inodeLocation ino with
  | none => img
  | some slot => img.writeRecord slot .zero

/-- The body of the loop of `repair_orphans`: the blocks that are claimed once are freed, then the
inode. -/
def deleteOrphan (shared : List ℕ) (img : Image) (info : InodeInfo) : Image :=
  let img := (info.blocks.filter (· ∉ shared)).foldl (clearBlockBit · saturatingSucc) img
  ((img.clearInodeBit saturatingSucc (info.ino - 1)).uncountDir info).zeroRecord info.ino

/-- `repair_orphans`. The group of a block is found by a division, which panics if groups have no
blocks. -/
def repairOrphans (img : Image) (infos : List InodeInfo) (findings : List Finding)
    (accepted : Bool) : Option Image :=
  let shared := doubleClaimed findings
  let deleted := deletedInfos infos findings accepted
  if img.blocksPerGroup = 0 ∧ deleted.any fun info ↦ info.blocks.any (· ∉ shared) then none
  else
    let img := deleted.foldl (deleteOrphan shared) img
    some (if pendingInodes findings ≠ [] ∧ img.sb.lastOrphan ≠ 0 then
      (img.setSuperblock fun sb ↦ { sb with lastOrphan := 0 }).writeSuperblockAll else img)

/-- The counts of the superblock are set to the sums, and the checksums of the descriptors. -/
def sumCounts (img : Image) : Image :=
  let img : Image := ⟨img.disk, img.sb, img.bgds.map fun bgd ↦
    { bgd with checksum := bgdChecksum bgd }⟩
  img.setSuperblock fun sb ↦
    { sb with freeBlocks := sumFreeBlocks img.bgds, freeInodes := sumFreeInodes img.bgds }

/-- `repair_bgd_sums`. -/
def repairBgdSums (img : Image) (findings : List Finding) (accepted : Bool) : Image :=
  if findings.any Finding.isBgd && accepted then img.sumCounts.writeBgdTableAll.writeSuperblockAll
  else img

/-- `apply_repairs`. -/
def applyRepairs (img : Image) (infos : List InodeInfo) (findings : List Finding)
    (answers : Answers) : Option Image := do
  let s := img.setFsckInProgress true
  let s := s.repairLeakedBitmapBits findings answers.leakedBlocks
  let s := s.repairLeakedInodeBits findings answers.leakedInodes
  let s := s.repairLinkCounts findings answers.linkCounts
  let s ← s.repairOrphans infos findings answers.orphans
  let s := s.repairBgdSums findings answers.bgdSums
  return s.setFsckInProgress false

/-- The run of `efs-fsck --repair` on an image, after the journal has been replayed. The superblock
and the descriptors were judged before that, as they were `before` the replay. -/
def repair (before img : Image) (answers : Answers) : Option Image := do
  let findings := before.loadFindings ++ (← img.check)
  if findings.any Finding.fixable then img.applyRepairs img.infos findings answers else return img

end Image

end Edos.Fsck

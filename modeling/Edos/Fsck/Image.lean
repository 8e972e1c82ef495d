import Edos.EfsCommon.ExtentNode
import Edos.EfsCommon.InodeRecord
import Edos.EfsCommon.Metadata
import Edos.Journal.Replay
import Edos.Mkfs.Layout
import Mathlib.Data.UInt

/-!
# Images as `efs-fsck` reads them

The checker works on the bytes of a partition. It reads the superblock first, as if blocks had 4
KiB, and everything else in blocks of the size that the superblock gives. Reads and writes do not
fail here.

What the checker finds is a list of findings. The source keeps the text of a finding and reads the
numbers back out of it when it repairs; here a finding is a constructor with its numbers.
-/

namespace Edos.Fsck

open Mkfs (hasSuperblockBackup)

/-! ## Findings -/

/-- The two kinds of bitmap. -/
inductive BitmapKind where
  | block
  | inode
  deriving DecidableEq

inductive Finding where
  -- the superblock and the group descriptors
  | superblockChecksum
  | unknownFeatures
  | sentinelSet
  | groupChecksum (group : ℕ)
  | freeBlocksSum
  | freeInodesSum
  -- the orphan chain
  | chainWithoutFeature
  | chainOutOfRange (ino : ℕ)
  | chainLoops (ino : ℕ)
  | chainWithoutTable (ino : ℕ)
  | chainLinked (ino linkCount : ℕ)
  | chainPending (count : ℕ)
  | chainUnended
  -- inodes
  | inodeChecksum (ino : ℕ)
  | inodePending (ino : ℕ)
  | inodeUnlinked (ino : ℕ)
  | inlineTooLarge (ino : ℕ)
  | areaTooSmall (ino : ℕ)
  | badMagic (ino : ℕ)
  | badDepth (ino : ℕ)
  | badEntries (ino : ℕ)
  | badMaxEntries (ino : ℕ)
  | depthOne (ino entries : ℕ)
  | indexBounds (ino i : ℕ)
  | childOutside (ino i : ℕ)
  | leafTooSmall (ino child : ℕ)
  | leafMalformed (ino child : ℕ)
  | extentBounds (ino i : ℕ)
  | extentLength (ino i : ℕ)
  | extentRange (ino i : ℕ)
  -- bitmaps
  | doubleClaimed (b prev ino : ℕ)
  | missingBit (kind : BitmapKind) (index : ℕ)
  | leakedBit (kind : BitmapKind) (index : ℕ)
  -- the directory tree
  | truncatedHeader (dir block offset : ℕ)
  | recLenZero (dir block offset : ℕ)
  | recLenShort (dir block offset : ℕ)
  | recLenUnaligned (dir block offset : ℕ)
  | recLenExceeds (dir block offset : ℕ)
  | nameExceeds (dir block offset : ℕ)
  | dotTarget (dir target : ℕ)
  | dotdotTarget (dir target : ℕ)
  | entryOutOfRange (dir target : ℕ)
  | entryUnallocated (dir target : ℕ)
  | directoryCycle (dir target : ℕ)
  | pendingDeletion (ino : ℕ)
  | orphanInode (ino : ℕ)
  | linkCount (ino onDisk observed : ℕ)
  deriving DecidableEq

namespace Finding

/-- What `--repair` acts on. -/
def fixable : Finding → Bool
  | superblockChecksum | groupChecksum _ | freeBlocksSum | freeInodesSum | leakedBit _ _
  | pendingDeletion _ | orphanInode _ | linkCount _ _ _ => true
  | _ => false

/-- The findings of the category `Bgd`. -/
def isBgd : Finding → Bool
  | groupChecksum _ | freeBlocksSum | freeInodesSum => true
  | _ => false

end Finding

/-! ## The image -/

/-- A partition with what was read from it first. -/
structure Image where
  disk : Disk
  sb : EfsSuperblock
  bgds : List EfsBlockGroupDesc

namespace Image

def blockSize (img : Image) : ℕ := 2 ^ img.sb.blockSizeLog2.toNat

def blocksPerGroup (img : Image) : ℕ := img.sb.blocksPerGroup.toNat

def inodesPerGroup (img : Image) : ℕ := img.sb.inodesPerGroup.toNat

def totalBlocks (img : Image) : ℕ := img.sb.totalBlocks.toNat

def totalInodes (img : Image) : ℕ := img.sb.totalInodes.toNat

def readBlock (img : Image) (b : ℕ) : List UInt8 := img.disk.read (b * img.blockSize) img.blockSize

/-- `bgd_table_blocks`. -/
def bgdTableBlocks (img : Image) : ℕ := divCeil (img.sb.blockGroupCount.toNat * 64) img.blockSize

/-- The groups from 1 on that have copies of the superblock and of the table. -/
def backupGroups (img : Image) : List ℕ :=
  (List.range' 1 (img.sb.blockGroupCount.toNat - 1)).filter hasSuperblockBackup

/-- Where the entry of an inode is, as a block and an offset in it: in the table of a group. -/
def tableSlot (img : Image) (bgd : EfsBlockGroupDesc) (localIdx : ℕ) : ℕ × ℕ :=
  let byteOffset := localIdx * img.sb.inodeSize.toNat
  (bgd.inodeTableBlock.toNat + byteOffset / img.blockSize, byteOffset % img.blockSize)

/-- `inode_location`. The division by `inodes_per_group` panics if that is 0. -/
def inodeLocation (img : Image) (ino : ℕ) : Option (ℕ × ℕ) :=
  if ino = 0 ∨ img.inodesPerGroup = 0 then none
  else (img.bgds[(ino - 1) / img.inodesPerGroup]?).map fun bgd ↦
    img.tableSlot bgd ((ino - 1) % img.inodesPerGroup)

def recordAt (img : Image) (slot : ℕ × ℕ) : InodeRecord :=
  .ofBytes (img.disk.read (slot.1 * img.blockSize + slot.2) InodeRecord.bytesLen)

/-- `read_inode_bytes`. -/
def readInode (img : Image) (ino : ℕ) : Option InodeRecord :=
  (img.inodeLocation ino).map img.recordAt

@[simp] theorem length_readBlock (img : Image) (b : ℕ) : (img.readBlock b).length = img.blockSize :=
  Disk.length_read ..

theorem length_dataArea (img : Image)
    (slot : ℕ × ℕ) : (img.recordAt slot).dataArea.length = 176 := by
  rfl

/-! ## Opening an image -/

/-- The table of group descriptors, one behind the other from block 2 on. -/
def loadBgds (d : Disk) (sb : EfsSuperblock) : List EfsBlockGroupDesc :=
  (List.range sb.blockGroupCount.toNat).map fun i ↦
    .ofBytes (d.read (2 * 2 ^ sb.blockSizeLog2.toNat + i * EfsBlockGroupDesc.size)
      EfsBlockGroupDesc.size)

/-- The first reads: the superblock is at byte 4096. -/
def load (d : Disk) : Option Image :=
  let sb := EfsSuperblock.ofBytes (d.read 4096 EfsSuperblock.size)
  if sb.validate then some ⟨d, sb, loadBgds d sb⟩ else none

/-- `checksum_block_group_desc`. -/
def bgdChecksum (bgd : EfsBlockGroupDesc) : UInt32 :=
  crc32 (EfsBlockGroupDesc.toBytes { bgd with checksum := 0 })

/-- The sum of the counts of the groups. -/
def sumFreeBlocks (bgds : List EfsBlockGroupDesc) : UInt64 :=
  (bgds.map EfsBlockGroupDesc.freeBlocksCount).sum

def sumFreeInodes (bgds : List EfsBlockGroupDesc) : UInt64 :=
  (bgds.map EfsBlockGroupDesc.freeInodesCount).sum

/-- What is found in the superblock and the table. -/
def loadFindings (img : Image) : List Finding :=
  (if img.sb.checksum ≠ img.sb.checksumOf then [.superblockChecksum] else []) ++
    (if img.sb.incompatibleFeatures &&& ~~~ incompatJournal ≠ 0 then [.unknownFeatures] else []) ++
    (if img.sb.fsckInProgress ≠ 0 then [.sentinelSet] else []) ++
    (img.bgds.zipIdx.filter fun (bgd, _) ↦ bgd.checksum ≠ bgdChecksum bgd).map
      (fun (_, g) ↦ .groupChecksum g) ++
    (if sumFreeBlocks img.bgds ≠ img.sb.freeBlocks then [.freeBlocksSum] else []) ++
    (if sumFreeInodes img.bgds ≠ img.sb.freeInodes then [.freeInodesSum] else [])

/-- A disk with bytes at the given places, and zeros elsewhere. -/
def diskWith (parts : List (ℕ × List UInt8)) : Disk :=
  fun a ↦ ((parts.find? fun p ↦ p.1 ≤ a ∧ a < p.1 + p.2.length).map
    fun p ↦ p.2.getD (a - p.1) 0).getD 0

end Image

end Edos.Fsck

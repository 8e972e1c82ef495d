import Edos.Efs.Bitmap
import Edos.Efs.Directory
import Edos.EfsCommon.Metadata
import Edos.Journal.CommitImage
import Edos.Lib.Fallible

/-!
# The driver

The state of a mounted file system as the driver sees it: blocks through the block page cache,
inodes, and what it keeps in memory, which is the superblock, the table of group descriptors and the
predecessors on the orphan chain. A function of the driver reads and changes it, and may fail at
each access to the device; `faults` says at which.

Allocation first looks for a place, which changes nothing (`chooseRun`), and then takes
it. A failed call does not give back what it has taken: `tx.abort` only drops the pages from the
transaction.
-/

namespace Edos

open Function

/-- The block size that the driver accepts, in bits. -/
def bitsPerBlock : ℕ := journalBlockSize * 8

/-- Group descriptors in a block. -/
def bgdsPerBlock : ℕ := journalBlockSize / EfsBlockGroupDesc.size

/-- The block of the table that has the descriptor of a group. -/
def bgdBlock (g : ℕ) : ℕ := 2 + g / bgdsPerBlock

/-- The block of the superblock. -/
def superblockBlock : ℕ := 1

/-- A block filled from the front, with zeros behind. -/
def Page.padded (bs : List UInt8) : Page where
  bytes := bs.take journalBlockSize ++ List.replicate (journalBlockSize - bs.length) 0
  length_bytes := by
    rw [List.length_append, List.length_take, List.length_replicate]
    omega

/-- A bitmap block with a run of bits set. -/
def Page.setRun (p : Page) (bit len : ℕ) : Page :=
  ⟨Edos.setRun p.bytes bit len, by rw [length_setRun, p.length_bytes]⟩

/-- A bitmap block with a bit cleared. -/
def Page.clearBit (p : Page) (bit : ℕ) : Page :=
  ⟨Edos.clearBit p.bytes bit, by rw [length_clearBit, p.length_bytes]⟩

/-- The type of a file, from the mode of its inode. -/
inductive FileKind where
  | regular
  | directory
  | symlink
  | fifo
  | other
  deriving DecidableEq

/-- What the data area of an inode holds: the data itself, or what `load_extent_map` makes of it and
the blocks of the tree. -/
inductive InodeStorage where
  | inline (area : List UInt8)
  | extents (map : Except Fault ExtentMap) (nodes : List ℕ)

/-- What the driver uses of an inode. -/
structure DiskInode where
  kind : FileKind
  linkCount : ℕ
  size : ℕ
  orphanNext : UInt32
  storage : InodeStorage

/-- What a call does to the device, in order: a block written and enrolled, an inode written and its
block enrolled, a page enrolled as it is, a block revoked. -/
inductive Effect where
  | write (b : ℕ) (data : Page)
  | inode (ino : ℕ)
  | enroll (b : ℕ)
  | revoke (b : ℕ)

/-- A mounted file system. `home` is what is on the device, past the cache. -/
structure EfsDriver where
  blocks : ℕ → Page
  home : ℕ → Page
  inodes : ℕ → DiskInode
  superblock : EfsSuperblock
  bgdTable : List EfsBlockGroupDesc
  orphanPrev : ℕ → Option ℕ
  faults : List Bool
  log : List Effect

namespace EfsDriver

def blocksPerGroup (d : EfsDriver) : ℕ := d.superblock.blocksPerGroup.toNat

def inodesPerGroup (d : EfsDriver) : ℕ := d.superblock.inodesPerGroup.toNat

/-- How many bits of a block bitmap are looked at. -/
def blockBits (d : EfsDriver) : ℕ := min d.blocksPerGroup bitsPerBlock

/-- A function of the driver. -/
abbrev Op := Fallible Fault EfsDriver

open Fallible

def fail {α : Type} (e : FsError) : Op α := throw (.error e)

def panic {α : Type} : Op α := throw .panic

/-! ## Blocks and inodes -/

/-- One access to the device. -/
def io : Op Unit := fun d ↦
  match d.faults with
  | [] => (.ok (), d)
  | f :: fs => (if f then .error (.error .io) else .ok (), { d with faults := fs })

def readBlock (b : ℕ) : Op Page := do
  io
  gets fun d ↦ d.blocks b

/-- `write_block`. -/
def writeBlock (b : ℕ) (data : Page) : Op Unit := do
  io
  modify fun d ↦
    { d with blocks := update d.blocks b data, log := d.log ++ [.write b data] }

/-- A page is read and enrolled. A page that cannot be read is not enrolled, and nothing is said. -/
def enrollPage (b : ℕ) : Op Unit := fun d ↦
  match d.faults with
  | [] => (.ok (), { d with log := d.log ++ [.enroll b] })
  | f :: fs => (.ok (), { d with faults := fs, log := if f then d.log else d.log ++ [.enroll b] })

/-- Enrol the page with the descriptor of a group, and the superblock page, as they are. -/
def enrollGroup (g : ℕ) : Op Unit := do
  enrollPage (bgdBlock g)
  enrollPage superblockBlock

/-- `inode_location`. Inodes are numbered from 1. -/
def inodeLocation (ino : ℕ) : Op (ℕ × ℕ) := do
  let ipg ← gets inodesPerGroup
  if ino = 0 ∨ ipg = 0 then panic else return ((ino - 1) / ipg, (ino - 1) % ipg)

/-- The descriptor of a group, for a number that comes from the disk. -/
def groupDesc (g : ℕ) : Op EfsBlockGroupDesc := do
  match ← gets fun d ↦ d.bgdTable[g]? with
  | some bgd => return bgd
  | none => fail .corrupted

def readInode (ino : ℕ) : Op DiskInode := do
  let (g, _) ← inodeLocation ino
  let _ ← groupDesc g
  io
  gets fun d ↦ d.inodes ino

/-- `write_inode`: the block of the inode is read and written. -/
def writeInode (ino : ℕ) (inode : DiskInode) : Op Unit := do
  let (g, _) ← inodeLocation ino
  let _ ← groupDesc g
  io
  io
  modify fun d ↦
    { d with inodes := update d.inodes ino inode, log := d.log ++ [.inode ino] }

/-! ## Blocks -/

/-- Change the counts of free blocks, of a group and in all. -/
def countBlocks (g : ℕ) (f : ℕ → ℕ) (d : EfsDriver) : EfsDriver :=
  { d with
    bgdTable := d.bgdTable.modify g fun bgd ↦
      { bgd with freeBlocksCount := .ofNat (f bgd.freeBlocksCount.toNat) }
    superblock.freeBlocks := .ofNat (f d.superblock.freeBlocks.toNat) }

/-- Change the counts of free inodes, of a group and in all. -/
def countInodes (g : ℕ) (f : ℕ → ℕ) (d : EfsDriver) : EfsDriver :=
  { d with
    bgdTable := d.bgdTable.modify g fun bgd ↦
      { bgd with freeInodesCount := .ofNat (f bgd.freeInodesCount.toNat) }
    superblock.freeInodes := .ofNat (f d.superblock.freeInodes.toNat) }

/-- A run of free blocks: its group, with the bitmap as read, and where it is in there. -/
structure FoundRun where
  group : ℕ
  bitmapBlock : ℕ
  bitmap : Page
  bit : ℕ
  len : ℕ

/-- The state of a group that the search looks at. -/
def groupState (g : ℕ) : Op EfsBlockGroupDesc := do
  match ← gets fun d ↦ d.bgdTable[g]? with
  | some bgd => return bgd
  | none => panic

/-- First fit over groups. -/
def firstFit (want : ℕ) : List ℕ → Op (Option FoundRun)
  | [] => return none
  | g :: gs => do
    let bgd ← groupState g
    if bgd.freeBlocksCount = 0 then firstFit want gs
    else
      let bitmap ← readBlock bgd.blockBitmapBlock.toNat
      let bits ← gets blockBits
      match findFreeRun bitmap.bytes bits (min want bgd.freeBlocksCount.toNat) with
      | some (bit, len) => return some ⟨g, bgd.blockBitmapBlock.toNat, bitmap, bit, len⟩
      | none => firstFit want gs

/-- The group of the goal block. The division panics on a group size of 0. -/
def goalGroup : Option ℕ → Op (Option (ℕ × ℕ))
  | none => return none
  | some goal => do
    let bpg ← gets blocksPerGroup
    let groups ← gets fun d ↦ d.bgdTable.length
    if bpg = 0 then panic
    else return if goal / bpg < groups then some (goal / bpg, goal % bpg) else none

/-- The run that starts exactly at the goal. -/
def goalRun (want : ℕ) : Option (ℕ × ℕ) → Op (Option FoundRun)
  | none => return none
  | some (g, bit) => do
    let bgd ← groupState g
    let bits ← gets blockBits
    if bgd.freeBlocksCount = 0 ∨ bits ≤ bit then return none
    else
      let bitmap ← readBlock bgd.blockBitmapBlock.toNat
      let len := freeRunAt bitmap.bytes bits (min want bgd.freeBlocksCount.toNat) bit
      return if 0 < len then some ⟨g, bgd.blockBitmapBlock.toNat, bitmap, bit, len⟩ else none

/-- The search of `alloc_blocks`. -/
def chooseRun (want : ℕ) (goal : Option ℕ) : Op FoundRun := do
  let place ← goalGroup goal
  match ← goalRun want place with
  | some run => return run
  | none =>
    let groups ← gets fun d ↦ d.bgdTable.length
    let first := (place.map Prod.fst).getD 0
    match ← firstFit want ((List.range groups).map fun i ↦ (first + i) % groups) with
    | some run => return run
    | none => fail .noSpace

/-- `claim_run`. -/
def claimRun (run : FoundRun) : Op (List ℕ) := do
  let bgd ← groupState run.group
  let free ← gets fun d ↦ d.superblock.freeBlocks.toNat
  if bgd.freeBlocksCount.toNat < run.len ∨ free < run.len then panic
  else
    modify (countBlocks run.group fun n ↦ n - run.len)
    writeBlock run.bitmapBlock (run.bitmap.setRun run.bit run.len)
    enrollGroup run.group
    let bpg ← gets blocksPerGroup
    return (List.range run.len).map fun k ↦ run.group * bpg + run.bit + k

def allocBlocks (want : ℕ) (goal : Option ℕ) : Op (List ℕ) := chooseRun want goal >>= claimRun

def allocBlock : Op ℕ := do
  match ← allocBlocks 1 none with
  | b :: _ => return b
  | [] => fail .noSpace

def freeBlock (b : ℕ) : Op Unit := do
  let bpg ← gets blocksPerGroup
  if bpg = 0 then panic
  else
    let g := b / bpg
    let bit := b % bpg
    let bgd ← groupDesc g
    let bitmap ← readBlock bgd.blockBitmapBlock.toNat
    if journalBlockSize ≤ bit / 8 then panic
    else
      writeBlock bgd.blockBitmapBlock.toNat (bitmap.clearBit bit)
      let free ← gets fun d ↦ d.superblock.freeBlocks.toNat
      if 2 ^ 64 ≤ bgd.freeBlocksCount.toNat + 1 ∨ 2 ^ 64 ≤ free + 1 then panic
      else
        modify (countBlocks g fun n ↦ n + 1)
        enrollGroup g
        modify fun d ↦ { d with log := d.log ++ [.revoke b] }

/-! ## Inodes -/

/-- `free_inode`. It revokes nothing: an inode is part of a block. -/
def freeInode (ino : ℕ) : Op Unit := do
  let (g, bit) ← inodeLocation ino
  let bgd ← groupDesc g
  let bitmap ← readBlock bgd.inodeBitmapBlock.toNat
  if journalBlockSize ≤ bit / 8 then panic
  else
    writeBlock bgd.inodeBitmapBlock.toNat (bitmap.clearBit bit)
    let free ← gets fun d ↦ d.superblock.freeInodes.toNat
    if 2 ^ 64 ≤ bgd.freeInodesCount.toNat + 1 ∨ 2 ^ 64 ≤ free + 1 then panic
    else
      modify (countInodes g fun n ↦ n + 1)
      enrollGroup g

/-! ## Superblock and group descriptors -/

/-- `write_superblock`: the checksum is stamped, and the superblock in memory is written. -/
def writeSuperblock : Op Unit := do
  modify fun d ↦ { d with superblock.checksum := d.superblock.checksumOf }
  writeBlock superblockBlock (.padded (← gets fun d ↦ d.superblock.toBytes))

end EfsDriver

end Edos

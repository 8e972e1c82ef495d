import Edos.Efs.Driver
import Edos.Efs.Rename
import Edos.EfsCommon.ExtentNode

/-!
# File operations of the driver

The operations of the driver on files and directories, over the blocks, the inodes and the allocator
of `EfsDriver`. Each is a sequence of steps, any of which may fail: no block or inode may be free, a
number on the disk may be out of range, the device may not answer.
-/

namespace Edos

open Function

/-- `goal_for`: the physical block that would continue the file at a logical block. -/
def ExtentMap.goalFor (m : ExtentMap) (logicalBlock : ℕ) : Option ℕ :=
  (m.before (m.partitionPoint logicalBlock)).bind fun e ↦
    if e.logicalBlock + e.length ≤ logicalBlock then
      some (e.physicalStart + e.length + (logicalBlock - (e.logicalBlock + e.length)))
    else none

namespace DiskInode

/-- What is in the extent tree: inline data has no extent header. -/
def loadExtentMap (inode : DiskInode) : Except Fault ExtentMap :=
  match inode.storage with
  | .inline _ => .error (.error .corrupted)
  | .extents map _ => map

/-- `tree_blocks`. -/
def treeBlocks (inode : DiskInode) : List ℕ :=
  match inode.storage with
  | .inline _ => []
  | .extents _ nodes => nodes

/-- The map, or none if the tree is not one. -/
def extentsOrNone (inode : DiskInode) : ExtentMap := inode.loadExtentMap.toOption.getD []

/-- The blocks that the storage of an inode occupies. -/
def ownedBlocks (inode : DiskInode) : List ℕ := inode.extentsOrNone.physical ++ inode.treeBlocks

/-- `new_inode`, with inline data. -/
def fresh (kind : FileKind) : DiskInode :=
  ⟨kind, 1, 0, 0, .inline (List.replicate inodeDataAreaSize 0)⟩

end DiskInode

namespace EfsDriver

open Fallible

def ofExcept {α : Type} : Except Fault α → Op α
  | .ok a => return a
  | .error e => throw e

/-! ## Block maps -/

def readBlocks : List ℕ → Op (List UInt8)
  | [] => return []
  | b :: bs => do
    let page ← readBlock b
    let rest ← readBlocks bs
    return page.bytes ++ rest

/-- `load_extent_map`. The leaves of a tree are read from the device; the inode already says what is
in them. -/
def loadExtentMap (inode : DiskInode) : Op ExtentMap := do
  let map ← ofExcept inode.loadExtentMap
  let _ ← readBlocks inode.treeBlocks
  return map

/-- `load_extent_map(..).unwrap_or_default()`: a map that cannot be read is empty. -/
def loadOrDefault (inode : DiskInode) : Op ExtentMap := fun d ↦
  match loadExtentMap inode d with
  | (.error (.error _), d') => (.ok [], d')
  | r => r

/-- The leaves of `build_extent_tree`: each goes to the block that the inode has for it, or to a new
one. -/
def storeLeaves : List (List UInt8) → List ℕ → Op (List ℕ)
  | [], _ => return []
  | node :: nodes, b :: existing => do
    writeBlock b (.padded node)
    let bs ← storeLeaves nodes existing
    return b :: bs
  | node :: nodes, [] => do
    let b ← allocBlock
    writeBlock b (.padded node)
    let bs ← storeLeaves nodes []
    return b :: bs

/-- `store_extent_map`. The inode that it returns is for the caller to write. -/
def storeExtentMap (inode : DiskInode) (map : ExtentMap) : Op DiskInode := do
  if maxExtents < map.length then fail .unsupported
  else
    let nodes ← storeLeaves (leafNodes map) inode.treeBlocks
    (inode.treeBlocks.drop nodes.length).forM freeBlock
    return { inode with storage := .extents (.ok map) nodes }

/-- What a new block gets before it is used. -/
def prepareBlock (phys : ℕ) : NewBlock → Op Unit
  | .zeroed => writeBlock phys (.padded [])
  | .overwritten => return

/-- `ensure_block_for_logical`. -/
def ensureBlockForLogical (ino logicalBlock : ℕ) (new : NewBlock) : Op ℕ := do
  let inode ← readInode ino
  let map ← loadExtentMap inode
  match map.lookup logicalBlock with
  | some phys => return phys
  | none =>
    match ← allocBlocks 1 (map.goalFor logicalBlock) with
    | [] => fail .noSpace
    | phys :: _ =>
      prepareBlock phys new
      let updated ← storeExtentMap inode (map.insert logicalBlock phys)
      writeInode ino updated
      return phys

/-- `convert_inline_to_extents`, for an inode with this data area. -/
def convertInlineToExtents (ino : ℕ) (inode : DiskInode) (area : List UInt8) : Op Unit := do
  let phys ← allocBlock
  writeBlock phys (.padded (area.take (min inode.size inodeDataAreaSize)))
  writeInode ino { inode with storage := .extents (.ok [⟨0, 1, phys % 2 ^ 48⟩]) [] }

/-! ## Directories -/

/-- `read_dir_data_cached`: the blocks in the order of the extents, up to the size. -/
def readDirDataCached (inode : DiskInode) : Op (List UInt8) := do
  if inode.size = 0 then return []
  else
    match inode.storage with
    | .inline area => return area.take (min inode.size inodeDataAreaSize)
    | .extents _ _ =>
      let map ← loadExtentMap inode
      let data ← readBlocks
        (map.physical.take ((inode.size + (efsBlockSize - 1)) / efsBlockSize))
      return data.take inode.size ++ List.replicate (inode.size - data.length) 0

/-- `write_dir_blocks`. -/
def writeDirBlocks (dirIno : ℕ) (data : List UInt8) : Op Unit := do
  let inode ← readInode dirIno
  match inode.storage with
  | .inline area =>
    writeInode dirIno { inode with storage := .inline (patch area 0 (data.take inodeDataAreaSize)) }
  | .extents _ _ =>
    (List.range ((data.length + (efsBlockSize - 1)) / efsBlockSize)).forM fun i ↦ do
      let phys ← ensureBlockForLogical dirIno (i % 2 ^ 32) .overwritten
      writeBlock phys (.padded (window data (i * efsBlockSize) efsBlockSize))

/-- The end of an operation on a directory, which stamps the time. -/
def touchInode (ino : ℕ) : Op Unit := do
  let inode ← readInode ino
  writeInode ino inode

/-- A directory with inline data gets a block. -/
def ensureExtents (ino : ℕ) : Op Unit := do
  let inode ← readInode ino
  match inode.storage with
  | .inline area => convertInlineToExtents ino inode area
  | .extents _ _ => return

/-- The first part of `remove_dir_entry`: the data of the directory without the entry. -/
def dirDataWithout (dirIno : ℕ) (name : String) : Op (List UInt8) := do
  let inode ← readInode dirIno
  let data ← readDirDataCached inode
  match findName data name with
  | none => fail .fileNotFound
  | some (off, hdr) => return removeAt data off hdr efsBlockSize

/-- `remove_dir_entry`. -/
def removeDirEntry (dirIno : ℕ) (name : String) : Op Unit := do
  let data ← dirDataWithout dirIno name
  writeDirBlocks dirIno data
  touchInode dirIno

/-! ## Paths -/

/-! ## Orphans -/

/-- Change the head of the chain, in memory. -/
def setLastOrphan (ino : UInt32) (d : EfsDriver) : EfsDriver :=
  { d with superblock := { d.superblock with lastOrphan := ino } }

/-- Change an entry of `orphan_prev`. -/
def setOrphanPrev (ino : ℕ) (prev : Option ℕ) (d : EfsDriver) : EfsDriver :=
  { d with orphanPrev := update d.orphanPrev ino prev }

theorem setOrphanPrev_apply (ino : ℕ) (prev : Option ℕ) (d : EfsDriver) (b : ℕ) :
    (d.setOrphanPrev ino prev).orphanPrev b = if b = ino then prev else d.orphanPrev b :=
  update_apply d.orphanPrev ino prev b

/-- The inode behind another one is told what is before it. -/
def linkBack (next : UInt32) (prev : ℕ) : Op Unit :=
  if next ≠ 0 then modify (setOrphanPrev next.toNat (some prev)) else return

/-- `orphan_add`. -/
def orphanAdd (ino : ℕ) : Op Unit := do
  let oldHead ← gets fun d ↦ d.superblock.lastOrphan
  modify (setLastOrphan (.ofNat ino))
  let inode ← readInode ino
  writeInode ino { inode with orphanNext := oldHead, linkCount := 0 }
  writeSuperblock
  modify (setOrphanPrev ino (some 0))
  linkBack oldHead ino

/-- The link that led to an inode leads past it. -/
def linkPast (prev : ℕ) (next : UInt32) : Op Unit := do
  if prev = 0 then
    modify (setLastOrphan next)
    writeSuperblock
  else
    let prevInode ← readInode prev
    writeInode prev { prevInode with orphanNext := next }

/-- `orphan_del`. -/
def orphanDel (ino : ℕ) : Op Unit := do
  match ← gets fun d ↦ d.orphanPrev ino with
  | none => return
  | some prev =>
    modify (setOrphanPrev ino none)
    let inode ← readInode ino
    linkPast prev inode.orphanNext
    linkBack inode.orphanNext prev

/-- `free_file_storage`, with `free_extent_storage`. If a leaf of the tree cannot be read, no block
of the data is freed. -/
def freeFileStorage (ino : ℕ) (inode : DiskInode) : Op Unit := do
  let map ← loadOrDefault inode
  (map.physical ++ inode.treeBlocks).forM freeBlock
  freeInode ino

/-- `remove_file_inner`. -/
def removeFileInner (parentIno fileIno : ℕ) (inode : DiskInode) (name : String) : Op Unit := do
  removeDirEntry parentIno name
  if inode.kind = .symlink then freeFileStorage fileIno inode else orphanAdd fileIno

/-- `evict_inode`. -/
def evictInode (ino : ℕ) : Op Unit := do
  let inode ← readInode ino
  if inode.kind ≠ .regular then return
  else
    orphanDel ino
    freeFileStorage ino inode

/-! ## Truncate -/

/-- What `truncate_inner` keeps of an extent, and which blocks it frees. -/
def trimExtent (newBlocks : ℕ) (e : EfsExtent) : List EfsExtent × List ℕ :=
  if newBlocks ≤ e.logicalBlock then ([], List.range' e.physicalStart e.length)
  else if newBlocks < e.logicalBlock + e.length then
    let keep := newBlocks - e.logicalBlock
    ([{ e with length := keep }], List.range' (e.physicalStart + keep) (e.length - keep))
  else ([e], [])

/-- The shrinking part of `truncate_inner`, for a file with extents. -/
def shrinkExtents (ino : ℕ) (inode : DiskInode) (size : ℕ) : Op Unit := do
  let newBlocks := (size + (efsBlockSize - 1)) / efsBlockSize
  let map ← loadOrDefault inode
  let trimmed := map.map (trimExtent newBlocks)
  (trimmed.flatMap Prod.snd).forM freeBlock
  let updated ← storeExtentMap inode (trimmed.flatMap Prod.fst)
  writeInode ino { updated with size }

/-- `truncate_inner`. -/
def truncateInner (ino size : ℕ) : Op Unit := do
  let inode ← readInode ino
  match inode.storage with
  | .inline area =>
    if inode.size ≤ size ∧ inodeDataAreaSize < size then
      convertInlineToExtents ino inode area
      let base ← readInode ino
      writeInode ino { base with size }
    else writeInode ino { inode with size }
  | .extents _ _ =>
    if inode.size ≤ size then writeInode ino { inode with size }
    else shrinkExtents ino inode size

/-- A file system of blocks of zeros, with these groups. -/
def blank (bgdTable : List EfsBlockGroupDesc) (blocksPerGroup inodesPerGroup : UInt32) :
    EfsDriver where
  blocks _ := .padded []
  home _ := .padded []
  inodes _ := .fresh .regular
  superblock := { EfsSuperblock.ofBytes [] with blocksPerGroup, inodesPerGroup }
  bgdTable
  orphanPrev _ := none
  faults := []
  log := []

/-- A directory with one entry `p`, for inode 5, and this inode. -/
def withEntry (inode : DiskInode) : EfsDriver :=
  { blank [{ EfsBlockGroupDesc.ofBytes [] with
        blockBitmapBlock := 3, inodeBitmapBlock := 4 }] 64 64 with
    inodes := fun ino ↦
      if ino = 1 then ⟨.directory, 2, 16, 0,
        .inline ([5, 0, 0, 0, 0, 0, 0, 0, 16, 0, 1, 0, 0x70] ++ List.replicate 163 0)⟩
      else inode }

end EfsDriver

end Edos

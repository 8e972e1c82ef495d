import Edos.EfsCommon.JournalFormat
import Edos.Lib.Pack

/-!
# The superblock and the group descriptors on disk

The superblock is at the start of block 1, the table of group descriptors from block 2 on. Both are
packed structures. They are read once, at mount; from then on the driver keeps them in memory,
changes them there, and writes them back as a whole.

Byte arrays that no code looks into are kept as numbers of their width.
-/

namespace Edos

/-- `EFS_MAGIC`, the bytes `EFS!`. -/
def efsMagic : UInt32 := 0x45465321

def efsVersion : UInt32 := 1

def incompatJournal : UInt64 := 1

structure EfsSuperblock where
  magic : UInt32
  version : UInt32
  totalBlocks : UInt64
  totalInodes : UInt64
  freeBlocks : UInt64
  freeInodes : UInt64
  blockSizeLog2 : UInt32
  blocksPerGroup : UInt32
  inodesPerGroup : UInt32
  inodeSize : UInt16
  blockGroupCount : UInt16
  compatibleFeatures : UInt64
  incompatibleFeatures : UInt64
  readOnlyFeatures : UInt64
  uuid : BitVec 128
  volumeName : BitVec 512
  mountTime : UInt64
  writeTime : UInt64
  mountCount : UInt16
  maxMountCount : UInt16
  firstDataBlock : UInt64
  checksum : UInt32
  journalFirstBlock : UInt64
  journalBlockCount : UInt32
  journalSbChecksum : UInt32
  fsckInProgress : UInt8
  lastOrphan : UInt32
  reserved : BitVec 344
  deriving DecidableEq

theorem bitVec_toNat_lt {width n : ℕ} (x : BitVec width) (h : width = 8 * n) :
    x.toNat < 256 ^ n := by
  rw [show 256 = 2 ^ 8 from rfl, ← pow_mul, ← h]
  exact x.isLt

namespace EfsSuperblock

def size : ℕ := 256

def fields (sb : EfsSuperblock) : List (ℕ × ℕ) :=
  [(4, sb.magic.toNat), (4, sb.version.toNat), (8, sb.totalBlocks.toNat), (8, sb.totalInodes.toNat),
    (8, sb.freeBlocks.toNat), (8, sb.freeInodes.toNat), (4, sb.blockSizeLog2.toNat),
    (4, sb.blocksPerGroup.toNat), (4, sb.inodesPerGroup.toNat), (2, sb.inodeSize.toNat),
    (2, sb.blockGroupCount.toNat), (8, sb.compatibleFeatures.toNat),
    (8, sb.incompatibleFeatures.toNat), (8, sb.readOnlyFeatures.toNat), (16, sb.uuid.toNat),
    (64, sb.volumeName.toNat), (8, sb.mountTime.toNat), (8, sb.writeTime.toNat),
    (2, sb.mountCount.toNat), (2, sb.maxMountCount.toNat), (8, sb.firstDataBlock.toNat),
    (4, sb.checksum.toNat), (8, sb.journalFirstBlock.toNat), (4, sb.journalBlockCount.toNat),
    (4, sb.journalSbChecksum.toNat), (1, sb.fsckInProgress.toNat), (4, sb.lastOrphan.toNat),
    (43, sb.reserved.toNat)]

def widths : List ℕ :=
  [4, 4, 8, 8, 8, 8, 4, 4, 4, 2, 2, 8, 8, 8, 16, 64, 8, 8, 2, 2, 8, 4, 8, 4, 4, 1, 4, 43]

def toBytes (sb : EfsSuperblock) : List UInt8 := pack sb.fields

def ofBytes (bs : List UInt8) : EfsSuperblock :=
  let value (i : ℕ) : ℕ := (unpack widths bs).getD i 0
  { magic := .ofNat (value 0)
    version := .ofNat (value 1)
    totalBlocks := .ofNat (value 2)
    totalInodes := .ofNat (value 3)
    freeBlocks := .ofNat (value 4)
    freeInodes := .ofNat (value 5)
    blockSizeLog2 := .ofNat (value 6)
    blocksPerGroup := .ofNat (value 7)
    inodesPerGroup := .ofNat (value 8)
    inodeSize := .ofNat (value 9)
    blockGroupCount := .ofNat (value 10)
    compatibleFeatures := .ofNat (value 11)
    incompatibleFeatures := .ofNat (value 12)
    readOnlyFeatures := .ofNat (value 13)
    uuid := .ofNat _ (value 14)
    volumeName := .ofNat _ (value 15)
    mountTime := .ofNat (value 16)
    writeTime := .ofNat (value 17)
    mountCount := .ofNat (value 18)
    maxMountCount := .ofNat (value 19)
    firstDataBlock := .ofNat (value 20)
    checksum := .ofNat (value 21)
    journalFirstBlock := .ofNat (value 22)
    journalBlockCount := .ofNat (value 23)
    journalSbChecksum := .ofNat (value 24)
    fsckInProgress := .ofNat (value 25)
    lastOrphan := .ofNat (value 26)
    reserved := .ofNat _ (value 27) }

theorem map_fst_fields (sb : EfsSuperblock) : sb.fields.map Prod.fst = widths := rfl

@[simp] theorem length_toBytes (sb : EfsSuperblock) : sb.toBytes.length = size := by
  rw [toBytes, length_pack, map_fst_fields]
  rfl

theorem fields_lt (sb : EfsSuperblock) : ∀ f ∈ sb.fields, f.2 < 256 ^ f.1 := by
  have h8 (x : UInt8) : x.toNat < 256 ^ 1 := x.toNat_lt
  have h16 (x : UInt16) : x.toNat < 256 ^ 2 := x.toNat_lt
  have h32 (x : UInt32) : x.toNat < 256 ^ 4 := x.toNat_lt
  have h64 (x : UInt64) : x.toNat < 256 ^ 8 := x.toNat_lt
  have huuid : sb.uuid.toNat < 256 ^ 16 := bitVec_toNat_lt _ rfl
  have hname : sb.volumeName.toNat < 256 ^ 64 := bitVec_toNat_lt _ rfl
  have hreserved : sb.reserved.toNat < 256 ^ 43 := bitVec_toNat_lt _ rfl
  simp only [fields, List.forall_mem_cons]
  exact ⟨h32 _, h32 _, h64 _, h64 _, h64 _, h64 _, h32 _, h32 _, h32 _, h16 _, h16 _, h64 _, h64 _,
    h64 _, huuid, hname, h64 _, h64 _, h16 _, h16 _, h64 _, h32 _, h64 _, h32 _, h32 _, h8 _, h32 _,
    hreserved, fun _ h ↦ nomatch h⟩

/-- **Round trip.** -/
theorem ofBytes_toBytes (sb : EfsSuperblock) : ofBytes sb.toBytes = sb := by
  have hunpack : unpack widths sb.toBytes = sb.fields.map Prod.snd := unpack_pack sb.fields_lt
  rw [ofBytes, hunpack]
  simp [fields]

/-- `checksum_superblock`. -/
def checksumOf (sb : EfsSuperblock) : UInt32 := crc32 (toBytes { sb with checksum := 0 })

/-- `validate`. -/
def validate (sb : EfsSuperblock) : Bool :=
  sb.magic == efsMagic && sb.version == efsVersion && sb.inodeSize == 256 &&
    (10 ≤ sb.blockSizeLog2 && sb.blockSizeLog2 ≤ 13)

end EfsSuperblock

structure EfsBlockGroupDesc where
  blockBitmapBlock : UInt64
  inodeBitmapBlock : UInt64
  inodeTableBlock : UInt64
  freeBlocksCount : UInt64
  freeInodesCount : UInt64
  usedDirsCount : UInt64
  checksum : UInt32
  reserved : BitVec 96
  deriving DecidableEq

namespace EfsBlockGroupDesc

/-- `BGD_SIZE`. -/
def size : ℕ := 64

def fields (bgd : EfsBlockGroupDesc) : List (ℕ × ℕ) :=
  [(8, bgd.blockBitmapBlock.toNat), (8, bgd.inodeBitmapBlock.toNat), (8, bgd.inodeTableBlock.toNat),
    (8, bgd.freeBlocksCount.toNat), (8, bgd.freeInodesCount.toNat), (8, bgd.usedDirsCount.toNat),
    (4, bgd.checksum.toNat), (12, bgd.reserved.toNat)]

def widths : List ℕ := [8, 8, 8, 8, 8, 8, 4, 12]

def toBytes (bgd : EfsBlockGroupDesc) : List UInt8 := pack bgd.fields

def ofBytes (bs : List UInt8) : EfsBlockGroupDesc :=
  let value (i : ℕ) : ℕ := (unpack widths bs).getD i 0
  { blockBitmapBlock := .ofNat (value 0)
    inodeBitmapBlock := .ofNat (value 1)
    inodeTableBlock := .ofNat (value 2)
    freeBlocksCount := .ofNat (value 3)
    freeInodesCount := .ofNat (value 4)
    usedDirsCount := .ofNat (value 5)
    checksum := .ofNat (value 6)
    reserved := .ofNat _ (value 7) }

@[simp] theorem length_toBytes (bgd : EfsBlockGroupDesc) : bgd.toBytes.length = size := by
  rfl

theorem fields_lt (bgd : EfsBlockGroupDesc) : ∀ f ∈ bgd.fields, f.2 < 256 ^ f.1 := by
  have h32 (x : UInt32) : x.toNat < 256 ^ 4 := x.toNat_lt
  have h64 (x : UInt64) : x.toNat < 256 ^ 8 := x.toNat_lt
  have hreserved : bgd.reserved.toNat < 256 ^ 12 := bitVec_toNat_lt _ rfl
  simp only [fields, List.forall_mem_cons]
  exact ⟨h64 _, h64 _, h64 _, h64 _, h64 _, h64 _, h32 _, hreserved, fun _ h ↦ nomatch h⟩

/-- **Round trip.** -/
theorem ofBytes_toBytes (bgd : EfsBlockGroupDesc) : ofBytes bgd.toBytes = bgd := by
  have hunpack : unpack widths bgd.toBytes = bgd.fields.map Prod.snd := unpack_pack bgd.fields_lt
  rw [ofBytes, hunpack]
  simp [fields]

end EfsBlockGroupDesc

end Edos

import Edos.EfsCommon.JournalFormat
import Edos.Lib.Pack

/-!
# Inodes on disk

An entry of an inode table has 256 bytes: the fields, packed, and a data area of 176 bytes that
holds the data of a small file or the root of the extent tree.
-/

namespace Edos

def sIfmt : UInt16 := 0xF000

def sIfreg : UInt16 := 0x8000

def sIfdir : UInt16 := 0x4000

def sIflnk : UInt16 := 0xA000

def sIfifo : UInt16 := 0x1000

def inodeFlagInlineData : UInt32 := 1

/-- `EfsInode`, as it is on disk. -/
structure InodeRecord where
  mode : UInt16
  uid : UInt16
  gid : UInt16
  linkCount : UInt16
  size : UInt64
  blocks : UInt64
  flags : UInt32
  orphanNext : UInt32
  ctimeSec : UInt64
  ctimeNsec : UInt32
  reserved2 : UInt32
  mtimeSec : UInt64
  mtimeNsec : UInt32
  reserved3 : UInt32
  atimeSec : UInt64
  atimeNsec : UInt32
  checksum : UInt32
  dataArea : List UInt8
  deriving DecidableEq

namespace InodeRecord

/-- The width of an entry. -/
def bytesLen : ℕ := 256

/-- Where the data area begins. -/
def areaStart : ℕ := 80

def fields (i : InodeRecord) : List (ℕ × ℕ) :=
  [(2, i.mode.toNat), (2, i.uid.toNat), (2, i.gid.toNat), (2, i.linkCount.toNat), (8, i.size.toNat),
    (8, i.blocks.toNat), (4, i.flags.toNat), (4, i.orphanNext.toNat), (8, i.ctimeSec.toNat),
    (4, i.ctimeNsec.toNat), (4, i.reserved2.toNat), (8, i.mtimeSec.toNat), (4, i.mtimeNsec.toNat),
    (4, i.reserved3.toNat), (8, i.atimeSec.toNat), (4, i.atimeNsec.toNat), (4, i.checksum.toNat)]

def widths : List ℕ := [2, 2, 2, 2, 8, 8, 4, 4, 8, 4, 4, 8, 4, 4, 8, 4, 4]

def toBytes (i : InodeRecord) : List UInt8 := pack i.fields ++ i.dataArea

def ofBytes (bs : List UInt8) : InodeRecord :=
  let value (i : ℕ) : ℕ := (unpack widths bs).getD i 0
  { mode := .ofNat (value 0)
    uid := .ofNat (value 1)
    gid := .ofNat (value 2)
    linkCount := .ofNat (value 3)
    size := .ofNat (value 4)
    blocks := .ofNat (value 5)
    flags := .ofNat (value 6)
    orphanNext := .ofNat (value 7)
    ctimeSec := .ofNat (value 8)
    ctimeNsec := .ofNat (value 9)
    reserved2 := .ofNat (value 10)
    mtimeSec := .ofNat (value 11)
    mtimeNsec := .ofNat (value 12)
    reserved3 := .ofNat (value 13)
    atimeSec := .ofNat (value 14)
    atimeNsec := .ofNat (value 15)
    checksum := .ofNat (value 16)
    dataArea := bs.drop areaStart }

theorem map_fst_fields (i : InodeRecord) : i.fields.map Prod.fst = widths := rfl

theorem length_toBytes (i : InodeRecord) : i.toBytes.length = areaStart + i.dataArea.length := by
  have hsum : widths.sum = areaStart := rfl
  rw [toBytes, List.length_append, length_pack, map_fst_fields, hsum]

/-- `checksum_inode`. -/
def checksumOf (i : InodeRecord) : UInt32 := crc32 (toBytes { i with checksum := 0 })

/-- `is_dir`. -/
def isDir (i : InodeRecord) : Bool := i.mode &&& sIfmt == sIfdir

/-- `is_inline_data`. -/
def isInlineData (i : InodeRecord) : Bool := i.flags &&& inodeFlagInlineData != 0

/-- `inline_data`. -/
def inlineData (i : InodeRecord) : List UInt8 := i.dataArea.take i.size.toNat

/-- An entry of zeros. -/
def zero : InodeRecord := ofBytes (List.replicate bytesLen 0)

end InodeRecord

end Edos

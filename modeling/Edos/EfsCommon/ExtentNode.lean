import Edos.Efs.DirRecords
import Edos.Efs.Extents
import Edos.Journal.CommitImage
import Edos.Lib.Pack

/-!
# Extent trees on disk

A node is a header and an array of entries. The root is in the data area of the inode. Up to
thirteen extents are there themselves (depth 0); more of them are in leaf blocks, and the root has
an index entry for each leaf (depth 1). An index entry has the shape of an extent, with a reserved
field in the place of the length.
-/

namespace Edos

def extentMagic : UInt16 := 0xEF10

def maxInlineExtents : ℕ := 13

/-- `entries_per_node` for blocks of 4 KiB. -/
def entriesPerLeaf : ℕ := 340

structure EfsExtentHeader where
  magic : UInt16
  entries : UInt16
  maxEntries : UInt16
  depth : UInt16
  reserved : UInt32
  deriving DecidableEq

namespace EfsExtentHeader

def size : ℕ := 12

def fields (hdr : EfsExtentHeader) : List (ℕ × ℕ) :=
  [(2, hdr.magic.toNat), (2, hdr.entries.toNat), (2, hdr.maxEntries.toNat), (2, hdr.depth.toNat),
    (4, hdr.reserved.toNat)]

def widths : List ℕ := [2, 2, 2, 2, 4]

def toBytes (hdr : EfsExtentHeader) : List UInt8 := pack hdr.fields

def ofBytes (bs : List UInt8) : EfsExtentHeader :=
  let value (i : ℕ) : ℕ := (unpack widths bs).getD i 0
  { magic := .ofNat (value 0)
    entries := .ofNat (value 1)
    maxEntries := .ofNat (value 2)
    depth := .ofNat (value 3)
    reserved := .ofNat (value 4) }

end EfsExtentHeader

/-- An entry of a node, of either type: for an extent the length is its length, for an index entry
it is the reserved field, and the block is the start of the extent or the child. -/
structure NodeEntry where
  logicalBlock : ℕ
  length : ℕ
  block : ℕ
  deriving DecidableEq

namespace NodeEntry

def size : ℕ := 12

def fields (e : NodeEntry) : List (ℕ × ℕ) :=
  [(4, e.logicalBlock), (2, e.length), (2, e.block / 2 ^ 32), (4, e.block % 2 ^ 32)]

def widths : List ℕ := [4, 2, 2, 4]

def toBytes (e : NodeEntry) : List UInt8 := pack e.fields

def ofBytes (bs : List UInt8) : NodeEntry :=
  let value (i : ℕ) : ℕ := (unpack widths bs).getD i 0
  ⟨value 0, value 1, value 2 * 2 ^ 32 + value 3⟩

end NodeEntry

/-! ## Nodes -/

/-- A header and entries, with zeros behind. -/
def nodeBytes (size : ℕ) (depth : UInt16) (capacity : ℕ) (es : List NodeEntry) : List UInt8 :=
  let bytes := EfsExtentHeader.toBytes ⟨extentMagic, .ofNat es.length, .ofNat capacity, depth, 0⟩ ++
    es.flatMap NodeEntry.toBytes
  bytes ++ List.replicate (size - bytes.length) 0

def readNodeHeader (node : List UInt8) : Option EfsExtentHeader :=
  if node.length < EfsExtentHeader.size then none else some (.ofBytes node)

def readNodeEntry (node : List UInt8) (index : ℕ) : Option NodeEntry :=
  let off := EfsExtentHeader.size + index * NodeEntry.size
  if node.length < off + NodeEntry.size then none else some (.ofBytes (node.drop off))

/-- The entries of a node, each of which has to be inside it. -/
def readEntries (node : List UInt8) (count : ℕ) : Except Fault (List NodeEntry) :=
  (List.range count).mapM fun i ↦
    match readNodeEntry node i with
    | some e => .ok e
    | none => .error (.error .corrupted)

/-! ## The tree -/

def EfsExtent.toEntry (e : EfsExtent) : NodeEntry := ⟨e.logicalBlock, e.length, e.physicalStart⟩

def NodeEntry.toExtent (e : NodeEntry) : EfsExtent := ⟨e.logicalBlock, e.length, e.block⟩

/-- The extents in chunks of what a leaf holds, unless they fit in the inode. -/
def leafChunks (map : ExtentMap) : List ExtentMap :=
  if map.length ≤ maxInlineExtents then []
  else (List.range ((map.length + (entriesPerLeaf - 1)) / entriesPerLeaf)).map fun i ↦
    window map (i * entriesPerLeaf) entriesPerLeaf

/-- `build_extent_tree`: the nodes of the leaves, in order. -/
def leafNodes (map : ExtentMap) : List (List UInt8) :=
  (leafChunks map).map fun chunk ↦
    nodeBytes journalBlockSize 0 entriesPerLeaf (chunk.map EfsExtent.toEntry)

/-- `read_leaf_entries`. -/
def readLeafEntries (node : List UInt8) (count capacity : ℕ) : Except Fault ExtentMap :=
  if capacity < count then .error (.error .corrupted)
  else (readEntries node count).map (List.map NodeEntry.toExtent)

/-- One leaf of the tree. -/
def loadLeaf (node : List UInt8) : Except Fault ExtentMap :=
  match readNodeHeader node with
  | none => .error (.error .corrupted)
  | some hdr =>
    if hdr.magic ≠ extentMagic ∨ hdr.depth ≠ 0 then .error (.error .corrupted)
    else readLeafEntries node hdr.entries.toNat entriesPerLeaf

/-- `load_extent_map`, of a data area, with the blocks of the device. -/
def loadExtentMap (area : List UInt8) (blocks : ℕ → List UInt8) : Except Fault ExtentMap :=
  match readNodeHeader area with
  | none => .error (.error .corrupted)
  | some hdr =>
    if hdr.magic ≠ extentMagic then .error (.error .corrupted)
    else if hdr.depth = 0 then readLeafEntries area hdr.entries.toNat maxInlineExtents
    else if hdr.depth = 1 then do
      let index ← readEntries area (min hdr.entries.toNat maxInlineExtents)
      let leaves ← index.mapM fun e ↦ loadLeaf (blocks e.block)
      return leaves.flatten
    else .error (.error .unsupported)

/-- `tree_blocks`: the blocks of the leaves. -/
def treeBlocks (area : List UInt8) : Except Fault (List ℕ) :=
  match readNodeHeader area with
  | none => .ok []
  | some hdr =>
    if hdr.magic ≠ extentMagic ∨ hdr.depth = 0 then .ok []
    else (readEntries area (min hdr.entries.toNat maxInlineExtents)).map (List.map NodeEntry.block)

end Edos

import Edos.Fsck.Image

/-!
# The inode scan and the rebuilt bitmaps

The checker walks the orphan chain, reads every inode whose bit is set, and collects the blocks that
the inodes claim (`scanAllInodes`). From these and from the static metadata it builds its own
bitmaps and compares them with those on disk: a bit that is set only on disk is leaked.

An inode that does not pass `verify_inode` claims nothing, and an extent that ends behind the last
block is dropped.
-/

namespace Edos.Fsck

structure InodeInfo where
  ino : ℕ
  mode : UInt16
  linkCount : ℕ
  isDir : Bool
  extents : List (ℕ × ℕ)
  deriving DecidableEq

/-- The blocks of the extents. -/
def InodeInfo.blocks (info : InodeInfo) : List ℕ := info.extents.flatMap fun e ↦ List.range' e.1 e.2

namespace Image

/-! ## The orphan chain -/

/-- The loop of `orphan::walk`: the inodes of the chain, what is found, and whether it ends. Every
round adds an inode that was not there, so a fuel of the number of inodes and one more is enough. -/
def chainFrom (img : Image) : ℕ → ℕ → List ℕ → List ℕ × List Finding × Bool
  | 0, _, set => (set, [], false)
  | fuel + 1, ino, set =>
    if img.totalInodes < ino then (set, [.chainOutOfRange ino], false)
    else if ino ∈ set then (set, [.chainLoops ino], false)
    else
      match img.readInode ino with
      | none => (ino :: set, [.chainWithoutTable ino], false)
      | some inode =>
        let linked := if inode.linkCount ≠ 0 then [.chainLinked ino inode.linkCount.toNat] else []
        if inode.orphanNext = 0 then (ino :: set, linked, true)
        else
          let (set', fs, ended) := img.chainFrom fuel inode.orphanNext.toNat (ino :: set)
          (set', linked ++ fs, ended)

/-- `orphan::walk`. -/
def orphanChain (img : Image) : List ℕ × List Finding :=
  if img.sb.lastOrphan = 0 then ([], [])
  else
    let (set, fs, ended) := img.chainFrom (img.totalInodes + 1) img.sb.lastOrphan.toNat []
    (set, (if img.sb.compatibleFeatures &&& 2 = 0 then [.chainWithoutFeature] else []) ++ fs ++
      (if set ≠ [] then [.chainPending set.length] else []) ++
      (if ended then [] else [.chainUnended]))

/-! ## Inodes -/

/-- `collect_leaf_extents`, over the entries with the given indices. -/
def collectLeafExtents (totalBlocks ino : ℕ) (node : List UInt8) :
    List ℕ → Option (List (ℕ × ℕ)) × List Finding
  | [] => (some [], [])
  | i :: is =>
    match readNodeEntry node i with
    | none => (none, [.extentBounds ino i])
    | some e =>
      let (rest, fs) := collectLeafExtents totalBlocks ino node is
      if e.length = 0 ∨ 32768 ≤ e.length then (none, .extentLength ino i :: fs)
      else if totalBlocks < e.block + e.length then (rest, .extentRange ino i :: fs)
      else (rest.map ((e.block, e.length) :: ·), fs)

/-- `entries_per_node`. -/
def entriesPerNode (bytes : ℕ) : ℕ := (bytes - 12) / 12

/-- The extents behind an index entry, and the leaf block itself. -/
def collectLeaf (img : Image) (ino i : ℕ) (area : List UInt8) :
    Option (List (ℕ × ℕ)) × List Finding :=
  match readNodeEntry area i with
  | none => (none, [.indexBounds ino i])
  | some idx =>
    if idx.block = 0 ∨ img.totalBlocks ≤ idx.block then (none, [.childOutside ino i])
    else
      let leaf := img.readBlock idx.block
      match readNodeHeader leaf with
      | none => (none, [.leafTooSmall ino idx.block])
      | some hdr =>
        if hdr.magic ≠ extentMagic ∨ hdr.depth ≠ 0 ∨
            entriesPerNode img.blockSize < hdr.entries.toNat then
          (none, [.leafMalformed ino idx.block])
        else
          let (es, fs) :=
            collectLeafExtents img.totalBlocks ino leaf (List.range hdr.entries.toNat)
          (es.map ((idx.block, 1) :: ·), fs)

/-- The loop over the index entries. It ends at the first leaf that is not sound. -/
def collectTree (img : Image) (ino : ℕ) (area : List UInt8) :
    List ℕ → Option (List (ℕ × ℕ)) × List Finding
  | [] => (some [], [])
  | i :: is =>
    match img.collectLeaf ino i area with
    | (none, fs) => (none, fs)
    | (some es, fs) =>
      let (rest, fs') := img.collectTree ino area is
      (rest.map (es ++ ·), fs ++ fs')

/-- The part of `verify_inode` that collects the extents. -/
def collectExtents (img : Image) (ino : ℕ) (inode : InodeRecord) :
    Option (List (ℕ × ℕ)) × List Finding :=
  if inode.isInlineData then
    if 176 < inode.size.toNat then (none, [.inlineTooLarge ino]) else (some [], [])
  else
    match readNodeHeader inode.dataArea with
    | none => (none, [.areaTooSmall ino])
    | some hdr =>
      if hdr.magic ≠ extentMagic then (none, [.badMagic ino])
      else if 1 < hdr.depth then (none, [.badDepth ino])
      else if maxInlineExtents < hdr.entries.toNat then (none, [.badEntries ino])
      else if hdr.maxEntries.toNat ≠ maxInlineExtents then (none, [.badMaxEntries ino])
      else if hdr.depth = 0 then
        collectLeafExtents img.totalBlocks ino inode.dataArea (List.range hdr.entries.toNat)
      else
        let (es, fs) := img.collectTree ino inode.dataArea (List.range hdr.entries.toNat)
        (es, .depthOne ino hdr.entries.toNat :: fs)

/-- `verify_inode`. -/
def verifyInode (img : Image) (chain : List ℕ) (ino : ℕ) (inode : InodeRecord) :
    Option InodeInfo × List Finding :=
  let (extents, fs) := img.collectExtents ino inode
  (extents.map fun extents ↦
      ⟨ino, inode.mode, inode.linkCount.toNat, inode.isDir, extents⟩,
    (if inode.checksumOf ≠ inode.checksum then [.inodeChecksum ino] else []) ++
      (if inode.linkCount = 0 then
        [if ino ∈ chain then .inodePending ino else .inodeUnlinked ino] else []) ++ fs)

/-- How many inodes a group has: the last one may have fewer. -/
def groupInodes (img : Image) (g : ℕ) : ℕ :=
  min img.inodesPerGroup (img.totalInodes - g * img.inodesPerGroup)

/-- What is verified of a group: the inodes whose bits are set. -/
def scanGroup (img : Image) (chain : List ℕ) (g : ℕ) (bgd : EfsBlockGroupDesc) :
    List (Option InodeInfo × List Finding) :=
  ((List.range (img.groupInodes g)).filter
      (bitAt (img.readBlock bgd.inodeBitmapBlock.toNat))).map fun k ↦
    img.verifyInode chain (g * img.inodesPerGroup + k + 1) (img.recordAt (img.tableSlot bgd k))

/-- `scan_all_inodes`. -/
def scanAllInodes (img : Image) (chain : List ℕ) : List InodeInfo × List Finding :=
  let results := img.bgds.zipIdx.flatMap fun (bgd, g) ↦ img.scanGroup chain g bgd
  (results.filterMap Prod.fst, results.flatMap Prod.snd)

/-- What the scan makes of the image. -/
def infos (img : Image) : List InodeInfo := (img.scanAllInodes img.orphanChain.1).1

variable {img : Image} {info : InodeInfo}

/-- **What is scanned**: the inodes with a set bit that pass the verification. -/
theorem mem_infos_iff :
    info ∈ img.infos ↔ ∃ g bgd k, img.bgds[g]? = some bgd ∧ k < img.groupInodes g ∧
      bitAt (img.readBlock bgd.inodeBitmapBlock.toNat) k = true ∧
      (img.verifyInode img.orphanChain.1 (g * img.inodesPerGroup + k + 1)
        (img.recordAt (img.tableSlot bgd k))).1 = some info := by
  simp only [infos, scanAllInodes, List.mem_filterMap, List.mem_flatMap, scanGroup, List.mem_map,
    List.mem_filter, List.mem_range]
  constructor
  · rintro ⟨_, ⟨⟨bgd, g⟩, hbgd, k, ⟨hk, hbit⟩, rfl⟩, hinfo⟩
    exact ⟨g, bgd, k, List.mem_zipIdx_iff_getElem?.mp hbgd, hk, hbit, hinfo⟩
  · rintro ⟨g, bgd, k, hbgd, hk, hbit, hinfo⟩
    exact ⟨_, ⟨⟨bgd, g⟩, List.mem_zipIdx_iff_getElem?.mpr hbgd, k, ⟨hk, hbit⟩, rfl⟩, hinfo⟩

theorem readInode_of_group {g k : ℕ} {bgd : EfsBlockGroupDesc} (hbgd : img.bgds[g]? = some bgd)
    (hk : k < img.groupInodes g) :
    img.readInode (g * img.inodesPerGroup + k + 1) = some (img.recordAt (img.tableSlot bgd k)) := by
  have hlt : k < img.inodesPerGroup := lt_of_lt_of_le hk (min_le_left _ _)
  have hpos : 0 < img.inodesPerGroup := Nat.zero_lt_of_lt hlt
  have hdiv : (g * img.inodesPerGroup + k) / img.inodesPerGroup = g := by
    rw [mul_comm, Nat.mul_add_div hpos, Nat.div_eq_of_lt hlt, add_zero]
  have hmod : (g * img.inodesPerGroup + k) % img.inodesPerGroup = k := by
    rw [mul_comm, Nat.mul_add_mod, Nat.mod_eq_of_lt hlt]
  rw [readInode, inodeLocation, if_neg (by omega), Nat.add_sub_cancel, hdiv, hmod, hbgd]
  rfl

/-- An inode that is scanned is in range, and what is known of it is from its entry. -/
theorem readInode_of_mem_infos (h : info ∈ img.infos) :
    1 ≤ info.ino ∧ info.ino ≤ img.totalInodes ∧
      ∃ r, img.readInode info.ino = some r ∧ info.isDir = r.isDir := by
  obtain ⟨g, bgd, k, hbgd, hk, -, hinfo⟩ := mem_infos_iff.mp h
  obtain ⟨extents, -, rfl⟩ := Option.map_eq_some_iff.mp hinfo
  have hin : k < img.totalInodes - g * img.inodesPerGroup :=
    lt_of_lt_of_le hk (min_le_right _ _)
  refine ⟨Nat.le_add_left _ _, ?_, _, readInode_of_group hbgd hk, rfl⟩
  dsimp only
  omega

end Image

/-! ## Rebuilt bitmaps -/

/-- `RebuiltBitmap`, as the set of its bits. -/
structure RebuiltBitmap where
  len : ℕ
  bits : ℕ → Bool

namespace RebuiltBitmap

def new (len : ℕ) : RebuiltBitmap := ⟨len, fun _ ↦ false⟩

def set (bm : RebuiltBitmap) (index : ℕ) : RebuiltBitmap :=
  if bm.len ≤ index then bm else { bm with bits := Function.update bm.bits index true }

def get (bm : RebuiltBitmap) (index : ℕ) : Bool := index < bm.len && bm.bits index

@[simp] theorem len_set (bm : RebuiltBitmap) (index : ℕ) : (bm.set index).len = bm.len := by
  rw [set]
  split_ifs <;> rfl

theorem get_set (bm : RebuiltBitmap) (index i : ℕ) :
    (bm.set index).get i = (bm.get i || (decide (i < bm.len) && decide (i = index))) := by
  rw [get, get, len_set, set]
  split_ifs with hlen
  · by_cases hi : i = index
    · subst hi
      rw [decide_eq_false (not_lt.mpr hlen)]
      rfl
    · rw [decide_eq_false hi, Bool.and_false, Bool.or_false]
  · dsimp only
    by_cases hi : i = index
    · subst hi
      rw [Function.update_self, decide_eq_true (not_le.mp hlen), decide_eq_true rfl,
        Bool.and_self, Bool.or_true]
    · rw [Function.update_of_ne hi, decide_eq_false hi, Bool.and_false, Bool.or_false]

end RebuiltBitmap

namespace Image

/-- The blocks that `seed_static_metadata` marks: the reserved block, the superblock, the table, the
bitmaps and the inode table of each group, the copies, and the journal. -/
def staticBlocks (img : Image) : List ℕ :=
  let t := img.bgdTableBlocks
  [0, 1] ++ List.range' 2 t ++
    img.bgds.flatMap (fun bgd ↦ [bgd.blockBitmapBlock.toNat, bgd.inodeBitmapBlock.toNat] ++
      List.range' bgd.inodeTableBlock.toNat
        (divCeil (img.inodesPerGroup * img.sb.inodeSize.toNat) img.blockSize)) ++
    [2 + t] ++ List.range' (2 + t + 1) t ++
    img.backupGroups.flatMap (fun g ↦
      List.range' (g * img.blocksPerGroup) (1 + t)) ++
    List.range' img.sb.journalFirstBlock.toNat img.sb.journalBlockCount.toNat

/-- `seed_static_metadata`. -/
def seedStaticMetadata (img : Image) (bm : RebuiltBitmap) : RebuiltBitmap :=
  img.staticBlocks.foldl .set bm

end Image

/-- The blocks that inodes claim, with the inode, in the order of the scan. -/
def claims (infos : List InodeInfo) : List (ℕ × ℕ) :=
  infos.flatMap fun info ↦ info.blocks.map fun b ↦ (b, info.ino)

/-- The loop of `apply_inode_info` over the claimed blocks. -/
def applyClaims : List (ℕ × ℕ) → (ℕ → Option ℕ) → RebuiltBitmap → RebuiltBitmap × List Finding
  | [], _, bm => (bm, [])
  | (b, ino) :: rest, owner, bm =>
    match owner b with
    | some prev =>
      let (bm', fs) := applyClaims rest (Function.update owner b (some ino)) bm
      (bm', .doubleClaimed b prev ino :: fs)
    | none => applyClaims rest (Function.update owner b (some ino)) (bm.set b)

/-- `compare`. -/
def compare (rebuilt : RebuiltBitmap) (onDisk : List UInt8) (rangeStart rangeLen : ℕ)
    (kind : BitmapKind) : List Finding :=
  (List.range rangeLen).filterMap fun localIdx ↦
    match rebuilt.get (rangeStart + localIdx), bitAt onDisk localIdx with
    | true, false => some (.missingBit kind (rangeStart + localIdx))
    | false, true => some (.leakedBit kind (rangeStart + localIdx))
    | _, _ => none

namespace Image

/-- The rebuilt block bitmap, with what is found on the way. -/
def rebuildBlocks (img : Image) : RebuiltBitmap × List Finding :=
  applyClaims (claims img.infos) (fun _ ↦ none) (img.seedStaticMetadata (.new img.totalBlocks))

/-- The rebuilt inode bitmap. -/
def rebuildInodes (img : Image) : RebuiltBitmap :=
  (img.infos.map fun info ↦ info.ino - 1).foldl .set (.new img.totalInodes)

/-- How many blocks a group has. -/
def groupBlocks (img : Image) (g : ℕ) : ℕ :=
  min (g * img.blocksPerGroup + img.blocksPerGroup) img.totalBlocks - g * img.blocksPerGroup

/-- The comparison of the bitmaps of a group. -/
def compareGroup (img : Image) (g : ℕ) (bgd : EfsBlockGroupDesc) : List Finding :=
  compare img.rebuildBlocks.1 (img.readBlock bgd.blockBitmapBlock.toNat) (g * img.blocksPerGroup)
      (img.groupBlocks g) .block ++
    compare img.rebuildInodes (img.readBlock bgd.inodeBitmapBlock.toNat) (g * img.inodesPerGroup)
      (img.groupInodes g) .inode

/-- The findings of the scan and of the comparison. A group that begins behind the end makes the
length of its range underflow. -/
def scanFindings (img : Image) : Option (List Finding) :=
  if (List.range img.bgds.length).all fun g ↦
      g * img.blocksPerGroup ≤ img.totalBlocks && g * img.inodesPerGroup ≤ img.totalInodes then
    some ((img.scanAllInodes img.orphanChain.1).2 ++ img.rebuildBlocks.2 ++
      img.bgds.zipIdx.flatMap fun (bgd, g) ↦ img.compareGroup g bgd)
  else none

end Image

end Edos.Fsck

import Edos.Fsck.Scan
import Edos.Efs.FileOps
import Edos.Lib.Search

/-!
# The directory tree

The checker reads the directories from the root on, block by block, and counts for every inode the
entries that name it. An inode without any is an orphan, and `--repair` deletes it.

`read_inode_data_block` takes the entries of the root node of the extent tree for extents, whatever
its depth.
-/

namespace Edos.Fsck

open List

/-- An entry of a directory: the header and the name. -/
abbrev DirEntry := EfsDirEntryHeader × List UInt8

/-- What a round of the loop of `parse_dir_block` gives: an entry, what is wrong, and where the next
record starts, unless the loop stops. -/
structure DirRound where
  entries : List DirEntry
  findings : List Finding
  next : Option ℕ

/-- A round of the loop of `parse_dir_block`. -/
def dirRound (block : List UInt8) (blockSize dirIno logicalBlock offset : ℕ) : DirRound :=
  if blockSize ≤ offset then ⟨[], [], none⟩
  else if blockSize < offset + dirEntryHeaderSize then
    ⟨[], [.truncatedHeader dirIno logicalBlock offset], none⟩
  else
    let hdr := headerAt block offset
    if hdr.recLen = 0 then ⟨[], [.recLenZero dirIno logicalBlock offset], none⟩
    else if hdr.recLen < dirEntryMinSize hdr.nameLen then
      ⟨[], [.recLenShort dirIno logicalBlock offset], none⟩
    else if hdr.recLen % 4 ≠ 0 then ⟨[], [.recLenUnaligned dirIno logicalBlock offset], none⟩
    else if blockSize < offset + hdr.recLen then
      ⟨[], [.recLenExceeds dirIno logicalBlock offset], none⟩
    else if hdr.inode = 0 then ⟨[], [], some (offset + hdr.recLen)⟩
    else if block.length < offset + dirEntryHeaderSize + hdr.nameLen.toNat then
      ⟨[], [.nameExceeds dirIno logicalBlock offset], none⟩
    else
      ⟨[(hdr, window block (offset + dirEntryHeaderSize) hdr.nameLen.toNat)], [],
        some (offset + hdr.recLen)⟩

/-- The loop of `parse_dir_block`, or nothing if the fuel does not last. -/
def parseDirBlockFrom (block : List UInt8) (blockSize dirIno logicalBlock : ℕ) :
    ℕ → ℕ → Option (List DirEntry × List Finding)
  | 0, _ => none
  | fuel + 1, offset =>
    let round := dirRound block blockSize dirIno logicalBlock offset
    match round.next with
    | none => some (round.entries, round.findings)
    | some next =>
      (parseDirBlockFrom block blockSize dirIno logicalBlock fuel next).map fun rest ↦
        (round.entries ++ rest.1, round.findings ++ rest.2)

/-- `parse_dir_block`. The fuel lasts: a record takes twelve bytes at least. -/
def parseDirBlock (block : List UInt8) (blockSize dirIno logicalBlock : ℕ) :
    List DirEntry × List Finding :=
  (parseDirBlockFrom block blockSize dirIno logicalBlock (blockSize / 12 + 1) 0).getD ([], [])

namespace Image

/-- `read_inode_data_block`: the first entry of the root node that covers the block. The end of an
extent is computed in 32 bits. -/
def readInodeDataBlock (img : Image) (inode : InodeRecord) (logicalBlock : ℕ) :
    Option (List UInt8) :=
  let hdr := EfsExtentHeader.ofBytes inode.dataArea
  if hdr.magic ≠ extentMagic then none
  else
    ((List.range (min hdr.entries.toNat maxInlineExtents)).findSome? fun i ↦
      (readNodeEntry inode.dataArea i).bind fun ext ↦
        if ext.length ≠ 0 ∧ ext.logicalBlock ≤ logicalBlock ∧
            logicalBlock < (ext.logicalBlock + ext.length) % 2 ^ 32 then
          some (ext.block + (logicalBlock - ext.logicalBlock))
        else none).map img.readBlock

/-- The number of blocks that are read of a directory, as a `u32`. -/
def dirBlocks (img : Image) (inode : InodeRecord) : ℕ :=
  divCeil inode.size.toNat img.blockSize % 2 ^ 32

/-- The entries of a directory. -/
def dirEntries (img : Image) (ino : ℕ) (inode : InodeRecord) : List DirEntry × List Finding :=
  if inode.isInlineData then
    parseDirBlock inode.inlineData inode.inlineData.length ino 0
  else
    let parsed := (List.range (img.dirBlocks inode)).map fun lb ↦
      match img.readInodeDataBlock inode lb with
      | some block => parseDirBlock block img.blockSize ino lb
      | none => ([], [])
    (parsed.flatMap Prod.fst, parsed.flatMap Prod.snd)

/-! ## The walk -/

/-- What an entry of a directory does: the inode that it counts for, what it pushes on the queue,
and what is found. -/
structure EntryOutcome where
  counted : Option ℕ
  pushed : Option (ℕ × ℕ)
  findings : List Finding

/-- `info` of an inode, if it has been scanned. -/
def findInfo (infos : List InodeInfo) (ino : ℕ) : Option InodeInfo :=
  infos.find? fun info ↦ info.ino = ino

/-- The body of the loop over the entries of the directory `ino`. -/
def processEntry (img : Image) (visited : List ℕ) (ino parent : ℕ) (entry : DirEntry) :
    EntryOutcome :=
  let target := entry.1.inode.toNat
  if entry.2 = nameBytes "." then
    ⟨some target, none, if target ≠ ino then [.dotTarget ino target] else []⟩
  else if entry.2 = nameBytes ".." then
    ⟨some target, none, if target ≠ parent then [.dotdotTarget ino target] else []⟩
  else if target < 1 ∨ img.totalInodes < target then ⟨none, none, [.entryOutOfRange ino target]⟩
  else
    match findInfo img.infos target with
    | none => ⟨none, none, [.entryUnallocated ino target]⟩
    | some info =>
      if entry.1.fileType = ftDir then
        if target ∈ visited then ⟨some target, none, [.directoryCycle ino target]⟩
        else ⟨some target, some (target, ino), []⟩
      else if info.isDir ∧ target ∉ visited then ⟨some target, some (target, ino), []⟩
      else ⟨some target, none, []⟩

/-- The entries of a directory on the queue. -/
def queuedEntries (img : Image) (ino : ℕ) : List DirEntry × List Finding :=
  match img.readInode ino with
  | some inode => img.dirEntries ino inode
  | none => ([], [])

/-- What the entries of a visited directory do. -/
def outcomes (img : Image) (visit : List ℕ × ℕ × ℕ) : List EntryOutcome :=
  (img.queuedEntries visit.2.1).1.map (img.processEntry visit.1 visit.2.1 visit.2.2)

/-- The directories that are visited. There are no more than the scanned inodes and the root. -/
def visits (img : Image) : List (List ℕ × ℕ × ℕ) :=
  search Prod.fst (fun visited q ↦ (img.outcomes (visited, q)).filterMap EntryOutcome.pushed)
    (img.infos.length + 1) [] [(efsRootIno.toNat, efsRootIno.toNat)]

/-- `observed_links`: how many entries name an inode, as a `u32`. -/
def observedLinks (img : Image) (ino : ℕ) : ℕ :=
  ((img.visits.flatMap img.outcomes).filterMap EntryOutcome.counted).count ino % 2 ^ 32

/-- What the walk finds. -/
def walkFindings (img : Image) : List Finding :=
  img.visits.flatMap fun visit ↦
    (img.queuedEntries visit.2.1).2 ++ (img.outcomes visit).flatMap EntryOutcome.findings

/-- What `check_link_counts` finds about an inode. -/
def checkLinkCount (img : Image) (info : InodeInfo) : List Finding :=
  let observed := img.observedLinks info.ino
  if observed = 0 then
    [if info.ino ∈ img.orphanChain.1 then .pendingDeletion info.ino else .orphanInode info.ino]
  else if observed ≠ info.linkCount then [.linkCount info.ino info.linkCount observed]
  else []

/-- `check_link_counts`. -/
def checkLinkCounts (img : Image) : List Finding := img.infos.flatMap img.checkLinkCount

/-- The phases from the orphan chain to the link counts. The walk panics if there is no entry for
the root. -/
def check (img : Image) : Option (List Finding) := do
  let scanned ← img.scanFindings
  let _ ← img.readInode efsRootIno.toNat
  return img.orphanChain.2 ++ scanned ++ img.walkFindings ++ img.checkLinkCounts

variable {img : Image} {infos : List InodeInfo} {info : InodeInfo} {ino : ℕ}

theorem findInfo_eq_some (h : findInfo infos ino = some info) : info ∈ infos ∧ info.ino = ino := by
  have hino := find?_some h
  exact ⟨mem_of_find?_eq_some h, of_decide_eq_true hino⟩

/-- What is said of an orphan is said of the inode itself, which has not been counted. -/
theorem orphan_of_mem_checkLinkCount
    (h : .orphanInode ino ∈ img.checkLinkCount info ∨
      .pendingDeletion ino ∈ img.checkLinkCount info) :
    ino = info.ino ∧ img.observedLinks ino = 0 := by
  rw [checkLinkCount] at h
  split_ifs at h with hzero hchain hlinks
  all_goals simp only [mem_singleton, not_mem_nil, reduceCtorEq, Finding.orphanInode.injEq,
    Finding.pendingDeletion.injEq, or_false, false_or] at h
  all_goals exact ⟨h, h ▸ hzero⟩

theorem orphan_of_mem_checkLinkCounts
    (h : .orphanInode ino ∈ img.checkLinkCounts ∨ .pendingDeletion ino ∈ img.checkLinkCounts) :
    (∃ info ∈ img.infos, info.ino = ino) ∧ img.observedLinks ino = 0 := by
  simp only [checkLinkCounts, mem_flatMap, ← exists_or, ← and_or_left] at h
  obtain ⟨info, hinfo, hmem⟩ := h
  obtain ⟨rfl, hzero⟩ := orphan_of_mem_checkLinkCount hmem
  exact ⟨⟨info, hinfo, rfl⟩, hzero⟩

end Image

end Edos.Fsck

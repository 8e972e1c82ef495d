import Edos.Efs.DirRecords
import Edos.Efs.Extents
import Edos.Lib.Assoc
import Edos.Lib.Transition

/-!
# Directories

`add_dir_entry` and `remove_dir_entry` load the whole directory into a buffer, change it there, and
write all blocks back. Starting with the block that `create_dir_inner` writes, a directory should
stay a finite map from names to inodes, and its blocks should stay divided into records.

It does, as long as no entry is removed that is the first one of a block (`KeepsBlockStarts`).
Removing such an entry doubles the length of its record, which then reaches over the next record or
out of the directory: the next entry is lost, and a later call may slice the buffer out of range and
panic (`directory_panics`).
-/

namespace Edos

open Function List Option

/-! ## Files -/

/-- The block size that the driver accepts. -/
def efsBlockSize : ℕ := 4096

def inodeDataAreaSize : ℕ := 176

def ftDir : UInt8 := 2

/-- What the data area of an inode holds. -/
inductive InodeData where
  | inline (area : List UInt8)
  | extents (map : ExtentMap)

/-- What the directory functions use of an inode. -/
structure EfsInode where
  isDir : Bool
  size : ℕ
  data : InodeData

/-- Whether a new block has to be zeroed before it is mapped. -/
inductive NewBlock where
  | zeroed
  | overwritten
  deriving DecidableEq

/-- The buffer that `write_block` fills: what the data does not cover stays zero. -/
def padBlock (data : List UInt8) : List UInt8 :=
  data.take efsBlockSize ++ replicate (efsBlockSize - data.length) 0

theorem padBlock_eq {data : List UInt8}
    (h : data.length = efsBlockSize) : padBlock data = data := by
  rw [padBlock, h, Nat.sub_self, replicate_zero, append_nil, take_of_length_le h.le]

/-- A directory's inode, the blocks of the device as the cache shows them, and the blocks that the
allocator has to give. -/
structure DirStore where
  inode : EfsInode
  blocks : ℕ → List UInt8
  free : List ℕ

namespace DirStore

variable (s : DirStore)

def writeBlock (b : ℕ) (data : List UInt8) : DirStore :=
  { s with blocks := update s.blocks b (padBlock data) }

def allocBlock : Except Fault (ℕ × DirStore) :=
  match s.free with
  | [] => .error (.error .noSpace)
  | b :: free => .ok (b, { s with free := free })

/-- `load_extent_map`: inline data has no extent header. -/
def loadExtentMap : Except Fault ExtentMap :=
  match s.inode.data with
  | .inline _ => .error (.error .corrupted)
  | .extents map => .ok map

/-- `store_extent_map`, with the inode written. -/
def storeExtentMap (map : ExtentMap) : Except Fault DirStore :=
  if maxExtents < map.length then .error (.error .unsupported)
  else .ok { s with inode.data := .extents map }

/-- `ensure_block_for_logical`. -/
def ensureBlockForLogical (logicalBlock : ℕ) (new : NewBlock) : Except Fault (ℕ × DirStore) := do
  let map ← s.loadExtentMap
  match map.lookup logicalBlock with
  | some phys => return (phys, s)
  | none =>
    let (phys, s) ← s.allocBlock
    let s := if new = .zeroed then s.writeBlock phys [] else s
    let s ← s.storeExtentMap (map.insert logicalBlock phys)
    return (phys, s)

/-- `convert_inline_to_extents`. -/
def convertInlineToExtents (area : List UInt8) : Except Fault DirStore := do
  let (phys, s) ← s.allocBlock
  let s := s.writeBlock phys (area.take (min s.inode.size inodeDataAreaSize))
  return { s with inode.data := .extents [⟨0, 1, phys % 2 ^ 48⟩] }

/-- `read_dir_data_cached`: the blocks in the order of the extents, up to the size. -/
def readDirDataCached : Except Fault (List UInt8) :=
  match s.inode.data with
  | .inline area => .ok (area.take (min s.inode.size inodeDataAreaSize))
  | .extents map =>
    let data := (map.physical.flatMap s.blocks).take s.inode.size
    .ok (data ++ replicate (s.inode.size - data.length) 0)

/-- One round of `write_dir_blocks`. -/
def writeDirBlock (data : List UInt8) (i : ℕ) : Except Fault DirStore := do
  let (phys, s) ← s.ensureBlockForLogical (i % 2 ^ 32) .overwritten
  return s.writeBlock phys (window data (i * efsBlockSize) efsBlockSize)

/-- `write_dir_blocks`. -/
def writeDirBlocks (data : List UInt8) : Except Fault DirStore :=
  match s.inode.data with
  | .inline area =>
    .ok { s with inode.data := .inline (patch area 0 (data.take inodeDataAreaSize)) }
  | .extents _ =>
    (range ((data.length + (efsBlockSize - 1)) / efsBlockSize)).foldlM
      (fun s i ↦ s.writeDirBlock data i) s

/-- `add_dir_entry`. -/
def addDirEntry (name : String) (entryIno : UInt64) (fileType : UInt8) : Except Fault DirStore := do
  let nameLen := UInt8.ofNat (nameBytes name).length
  let data ← s.readDirDataCached
  match findSlack data (dirEntryMinSize nameLen) with
  | some (off, hdr) =>
    let data ← insertAt data off hdr entryIno nameLen fileType (nameBytes name)
    s.writeDirBlocks data
  | none =>
    let start := s.inode.size
    let data := data ++ replicate (start + efsBlockSize - data.length) 0
    let block ←
      writeDirEntry (window data start efsBlockSize) entryIno efsBlockSize nameLen fileType
        (nameBytes name)
    let s ← match s.inode.data with
      | .inline area => s.convertInlineToExtents area
      | .extents _ => .ok s
    let (phys, s) ← s.ensureBlockForLogical (start / efsBlockSize % 2 ^ 32) .overwritten
    let s := s.writeBlock phys block
    return { s with inode.size := start + efsBlockSize }

/-- `remove_dir_entry`. -/
def removeDirEntry (name : String) : Except Fault DirStore := do
  let data ← s.readDirDataCached
  match findName data name with
  | none => .error (.error .fileNotFound)
  | some (off, hdr) => s.writeDirBlocks (removeAt data off hdr efsBlockSize)

/-- `lookup_in_dir`. -/
def lookupInDir (name : String) : Except Fault (Option (UInt64 × UInt8)) :=
  if s.inode.isDir then s.readDirDataCached.map fun data ↦ lookupInData data name
  else .error (.error .notADir)

/-- `read_dir_entries`. -/
def readDirEntries : Except Fault (List (String × UInt64 × UInt8)) :=
  if s.inode.isDir then s.readDirDataCached.map parseDirEntriesFromBytes
  else .error (.error .notADir)

/-- The block that `create_dir_inner` writes. -/
def newDirBlock (newIno parentIno : UInt64) : Except Fault (List UInt8) := do
  let dotSize := dirEntryMinSize 1
  let buf ← writeDirEntry (replicate efsBlockSize 0) newIno dotSize 1 ftDir (nameBytes ".")
  let rest ← writeDirEntry (window buf dotSize (efsBlockSize - dotSize)) parentIno
    (efsBlockSize - dotSize) 2 ftDir (nameBytes "..")
  return patch buf dotSize rest

/-- `create_dir_inner`, as far as the new directory goes: its first block and its inode. -/
def createDir (blocks : ℕ → List UInt8) (free : List ℕ) (newIno parentIno : UInt64) :
    Except Fault DirStore := do
  let (phys, s) ← allocBlock ⟨⟨true, efsBlockSize, .inline []⟩, blocks, free⟩
  let block ← newDirBlock newIno parentIno
  let s := s.writeBlock phys block
  return { s with inode.data := .extents [⟨0, 1, phys % 2 ^ 48⟩] }

/-- The entry with this name is not the first one of a block. -/
def RemovesInside (name : String) : Prop :=
  ∀ data, s.readDirDataCached = .ok data →
    ∀ off hdr, findName data name = some (off, hdr) → ¬efsBlockSize ∣ off

end DirStore

/-! ## Runs -/

/-- A directory, and the entries that have been added and not removed. The code does not keep the
latter. -/
structure Directory where
  store : DirStore
  entries : List (String × UInt64 × UInt8)

namespace Directory

inductive Call where
  | add (name : String) (entryIno : UInt64) (fileType : UInt8)
  | remove (name : String)

variable (d : Directory)

def call : Call → Except Fault DirStore
  | .add name entryIno fileType => d.store.addDirEntry name entryIno fileType
  | .remove name => d.store.removeDirEntry name

/-- A call that returns without an error. -/
def step (c : Call) : Option Directory :=
  (d.call c).toOption.map fun s ↦ ⟨s, match c with
    | .add name entryIno fileType => d.entries ++ [(name, entryIno, fileType)]
    | .remove name => d.entries.filter fun e ↦ e.1 ≠ name⟩

/-- A call as the driver makes it: a new name, of a length that a record can hold, for an inode; or
an existing one other than the two that every directory has. -/
def Admissible : Call → Prop
  | .add name entryIno _ => entryIno ≠ 0 ∧ 1 ≤ (nameBytes name).length ∧
      (nameBytes name).length ≤ 255 ∧ name ∉ d.entries.map Prod.fst
  | .remove name => name ∈ d.entries.map Prod.fst ∧ name ≠ "." ∧ name ≠ ".."

/-- The entry that is removed is not the first one of a block. -/
def KeepsBlockStarts : Call → Prop
  | .add .. => True
  | .remove name => d.store.RemovesInside name

/-- A block that is divided into records. -/
def Tiled (block : List UInt8) : Prop :=
  ∃ rs : List DirRecord, block = DirRecord.bytesOf rs ∧ ∀ r ∈ rs, r.size ≤ efsBlockSize

/-- The directory is a finite map: its blocks are divided into records, reading gives the entries,
looking a name up gives what it stands for, and no call that keeps to the rules panics. -/
structure FiniteMap (d : Directory) : Prop where
  tiled : ∃ map, d.store.inode.data = .extents map ∧
    d.store.inode.size = efsBlockSize * map.physical.length ∧
    ∀ b ∈ map.physical, (d.store.blocks b).length = efsBlockSize ∧ Tiled (d.store.blocks b)
  listed : ∃ es, d.store.readDirEntries = .ok es ∧ es.Perm d.entries
  lookup : ∀ name, d.store.lookupInDir name = .ok (d.entries.lookup name)
  safe : ∀ c, d.Admissible c → d.KeepsBlockStarts c → d.call c ≠ .error .panic

end Directory

/-! ## Layout -/

variable {blk : List DirRecord} {i : ℕ} {r : DirRecord}

namespace DirRecord

theorem bytesOf_flatten (blks : List (List DirRecord)) :
    bytesOf blks.flatten = (blks.map bytesOf).flatten := by
  induction blks with
  | nil => rfl
  | cons blk blks ih => rw [flatten_cons, bytesOf_append, ih, map_cons, flatten_cons]

variable {blks : List (List DirRecord)}

theorem totalSize_flatten (h : ∀ blk ∈ blks, totalSize blk = efsBlockSize) :
    totalSize blks.flatten = blks.length * efsBlockSize := by
  induction blks with
  | nil => rfl
  | cons blk blks ih =>
    rw [flatten_cons, totalSize_append, h blk mem_cons_self,
      ih fun b hb ↦ h b (mem_cons_of_mem blk hb), length_cons, Nat.succ_mul, add_comm]

theorem window_flatten (h : ∀ blk ∈ blks, totalSize blk = efsBlockSize) (hi : blks[i]? = some blk) :
    window (bytesOf blks.flatten) (i * efsBlockSize) efsBlockSize = bytesOf blk := by
  obtain ⟨hlt, rfl⟩ := List.getElem?_eq_some_iff.mp hi
  have hsplit : blks = blks.take i ++ blks[i] :: blks.drop (i + 1) := by
    rw [getElem_cons_drop, take_append_drop]
  have htake : (bytesOf (blks.take i).flatten).length = i * efsBlockSize := by
    rw [length_bytesOf, totalSize_flatten fun b hb ↦ h b (mem_of_mem_take hb),
      length_take, min_eq_left hlt.le]
  have hbytes : bytesOf blks.flatten = bytesOf (blks.take i).flatten ++
      (bytesOf blks[i] ++ bytesOf (blks.drop (i + 1)).flatten) := by
    rw [← bytesOf_append, ← bytesOf_append, ← flatten_cons, ← flatten_append, ← hsplit]
  rw [hbytes, ← htake, ← add_zero (bytesOf (blks.take i).flatten).length, window_append_add]
  refine window_append_left ?_
  rw [length_bytesOf, h _ (getElem_mem hlt)]

theorem exists_block {xs ys : List DirRecord} (h : blks.flatten = xs ++ r :: ys) :
    ∃ before us vs after, blks = before ++ (us ++ r :: vs) :: after ∧
      xs = before.flatten ++ us ∧ ys = vs ++ after.flatten := by
  induction blks generalizing xs with
  | nil => cases xs <;> cases h
  | cons blk blks ih =>
    rcases append_eq_append_iff.mp h with ⟨zs, rfl, hzs⟩ | ⟨zs, hblk, hzs⟩
    · obtain ⟨before, us, vs, after, rfl, rfl, rfl⟩ := ih hzs
      exact ⟨blk :: before, us, vs, after, rfl, by simp, rfl⟩
    · cases zs with
      | nil =>
        obtain ⟨before, us, vs, after, rfl, hus, rfl⟩ := @ih [] hzs.symm
        refine ⟨blk :: before, us, vs, after, rfl, ?_, rfl⟩
        rw [append_nil] at hblk
        rw [flatten_cons, append_assoc, ← hus, append_nil, hblk]
      | cons z zs =>
        obtain ⟨rfl, rfl⟩ := List.cons.inj hzs
        exact ⟨[], xs, zs, blks, by rw [hblk]; rfl, rfl, rfl⟩

end DirRecord

variable {free : List ℕ} {blocks : ℕ → List UInt8} {newIno parentIno : UInt64}

namespace DirStore

open DirRecord

variable {s : DirStore} {map : ExtentMap} {blks : List (List DirRecord)} {data : List UInt8}
  {name : String} {needed : ℕ}

/-- How a directory is laid out: its block map, and the records of each of its blocks. -/
structure Layout (s : DirStore) (map : ExtentMap) (blks : List (List DirRecord)) : Prop where
  isDir : s.inode.isDir = true
  data : s.inode.data = .extents map
  dense : ExtentMap.Dense 0 map
  extents : map.length ≤ maxExtents
  size : s.inode.size = efsBlockSize * blks.length
  contents : map.physical.map s.blocks = blks.map bytesOf
  filled : ∀ blk ∈ blks, totalSize blk = efsBlockSize
  valid : ∀ r ∈ blks.flatten, r.Valid
  nodup : (map.physical ++ s.free).Nodup
  addressable : ∀ b ∈ s.free, b < 2 ^ 48

variable {phys : ℕ}

theorem ensureBlockForLogical_of_lookup (hdata : s.inode.data = .extents map)
    (hlookup : map.lookup i = some phys) (new : NewBlock) :
    s.ensureBlockForLogical i new = .ok (phys, s) := by
  simp only [ensureBlockForLogical, loadExtentMap, hdata, bind, Except.bind, hlookup]
  rfl

section

variable (h : Layout s map blks)

include h

namespace Layout

theorem length_eq : map.physical.length = blks.length := by
  have hlen := congrArg List.length h.contents
  rwa [length_map, length_map] at hlen

theorem read : s.readDirDataCached = .ok (bytesOf blks.flatten) := by
  have hbytes : map.physical.flatMap s.blocks = bytesOf blks.flatten := by
    rw [flatMap_def, h.contents, bytesOf_flatten]
  have hlen : (bytesOf blks.flatten).length = s.inode.size := by
    rw [length_bytesOf, totalSize_flatten h.filled, h.size, mul_comm]
  rw [readDirDataCached, h.data]
  dsimp only
  rw [hbytes, take_of_length_le hlen.le, hlen, Nat.sub_self, replicate_zero, append_nil]

/-- A directory has far fewer blocks than a `u32` can count. -/
theorem length_lt : blks.length < 2 ^ 32 := by
  have hle := h.dense.blockCount_le
  have hmul := Nat.mul_le_mul_right maxExtentLength h.extents
  have hmax : maxExtents * maxExtentLength < 2 ^ 32 := by decide
  rw [← h.length_eq, ExtentMap.length_physical]
  omega

theorem lookup (i : ℕ) : map.lookup i = map.physical[i]? :=
  h.dense.lookup_eq (Nat.zero_le i)

end Layout

theorem writeDirBlock_range (data : List UInt8) {k : ℕ} (hk : k ≤ blks.length) :
    ∃ s', (range k).foldlM (fun s i ↦ s.writeDirBlock data i) s = .ok s' ∧
      s'.inode = s.inode ∧ s'.free = s.free ∧
      ∀ i phys, map.physical[i]? = some phys → s'.blocks phys =
        if i < k then padBlock (window data (i * efsBlockSize) efsBlockSize)
        else s.blocks phys := by
  induction k with
  | zero => exact ⟨s, rfl, rfl, rfl, fun i phys _ ↦ (if_neg (Nat.not_lt_zero i)).symm⟩
  | succ k ih =>
    obtain ⟨s', hrun, hinode, hfree, hblocks⟩ := ih (Nat.le_of_succ_le hk)
    have hlt : k < map.physical.length := by rw [h.length_eq]; exact hk
    have hmod : k % 2 ^ 32 = k := Nat.mod_eq_of_lt (hk.trans h.length_lt.le)
    have hlookup : map.lookup (k % 2 ^ 32) = some map.physical[k] := by
      rw [hmod, h.lookup, getElem?_eq_getElem hlt]
    refine ⟨s'.writeBlock map.physical[k] (window data (k * efsBlockSize) efsBlockSize), ?_, hinode,
      hfree, fun i phys hi ↦ ?_⟩
    · rw [range_succ, foldlM_append, hrun]
      simp only [bind, Except.bind, foldlM_cons, foldlM_nil, writeDirBlock]
      rw [ensureBlockForLogical_of_lookup (by rw [hinode, h.data]) hlookup]
      rfl
    · obtain ⟨hlt', rfl⟩ := List.getElem?_eq_some_iff.mp hi
      have hnodup := (nodup_append.mp h.nodup).1
      by_cases hik : i = k
      · subst hik
        rw [if_pos (Nat.lt_succ_self i)]
        exact update_self ..
      · refine (update_of_ne (fun heq ↦ hik (hnodup.getElem_inj_iff.mp heq)) ..).trans ?_
        rw [hblocks i _ hi]
        by_cases hlt : i < k
        · rw [if_pos hlt, if_pos (by omega)]
        · rw [if_neg hlt, if_neg (by omega)]

/-- **Writing a directory back** puts each part of the buffer in the block it came from. -/
theorem writeDirBlocks_eq (hlen : data.length = blks.length * efsBlockSize) :
    ∃ s', s.writeDirBlocks data = .ok s' ∧ s'.inode = s.inode ∧ s'.free = s.free ∧
      map.physical.map s'.blocks
        = (range blks.length).map fun i ↦ window data (i * efsBlockSize) efsBlockSize := by
  obtain ⟨s', hrun, hinode, hfree, hblocks⟩ := writeDirBlock_range h data (le_refl _)
  have hrounds : (data.length + (efsBlockSize - 1)) / efsBlockSize = blks.length := by
    rw [hlen, efsBlockSize]
    omega
  refine ⟨s', ?_, hinode, hfree, ?_⟩
  · rw [writeDirBlocks, h.data]
    rw [hrounds, hrun]
  · refine ext_getElem (by rw [length_map, length_map, length_range, h.length_eq])
      fun i hi hi' ↦ ?_
    rw [length_map, length_range] at hi'
    rw [length_map] at hi
    have hwindow : (window data (i * efsBlockSize) efsBlockSize).length = efsBlockSize := by
      have hmul := Nat.mul_le_mul_right efsBlockSize (Nat.succ_le_of_lt hi')
      rw [Nat.succ_mul] at hmul
      rw [window, length_take, length_drop, hlen]
      omega
    rw [getElem_map, getElem_map, getElem_range,
      hblocks i _ (getElem?_eq_getElem hi), if_pos hi', padBlock_eq hwindow]

theorem read_writeDirBlocks (hlen : data.length = blks.length * efsBlockSize) :
    ∃ s', s.writeDirBlocks data = .ok s' ∧ s'.readDirDataCached = .ok data := by
  obtain ⟨s', hwrite, hinode, -, hmap⟩ := writeDirBlocks_eq h hlen
  have hsize : data.length = s.inode.size := by rw [hlen, h.size, mul_comm]
  refine ⟨s', hwrite, ?_⟩
  rw [readDirDataCached, hinode, h.data]
  dsimp only
  rw [flatMap_def, hmap, ← flatMap_def, flatMap_window, take_of_length_le hlen.le,
    take_of_length_le hsize.le, hsize, Nat.sub_self, replicate_zero, append_nil]

theorem writeDirBlocks_spec {blks' : List (List DirRecord)} (hlen : blks'.length = blks.length)
    (hfilled : ∀ blk ∈ blks', totalSize blk = efsBlockSize)
    (hvalid : ∀ r ∈ blks'.flatten, r.Valid) :
    ∃ s', s.writeDirBlocks (bytesOf blks'.flatten) = .ok s' ∧ Layout s' map blks' ∧
      s'.free = s.free := by
  obtain ⟨s', hwrite, hinode, hfree, hmap⟩ := writeDirBlocks_eq h
    (by rw [length_bytesOf, totalSize_flatten hfilled, hlen])
  refine ⟨s', hwrite, ⟨by rw [hinode, h.isDir], by rw [hinode, h.data], h.dense, h.extents,
    by rw [hinode, h.size, hlen], ?_, hfilled, hvalid, by rw [hfree]; exact h.nodup,
    by rw [hfree]; exact h.addressable⟩, hfree⟩
  rw [hmap]
  refine ext_getElem (by rw [length_map, length_map, length_range, hlen]) fun i _ hi ↦ ?_
  rw [length_map] at hi
  rw [getElem_map, getElem_map, getElem_range, window_flatten hfilled (getElem?_eq_getElem hi)]

end

theorem writeDirBlocks_block {before after : List (List DirRecord)} {blk' : List DirRecord}
    (h : Layout s map (before ++ blk :: after)) (hsize : totalSize blk' = totalSize blk)
    (hvalid : ∀ r ∈ blk', r.Valid) :
    ∃ s', s.writeDirBlocks (bytesOf (before ++ blk' :: after).flatten) = .ok s' ∧
      Layout s' map (before ++ blk' :: after) ∧ s'.free = s.free := by
  have hfilled := h.filled
  have hold := h.valid
  rw [forall_mem_append, forall_mem_cons] at hfilled
  rw [flatten_append, flatten_cons, forall_mem_append, forall_mem_append] at hold
  refine writeDirBlocks_spec h (by simp) ?_ ?_
  · rw [forall_mem_append, forall_mem_cons]
    exact ⟨hfilled.1, hsize.trans hfilled.2.1, hfilled.2.2⟩
  · rw [flatten_append, flatten_cons, forall_mem_append, forall_mem_append]
    exact ⟨hold.1, hvalid, hold.2.2⟩

/-- The entries in the blocks of a directory. -/
def entriesOf (blks : List (List DirRecord)) : List (String × UInt64 × UInt8) :=
  blks.flatten.filterMap asEntry

theorem entriesOf_block (before after : List (List DirRecord)) (blk : List DirRecord) :
    entriesOf (before ++ blk :: after)
      = entriesOf before ++ (blk.filterMap asEntry ++ entriesOf after) := by
  rw [entriesOf, flatten_append, flatten_cons, filterMap_append, filterMap_append]
  rfl

section Add

variable {name : String} {entryIno : UInt64} {fileType : UInt8}

theorem addDirEntry_behind {before after : List (List DirRecord)} {us vs : List DirRecord}
    (h : Layout s map (before ++ (us ++ r :: vs) :: after))
    (hname : (nameBytes name).length ≤ 255)
    (hroom : r.HasRoom (dirEntryMinSize (.ofNat (nameBytes name).length)))
    (hfirst : ∀ x ∈ before.flatten ++ us,
      ¬x.HasRoom (dirEntryMinSize (.ofNat (nameBytes name).length))) :
    ∃ s', s.addDirEntry name entryIno fileType = .ok s' ∧
      Layout s' map (before ++ (us ++ (r.cut ++ r.filled entryIno (.ofNat (nameBytes name).length)
        fileType (nameBytes name) :: vs)) :: after) ∧ s'.free = s.free := by
  have hlen := toNat_nameLen hname
  have hsplit : (before ++ (us ++ r :: vs) :: after).flatten
      = before.flatten ++ us ++ r :: (vs ++ after.flatten) := by simp
  have hr : r.Valid := h.valid r (by rw [hsplit]; simp)
  have hslack := (findSlack_bytesOf h.valid).mpr
    ⟨before.flatten ++ us, r, vs ++ after.flatten, hsplit, rfl, rfl, hroom, hfirst⟩
  set new := r.filled entryIno (.ofNat (nameBytes name).length) fileType (nameBytes name) with hnew
  have hinsert : insertAt (bytesOf (before.flatten ++ us ++ r :: (vs ++ after.flatten)))
      (totalSize (before.flatten ++ us)) r.header entryIno (.ofNat (nameBytes name).length) fileType
      (nameBytes name)
      = .ok (bytesOf (before ++ (us ++ (r.cut ++ new :: vs)) :: after).flatten) := by
    rw [insertAt_bytesOf hr hlen.symm hroom, ← hnew]
    simp
  have hsize : new.size = r.size - r.header.minLen := size_filled hlen.symm hroom
  have hmin := hr.minLen_le
  have htotal : totalSize (us ++ (r.cut ++ new :: vs)) = totalSize (us ++ r :: vs) := by
    simp only [totalSize_append, totalSize_cons, totalSize_cut hr, hsize]
    omega
  obtain ⟨s', hwrite, hlayout⟩ := writeDirBlocks_block h htotal (fun r' hr' ↦ by
    simp only [mem_append, mem_cons] at hr'
    rcases hr' with hr' | hr' | rfl | hr'
    · exact h.valid r' (by simp [hr'])
    · exact hr.cut r' hr'
    · exact hr.filled hname hroom
    · exact h.valid r' (by simp [hr']))
  refine ⟨s', ?_, hlayout⟩
  simp only [addDirEntry, h.read, bind, Except.bind, hslack]
  rw [hsplit, hinsert]
  exact hwrite

theorem entriesOf_behind (before after : List (List DirRecord)) (us vs : List DirRecord)
    (r : DirRecord) (hino : entryIno ≠ 0) (hname : (nameBytes name).length ≤ 255) :
    (entriesOf (before ++ (us ++ (r.cut ++ r.filled entryIno (.ofNat (nameBytes name).length)
        fileType (nameBytes name) :: vs)) :: after)).Perm
      ((name, entryIno, fileType) :: entriesOf (before ++ (us ++ r :: vs) :: after)) := by
  have hold : (us ++ r :: vs).filterMap asEntry
      = us.filterMap asEntry ++ [r].filterMap asEntry ++ vs.filterMap asEntry := by
    rw [← filterMap_append, ← filterMap_append, append_assoc, singleton_append]
  rw [entriesOf_block, entriesOf_block, hold, filterMap_append, filterMap_append,
    asEntry_cut, filterMap_cons_some (asEntry_filled r hname hino),
    ← append_assoc (us.filterMap asEntry)]
  exact ((perm_middle.append_right _).append_left _).trans perm_middle

/-- Adding a block at the end of a directory, with a new entry in it. -/
theorem Layout.append {s' : DirStore} (h : Layout s map blks) (hfree : s.free = phys :: free)
    (hmap : (map.insert blks.length phys).length ≤ maxExtents)
    (hfilled : totalSize blk = efsBlockSize) (hvalid : ∀ r ∈ blk, r.Valid)
    (hinode : s'.inode = ⟨true, s.inode.size + efsBlockSize,
      .extents (map.insert blks.length phys)⟩)
    (hblocks : s'.blocks = update s.blocks phys (bytesOf blk)) (hfree' : s'.free = free) :
    Layout s' (map.insert blks.length phys) (blks ++ [blk]) := by
  have hlt : phys < 2 ^ 48 := h.addressable phys (by rw [hfree]; exact mem_cons_self)
  have hcount : map.blockCount = blks.length := by rw [← h.length_eq, ExtentMap.length_physical]
  obtain ⟨hdense, hphysical⟩ := h.dense.insert_end hlt
  rw [hcount] at hdense hphysical
  have hnodup := h.nodup
  rw [hfree] at hnodup
  have hnew : phys ∉ map.physical := fun hmem ↦
    (nodup_append.mp hnodup).2.2 phys hmem phys mem_cons_self rfl
  refine ⟨by rw [hinode], by rw [hinode], hdense, hmap, ?_, ?_, ?_, ?_, ?_, fun b hb ↦ ?_⟩
  · rw [hinode, h.size, length_append, length_singleton, Nat.mul_succ]
  · have hold : map.physical.map s'.blocks = map.physical.map s.blocks :=
      map_congr_left fun b hb ↦ by
        rw [hblocks, update_of_ne (ne_of_mem_of_not_mem hb hnew)]
    rw [hphysical, map_append, map_append, hold, h.contents, map_singleton,
      map_singleton, hblocks, update_self]
  · rw [forall_mem_append, forall_mem_singleton]
    exact ⟨h.filled, hfilled⟩
  · rw [flatten_append, flatten_singleton, forall_mem_append]
    exact ⟨h.valid, hvalid⟩
  · rw [hphysical, hfree', append_assoc]
    exact hnodup
  · rw [hfree'] at hb
    exact h.addressable b (by rw [hfree]; exact mem_cons_of_mem phys hb)

theorem addDirEntry_eq_of_full (h : Layout s map blks) (hname : (nameBytes name).length ≤ 255)
    (hslack : findSlack (bytesOf blks.flatten)
      (dirEntryMinSize (.ofNat (nameBytes name).length)) = none) :
    s.addDirEntry name entryIno fileType = s.allocBlock.bind fun (phys, s) ↦
      (s.storeExtentMap (map.insert blks.length phys)).map fun s' ↦
        { s'.writeBlock phys (bytesOf [fresh efsBlockSize entryIno fileType name]) with
          inode.size := s.inode.size + efsBlockSize } := by
  have hadd : dirEntryHeaderSize + (nameBytes name).length ≤ efsBlockSize := by
    rw [dirEntryHeaderSize, efsBlockSize]
    omega
  have hdata : (bytesOf blks.flatten).length = s.inode.size := by
    rw [length_bytesOf, totalSize_flatten h.filled, h.size, mul_comm]
  have hwindow : window (bytesOf blks.flatten ++
      replicate (s.inode.size + efsBlockSize - (bytesOf blks.flatten).length) 0)
      s.inode.size efsBlockSize = replicate (efsBlockSize + 0) 0 := by
    rw [hdata, Nat.add_sub_cancel_left, ← hdata, ← add_zero (bytesOf blks.flatten).length,
      window_append_add, window, drop_zero, take_replicate, Nat.min_self, add_zero]
  have hindex : s.inode.size / efsBlockSize % 2 ^ 32 = blks.length := by
    rw [h.size, Nat.mul_div_cancel_left _ (by decide), Nat.mod_eq_of_lt h.length_lt]
  have hlookup : map.lookup blks.length = none := by
    rw [h.lookup, getElem?_eq_none h.length_eq.le]
  simp only [addDirEntry, h.read, bind, Except.bind, hslack]
  rw [hwindow, writeDirEntry_replicate hname hadd, h.data]
  simp only [hindex, ensureBlockForLogical, loadExtentMap, h.data, bind, Except.bind, hlookup,
    allocBlock, reduceCtorEq, if_false]
  cases s.free with
  | nil => rfl
  | cons phys free =>
    dsimp only
    cases storeExtentMap _ (map.insert blks.length phys) <;> rfl

theorem addDirEntry_new_block (h : Layout s map blks) (hname : (nameBytes name).length ≤ 255)
    (hslack : findSlack (bytesOf blks.flatten)
      (dirEntryMinSize (.ofNat (nameBytes name).length)) = none)
    (hfree : s.free = phys :: free) (hmap : (map.insert blks.length phys).length ≤ maxExtents) :
    ∃ s', s.addDirEntry name entryIno fileType = .ok s' ∧
      Layout s' (map.insert blks.length phys)
        (blks ++ [[fresh efsBlockSize entryIno fileType name]]) := by
  have hsize : (fresh efsBlockSize entryIno fileType name).size = efsBlockSize :=
    size_fresh (by rw [dirEntryHeaderSize, efsBlockSize]; omega)
  have hvalid : (fresh efsBlockSize entryIno fileType name).Valid :=
    valid_fresh hname (by decide) ((dirEntryMinSize_le _).trans (by decide))
  have htotal : totalSize [fresh efsBlockSize entryIno fileType name] = efsBlockSize := by
    rw [totalSize_cons, totalSize_nil, hsize, add_zero]
  rw [addDirEntry_eq_of_full h hname hslack, allocBlock, hfree]
  simp only [Except.bind, storeExtentMap]
  rw [if_neg (not_lt.mpr hmap)]
  refine ⟨_, rfl, h.append hfree hmap htotal (fun r hr ↦ mem_singleton.mp hr ▸ hvalid)
    (congrArg (EfsInode.mk · _ _) h.isDir) ?_ rfl⟩
  change update s.blocks phys (padBlock _) = _
  rw [padBlock_eq (by rw [length_bytesOf, htotal])]

/-- **Adding an entry**, unless there is no space left. -/
theorem addDirEntry_spec (h : Layout s map blks) (hino : entryIno ≠ 0)
    (hname : (nameBytes name).length ≤ 255) :
    (∃ s' map' blks', s.addDirEntry name entryIno fileType = .ok s' ∧ Layout s' map' blks' ∧
      (entriesOf blks').Perm ((name, entryIno, fileType) :: entriesOf blks)) ∨
    ∃ e, s.addDirEntry name entryIno fileType = .error (.error e) := by
  cases hslack : findSlack (bytesOf blks.flatten)
      (dirEntryMinSize (.ofNat (nameBytes name).length)) with
  | some found =>
    obtain ⟨off, hdr⟩ := found
    obtain ⟨xs, r, ys, hsplit, rfl, rfl, hroom, hfirst⟩ := (findSlack_bytesOf h.valid).mp hslack
    obtain ⟨before, us, vs, after, rfl, rfl, rfl⟩ := exists_block hsplit
    obtain ⟨s', hadd, hlayout, -⟩ := addDirEntry_behind h hname hroom hfirst
    exact .inl ⟨s', map, _, hadd, hlayout, entriesOf_behind before after us vs r hino hname⟩
  | none =>
    cases hfree : s.free with
    | nil =>
      refine .inr ⟨.noSpace, ?_⟩
      rw [addDirEntry_eq_of_full h hname hslack, allocBlock, hfree]
      rfl
    | cons phys free =>
      by_cases hmap : (map.insert blks.length phys).length ≤ maxExtents
      · obtain ⟨s', hadd, hlayout⟩ := addDirEntry_new_block h hname hslack hfree hmap
        refine .inl ⟨s', _, _, hadd, hlayout, ?_⟩
        rw [entriesOf_block, filterMap_cons_some (asEntry_fresh hname hino)]
        exact perm_append_singleton ..
      · refine .inr ⟨.unsupported, ?_⟩
        rw [addDirEntry_eq_of_full h hname hslack, allocBlock, hfree]
        simp only [Except.bind, storeExtentMap]
        rw [if_pos (Nat.lt_of_not_le hmap)]
        rfl

end Add

/-- **Removing an entry** that is not the first one of its block. -/
theorem removeDirEntry_spec (h : Layout s map blks)
    (hmem : ∃ r ∈ blks.flatten, r.Names name)
    (hkeep : ∀ off hdr, findName (bytesOf blks.flatten) name = some (off, hdr) →
      ¬efsBlockSize ∣ off) :
    ∃ s' blks', s.removeDirEntry name = .ok s' ∧ Layout s' map blks' ∧
      (∃ es v es', entriesOf blks = es ++ (name, v) :: es' ∧ entriesOf blks' = es ++ es') ∧
      ∀ name' ≠ name, ∀ off hdr, findName (bytesOf blks'.flatten) name' = some (off, hdr) →
        ∃ hdr', findName (bytesOf blks.flatten) name' = some (off, hdr') := by
  cases hfind : findName (bytesOf blks.flatten) name with
  | none =>
    obtain ⟨r, hr, hnames⟩ := hmem
    exact absurd hnames (findName_bytesOf_eq_none h.valid |>.mp hfind r hr)
  | some found =>
    obtain ⟨off, hdr⟩ := found
    have hoff := hkeep off hdr hfind
    obtain ⟨xs, r, ys, hsplit, rfl, rfl, hnames, -⟩ := (findName_bytesOf h.valid).mp hfind
    obtain ⟨before, us, vs, after, rfl, rfl, rfl⟩ := exists_block hsplit
    have hvalid (r' : DirRecord) (hr' : r' ∈ us ++ r :: vs) : r'.Valid :=
      h.valid r' (mem_flatten.mpr ⟨_, by simp, hr'⟩)
    have hbefore : totalSize before.flatten = before.length * efsBlockSize :=
      totalSize_flatten fun b hb ↦ h.filled b (mem_append_left _ hb)
    have hblock : totalSize (us ++ r :: vs) = efsBlockSize := h.filled _ (by simp)
    rcases eq_nil_or_concat us with rfl | ⟨us, p, rfl⟩
    · rw [append_nil, hbefore] at hoff
      exact absurd (Nat.dvd_mul_left ..) hoff
    rw [concat_eq_append] at *
    have hp : p.Valid := hvalid p (by simp)
    have hr : r.Valid := hvalid r (by simp)
    have hsum : totalSize us + p.size + (r.size + totalSize vs) = efsBlockSize := by
      rw [← hblock]
      simp only [totalSize_append, totalSize_cons, totalSize_nil, add_zero]
    have hremove : removeAt (bytesOf (before.flatten ++ (us ++ [p]) ++ r :: (vs ++ after.flatten)))
        (totalSize (before.flatten ++ (us ++ [p]))) r.header efsBlockSize
        = bytesOf (before ++ (us ++ p.absorb r :: vs) :: after).flatten := by
      have hstart : totalSize (before.flatten ++ us ++ [p]) / efsBlockSize * efsBlockSize
          = totalSize before.flatten := by
        have hpos := r.headerSize_le
        simp only [totalSize_append, totalSize_cons, totalSize_nil, hbefore]
        rw [dirEntryHeaderSize] at hpos
        rw [efsBlockSize] at hsum ⊢
        omega
      have hremove : removeAt (bytesOf (before.flatten ++ us ++ p :: r :: (vs ++ after.flatten)))
          (totalSize (before.flatten ++ us ++ [p])) r.header efsBlockSize
          = bytesOf (before.flatten ++ us ++ p.absorb r :: (vs ++ after.flatten)) :=
        removeAt_behind (fun u hu ↦ hvalid u (by simp [hu])) hp hstart
      rw [append_assoc before.flatten us [p]] at hremove
      rw [append_assoc before.flatten (us ++ [p]), append_assoc us [p],
        ← append_assoc, singleton_append, hremove]
      simp
    have hsize : totalSize (us ++ p.absorb r :: vs) = totalSize (us ++ [p] ++ r :: vs) := by
      simp only [totalSize_append, totalSize_cons, totalSize_nil, size_absorb]
      omega
    obtain ⟨s', hwrite, hlayout⟩ := writeDirBlocks_block h hsize (fun r' hr' ↦ by
      simp only [mem_append, mem_cons] at hr'
      rcases hr' with hr' | rfl | hr'
      · exact hvalid r' (by simp [hr'])
      · refine hp.absorb ?_
        rw [efsBlockSize] at hsum
        omega
      · exact hvalid r' (by simp [hr']))
    refine ⟨s', _, ?_, hlayout.1, ⟨entriesOf before ++ (us ++ [p]).filterMap asEntry,
      (r.inode, r.fileType), vs.filterMap asEntry ++ entriesOf after, ?_, ?_⟩,
      fun name' hne off hdr hfind' ↦ ?_⟩
    · simp only [removeDirEntry, h.read, bind, Except.bind, hfind]
      rw [hsplit, hremove, hwrite]
    · rw [entriesOf_block, filterMap_append (l := us ++ [p]),
        filterMap_cons_some (asEntry_of_names hnames)]
      simp only [append_assoc, cons_append]
    · rw [entriesOf_block, filterMap_append, filterMap_append, filterMap_cons,
        asEntry_absorb hp, filterMap_cons]
      cases p.asEntry <;> simp
    · have hold : (before ++ (us ++ [p] ++ r :: vs) :: after).flatten
          = before.flatten ++ us ++ p :: r :: (vs ++ after.flatten) := by simp
      have hnew : (before ++ (us ++ p.absorb r :: vs) :: after).flatten
          = before.flatten ++ us ++ p.absorb r :: (vs ++ after.flatten) := by simp
      have hvalid := h.valid
      have hvalid' := hlayout.1.valid
      rw [hold] at hvalid ⊢
      rw [hnew] at hvalid' hfind'
      exact findName_absorb hvalid hvalid' hnames hne hfind'

/-- **Removing the only entry of the last block**: the record that is left is twice as long as the
block. -/
theorem removeDirEntry_last_block (h : Layout s map (blks ++ [[r]])) (hpos : blks ≠ [])
    (hnames : r.Names name) (hfirst : ∀ x ∈ blks.flatten, ¬x.Names name) :
    ∃ s', s.removeDirEntry name = .ok s' ∧ s'.readDirDataCached = .ok (bytesOf blks.flatten ++
      ({ r.freed.header with recLen := r.size + r.size }.toBytes ++ r.body)) := by
  have hsplit : (blks ++ [[r]]).flatten = blks.flatten ++ [r] := by simp
  have htotal : totalSize blks.flatten = blks.length * efsBlockSize :=
    totalSize_flatten fun b hb ↦ h.filled b (mem_append_left _ hb)
  have hr : r.Valid := h.valid r (by simp)
  have hsize : r.size = efsBlockSize := by
    rw [← h.filled [r] (by simp), totalSize_cons, totalSize_nil, add_zero]
  have hblock : 0 < efsBlockSize := by decide
  have hremove : removeAt (bytesOf (blks.flatten ++ [r])) (totalSize blks.flatten) r.header
      efsBlockSize = bytesOf blks.flatten ++
        ({ r.freed.header with recLen := r.size + r.size }.toBytes ++ r.body ++ bytesOf []) :=
    removeAt_block_start hr
      (by rw [htotal]; exact Nat.mul_pos (length_pos_iff.mpr hpos) hblock)
      (by rw [htotal, Nat.mul_div_cancel _ hblock])
  rw [bytesOf_nil, append_nil] at hremove
  have hfind := (findName_bytesOf h.valid).mpr
    ⟨blks.flatten, r, [], hsplit, rfl, rfl, hnames, hfirst⟩
  simp only [removeDirEntry, h.read, bind, Except.bind, hfind]
  rw [hsplit, hremove]
  refine read_writeDirBlocks h ?_
  rw [length_append, length_append, length_bytesOf, htotal,
    EfsDirEntryHeader.length_toBytes, length_append, length_singleton, Nat.succ_mul]
  exact congrArg _ hsize

theorem newDirBlock_eq (newIno parentIno : UInt64) :
    newDirBlock newIno parentIno
      = .ok (bytesOf [fresh 16 newIno ftDir ".", fresh 4080 parentIno ftDir ".."]) := by
  have hfirst : writeDirEntry (replicate (16 + 4080) 0) newIno 16 1 ftDir (nameBytes ".")
      = .ok ((fresh 16 newIno ftDir ".").bytes ++ replicate 4080 0) := by
    rw [show (1 : UInt8) = .ofNat (nameBytes ".").length from rfl]
    exact writeDirEntry_replicate (by decide) (by decide) 4080
  have hsecond : writeDirEntry (replicate (4080 + 0) 0) parentIno 4080 2 ftDir (nameBytes "..")
      = .ok ((fresh 4080 parentIno ftDir "..").bytes ++ replicate 0 0) := by
    rw [show (2 : UInt8) = .ofNat (nameBytes "..").length from rfl]
    exact writeDirEntry_replicate (by decide) (by decide) 0
  have hsize : (fresh 16 newIno ftDir ".").bytes.length = 16 := by
    rw [length_bytes, size_fresh (by decide)]
  have hsize' : (fresh 4080 parentIno ftDir "..").bytes.length = 4080 := by
    rw [length_bytes, size_fresh (by decide)]
  have hwindow : window ((fresh 16 newIno ftDir ".").bytes ++ replicate 4080 0) 16 4080
      = replicate (4080 + 0) (0 : UInt8) := by
    have h := window_append_add (fresh 16 newIno ftDir ".").bytes (replicate 4080 0) 0 4080
    rw [hsize, add_zero] at h
    rw [h, window, drop_zero, take_replicate, Nat.min_self, add_zero]
  have hpatch : patch ((fresh 16 newIno ftDir ".").bytes ++ replicate 4080 0) 16
      (fresh 4080 parentIno ftDir "..").bytes
      = bytesOf [fresh 16 newIno ftDir ".", fresh 4080 parentIno ftDir ".."] := by
    have h := patch_append_add (fresh 16 newIno ftDir ".").bytes (replicate 4080 0) 0
    rw [hsize, add_zero] at h
    rw [h, patch, take_zero, nil_append, zero_add, hsize',
      drop_eq_nil_of_le (Nat.le_of_eq length_replicate), append_nil, bytesOf_cons,
      bytesOf_cons, bytesOf_nil, append_nil]
  simp only [newDirBlock, show dirEntryMinSize 1 = 16 by decide,
    show efsBlockSize - 16 = 4080 by decide, bind, Except.bind]
  rw [show efsBlockSize = 16 + 4080 by decide, hfirst]
  dsimp only
  rw [hwindow, hsecond]
  dsimp only
  rw [replicate_zero, append_nil, hpatch]
  rfl

/-- **A new directory.** -/
theorem createDir_spec (hfree : free.Nodup) (haddr : ∀ b ∈ free, b < 2 ^ 48)
    (h : createDir blocks free newIno parentIno = .ok s) :
    ∃ phys, free = phys :: s.free ∧ Layout s [⟨0, 1, phys % 2 ^ 48⟩]
      [[fresh 16 newIno ftDir ".", fresh 4080 parentIno ftDir ".."]] := by
  have hsize : (fresh 16 newIno ftDir ".").size = 16 := size_fresh (by decide)
  have hsize' : (fresh 4080 parentIno ftDir "..").size = 4080 := size_fresh (by decide)
  have htotal : totalSize [fresh 16 newIno ftDir ".", fresh 4080 parentIno ftDir ".."]
      = efsBlockSize := by
    rw [totalSize_cons, totalSize_cons, totalSize_nil, hsize, hsize']
    rfl
  simp only [createDir, allocBlock, bind, Except.bind] at h
  cases free with
  | nil => cases h
  | cons phys free =>
    rw [newDirBlock_eq] at h
    cases h
    have hphys : phys % 2 ^ 48 = phys := Nat.mod_eq_of_lt (haddr phys mem_cons_self)
    refine ⟨phys, rfl, rfl, rfl, ⟨rfl, Nat.one_pos, (by decide : 1 ≤ maxExtentLength), trivial⟩,
      (by decide : 1 ≤ maxExtents), rfl, ?_, ?_, ?_, ?_,
      fun b hb ↦ haddr b (mem_cons_of_mem phys hb)⟩
    · rw [hphys]
      change [update blocks phys (padBlock _) phys] = _
      rw [update_self, padBlock_eq (by rw [length_bytesOf, htotal])]
      rfl
    · exact fun b hb ↦ mem_singleton.mp hb ▸ htotal
    · intro r hr
      rw [flatten_singleton, mem_cons, mem_singleton] at hr
      rcases hr with rfl | rfl
      · exact valid_fresh (by decide) (by decide) (by decide)
      · exact valid_fresh (by decide) (by decide) (by decide)
    · rw [hphys]
      exact hfree

/-- A directory of one block, the last record of which has some room and the others not enough for
an entry of the given size. -/
def OneBlock (s : DirStore) (map : ExtentMap) (ino : UInt64) (needed room : ℕ) : Prop :=
  ∃ us r, Layout s map [fresh 16 ino ftDir "." :: us ++ [r]] ∧
    (∀ u ∈ fresh 16 ino ftDir "." :: us, ¬u.HasRoom needed) ∧ r.inode ≠ 0 ∧
    r.size - r.header.minLen = room

theorem oneBlock_createDir (hfree : free.Nodup) (haddr : ∀ b ∈ free, b < 2 ^ 48) (hnew : newIno ≠ 0)
    (hparent : parentIno ≠ 0) (h : createDir blocks free newIno parentIno = .ok s)
    (hneeded : 0 < needed) :
    ∃ phys, free = phys :: s.free ∧ OneBlock s [⟨0, 1, phys % 2 ^ 48⟩] newIno needed 4064 := by
  obtain ⟨phys, hcons, hlayout⟩ := createDir_spec hfree haddr h
  have hsize : (fresh 16 newIno ftDir ".").size = 16 := size_fresh (by decide)
  have hsize' : (fresh 4080 parentIno ftDir "..").size = 4080 := size_fresh (by decide)
  have hmin : (fresh 16 newIno ftDir ".").header.minLen = 16 :=
    (minLen_of_live (r := fresh 16 newIno ftDir ".") hnew).trans
      (by decide : dirEntryMinSize (.ofNat (nameBytes ".").length) = 16)
  have hmin' : (fresh 4080 parentIno ftDir "..").header.minLen = 16 :=
    (minLen_of_live (r := fresh 4080 parentIno ftDir "..") hparent).trans
      (by decide : dirEntryMinSize (.ofNat (nameBytes "..").length) = 16)
  refine ⟨phys, hcons, [], _, hlayout, fun u hu ↦ ?_, hparent, by rw [hsize', hmin']⟩
  rw [mem_singleton.mp hu, HasRoom, hsize, hmin]
  omega

variable {ino : UInt64} {room : ℕ}

theorem OneBlock.add {entryIno : UInt64} {fileType : UInt8} (h : OneBlock s map ino needed room)
    (hino : entryIno ≠ 0) (hname : (nameBytes name).length ≤ 255)
    (hneeded : dirEntryMinSize (.ofNat (nameBytes name).length) = needed) (hle : needed ≤ room) :
    ∃ s', s.addDirEntry name entryIno fileType = .ok s' ∧
      OneBlock s' map ino needed (room - needed) ∧ s'.free = s.free := by
  obtain ⟨us, r, hlayout, hfull, hlive, hroom⟩ := h
  have hr : r.Valid := hlayout.valid r (by simp)
  have hhas : r.HasRoom (dirEntryMinSize (.ofNat (nameBytes name).length)) := by
    rw [hneeded, HasRoom]
    omega
  have hpos : 0 < needed := by
    have hmin := add_le_dirEntryMinSize (.ofNat (nameBytes name).length)
    rw [hneeded, dirEntryHeaderSize] at hmin
    omega
  set new := r.filled entryIno (.ofNat (nameBytes name).length) fileType (nameBytes name)
  obtain ⟨s', hadd, hlayout', hfree⟩ : ∃ s', s.addDirEntry name entryIno fileType = .ok s' ∧
      Layout s' map ([] ++ (fresh 16 ino ftDir "." :: us ++ (r.cut ++ [new])) :: []) ∧
      s'.free = s.free :=
    addDirEntry_behind hlayout hname hhas (by rw [hneeded]; exact hfull)
  have hsize : new.size = r.size - r.header.minLen := size_filled (toNat_nameLen hname).symm hhas
  have hmin : new.header.minLen = needed := (minLen_of_live (r := new) hino).trans hneeded
  refine ⟨s', hadd, ⟨us ++ [r.kept], new, ?_, fun u hu ↦ ?_, hino,
    by rw [hsize, hmin, hroom]⟩, hfree⟩
  · rw [cut, if_pos hlive] at hlayout'
    simpa using hlayout'
  · rw [← cons_append, mem_append, mem_singleton] at hu
    rcases hu with hu | rfl
    · exact hfull u hu
    · rw [HasRoom, size_kept hr hlive, minLen_of_live (r := r.kept) hlive]
      exact Nat.not_le_of_lt ((Nat.sub_self _).trans_lt hpos)

/-- Only one entry of such a directory is the first one of a block. -/
theorem OneBlock.removesInside (h : OneBlock s map ino needed room)
    (hname : name ≠ ".") : s.RemovesInside name := by
  obtain ⟨us, r, hlayout, -⟩ := h
  intro data hread off hdr hfind
  obtain rfl : bytesOf _ = data := Except.ok.inj (hlayout.read.symm.trans hread)
  obtain ⟨xs, r', ys, hsplit, rfl, rfl, hnames, -⟩ := (findName_bytesOf hlayout.valid).mp hfind
  have htotal : totalSize (xs ++ r' :: ys) = efsBlockSize := by
    rw [← hsplit, flatten_singleton]
    exact hlayout.filled _ mem_cons_self
  rw [totalSize_append, totalSize_cons] at htotal
  have hr' := r'.headerSize_le
  have hpos : 0 < dirEntryHeaderSize := by decide
  cases xs with
  | nil =>
    obtain ⟨rfl, -⟩ := List.cons.inj hsplit
    exact absurd (nameBytes_inj (hnames.2.symm.trans (name_fresh (by decide)))) hname
  | cons x xs =>
    intro hdvd
    have hx := x.headerSize_le
    rw [totalSize_cons] at htotal hdvd
    have hle := Nat.le_of_dvd (by omega) hdvd
    omega

end DirStore

/-! ## The invariant -/

namespace Directory

open DirRecord DirStore

variable {d d' : Directory}

/-- A directory as `create_dir_inner` leaves it. -/
def created (s : DirStore) (newIno parentIno : UInt64) : Directory :=
  ⟨s, [(".", newIno, ftDir), ("..", parentIno, ftDir)]⟩

/-- The directory is laid out in blocks of records that have exactly its entries. -/
structure Consistent (d : Directory) : Prop where
  layout : ∃ map blks, Layout d.store map blks ∧ (entriesOf blks).Perm d.entries
  nodup : (d.entries.map Prod.fst).Nodup

variable {s s₀ : DirStore} {name : String} {k : ℕ}

theorem consistent_created (hfree : free.Nodup) (haddr : ∀ b ∈ free, b < 2 ^ 48) (hnew : newIno ≠ 0)
    (hparent : parentIno ≠ 0) (h : createDir blocks free newIno parentIno = .ok s) :
    (created s newIno parentIno).Consistent := by
  obtain ⟨phys, -, hlayout⟩ := createDir_spec hfree haddr h
  refine ⟨⟨_, _, hlayout, ?_⟩, (by decide : [".", ".."].Nodup)⟩
  have hdot : (nameBytes ".").length ≤ 255 := by decide
  have hdots : (nameBytes "..").length ≤ 255 := by decide
  rw [entriesOf, flatten_singleton, filterMap_cons_some (asEntry_fresh hdot hnew),
    filterMap_cons_some (asEntry_fresh hdots hparent)]
  exact .refl _

theorem exists_names {map : ExtentMap} {blks : List (List DirRecord)} (h : Layout d.store map blks)
    (hperm : (entriesOf blks).Perm d.entries)
    (hmem : name ∈ d.entries.map Prod.fst) : ∃ r ∈ blks.flatten, r.Names name := by
  obtain ⟨e, he, rfl⟩ := List.mem_map.mp hmem
  obtain ⟨r, hr, hentry⟩ := mem_filterMap.mp (hperm.mem_iff.mpr he)
  exact ⟨r, hr, ((asEntry_eq_some_iff (h.valid r hr)).mp hentry).1⟩

theorem removeDirEntry_of_admissible {map : ExtentMap} {blks : List (List DirRecord)}
    (h : Layout d.store map blks) (hperm : (entriesOf blks).Perm d.entries)
    (hadm : d.Admissible (.remove name)) (hkeep : d.KeepsBlockStarts (.remove name)) :
    ∃ s' blks', d.store.removeDirEntry name = .ok s' ∧ Layout s' map blks' ∧
      ∃ es v es', entriesOf blks = es ++ (name, v) :: es' ∧ entriesOf blks' = es ++ es' := by
  obtain ⟨s', blks', hremove, hlayout, hentries, -⟩ := removeDirEntry_spec h
    (exists_names h hperm hadm.1) fun off hdr hfind ↦ hkeep _ h.read off hdr hfind
  exact ⟨s', blks', hremove, hlayout, hentries⟩

theorem Consistent.step {c : Call} (h : d.Consistent) (hadm : d.Admissible c)
    (hkeep : d.KeepsBlockStarts c) (hstep : d.step c = some d') : d'.Consistent := by
  obtain ⟨⟨map, blks, hlayout, hperm⟩, hnodup⟩ := h
  obtain ⟨s, hcall, rfl⟩ := map_eq_some_iff.mp hstep
  cases c with
  | add name entryIno fileType =>
    obtain ⟨hino, -, hlen, hnew⟩ := hadm
    rcases addDirEntry_spec hlayout hino hlen with
      ⟨s', map', blks', hadd, hlayout', hperm'⟩ | ⟨e, herr⟩
    · obtain rfl : s' = s := by
        rw [call, hadd] at hcall
        exact some.inj hcall
      refine ⟨⟨map', blks', hlayout', ?_⟩, ?_⟩
      · exact hperm'.trans ((hperm.cons _).trans (perm_append_singleton ..).symm)
      · rw [map_append, map_singleton]
        exact nodup_append_comm.mp (nodup_cons.mpr ⟨hnew, hnodup⟩)
    · rw [call, herr] at hcall
      cases hcall
  | remove name =>
    obtain ⟨s', blks', hremove, hlayout', es, v, es', hold, hnew⟩ :=
      removeDirEntry_of_admissible hlayout hperm hadm hkeep
    obtain rfl : s' = s := by
      rw [call, hremove] at hcall
      exact some.inj hcall
    refine ⟨⟨map, blks', hlayout', ?_⟩, hnodup.sublist (filter_sublist.map _)⟩
    have hkeys : ((entriesOf blks).map Prod.fst).Nodup := (hperm.map _).nodup_iff.mpr hnodup
    rw [hold] at hkeys
    rw [hnew, ← filter_ne_of_split hkeys, ← hold]
    exact hperm.filter _

theorem Consistent.finiteMap (h : d.Consistent) : d.FiniteMap := by
  obtain ⟨⟨map, blks, hlayout, hperm⟩, hnodup⟩ := h
  refine ⟨⟨map, hlayout.data, ?_, fun b hb ↦ ?_⟩, ⟨entriesOf blks, ?_, hperm⟩, fun name ↦ ?_,
    fun c hadm hkeep hpanic ↦ ?_⟩
  · rw [hlayout.size, hlayout.length_eq]
  · obtain ⟨i, hi, rfl⟩ := getElem_of_mem hb
    have hlt : i < blks.length := hlayout.length_eq ▸ hi
    have hblock : d.store.blocks map.physical[i] = bytesOf blks[i] := by
      have hget := congrArg (·[i]?) hlayout.contents
      simp only [getElem?_map, getElem?_eq_getElem hi, getElem?_eq_getElem hlt] at hget
      exact some.inj hget
    have hfilled := hlayout.filled _ (getElem_mem hlt)
    rw [hblock, length_bytesOf]
    refine ⟨hfilled, blks[i], rfl, fun r hr ↦ ?_⟩
    rw [← hfilled]
    obtain ⟨xs, ys, hsplit⟩ := append_of_mem hr
    rw [hsplit, totalSize_append, totalSize_cons]
    omega
  · rw [readDirEntries, if_pos hlayout.isDir, hlayout.read, Except.map,
      parseDirEntriesFromBytes_bytesOf hlayout.valid]
    rfl
  · have hkeys : ((entriesOf blks).map Prod.fst).Nodup := (hperm.map _).nodup_iff.mpr hnodup
    rw [lookupInDir, if_pos hlayout.isDir, hlayout.read, Except.map,
      lookupInData_bytesOf hlayout.valid, findSome?_names hlayout.valid]
    exact congrArg _ (lookup_eq_of_perm hkeys hperm name)
  · cases c with
    | add name entryIno fileType =>
      rcases addDirEntry_spec hlayout hadm.1 hadm.2.2.1 with ⟨s', -, -, hadd, -⟩ | ⟨e, herr⟩
      · cases hadd.symm.trans hpanic
      · cases herr.symm.trans hpanic
    | remove name =>
      obtain ⟨s', -, hremove, -⟩ := removeDirEntry_of_admissible hlayout hperm hadm hkeep
      rw [call, hremove] at hpanic
      cases hpanic

/-- **Directories are finite maps**, in every run that keeps the first entry of every block. -/
theorem finiteMap_of_reaches {blocks : ℕ → List UInt8} {free : List ℕ} {newIno parentIno : UInt64}
    {s : DirStore} (hfree : free.Nodup) (haddr : ∀ b ∈ free, b < 2 ^ 48) (hnew : newIno ≠ 0)
    (hparent : parentIno ≠ 0) (hcreate : createDir blocks free newIno parentIno = .ok s)
    (h : Reaches step (fun d c ↦ d.Admissible c ∧ d.KeepsBlockStarts c)
      (created s newIno parentIno) d) : d.FiniteMap :=
  (h.invariant (consistent_created hfree haddr hnew hparent hcreate)
    fun _ _ _ hd hc hstep ↦ hd.step hc.1 hc.2 hstep).finiteMap

/-! ## Removing the first entry of a block -/

/-- A name of 255 bytes. -/
def longName (k : ℕ) : String := .ofList (replicate 255 (Char.ofNat (97 + k)))

theorem length_longName (hk : k < 17) : (nameBytes (longName k)).length = 255 := by
  have hall : ∀ k < 17, (nameBytes (longName k)).length = 255 := by decide +kernel
  exact hall k hk

theorem longName_injOn {j : ℕ} (hi : i < 17) (hj : j < 17) (h : longName i = longName j) :
    i = j := by
  have hchar := (replicate_right_inj (by decide)).mp (String.ofList_inj.mp h)
  have hall : ∀ i < 17, ∀ j < 17, Char.ofNat (97 + i) = Char.ofNat (97 + j) → i = j := by decide
  exact hall i hi j hj hchar

theorem longName_ne_dots (hk : k < 17) : longName k ∉ [".", ".."] := by
  intro hmem
  have hlen := length_longName hk
  rw [mem_cons, mem_singleton] at hmem
  rcases hmem with heq | heq
  · rw [heq] at hlen
    cases hlen
  · rw [heq] at hlen
    cases hlen

/-- Entries with long names. -/
def longEntries (k : ℕ) : List (String × UInt64 × UInt8) :=
  (range k).map fun i ↦ (longName i, 5, 1)

/-- A new directory to which `k` long names have been added, as long as they fit in its block. -/
structure Filling (s₀ : DirStore) (k : ℕ) (d : Directory) : Prop where
  reaches : Reaches step (fun d c ↦ d.Admissible c ∧ d.KeepsBlockStarts c) (created s₀ 3 2) d
  entries : d.entries = (created s₀ 3 2).entries ++ longEntries k
  layout : OneBlock d.store [⟨0, 1, 10⟩] 3 268 (4064 - 268 * k)
  free : d.store.free = [11]

theorem step_add {entryIno : UInt64} {fileType : UInt8}
    (h : d.store.addDirEntry name entryIno fileType = .ok s) :
    d.step (.add name entryIno fileType)
      = some ⟨s, d.entries ++ [(name, entryIno, fileType)]⟩ := by
  change (d.store.addDirEntry name entryIno fileType).toOption.map _ = _
  rw [h]
  rfl

theorem step_remove (h : d.store.removeDirEntry name = .ok s) :
    d.step (.remove name) = some ⟨s, d.entries.filter fun e ↦ e.1 ≠ name⟩ := by
  change (d.store.removeDirEntry name).toOption.map _ = _
  rw [h]
  rfl

theorem longEntries_succ (k : ℕ) : longEntries (k + 1) = longEntries k ++ [(longName k, 5, 1)] := by
  rw [longEntries, range_succ, map_append]
  rfl

theorem admissible_longName (hk : k < 17)
    (h : d.entries = (created s₀ 3 2).entries ++ longEntries k) :
    d.Admissible (.add (longName k) 5 1) := by
  have hlen := length_longName hk
  refine ⟨by decide, by omega, by omega, ?_⟩
  rw [h, map_append, mem_append, longEntries, List.map_map]
  rintro (hmem | hmem)
  · exact longName_ne_dots hk hmem
  · obtain ⟨i, hi, heq⟩ := List.mem_map.mp hmem
    have hlt := mem_range.mp hi
    exact Nat.ne_of_lt hlt (longName_injOn (hlt.trans hk) hk heq)

theorem filling_zero (h : createDir (fun _ ↦ []) [10, 11] 3 2 = .ok s₀) :
    Filling s₀ 0 (created s₀ 3 2) := by
  obtain ⟨phys, hcons, hblock⟩ :=
    oneBlock_createDir (by decide) (by decide) (by decide) (by decide) h
    (by decide : 0 < 268)
  obtain ⟨rfl, hfree⟩ := List.cons.inj hcons
  exact ⟨.refl, by rw [longEntries]; simp, hblock, hfree.symm⟩

theorem minLen_longName (hk : k < 17) :
    dirEntryMinSize (.ofNat (nameBytes (longName k)).length) = 268 := by
  rw [length_longName hk]
  decide

theorem Filling.succ (h : Filling s₀ k d) (hk : k < 15) : ∃ d', Filling s₀ (k + 1) d' := by
  have hlt : k < 17 := hk.trans (by decide)
  obtain ⟨s', hadd, hblock, hfree⟩ := h.layout.add (by decide : (5 : UInt64) ≠ 0)
    (length_longName hlt).le (minLen_longName hlt) (by omega)
  refine ⟨_, h.reaches.tail ⟨admissible_longName hlt h.entries, trivial⟩ (step_add hadd), ?_, ?_,
    hfree.trans h.free⟩
  · rw [h.entries, longEntries_succ, append_assoc]
  · rw [Nat.sub_sub] at hblock
    exact hblock

theorem exists_filling (h : createDir (fun _ ↦ []) [10, 11] 3 2 = .ok s₀)
    (hk : k ≤ 15) : ∃ d, Filling s₀ k d := by
  induction k with
  | zero => exact ⟨_, filling_zero h⟩
  | succ k ih =>
    obtain ⟨d, hd⟩ := ih (Nat.le_of_succ_le hk)
    exact hd.succ hk

theorem exists_created : ∃ s₀, createDir (fun _ ↦ []) [10, 11] 3 2 = .ok s₀ := by
  simp only [createDir, allocBlock, bind, Except.bind, newDirBlock_eq]
  exact ⟨_, rfl⟩

theorem Filling.consistent (h : Filling s₀ k d)
    (hs : createDir (fun _ ↦ []) [10, 11] 3 2 = .ok s₀) : d.Consistent :=
  h.reaches.invariant (consistent_created (by decide) (by decide) (by decide) (by decide) hs)
    fun _ _ _ hd hc hstep ↦ hd.step hc.1 hc.2 hstep

/-- A name is added to a new directory and removed again. -/
theorem finiteMap_add_remove : ∃ s d, createDir (fun _ ↦ []) [10, 11] 3 2 = .ok s ∧
    Reaches step (fun d c ↦ d.Admissible c ∧ d.KeepsBlockStarts c) (created s 3 2) d ∧
    d.entries = (created s 3 2).entries ∧ d.FiniteMap := by
  obtain ⟨s, hs⟩ := exists_created
  obtain ⟨d, hd⟩ := exists_filling hs (by decide : 1 ≤ 15)
  have hne := longName_ne_dots (by decide : 0 < 17)
  have hadm : d.Admissible (.remove (longName 0)) :=
    ⟨by rw [hd.entries]; simp [longEntries], fun h ↦ hne (by simp [h]), fun h ↦ hne (by simp [h])⟩
  have hkeep : d.KeepsBlockStarts (.remove (longName 0)) := hd.layout.removesInside hadm.2.1
  obtain ⟨⟨map, blks, hlayout, hperm⟩, hnodup⟩ := hd.consistent hs
  obtain ⟨s', -, hremove, -⟩ := removeDirEntry_of_admissible hlayout hperm hadm hkeep
  have hreach := hd.reaches.tail ⟨hadm, hkeep⟩ (step_remove hremove)
  refine ⟨s, _, hs, hreach, ?_,
    finiteMap_of_reaches (by decide) (by decide) (by decide) (by decide) hs hreach⟩
  rw [hd.entries] at hnodup
  dsimp only
  rw [hd.entries]
  exact (filter_ne_of_split hnodup).trans (append_nil _)

/-- Adding a name to a directory that ends in a free record which reaches out of it. -/
theorem addDirEntry_panics {rs : List DirRecord} {hdr : EfsDirEntryHeader} {body : List UInt8}
    {entryIno : UInt64} {fileType : UInt8}
    (hread : s.readDirDataCached = .ok (bytesOf rs ++ (hdr.toBytes ++ body)))
    (hrs : ∀ r ∈ rs, r.Valid)
    (hfull : ∀ r ∈ rs, ¬r.HasRoom (dirEntryMinSize (.ofNat (nameBytes name).length)))
    (hfree : hdr.inode = 0) (hlt : hdr.recLen < 65536)
    (hneeded : dirEntryMinSize (.ofNat (nameBytes name).length) ≤ hdr.recLen)
    (hlong : dirEntryHeaderSize + body.length < hdr.recLen) :
    s.addDirEntry name entryIno fileType = .error .panic := by
  have hslack := findSlack_of_overlong hrs hfull hfree hlt hneeded
    ((Nat.le_add_right _ _).trans hlong.le) body
  have hmin : hdr.minLen = 0 := if_neg (not_not.mpr hfree)
  simp only [addDirEntry, hread, bind, Except.bind, hslack]
  simp only [insertAt, hmin, if_neg (not_not.mpr hfree)]
  rw [if_pos (by rw [length_append, length_append, length_bytesOf, hdr.length_toBytes]; omega)]

/-- **A directory that panics.** Fifteen long names fill the first block, and one more opens a
second one. When the latter is removed its record gets twice the length of a block, and the next
name is to be written into a slice that is longer than the directory. -/
theorem directory_panics : ∃ s d, createDir (fun _ ↦ []) [10, 11] 3 2 = .ok s ∧
    Reaches step Admissible (created s 3 2) d ∧
    d.Admissible (.add (longName 16) 5 1) ∧ d.call (.add (longName 16) 5 1) = .error .panic := by
  obtain ⟨s, hs⟩ := exists_created
  obtain ⟨d, hd⟩ := exists_filling hs (by decide : 15 ≤ 15)
  obtain ⟨us, r, hlayout, hfull, -, hroom⟩ := hd.layout
  have hfull' : ∀ u ∈ fresh 16 3 ftDir "." :: us ++ [r], ¬u.HasRoom 268 := by
    intro u hu
    rcases mem_append.mp hu with hu | hu
    · exact hfull u hu
    · rw [mem_singleton.mp hu, HasRoom]
      omega
  -- the sixteenth name goes to a block of its own
  have hadm := admissible_longName (by decide) hd.entries
  have hlen : (nameBytes (longName 15)).length ≤ 255 := (length_longName (by decide)).le
  have hslack : findSlack (bytesOf [fresh 16 3 ftDir "." :: us ++ [r]].flatten)
      (dirEntryMinSize (.ofNat (nameBytes (longName 15)).length)) = none := by
    rw [minLen_longName (by decide), flatten_singleton, findSlack_bytesOf_eq_none]
    · exact hfull'
    · simpa using hlayout.valid
  obtain ⟨s₁, hadd, hlayout₁⟩ :
      ∃ s₁, d.store.addDirEntry (longName 15) 5 1 = .ok s₁ ∧
        Layout s₁ (ExtentMap.insert [⟨0, 1, 10⟩] 1 11)
          ([fresh 16 3 ftDir "." :: us ++ [r]] ++ [[fresh efsBlockSize 5 1 (longName 15)]]) :=
    addDirEntry_new_block hlayout hlen hslack hd.free
      (by decide : (ExtentMap.insert [⟨0, 1, 10⟩] 1 11).length ≤ maxExtents)
  have hreach₁ := (hd.reaches.mono fun _ _ h ↦ h.1).tail hadm (step_add hadd)
  -- no other entry has its name
  have hlisted : (entriesOf [fresh 16 3 ftDir "." :: us ++ [r]]).Perm d.entries := by
    obtain ⟨es, hread, hperm⟩ := (hd.consistent hs).finiteMap.listed
    rw [readDirEntries, if_pos hlayout.isDir, hlayout.read, Except.map,
      parseDirEntriesFromBytes_bytesOf hlayout.valid] at hread
    rwa [← Except.ok.inj hread] at hperm
  have hfirst : ∀ x ∈ [fresh 16 3 ftDir "." :: us ++ [r]].flatten, ¬x.Names (longName 15) :=
    fun x hx hnames ↦ hadm.2.2.2 ((hlisted.map _).mem_iff.mp (List.mem_map.mpr
      ⟨_, mem_filterMap.mpr ⟨x, hx, asEntry_of_names hnames⟩, rfl⟩))
  have hadm₁ : (⟨s₁, d.entries ++ [(longName 15, 5, 1)]⟩ : Directory).Admissible
      (.remove (longName 15)) := by
    have hne := longName_ne_dots (by decide : 15 < 17)
    exact ⟨by simp, fun h ↦ hne (by simp [h]), fun h ↦ hne (by simp [h])⟩
  obtain ⟨s₂, hremove, hread⟩ := removeDirEntry_last_block hlayout₁ (cons_ne_nil _ _)
    ⟨by decide, name_fresh hlen⟩ hfirst
  have hsize : (fresh efsBlockSize 5 1 (longName 15)).size = efsBlockSize := size_fresh (by
    rw [length_longName (by decide)]
    decide)
  refine ⟨s, _, hs, hreach₁.tail hadm₁ (step_remove hremove), ?_,
    addDirEntry_panics hread hlayout.valid ?_ rfl ?_ ?_ ?_⟩
  · have hentries : d.entries ++ [(longName 15, 5, 1)]
        = (created s 3 2).entries ++ longEntries 16 := by
      rw [hd.entries, longEntries_succ 15, append_assoc]
    obtain ⟨hino, hpos, hle, hnew⟩ :=
      admissible_longName (d := ⟨s₁, _⟩) (by decide : 16 < 17) hentries
    exact ⟨hino, hpos, hle, fun h ↦ hnew ((filter_sublist.map _).subset h)⟩
  · rw [minLen_longName (by decide), flatten_singleton]
    exact hfull'
  · rw [hsize]
    decide
  · rw [minLen_longName (by decide), hsize]
    decide
  · exact (Nat.le_of_eq hsize).trans_lt (by rw [hsize]; decide)

end Directory

end Edos

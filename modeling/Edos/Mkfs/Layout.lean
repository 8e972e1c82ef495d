import Edos.Efs.Bitmap
import Edos.Lib.Except
import Edos.Lib.Placement
import Mathlib.Data.List.Intervals

/-!
# Formatting

`efs-mkfs` cuts the partition into groups of blocks, and puts a block bitmap, an inode bitmap and an
inode table in front of each; some groups have copies of the superblock and of the descriptor table
in front of these. The journal takes the last blocks of the partition, wherever the groups are.

Nothing checks that a group has room for its metadata. `Layout::compute` works out the first data
block of each group, and drops it. The layout is sound exactly if this block is no later than the
next group and no later than the journal (`Roomy`, `format_sound_iff`): a partition that is a little
longer than a whole number of groups has the journal on top of the metadata of its last group.
-/

namespace Edos.Mkfs

open Option
open Finset (Ico)

/-! ## The layout -/

/-- `is_power_of`. A number is divided less often than its size. -/
def isPowerOf (base : ℕ) : ℕ → ℕ → Bool
  | 0, n => n == 1
  | fuel + 1, n =>
    if n ≤ 1 then n == 1 else if n % base ≠ 0 then false else isPowerOf base fuel (n / base)

def hasSuperblockBackup (group : ℕ) : Bool :=
  group ≤ 1 || isPowerOf 3 group group || isPowerOf 5 group group || isPowerOf 7 group group

structure GroupLayout where
  group : ℕ
  groupStart : ℕ
  hasBackup : Bool
  blockBitmapBlock : ℕ
  inodeBitmapBlock : ℕ
  inodeTableBlock : ℕ
  totalBlocksInGroup : ℕ

structure Layout where
  blockSize : ℕ
  totalBlocks : ℕ
  blocksPerGroup : ℕ
  inodesPerGroup : ℕ
  inodeTableBlocks : ℕ
  blockGroupCount : ℕ
  bgdTableBlocks : ℕ
  groups : List GroupLayout

/-- Blocks of a group in front of its block bitmap. In group 0 these are the reserved block, the
superblock, the descriptor table and the copies of both. -/
def metadataBeforeBitmap (bgdTableBlocks g : ℕ) : ℕ :=
  if hasSuperblockBackup g then
    if g = 0 then 1 + 1 + bgdTableBlocks + 1 + bgdTableBlocks else 1 + bgdTableBlocks
  else if g = 0 then 1 + 1 + bgdTableBlocks
  else 0

def groupLayout (totalBlocks blocksPerGroup blockGroupCount bgdTableBlocks g : ℕ) : GroupLayout :=
  let groupStart := g * blocksPerGroup
  let blockBitmapBlock := groupStart + metadataBeforeBitmap bgdTableBlocks g
  { group := g
    groupStart := groupStart
    hasBackup := hasSuperblockBackup g
    blockBitmapBlock := blockBitmapBlock
    inodeBitmapBlock := blockBitmapBlock + 1
    inodeTableBlock := blockBitmapBlock + 1 + 1
    totalBlocksInGroup :=
      if g = blockGroupCount - 1 then totalBlocks - groupStart else blocksPerGroup }

/-- `Layout::compute`. The number of groups is stored in 16 bits. -/
def Layout.compute (partitionSize blockSize : ℕ) : Layout :=
  let totalBlocks := partitionSize / blockSize
  let blocksPerGroup := blockSize * 8
  let inodesPerGroup := blocksPerGroup / 8
  let blockGroupCount := divCeil totalBlocks blocksPerGroup % 2 ^ 16
  let bgdTableBlocks := max (divCeil (blockGroupCount * 64) blockSize) 1
  { blockSize := blockSize
    totalBlocks := totalBlocks
    blocksPerGroup := blocksPerGroup
    inodesPerGroup := inodesPerGroup
    inodeTableBlocks := divCeil (inodesPerGroup * 256) blockSize
    blockGroupCount := blockGroupCount
    bgdTableBlocks := bgdTableBlocks
    groups := (List.range blockGroupCount).map
      (groupLayout totalBlocks blocksPerGroup blockGroupCount bgdTableBlocks) }

/-- The first data block of a group, which `Layout::compute` drops. -/
def Layout.firstDataBlock (l : Layout) (g : GroupLayout) : ℕ :=
  g.inodeTableBlock + l.inodeTableBlocks

/-! ## The allocator -/

inductive FormatError where
  | partitionTooSmall
  | journalTooLarge
  | noRootBlock
  | panic
  deriving DecidableEq

structure Allocator where
  blockBitmaps : List (List UInt8)
  inodeBitmaps : List (List UInt8)
  layout : Layout

namespace Allocator

variable (a : Allocator)

def new (l : Layout) : Allocator where
  blockBitmaps := List.replicate l.blockGroupCount (List.replicate l.blockSize 0)
  inodeBitmaps := List.replicate l.blockGroupCount (List.replicate l.blockSize 0)
  layout := l

/-- `mark_block_used`. An index out of range panics. -/
def markBlockUsed (blockNum : ℕ) : Except FormatError Allocator :=
  let group := blockNum / a.layout.blocksPerGroup
  let bit := blockNum % a.layout.blocksPerGroup
  match a.blockBitmaps[group]? with
  | none => .error .panic
  | some bitmap =>
    if bit / 8 < bitmap.length then
      .ok { a with blockBitmaps := a.blockBitmaps.set group (setBit bitmap bit) }
    else .error .panic

def markInodeUsed (inodeNum : ℕ) : Except FormatError Allocator :=
  let group := (inodeNum - 1) / a.layout.inodesPerGroup
  let bit := (inodeNum - 1) % a.layout.inodesPerGroup
  match a.inodeBitmaps[group]? with
  | none => .error .panic
  | some bitmap =>
    if bit / 8 < bitmap.length then
      .ok { a with inodeBitmaps := a.inodeBitmaps.set group (setBit bitmap bit) }
    else .error .panic

/-- `find_free_block_bit`. A scan that runs out of the bitmap panics. -/
def findFreeBlockBit (group : ℕ) : Except FormatError (Option ℕ) :=
  match a.blockBitmaps[group]?, a.layout.groups[group]? with
  | some bitmap, some g =>
    match (List.range g.totalBlocksInGroup).find? fun bit ↦ !bitAt bitmap bit with
    | none => .ok none
    | some bit => if bit / 8 < bitmap.length then .ok (some bit) else .error .panic
  | _, _ => .error .panic

/-- The loop of `alloc_block` over groups. -/
def allocFrom : List ℕ → Except FormatError (Option ℕ)
  | [] => .ok none
  | group :: rest => do
    match ← a.findFreeBlockBit group with
    | some bit => return a.layout.groups[group]?.map fun g ↦ g.groupStart + bit
    | none => allocFrom rest

/-- `alloc_block`: the block it finds. -/
def allocBlock (preferredGroup : ℕ) : Except FormatError (Option ℕ) :=
  a.allocFrom (preferredGroup ::
    (List.range a.layout.blockGroupCount).filter fun g ↦ g ≠ preferredGroup)

end Allocator

/-! ## The formatter -/

/-- What to format: the size of the partition in bytes, the block size, and the journal size. -/
structure Format where
  partitionSize : ℕ
  blockSize : ℕ
  journalSizeMib : ℕ

def Format.layout (spec : Format) : Layout := .compute spec.partitionSize spec.blockSize

def Format.journalBlocks (spec : Format) : ℕ := spec.journalSizeMib * 1024 * 1024 / spec.blockSize

/-- The blocks of a group's metadata, in the order in which they are marked. -/
def groupMarks (l : Layout) (g : GroupLayout) : List ℕ :=
  (if g.hasBackup && g.group ≠ 0 then List.range' g.groupStart (1 + l.bgdTableBlocks) else []) ++
  (if g.group = 0 then List.range' (2 + l.bgdTableBlocks) (1 + l.bgdTableBlocks) else []) ++
  [g.blockBitmapBlock, g.inodeBitmapBlock] ++ List.range' g.inodeTableBlock l.inodeTableBlocks

/-- All blocks that are marked, in order. -/
def marks (l : Layout) (journalFirstBlock journalBlocks : ℕ) : List ℕ :=
  [0, 1] ++ List.range' 2 l.bgdTableBlocks ++ List.range' journalFirstBlock journalBlocks ++
    l.groups.flatMap (groupMarks l)

/-- The new file system: where its parts are, and the number of groups that the superblock has. -/
structure Formatted where
  layout : Layout
  blockGroupCount : ℕ
  journalFirstBlock : ℕ
  journalBlocks : ℕ
  rootDataBlock : ℕ

/-- `format`, of the library and of `mkfs`. The superblock of 256 bytes has to fit into a block;
sizes that overflow panic. -/
def format (spec : Format) : Except FormatError Formatted :=
  if spec.partitionSize < spec.blockSize * 16 then .error .partitionTooSmall
  else if spec.blockSize < 256 ∨ 2 ^ 32 ≤ spec.blockSize * 8 then .error .panic
  else
    let l := spec.layout
    let journalBlocks := spec.journalBlocks
    if l.totalBlocks < journalBlocks + 16 then .error .journalTooLarge
    else do
      let journalFirstBlock := l.totalBlocks - journalBlocks
      let a ← (marks l journalFirstBlock journalBlocks).foldlM Allocator.markBlockUsed (.new l)
      let a ← a.markInodeUsed 1
      match ← a.allocBlock 0 with
      | none => .error .noRootBlock
      | some rootDataBlock =>
        return ⟨l, l.blockGroupCount, journalFirstBlock, journalBlocks, rootDataBlock⟩

/-! ## Soundness -/

/-- The parts of a group. Those of group 0 are the superblock, the descriptor table and the copies
of both, and then what every group has. -/
def groupRegions (l : Layout) (g : GroupLayout) : List (Finset ℕ) :=
  (if g.group = 0 then [Ico 1 2, Ico 2 (2 + l.bgdTableBlocks),
      Ico (2 + l.bgdTableBlocks) (2 + l.bgdTableBlocks + (1 + l.bgdTableBlocks))]
  else if g.hasBackup then [Ico g.groupStart (g.groupStart + (1 + l.bgdTableBlocks))] else []) ++
  [Ico g.blockBitmapBlock (g.blockBitmapBlock + 1), Ico g.inodeBitmapBlock (g.inodeBitmapBlock + 1),
    Ico g.inodeTableBlock (g.inodeTableBlock + l.inodeTableBlocks)]

namespace Formatted

variable (f : Formatted)

/-- The journal. Its superblock is written even if there is no block for it. -/
def journalRegion : Finset ℕ :=
  Ico f.journalFirstBlock (f.journalFirstBlock + max f.journalBlocks 1)

/-- All parts of the file system. -/
def regions : List (Finset ℕ) :=
  f.layout.groups.flatMap (groupRegions f.layout) ++ [f.journalRegion, {f.rootDataBlock}]

/-- No two parts overlap, all are in the partition, and the superblock has the number of groups. -/
structure Sound : Prop where
  disjoint : f.regions.Pairwise Disjoint
  inside : ∀ r ∈ f.regions, ∀ b ∈ r, b < f.layout.totalBlocks
  count : f.blockGroupCount = f.layout.groups.length

end Formatted

/-- Every group has room for its metadata, in front of the next group and of the journal, and there
is a journal. -/
def Roomy (spec : Format) : Prop :=
  0 < spec.journalBlocks ∧ ∀ g ∈ spec.layout.groups,
    spec.layout.firstDataBlock g ≤ spec.layout.totalBlocks - spec.journalBlocks ∧
      (g.group + 1 < spec.layout.blockGroupCount →
        spec.layout.firstDataBlock g ≤ (g.group + 1) * spec.layout.blocksPerGroup)

instance (spec : Format) : Decidable (Roomy spec) := inferInstanceAs (Decidable (_ ∧ _))

open List hiding Ico Disjoint

/-! ## Groups -/

section Groups

variable {partitionSize blockSize : ℕ}

theorem inodeTableBlocks_pos (hsize : 0 < blockSize) :
    0 < (Layout.compute partitionSize blockSize).inodeTableBlocks := by
  refine Nat.div_pos ?_ hsize
  have hmul : blockSize * 8 / 8 = blockSize := Nat.mul_div_cancel _ (by decide)
  omega

variable {l : Layout} {T n G g : ℕ}

/-- The lengths of the parts of a group. -/
def partLengths (l : Layout) (g : ℕ) : List ℕ :=
  (if g = 0 then [1, l.bgdTableBlocks, 1 + l.bgdTableBlocks]
  else if hasSuperblockBackup g then [1 + l.bgdTableBlocks] else []) ++ [1, 1, l.inodeTableBlocks]

/-- Where the parts of a group begin: block 0 is reserved. -/
def partStart (n g : ℕ) : ℕ := if g = 0 then 1 else g * n

theorem groupRegions_eq_place :
    groupRegions l (groupLayout T n G l.bgdTableBlocks g) =
      place (partStart n g) (partLengths l g) := by
  have h0 : hasSuperblockBackup 0 = true := rfl
  by_cases hg : g = 0
  · subst hg
    simp [groupRegions, groupLayout, metadataBeforeBitmap, partLengths, partStart, place, h0,
      add_assoc, add_comm, add_left_comm]
  · by_cases hback : hasSuperblockBackup g = true
    · simp [groupRegions, groupLayout, metadataBeforeBitmap, partLengths, partStart,
        place, hg, hback, add_assoc]
    · simp [groupRegions, groupLayout, metadataBeforeBitmap, partLengths, partStart,
        place, hg, hback]

theorem partStart_add_sum :
    partStart n g + (partLengths l g).sum
      = l.firstDataBlock (groupLayout T n G l.bgdTableBlocks g) := by
  have h0 : hasSuperblockBackup 0 = true := rfl
  by_cases hg : g = 0
  · subst hg
    simp [groupLayout, metadataBeforeBitmap, Layout.firstDataBlock, partLengths, partStart, h0]
    omega
  · by_cases hback : hasSuperblockBackup g = true
    · simp [groupLayout, metadataBeforeBitmap, Layout.firstDataBlock, partLengths,
        partStart, hg, hback]
      omega
    · simp [groupLayout, metadataBeforeBitmap, Layout.firstDataBlock, partLengths,
        partStart, hg, hback]
      omega

end Groups

/-! ## Marking -/

namespace Allocator

variable {l : Layout} {a a' : Allocator}

/-- The bitmaps are those of a layout. -/
structure Shaped (l : Layout) (a : Allocator) : Prop where
  layout : a.layout = l
  count : a.blockBitmaps.length = l.blockGroupCount
  size : ∀ bitmap ∈ a.blockBitmaps, bitmap.length = l.blockSize

/-- Whether a block is marked. -/
def used (a : Allocator) (g bit : ℕ) : Bool := bitAt (a.blockBitmaps.getD g []) bit

theorem shaped_new (l : Layout) : Shaped l (.new l) :=
  ⟨rfl, length_replicate, fun _ h ↦ by rw [eq_of_mem_replicate h, length_replicate]⟩

theorem used_new (l : Layout) (g bit : ℕ) : (new l).used g bit = false := by
  have hzero : ∀ m, bitAt (replicate m 0) bit = false := fun m ↦ by
    rw [bitAt, getD_eq_getElem?_getD, getElem?_replicate]
    split_ifs <;> exact Nat.zero_testBit _
  rw [used, new, getD_eq_getElem?_getD, getElem?_replicate]
  split_ifs
  · exact hzero _
  · exact hzero 0

theorem Shaped.of_markBlockUsed (h : Shaped l a) {b : ℕ} (hok : a.markBlockUsed b = .ok a') :
    b / l.blocksPerGroup < l.blockGroupCount := by
  by_contra hb
  rw [Allocator.markBlockUsed, h.layout, getElem?_eq_none (by rw [h.count]; omega)] at hok
  cases hok

variable (hl : l.blocksPerGroup = l.blockSize * 8) (hpos : 0 < l.blockSize)

include hl hpos

theorem Shaped.markBlockUsed (h : Shaped l a) (b : ℕ)
    (hb : b / l.blocksPerGroup < l.blockGroupCount) :
    ∃ a', a.markBlockUsed b = .ok a' ∧ Shaped l a' ∧ a'.inodeBitmaps = a.inodeBitmaps ∧
      ∀ g bit, bit < l.blocksPerGroup →
        a'.used g bit = (a.used g bit || decide (g * l.blocksPerGroup + bit = b)) := by
  have hlt : b / l.blocksPerGroup < a.blockBitmaps.length := h.count ▸ hb
  have hmod : b % l.blocksPerGroup < l.blocksPerGroup := Nat.mod_lt _ (by omega)
  have hsize := h.size _ (getElem_mem hlt)
  have hbyte : b % l.blocksPerGroup / 8 < (a.blockBitmaps[b / l.blocksPerGroup]).length := by
    omega
  refine ⟨{ a with
      blockBitmaps := a.blockBitmaps.set (b / l.blocksPerGroup)
        (setBit a.blockBitmaps[b / l.blocksPerGroup] (b % l.blocksPerGroup)) },
    ?_, ⟨h.layout, ?_, ?_⟩, rfl, ?_⟩
  · rw [Allocator.markBlockUsed, h.layout, getElem?_eq_getElem hlt]
    exact if_pos hbyte
  · rw [length_set, h.count]
  · intro bitmap hmem
    rcases mem_or_eq_of_mem_set hmem with hmem | rfl
    · exact h.size _ hmem
    · rw [length_setBit, hsize]
  · intro g bit hbit
    have hsame : g * l.blocksPerGroup + bit = b ↔ g = b / l.blocksPerGroup ∧
        bit = b % l.blocksPerGroup := by
      constructor
      · rintro rfl
        rw [mul_comm, Nat.mul_add_div (by omega), Nat.div_eq_of_lt hbit, add_zero,
          Nat.mul_add_mod, Nat.mod_eq_of_lt hbit]
        exact ⟨rfl, rfl⟩
      · rintro ⟨rfl, rfl⟩
        exact Nat.div_add_mod' b _
    by_cases hg : g = b / l.blocksPerGroup
    · subst hg
      rw [used, used, getD_eq_getElem?_getD, List.getElem?_set_self hlt, getD_some,
        bitAt_setBit hbyte, getD_eq_getElem _ _ hlt]
      simp only [hsame, true_and]
    · rw [used, used, getD_eq_getElem?_getD, getElem?_set_ne (Ne.symm hg),
        decide_eq_false (fun h ↦ hg (hsame.mp h).1), Bool.or_false, getD_eq_getElem?_getD]

/-- **Marking** all of the metadata. -/
theorem Shaped.foldlM_markBlockUsed (h : Shaped l a) (bs : List ℕ)
    (hbs : ∀ b ∈ bs, b / l.blocksPerGroup < l.blockGroupCount) :
    ∃ a', bs.foldlM Allocator.markBlockUsed a = .ok a' ∧ Shaped l a' ∧
      a'.inodeBitmaps = a.inodeBitmaps ∧ ∀ g bit, bit < l.blocksPerGroup →
        a'.used g bit = (a.used g bit || decide (g * l.blocksPerGroup + bit ∈ bs)) := by
  induction bs generalizing a with
  | nil => exact ⟨a, rfl, h, rfl, fun g bit _ ↦ by simp⟩
  | cons b bs ih =>
    obtain ⟨a₁, hok₁, h₁, hino₁, hused₁⟩ := h.markBlockUsed hl hpos b (hbs b mem_cons_self)
    obtain ⟨a₂, hok₂, h₂, hino₂, hused₂⟩ := ih h₁ fun c hc ↦ hbs c (mem_cons_of_mem _ hc)
    refine ⟨a₂, ?_, h₂, hino₂.trans hino₁, fun g bit hbit ↦ ?_⟩
    · rw [foldlM_cons, hok₁]
      exact hok₂
    · rw [hused₂ g bit hbit, hused₁ g bit hbit, Bool.or_assoc]
      simp only [mem_cons, Bool.decide_or]

theorem Shaped.lt_of_foldlM (h : Shaped l a) {bs : List ℕ}
    (hok : bs.foldlM Allocator.markBlockUsed a = .ok a') :
    ∀ b ∈ bs, b / l.blocksPerGroup < l.blockGroupCount := by
  induction bs generalizing a with
  | nil => exact fun _ hb ↦ absurd hb not_mem_nil
  | cons b bs ih =>
    obtain ⟨a₁, hok₁, hok₂⟩ := bind_eq_ok.mp hok
    have hb := h.of_markBlockUsed hok₁
    obtain ⟨a₁', hok₁', h₁, -⟩ := h.markBlockUsed hl hpos b hb
    obtain rfl : a₁' = a₁ := Except.ok.inj (hok₁'.symm.trans hok₁)
    rintro c (_ | ⟨_, hc⟩)
    · exact hb
    · exact ih h₁ hok₂ c hc

omit hl hpos

theorem findFreeBlockBit_eq_some {g bit : ℕ} (h : a.findFreeBlockBit g = .ok (some bit)) :
    ∃ gl, a.layout.groups[g]? = some gl ∧ bit < gl.totalBlocksInGroup ∧ a.used g bit = false := by
  rw [findFreeBlockBit] at h
  split at h
  · rename_i bitmap gl hbm hgl
    split at h
    · cases h
    rename_i hfind
    split_ifs at h
    obtain rfl := some.inj (Except.ok.inj h)
    refine ⟨gl, hgl, mem_range.mp (mem_of_find?_eq_some hfind), ?_⟩
    rw [used, getD_eq_getElem?_getD, hbm, getD_some]
    have hfree := find?_some hfind
    rwa [Bool.not_eq_true'] at hfree
  · cases h

/-- A search finds a free bit if there is one, or one in front of it. -/
theorem exists_findFreeBlockBit {g bit : ℕ} {bitmap : List UInt8} {gl : GroupLayout}
    (hbm : a.blockBitmaps[g]? = some bitmap) (hgl : a.layout.groups[g]? = some gl)
    (hbit : bit < gl.totalBlocksInGroup) (hbyte : bit / 8 < bitmap.length)
    (hfree : bitAt bitmap bit = false) : ∃ bit', a.findFreeBlockBit g = .ok (some bit') := by
  have hfree' : (!bitAt bitmap bit) = true := by rw [hfree]; rfl
  have hsome : ((range gl.totalBlocksInGroup).find? fun b ↦ !bitAt bitmap b).isSome :=
    find?_isSome.mpr ⟨bit, mem_range.mpr hbit, hfree'⟩
  obtain ⟨bit', hfind⟩ := isSome_iff_exists.mp hsome
  have hle : bit' ≤ bit := by
    by_contra hgt
    obtain ⟨-, i, hi, hbiti, hbefore⟩ := find?_eq_some_iff_getElem.mp hfind
    rw [getElem_range] at hbiti
    have := hbefore bit (by omega)
    rw [getElem_range, hfree'] at this
    cases this
  rw [findFreeBlockBit, hbm, hgl]
  dsimp only
  rw [hfind]
  exact ⟨bit', if_pos (by omega)⟩

theorem allocFrom_eq_some {gs : List ℕ} {root : ℕ} (h : a.allocFrom gs = .ok (some root)) :
    ∃ g gl bit, a.layout.groups[g]? = some gl ∧ bit < gl.totalBlocksInGroup ∧
      a.used g bit = false ∧ root = gl.groupStart + bit := by
  induction gs with
  | nil => cases h
  | cons g gs ih =>
    obtain ⟨found, hfound, h⟩ := bind_eq_ok.mp h
    cases found with
    | none => exact ih h
    | some bit =>
      obtain ⟨gl, hgl, hbit, hfree⟩ := findFreeBlockBit_eq_some hfound
      rw [hgl] at h
      exact ⟨g, gl, bit, hgl, hbit, hfree, (some.inj (Except.ok.inj h)).symm⟩

end Allocator

/-! ## What format accepts -/

section Accepted

/-- The parts of a group of a partition. -/
abbrev Format.group (spec : Format) : ℕ → GroupLayout :=
  groupLayout spec.layout.totalBlocks spec.layout.blocksPerGroup spec.layout.blockGroupCount
    spec.layout.bgdTableBlocks

/-- The blocks that are marked before the root directory gets one. -/
abbrev Format.marked (spec : Format) : List ℕ :=
  marks spec.layout (spec.layout.totalBlocks - spec.journalBlocks) spec.journalBlocks

variable {spec : Format} {f : Formatted}

theorem Format.length_groups : spec.layout.groups.length = spec.layout.blockGroupCount := by
  rw [Format.layout, Layout.compute, length_map, length_range]

variable {gl : GroupLayout} {g : ℕ} {a : Allocator}

theorem Format.mem_groups :
    gl ∈ spec.layout.groups ↔ ∃ g < spec.layout.blockGroupCount, spec.group g = gl := by
  simp only [Format.group, Format.layout, Layout.compute, List.mem_map, mem_range]

theorem Format.getElem?_groups (h : spec.layout.groups[g]? = some gl) :
    g < spec.layout.blockGroupCount ∧ gl = spec.group g := by
  simp only [Format.layout, Layout.compute, getElem?_map, map_eq_some_iff] at h ⊢
  obtain ⟨g', hg', rfl⟩ := h
  obtain ⟨hlt, rfl⟩ := List.getElem?_eq_some_iff.mp hg'
  rw [length_range] at hlt
  rw [getElem_range]
  exact ⟨hlt, rfl⟩

theorem Format.pairwise_groups {R : GroupLayout → GroupLayout → Prop} :
    spec.layout.groups.Pairwise R ↔
      ∀ g g', g < g' → g' < spec.layout.blockGroupCount → R (spec.group g) (spec.group g') := by
  change ((range spec.layout.blockGroupCount).map spec.group).Pairwise R ↔ _
  rw [pairwise_map, pairwise_iff_getElem]
  simp only [length_range, getElem_range]
  exact ⟨fun h g g' hlt hg' ↦ h g g' (by omega) hg' hlt, fun h g g' _ hg' hlt ↦ h g g' hlt hg'⟩

theorem Format.blocksPerGroup_pos (hpos : 0 < spec.blockSize) : 0 < spec.layout.blocksPerGroup := by
  change 0 < spec.blockSize * 8
  omega

theorem Format.start_lt (hpos : 0 < spec.blockSize) (hg : g < spec.layout.blockGroupCount) :
    g * spec.layout.blocksPerGroup < spec.layout.totalBlocks := by
  have hceil : g < divCeil spec.layout.totalBlocks spec.layout.blocksPerGroup :=
    lt_of_lt_of_le hg (Nat.mod_le _ _)
  rw [divCeil, Nat.lt_div_iff_mul_lt (Format.blocksPerGroup_pos hpos)] at hceil
  omega

/-- What it takes to format. -/
structure Accepted (spec : Format) (f : Formatted) (a : Allocator) : Prop where
  size : 256 ≤ spec.blockSize
  journal : spec.journalBlocks + 16 ≤ spec.layout.totalBlocks
  marked : spec.marked.foldlM Allocator.markBlockUsed (.new spec.layout) = .ok a
  root : ∃ g gl bit, spec.layout.groups[g]? = some gl ∧ bit < gl.totalBlocksInGroup ∧
    a.used g bit = false ∧ f.rootDataBlock = gl.groupStart + bit
  eq : f = ⟨spec.layout, spec.layout.blockGroupCount, spec.layout.totalBlocks - spec.journalBlocks,
    spec.journalBlocks, f.rootDataBlock⟩

theorem Allocator.markInodeUsed_eq {a' : Allocator} {ino : ℕ} (h : a.markInodeUsed ino = .ok a') :
    a'.blockBitmaps = a.blockBitmaps ∧ a'.layout = a.layout := by
  rw [markInodeUsed] at h
  split at h
  · cases h
  split_ifs at h
  cases h
  exact ⟨rfl, rfl⟩

theorem accepted_of_format (h : format spec = .ok f) : ∃ a, Accepted spec f a := by
  rw [format] at h
  dsimp only at h
  split_ifs at h with hjournal
  obtain ⟨a, ha, h⟩ := bind_eq_ok.mp h
  obtain ⟨a', ha', h⟩ := bind_eq_ok.mp h
  obtain ⟨found, hfound, h⟩ := bind_eq_ok.mp h
  cases found with
  | none => cases h
  | some root =>
    obtain rfl : _ = f := Except.ok.inj h
    have hpos : 0 < spec.blockSize := by omega
    obtain ⟨hbm, hlayout⟩ := Allocator.markInodeUsed_eq ha'
    have hshaped := Allocator.shaped_new spec.layout
    obtain ⟨a₁, ha₁, h₁, -⟩ := hshaped.foldlM_markBlockUsed rfl hpos _
      (hshaped.lt_of_foldlM rfl hpos ha)
    obtain rfl : a₁ = a := Except.ok.inj (ha₁.symm.trans ha)
    obtain ⟨g, gl, bit, hgl, hbit, hfree, hroot⟩ := Allocator.allocFrom_eq_some hfound
    rw [hlayout, h₁.layout] at hgl
    rw [Allocator.used, hbm] at hfree
    exact ⟨a₁, by omega, by omega, ha, ⟨g, gl, bit, hgl, hbit, hfree, hroot⟩, rfl⟩

namespace Accepted

variable {a : Allocator} (h : Accepted spec f a)

include h

theorem layout : f.layout = spec.layout := by rw [h.eq]

theorem journalFirstBlock :
    f.journalFirstBlock = spec.layout.totalBlocks - spec.journalBlocks := by rw [h.eq]

theorem journalBlocks : f.journalBlocks = spec.journalBlocks := by rw [h.eq]

theorem size_pos : 0 < spec.blockSize := lt_of_lt_of_le (by decide) h.size

theorem marks_lt :
    ∀ b ∈ spec.marked, b / spec.layout.blocksPerGroup < spec.layout.blockGroupCount :=
  (Allocator.shaped_new spec.layout).lt_of_foldlM rfl h.size_pos h.marked

theorem used_eq {g bit : ℕ} (hbit : bit < spec.layout.blocksPerGroup) :
    a.used g bit = decide (g * spec.layout.blocksPerGroup + bit ∈ spec.marked) := by
  obtain ⟨a₁, ha₁, -, -, hused⟩ := (Allocator.shaped_new spec.layout).foldlM_markBlockUsed rfl
    h.size_pos _ h.marks_lt
  obtain rfl : a₁ = a := Except.ok.inj (ha₁.symm.trans h.marked)
  rw [hused g bit hbit, Allocator.used_new, Bool.false_or]

/-- With a journal, the number of groups has not been cut to 16 bits: the last block is marked. -/
theorem total_le (hjournal : 0 < spec.journalBlocks) :
    spec.layout.totalBlocks ≤ spec.layout.blockGroupCount * spec.layout.blocksPerGroup := by
  have hlast : spec.layout.totalBlocks - 1 ∈ spec.marked := by
    refine mem_append_left _ (mem_append_right _ (mem_range'_1.mpr ?_))
    omega
  have := (Nat.div_lt_iff_lt_mul (Format.blocksPerGroup_pos h.size_pos)).mp (h.marks_lt _ hlast)
  omega

/-- The root directory gets a block that is not marked. -/
theorem root_spec (hjournal : 0 < spec.journalBlocks) :
    f.rootDataBlock < spec.layout.totalBlocks ∧ f.rootDataBlock ∉ spec.marked := by
  obtain ⟨g, gl, bit, hgl, hbit, hfree, hroot⟩ := h.root
  obtain ⟨hg, rfl⟩ := Format.getElem?_groups hgl
  have htotal := h.total_le hjournal
  have hlast : g = spec.layout.blockGroupCount - 1 →
      spec.layout.totalBlocks ≤ g * spec.layout.blocksPerGroup + spec.layout.blocksPerGroup := by
    intro heq
    rw [← Nat.succ_mul, Nat.succ_eq_add_one, heq, Nat.sub_add_cancel (by omega)]
    exact htotal
  have hnext : g ≠ spec.layout.blockGroupCount - 1 →
      g * spec.layout.blocksPerGroup + spec.layout.blocksPerGroup < spec.layout.totalBlocks := by
    intro hne
    have := Format.start_lt (g := g + 1) h.size_pos (by omega)
    rwa [Nat.succ_mul] at this
  change bit < (if g = spec.layout.blockGroupCount - 1 then _ else _) at hbit
  have hbit' : bit < spec.layout.blocksPerGroup ∧
      g * spec.layout.blocksPerGroup + bit < spec.layout.totalBlocks := by
    split_ifs at hbit with heq
    · omega
    · omega
  rw [h.used_eq hbit'.1] at hfree
  exact ⟨hroot ▸ hbit'.2, hroot ▸ of_decide_eq_false hfree⟩

end Accepted

theorem mem_marks_of_mem_groupRegions {r : Finset ℕ} {b first count : ℕ}
    (hgl : gl ∈ spec.layout.groups) (hr : r ∈ groupRegions spec.layout gl) (hb : b ∈ r) :
    b ∈ marks spec.layout first count := by
  have hgroup : b ∈ groupMarks spec.layout gl → b ∈ marks spec.layout first count := fun h ↦
    mem_append_right _ (mem_flatMap.mpr ⟨gl, hgl, h⟩)
  rw [groupRegions, mem_append] at hr
  rcases hr with hr | hr
  · split_ifs at hr with h0 hback
    · simp only [mem_cons, not_mem_nil, or_false] at hr
      rcases hr with rfl | rfl | rfl <;> rw [Finset.mem_Ico] at hb
      · refine mem_append_left _ (mem_append_left _ (mem_append_left _ ?_))
        simp only [mem_cons, not_mem_nil, or_false]
        omega
      · refine mem_append_left _ (mem_append_left _ (mem_append_right _ ?_))
        exact mem_range'_1.mpr hb
      · refine hgroup ?_
        rw [groupMarks, if_pos h0]
        simp only [mem_append, mem_range'_1]
        exact Or.inl (Or.inl (Or.inr hb))
    · rw [mem_singleton.mp hr, Finset.mem_Ico] at hb
      refine hgroup ?_
      rw [groupMarks, if_pos (by simp [hback, h0])]
      simp only [mem_append, mem_range'_1]
      exact Or.inl (Or.inl (Or.inl hb))
    · cases hr
  · refine hgroup ?_
    simp only [mem_cons, not_mem_nil, or_false] at hr
    rw [groupMarks]
    simp only [mem_append, mem_range'_1, mem_cons, not_mem_nil, or_false]
    rcases hr with rfl | rfl | rfl <;> rw [Finset.mem_Ico] at hb <;> omega

/-! ## Room -/

theorem disjoint_of_pairwise_regions (hpair : f.regions.Pairwise Disjoint)
    (hf : f.layout = spec.layout) {g' : ℕ} (hlt : g < g') (hg' : g' < spec.layout.blockGroupCount)
    {r r' : Finset ℕ} (hr : r ∈ groupRegions spec.layout (spec.group g))
    (hr' : r' ∈ groupRegions spec.layout (spec.group g')) : Disjoint r r' := by
  rw [Formatted.regions, hf] at hpair
  have hflat := (pairwise_flatMap.mp (pairwise_append.mp hpair).1).2
  exact Format.pairwise_groups.mp hflat g g' hlt hg' r hr r' hr'

/-- **A sound layout has room.** -/
theorem Formatted.Sound.roomy (h : Accepted spec f a) (hs : f.Sound) : Roomy spec := by
  have hf := h.layout
  have hn := Format.blocksPerGroup_pos h.size_pos
  have hmem : f.journalRegion ∈ f.regions := by simp [regions]
  have hend := hs.inside _ hmem (f.journalFirstBlock + max f.journalBlocks 1 - 1)
    (Finset.mem_Ico.mpr (by omega))
  have hfirst := h.journalFirstBlock
  have hcount := h.journalBlocks
  rw [hfirst, hcount, hf] at hend
  have hpos : 0 < spec.journalBlocks := by omega
  refine ⟨hpos, fun gl hgl ↦ ?_⟩
  obtain ⟨g, hg, rfl⟩ := Format.mem_groups.mp hgl
  have htable : 0 < spec.layout.inodeTableBlocks := inodeTableBlocks_pos h.size_pos
  set gl := spec.group g
  have hr : Ico gl.inodeTableBlock (gl.inodeTableBlock + spec.layout.inodeTableBlocks) ∈
      groupRegions spec.layout gl := by simp [groupRegions]
  have hb : spec.layout.firstDataBlock gl - 1 ∈
      Ico gl.inodeTableBlock (gl.inodeTableBlock + spec.layout.inodeTableBlocks) := by
    rw [Finset.mem_Ico, Layout.firstDataBlock]
    omega
  constructor
  · -- The last block of the inode table is in the partition and not in the journal.
    have hmem : Ico gl.inodeTableBlock (gl.inodeTableBlock + spec.layout.inodeTableBlocks) ∈
        f.layout.groups.flatMap (groupRegions f.layout) := by
      rw [hf]
      exact mem_flatMap.mpr ⟨gl, hgl, hr⟩
    have hin := hs.inside _ (mem_append_left _ hmem) _ hb
    rw [hf] at hin
    by_contra hlate
    have hdisj := (pairwise_append.mp hs.disjoint).2.2 _ hmem f.journalRegion
      mem_cons_self
    refine Finset.disjoint_left.mp hdisj hb (Finset.mem_Ico.mpr ?_)
    omega
  · -- Else the first block of the next group would be in two parts.
    intro hnext
    by_contra hlate
    rw [not_le] at hlate
    have hnext' : g + 1 < spec.layout.blockGroupCount := hnext
    have hend : (g + 1) * spec.layout.blocksPerGroup < partStart spec.layout.blocksPerGroup g +
        (partLengths spec.layout g).sum := by
      rw [partStart_add_sum]
      exact hlate
    obtain ⟨r, hr, hbr⟩ := exists_mem_place
      (by rw [partStart]; split_ifs <;> rw [Nat.succ_mul] <;> omega) hend
    have hend' : (g + 1) * spec.layout.blocksPerGroup <
        partStart spec.layout.blocksPerGroup (g + 1) +
          (partLengths spec.layout (g + 1)).sum := by
      rw [partStart, if_neg (Nat.succ_ne_zero g), partLengths, sum_append]
      simp only [sum_cons]
      omega
    obtain ⟨r', hr', hbr'⟩ := exists_mem_place
      (by rw [partStart, if_neg (Nat.succ_ne_zero g)]) hend'
    rw [← groupRegions_eq_place] at hr hr'
    exact Finset.disjoint_left.mp (disjoint_of_pairwise_regions hs.disjoint hf (Nat.lt_succ_self g)
      hnext' hr hr') hbr hbr'

/-- **A layout with room is sound.** -/
theorem Roomy.sound (h : Accepted spec f a) (hr : Roomy spec) : f.Sound := by
  obtain ⟨hpos, hroom⟩ := hr
  have hj := h.journal
  have hf := h.layout
  have hregion : f.journalRegion = Ico (spec.layout.totalBlocks - spec.journalBlocks)
      spec.layout.totalBlocks := by
    rw [Formatted.journalRegion, h.journalFirstBlock, h.journalBlocks]
    congr 1
    omega
  obtain ⟨hroot, hfree⟩ := h.root_spec hpos
  have hsub : ∀ gl ∈ spec.layout.groups, ∀ r ∈ groupRegions spec.layout gl,
      r ⊆ Ico gl.groupStart (spec.layout.firstDataBlock gl) := by
    intro gl hgl r hr
    obtain ⟨g, hg, rfl⟩ := Format.mem_groups.mp hgl
    rw [groupRegions_eq_place] at hr
    have := subset_of_mem_place hr
    rw [partStart_add_sum (T := spec.layout.totalBlocks) (G := spec.layout.blockGroupCount)] at this
    refine this.trans (Finset.Ico_subset_Ico ?_ (le_refl _))
    change g * _ ≤ partStart _ g
    rw [partStart]
    split_ifs with h0
    · rw [h0, zero_mul]
      exact Nat.zero_le _
    · exact Nat.le_refl _
  refine ⟨?_, ?_, ?_⟩
  · rw [Formatted.regions, hf, pairwise_append]
    refine ⟨pairwise_flatMap.mpr ⟨fun gl hgl ↦ ?_, ?_⟩, ?_, ?_⟩
    · obtain ⟨g, hg, rfl⟩ := Format.mem_groups.mp hgl
      rw [groupRegions_eq_place]
      exact pairwise_place _ _
    · -- A group ends before the next one starts.
      have hmono : ∀ g g', g < g' → g' < spec.layout.blockGroupCount →
          spec.layout.firstDataBlock (spec.group g) ≤ g' * spec.layout.blocksPerGroup := by
        intro g g' hlt hg'
        exact ((hroom _ (Format.mem_groups.mpr ⟨g, by omega, rfl⟩)).2
          (show g + 1 < spec.layout.blockGroupCount by omega)).trans (Nat.mul_le_mul_right _ hlt)
      refine Format.pairwise_groups.mpr fun g g' hlt hg' r hr r' hr' ↦ ?_
      exact (disjoint_Ico (hmono g g' hlt hg')).mono
        (hsub _ (Format.mem_groups.mpr ⟨g, by omega, rfl⟩) r hr)
        (hsub _ (Format.mem_groups.mpr ⟨g', hg', rfl⟩) r' hr')
    · rw [pairwise_cons]
      refine ⟨fun r hr ↦ ?_, pairwise_singleton _ _⟩
      rw [mem_singleton.mp hr, Finset.disjoint_singleton_right, hregion]
      intro hmem
      rw [Finset.mem_Ico] at hmem
      refine hfree (mem_append_left _ (mem_append_right _ (mem_range'_1.mpr ?_)))
      omega
    · intro r hr r' hr'
      obtain ⟨gl, hgl, hr⟩ := mem_flatMap.mp hr
      rcases mem_cons.mp hr' with rfl | hr'
      · rw [hregion]
        exact (disjoint_Ico (hroom gl hgl).1).mono_left (hsub gl hgl r hr)
      · rw [mem_singleton.mp hr', Finset.disjoint_singleton_right]
        exact fun hmem ↦ hfree (mem_marks_of_mem_groupRegions hgl hr hmem)
  · intro r hr b hb
    rw [hf]
    rw [Formatted.regions, hf, mem_append] at hr
    rcases hr with hr | hr
    · obtain ⟨gl, hgl, hr⟩ := mem_flatMap.mp hr
      have hmem := Finset.mem_Ico.mp (hsub gl hgl r hr hb)
      have := (hroom gl hgl).1
      omega
    · rcases mem_cons.mp hr with rfl | hr
      · rw [hregion, Finset.mem_Ico] at hb
        exact hb.2
      · rw [mem_singleton.mp hr, Finset.mem_singleton] at hb
        rw [hb]
        exact hroot
  · have hcount : f.blockGroupCount = spec.layout.blockGroupCount := by rw [h.eq]
    rw [hcount, hf, Format.length_groups]

/-- **Layout soundness**: what `format` accepts is laid out soundly exactly if every group has room
for its metadata in front of the next group and in front of the journal. -/
theorem format_sound_iff (h : format spec = .ok f) : f.Sound ↔ Roomy spec := by
  obtain ⟨a, ha⟩ := accepted_of_format h
  exact ⟨fun hs ↦ hs.roomy ha, fun hr ↦ hr.sound ha⟩

/-! ## A partition with a short last group -/

/-- Marks are before the end of the last group if the metadata is. -/
theorem marks_lt_of_fits (hG : 0 < spec.layout.blockGroupCount)
    (htotal : spec.layout.totalBlocks ≤ spec.layout.blockGroupCount * spec.layout.blocksPerGroup)
    (hj : spec.journalBlocks ≤ spec.layout.totalBlocks)
    (hfit : ∀ gl ∈ spec.layout.groups,
      spec.layout.firstDataBlock gl ≤ spec.layout.blockGroupCount * spec.layout.blocksPerGroup) :
    ∀ b ∈ spec.marked, b < spec.layout.blockGroupCount * spec.layout.blocksPerGroup := by
  have hzero : spec.group 0 ∈ spec.layout.groups := Format.mem_groups.mpr ⟨0, hG, rfl⟩
  have hfirst := hfit _ hzero
  have hstart : spec.layout.firstDataBlock (spec.group 0)
      = 0 * spec.layout.blocksPerGroup + (1 + 1 + spec.layout.bgdTableBlocks + 1 +
        spec.layout.bgdTableBlocks) + 1 + 1 + spec.layout.inodeTableBlocks := rfl
  intro b hb
  simp only [marks, mem_append, mem_cons, not_mem_nil, or_false,
    mem_range'_1] at hb
  rcases hb with ((hb | hb) | hb) | hb
  · omega
  · omega
  · omega
  · obtain ⟨gl, hgl, hb⟩ := mem_flatMap.mp hb
    refine lt_of_lt_of_le ?_ (hfit gl hgl)
    obtain ⟨g, -, rfl⟩ := Format.mem_groups.mp hgl
    simp only [groupMarks, groupLayout, metadataBeforeBitmap, Layout.firstDataBlock,
      mem_append, mem_cons, not_mem_nil, or_false, mem_range'_1] at hb ⊢
    by_cases hg : g = 0
    · subst hg
      have h0 : hasSuperblockBackup 0 = true := rfl
      simp only [h0, ne_eq, not_true_eq_false, decide_false, Bool.and_false, Bool.false_eq_true,
        if_false, not_mem_nil, false_or, if_true, mem_range'_1] at hb ⊢
      omega
    · by_cases hback : hasSuperblockBackup g = true
      · simp only [hback, ne_eq, hg, not_false_eq_true, decide_true, Bool.and_self, if_true,
          if_false, mem_range'_1, not_mem_nil, or_false] at hb ⊢
        omega
      · simp only [hback, Bool.false_and, Bool.false_eq_true, if_false, hg, not_mem_nil,
          false_or] at hb ⊢
        omega

/-- `format` accepts a partition whose groups exist and whose first group has a free block. -/
theorem exists_format (hsize : 256 ≤ spec.blockSize) (hbig : spec.blockSize * 8 < 2 ^ 32)
    (hpart : spec.blockSize * 16 ≤ spec.partitionSize)
    (hj : spec.journalBlocks + 16 ≤ spec.layout.totalBlocks)
    (hmarks : ∀ b ∈ spec.marked, b < spec.layout.blockGroupCount * spec.layout.blocksPerGroup)
    {root : ℕ} (hroot : root < spec.layout.totalBlocks) (hin : root < spec.layout.blocksPerGroup)
    (hfree : root ∉ spec.marked) : ∃ f, format spec = .ok f := by
  have hpos : 0 < spec.blockSize := by omega
  have hn := Format.blocksPerGroup_pos hpos
  have hG : 0 < spec.layout.blockGroupCount := by
    by_contra h0
    have := hmarks 0 (by simp [marks])
    rw [Nat.eq_zero_of_not_pos h0, zero_mul] at this
    omega
  obtain ⟨a, ha, hshaped, hino, hused⟩ :=
    (Allocator.shaped_new spec.layout).foldlM_markBlockUsed rfl hpos _
      fun b hb ↦ (Nat.div_lt_iff_lt_mul hn).mpr (hmarks b hb)
  -- The first inode is in the first group.
  have hinode : ∃ a', a.markInodeUsed 1 = .ok a' := by
    rw [Allocator.markInodeUsed, hino, hshaped.layout]
    have hget : (Allocator.new spec.layout).inodeBitmaps[(1 - 1) / spec.layout.inodesPerGroup]?
        = some (replicate spec.layout.blockSize 0) := by
      rw [Nat.sub_self, Nat.zero_div, Allocator.new, getElem?_replicate, if_pos hG]
    rw [hget]
    refine ⟨_, if_pos ?_⟩
    rw [length_replicate, Nat.sub_self, Nat.zero_mod]
    exact hpos
  obtain ⟨a', ha'⟩ := hinode
  obtain ⟨hbm, hlayout⟩ := Allocator.markInodeUsed_eq ha'
  have hlt : 0 < a'.blockBitmaps.length := by rw [hbm, hshaped.count]; exact hG
  have hgl : a'.layout.groups[0]? = some (spec.group 0) := by
    rw [hlayout, hshaped.layout]
    change ((range spec.layout.blockGroupCount).map _)[0]? = _
    rw [getElem?_map, getElem?_range hG]
    rfl
  -- The search in group 0 finds the free block or one in front of it.
  have hbit : bitAt a'.blockBitmaps[0] root = false := by
    have := hused 0 root hin
    rw [Allocator.used_new, Bool.false_or, zero_mul, zero_add, decide_eq_false hfree,
      Allocator.used, ← hbm, getD_eq_getElem _ _ hlt] at this
    exact this
  have hroom : root < (spec.group 0).totalBlocksInGroup := by
    change root < if 0 = _ then spec.layout.totalBlocks - 0 * _ else _
    split_ifs
    · omega
    · exact hin
  have hsize0 : a'.blockBitmaps[0].length = spec.blockSize :=
    hshaped.size _ (hbm ▸ getElem_mem hlt)
  have hn8 : spec.layout.blocksPerGroup = spec.blockSize * 8 := rfl
  have hfound := Allocator.exists_findFreeBlockBit (getElem?_eq_getElem hlt) hgl hroom
    (by omega) hbit
  obtain ⟨bit, hfound⟩ := hfound
  have halloc : ∃ b, a'.allocBlock 0 = .ok (some b) := by
    rw [Allocator.allocBlock, Allocator.allocFrom, hfound]
    change ∃ b, Except.ok (a'.layout.groups[0]?.map fun g ↦ g.groupStart + bit) = .ok (some b)
    rw [hgl]
    exact ⟨_, rfl⟩
  obtain ⟨b, halloc⟩ := halloc
  refine ⟨⟨spec.layout, spec.layout.blockGroupCount,
    spec.layout.totalBlocks - spec.journalBlocks, spec.journalBlocks, b⟩, ?_⟩
  rw [format, if_neg (by omega), if_neg (by omega)]
  dsimp only
  rw [if_neg (by omega), ha]
  change (a.markInodeUsed 1 >>= _) = _
  rw [ha']
  change (a'.allocBlock 0 >>= _) = _
  rw [halloc]
  rfl

end Accepted

/-- A partition of exactly one group, with a journal of 16 MiB. -/
def oneGroup : Format := ⟨32768 * 4096, 4096, 16⟩

theorem format_sound_oneGroup : ∃ f, format oneGroup = .ok f ∧ f.Sound := by
  have hfits : ∀ gl ∈ oneGroup.layout.groups, oneGroup.layout.firstDataBlock gl ≤
      oneGroup.layout.blockGroupCount * oneGroup.layout.blocksPerGroup := by decide
  have hfree : 263 ∉ oneGroup.marked := by
    simp only [Format.marked, marks, mem_append, mem_flatMap, mem_range'_1, groupMarks, not_or]
    decide
  obtain ⟨f, hf⟩ := exists_format (by decide) (by decide) (by decide) (by decide)
    (marks_lt_of_fits (by decide) (by decide) (by decide) hfits) (by decide) (by decide) hfree
  exact ⟨f, hf, (format_sound_iff hf).mpr (by decide)⟩

/-- A partition that is a thousand blocks longer. -/
def shortLastGroup : Format := ⟨33768 * 4096, 4096, 16⟩

/-- Its journal starts at block 29672 and covers the metadata of the second group, which is at
blocks 32768 to 33027. -/
theorem journal_over_metadata : ∃ f, format shortLastGroup = .ok f ∧ ¬f.Sound := by
  have hfits : ∀ gl ∈ shortLastGroup.layout.groups, shortLastGroup.layout.firstDataBlock gl ≤
      shortLastGroup.layout.blockGroupCount * shortLastGroup.layout.blocksPerGroup := by decide
  have hfree : 263 ∉ shortLastGroup.marked := by
    simp only [Format.marked, marks, mem_append, mem_flatMap, mem_range'_1, groupMarks, not_or]
    decide
  obtain ⟨f, hf⟩ := exists_format (by decide) (by decide) (by decide) (by decide)
    (marks_lt_of_fits (by decide) (by decide) (by decide) hfits) (by decide) (by decide) hfree
  obtain ⟨a, ha⟩ := accepted_of_format hf
  exact ⟨f, hf, fun hs ↦ absurd (hs.roomy ha) (by decide)⟩

end Edos.Mkfs

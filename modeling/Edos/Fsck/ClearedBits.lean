import Edos.Fsck.Repair

/-!
# What the passes do to the bitmaps

Every pass clears some bits and leaves the others, if the regions of the static metadata do not
overlap (`WellLaid`): what a pass writes besides the bitmaps is in the superblock, the table of
descriptors, an inode table, or one of the copies. The places and sizes of these regions are the
`geometry` of the image, which no pass changes. So the bits that `apply_repairs` clears are those of
the findings (`frees_applyRepairs`).
-/

namespace Edos

open List
open Option hiding or_assoc

/-- A bit that is out of range is not set. -/
theorem lt_length_of_bitAt {bitmap : List UInt8} {k : ℕ} (h : bitAt bitmap k = true) :
    k / 8 < bitmap.length := by
  by_contra hk
  rw [bitAt, getD_eq_default _ _ (not_lt.mp hk)] at h
  simp at h

theorem bitAt_clearBit_iff (bitmap : List UInt8) (k j : ℕ) :
    bitAt (clearBit bitmap k) j = true ↔ bitAt bitmap j = true ∧ j ≠ k := by
  rcases lt_or_ge (k / 8) bitmap.length with hk | hk
  · rw [bitAt_clearBit hk, Bool.and_eq_true, Bool.not_eq_true', decide_eq_false_iff_not]
  · rw [clearBit, set_eq_of_length_le hk]
    refine ⟨fun h ↦ ⟨h, ?_⟩, And.left⟩
    rintro rfl
    exact absurd (lt_length_of_bitAt h) (not_lt.mpr hk)

namespace Fsck.Image

/-! ## Geometry -/

/-- A superblock without what the passes change. -/
def placesOfSb (sb : EfsSuperblock) : EfsSuperblock :=
  { sb with freeBlocks := 0, freeInodes := 0, fsckInProgress := 0, lastOrphan := 0, checksum := 0 }

/-- A descriptor without what the passes change. -/
def placesOfBgd (bgd : EfsBlockGroupDesc) : EfsBlockGroupDesc :=
  { bgd with freeBlocksCount := 0, freeInodesCount := 0, usedDirsCount := 0, checksum := 0 }

/-- What no pass changes: sizes and places. -/
def geometry (img : Image) : EfsSuperblock × List EfsBlockGroupDesc :=
  (placesOfSb img.sb, img.bgds.map placesOfBgd)

/-- The bits in a bitmap of a kind. -/
def perGroup (img : Image) : BitmapKind → ℕ
  | .block => img.blocksPerGroup
  | .inode => img.inodesPerGroup

/-- The block of a bitmap. -/
def bitmapBlock (kind : BitmapKind) (bgd : EfsBlockGroupDesc) : ℕ :=
  match kind with
  | .block => bgd.blockBitmapBlock.toNat
  | .inode => bgd.inodeBitmapBlock.toNat

/-- The blocks of the bitmaps of a kind, group by group. -/
def bitmaps (img : Image) (kind : BitmapKind) : List ℕ := img.bgds.map (bitmapBlock kind)

theorem getElem?_bitmaps {img : Image} (kind : BitmapKind) {g : ℕ} {bgd : EfsBlockGroupDesc}
    (h : img.bgds[g]? = some bgd) : (img.bitmaps kind)[g]? = some (bitmapBlock kind bgd) := by
  rw [bitmaps, getElem?_map, h]
  rfl

/-- The bit of a block or of an inode, numbered from 0. -/
def bit (img : Image) (kind : BitmapKind) (i : ℕ) : Bool :=
  ((img.bitmaps kind)[i / img.perGroup kind]?).any fun c ↦
    bitAt (img.readBlock c) (i % img.perGroup kind)

/-- The bits that a group has in a bitmap. -/
def groupLen (img : Image) : BitmapKind → ℕ → ℕ
  | .block => img.groupBlocks
  | .inode => img.groupInodes

/-- The free count of a kind. -/
def freeCount (kind : BitmapKind) (bgd : EfsBlockGroupDesc) : UInt64 :=
  match kind with
  | .block => bgd.freeBlocksCount
  | .inode => bgd.freeInodesCount

/-- The blocks of an inode table. -/
def inodeTable (img : Image) (bgd : EfsBlockGroupDesc) : List ℕ :=
  range' bgd.inodeTableBlock.toNat
    (divCeil (img.inodesPerGroup * img.sb.inodeSize.toNat) img.blockSize)

/-- The superblock is one that the checker goes on with, and the regions of the static metadata do
not overlap. -/
structure WellLaid (img : Image) : Prop where
  validate : img.sb.validate = true
  groups : img.bgds.length = img.sb.blockGroupCount.toNat
  nodup : img.staticBlocks.Nodup

variable {α : Type*}

section Geometry

variable {img img' : Image}

section

variable (h : img'.geometry = img.geometry)

include h

theorem sb_congr (f : EfsSuperblock → α)
    (hf : ∀ sb, f (placesOfSb sb) = f sb) : f img'.sb = f img.sb := by
  rw [← hf img'.sb, ← hf img.sb]
  exact congrArg (fun g ↦ f g.1) h

theorem bgds_congr (f : EfsBlockGroupDesc → α)
    (hf : ∀ bgd, f (placesOfBgd bgd) = f bgd) : img'.bgds.map f = img.bgds.map f := by
  have hmap (bgds : List EfsBlockGroupDesc) : (bgds.map placesOfBgd).map f = bgds.map f := by
    rw [List.map_map]
    exact map_congr_left fun bgd _ ↦ hf bgd
  rw [← hmap img'.bgds, ← hmap img.bgds]
  exact congrArg (fun g ↦ g.2.map f) h

theorem blockSize_congr : img'.blockSize = img.blockSize :=
  sb_congr h (fun sb ↦ 2 ^ sb.blockSizeLog2.toNat) fun _ ↦ rfl

theorem blocksPerGroup_congr : img'.blocksPerGroup = img.blocksPerGroup :=
  sb_congr h (fun sb ↦ sb.blocksPerGroup.toNat) fun _ ↦ rfl

theorem perGroup_congr (kind : BitmapKind) : img'.perGroup kind = img.perGroup kind := by
  cases kind with
  | block => exact blocksPerGroup_congr h
  | inode => exact sb_congr h (fun sb ↦ sb.inodesPerGroup.toNat) fun _ ↦ rfl

theorem groupLen_congr (kind : BitmapKind) (g : ℕ) :
    img'.groupLen kind g = img.groupLen kind g := by
  cases kind with
  | block =>
    exact sb_congr h (fun sb ↦ min (g * sb.blocksPerGroup.toNat + sb.blocksPerGroup.toNat)
      sb.totalBlocks.toNat - g * sb.blocksPerGroup.toNat) fun _ ↦ rfl
  | inode =>
    exact sb_congr h (fun sb ↦ min sb.inodesPerGroup.toNat
      (sb.totalInodes.toNat - g * sb.inodesPerGroup.toNat)) fun _ ↦ rfl

theorem bitmaps_congr (kind : BitmapKind) : img'.bitmaps kind = img.bitmaps kind :=
  bgds_congr h (bitmapBlock kind) fun _ ↦ by cases kind <;> rfl

theorem bgdTableBlocks_congr : img'.bgdTableBlocks = img.bgdTableBlocks :=
  sb_congr h (fun sb ↦ divCeil (sb.blockGroupCount.toNat * 64) (2 ^ sb.blockSizeLog2.toNat))
    fun _ ↦ rfl

theorem backupGroups_congr : img'.backupGroups = img.backupGroups :=
  sb_congr h (fun sb ↦
    (range' 1 (sb.blockGroupCount.toNat - 1)).filter Mkfs.hasSuperblockBackup) fun _ ↦ rfl

theorem staticBlocks_congr : img'.staticBlocks = img.staticBlocks := by
  have hgroups : (img'.bgds.flatMap fun bgd ↦
        [bgd.blockBitmapBlock.toNat, bgd.inodeBitmapBlock.toNat] ++ img'.inodeTable bgd)
      = img.bgds.flatMap fun bgd ↦
        [bgd.blockBitmapBlock.toNat, bgd.inodeBitmapBlock.toNat] ++ img.inodeTable bgd := by
    have htable : img'.inodeTable = img.inodeTable :=
      sb_congr h (fun sb ↦ fun bgd : EfsBlockGroupDesc ↦ range' bgd.inodeTableBlock.toNat
        (divCeil (sb.inodesPerGroup.toNat * sb.inodeSize.toNat)
          (2 ^ sb.blockSizeLog2.toNat))) fun _ ↦ rfl
    rw [htable, flatMap_def, flatMap_def]
    exact congrArg List.flatten (bgds_congr h _ fun _ ↦ rfl)
  have hjournal : range' img'.sb.journalFirstBlock.toNat img'.sb.journalBlockCount.toNat
      = range' img.sb.journalFirstBlock.toNat img.sb.journalBlockCount.toNat :=
    sb_congr h (fun sb ↦ range' sb.journalFirstBlock.toNat sb.journalBlockCount.toNat)
      fun _ ↦ rfl
  simp only [inodeTable] at hgroups
  rw [staticBlocks, staticBlocks, hgroups, hjournal, bgdTableBlocks_congr h, backupGroups_congr h,
    blocksPerGroup_congr h]

end

theorem WellLaid.congr (hlaid : img.WellLaid) (h : img'.geometry = img.geometry) :
    img'.WellLaid where
  validate := (sb_congr h EfsSuperblock.validate fun _ ↦ rfl).trans hlaid.validate
  groups := by
    have hlen := congrArg List.length (bgds_congr h (fun _ ↦ ()) fun _ ↦ rfl)
    rw [length_map, length_map] at hlen
    rw [hlen, hlaid.groups]
    exact (sb_congr h (fun sb ↦ sb.blockGroupCount.toNat) fun _ ↦ rfl).symm
  nodup := staticBlocks_congr h ▸ hlaid.nodup

theorem bit_congr (h : img'.geometry = img.geometry) {kind : BitmapKind}
    (hread : ∀ c ∈ img.bitmaps kind, img'.readBlock c = img.readBlock c) (i : ℕ) :
    img'.bit kind i = img.bit kind i := by
  rw [bit, bit, bitmaps_congr h, perGroup_congr h]
  cases hc : (img.bitmaps kind)[i / img.perGroup kind]? with
  | none => rfl
  | some c =>
    rw [any_some, any_some, hread c (mem_of_getElem? hc)]

end Geometry

/-! ## Where the bitmaps are -/

variable {bgd : EfsBlockGroupDesc} {c : ℕ}

section Places

variable {img : Image}

/-- The static blocks of a group. -/
def groupStatic (img : Image) (bgd : EfsBlockGroupDesc) : List ℕ :=
  [bgd.blockBitmapBlock.toNat, bgd.inodeBitmapBlock.toNat] ++ img.inodeTable bgd

theorem bitmapBlock_mem (kind : BitmapKind) (bgd : EfsBlockGroupDesc) :
    bitmapBlock kind bgd ∈ [bgd.blockBitmapBlock.toNat, bgd.inodeBitmapBlock.toNat] := by
  cases kind <;> simp [bitmapBlock]

theorem bitmapBlock_mem_groupStatic (img : Image) (kind : BitmapKind) (bgd : EfsBlockGroupDesc) :
    bitmapBlock kind bgd ∈ img.groupStatic bgd :=
  mem_append_left _ (bitmapBlock_mem kind bgd)

variable (hlaid : img.WellLaid)

include hlaid

theorem WellLaid.log_ge : 10 ≤ img.sb.blockSizeLog2.toNat := by
  have hvalid := hlaid.validate
  rw [EfsSuperblock.validate] at hvalid
  simp only [Bool.and_eq_true, decide_eq_true_eq] at hvalid
  exact UInt32.le_iff_toNat_le.mp hvalid.2.1

theorem WellLaid.blockSize_ge : 1024 ≤ img.blockSize :=
  have hpow : 2 ^ 10 ≤ 2 ^ img.sb.blockSizeLog2.toNat :=
    Nat.pow_le_pow_right (by decide) hlaid.log_ge
  hpow

theorem WellLaid.inodeSize_eq : img.sb.inodeSize.toNat = 256 := by
  have hvalid := hlaid.validate
  rw [EfsSuperblock.validate] at hvalid
  simp only [Bool.and_eq_true, beq_iff_eq] at hvalid
  rw [hvalid.1.2]
  rfl

theorem WellLaid.dvd_blockSize : 256 ∣ img.blockSize :=
  have hdvd : 2 ^ 8 ∣ 2 ^ img.sb.blockSizeLog2.toNat :=
    pow_dvd_pow 2 (le_trans (by decide) hlaid.log_ge)
  hdvd

/-- The static blocks that belong to no group: copies of the superblock and of the table. -/
theorem WellLaid.not_mem_of_group (hbgd : bgd ∈ img.bgds) (hc : c ∈ img.groupStatic bgd) :
    c ∉ img.superblockCopies ∧ ∀ start ∈ img.tableCopies, c ∉ range' start img.bgdTableBlocks := by
  have hgroups : c ∈ img.bgds.flatMap img.groupStatic := mem_flatMap.mpr ⟨bgd, hbgd, hc⟩
  have hnodup := hlaid.nodup
  change ([0, 1] ++ range' 2 img.bgdTableBlocks ++ img.bgds.flatMap img.groupStatic ++
    [2 + img.bgdTableBlocks] ++ range' (2 + img.bgdTableBlocks + 1) img.bgdTableBlocks ++
    img.backupGroups.flatMap (fun g ↦ range' (g * img.blocksPerGroup) (1 + img.bgdTableBlocks))
    ++ _).Nodup at hnodup
  simp only [nodup_append, append_assoc] at hnodup
  obtain ⟨-, ⟨-, ⟨-, hafter, hgroup⟩, htable⟩, hfirst⟩ := hnodup
  have hbackup {g : ℕ} (hg : g ∈ img.backupGroups) :
      c ∉ range' (g * img.blocksPerGroup) (1 + img.bgdTableBlocks) := by
    intro hmem
    have hbackups : c ∈ img.backupGroups.flatMap fun g ↦
        range' (g * img.blocksPerGroup) (1 + img.bgdTableBlocks) := mem_flatMap.mpr ⟨g, hg, hmem⟩
    exact hgroup c hgroups c (by simp [hbackups]) rfl
  constructor
  · intro hmem
    rcases mem_append.mp hmem with hmem | hmem
    · rcases mem_cons.mp hmem with rfl | hmem
      · exact hfirst 1 (by simp) 1 (by simp [hgroups]) rfl
      · exact hgroup c hgroups _ (by simp) (mem_singleton.mp hmem)
    · obtain ⟨g, hg, rfl⟩ := List.mem_map.mp hmem
      exact hbackup hg (mem_range'_1.mpr ⟨le_rfl, by omega⟩)
  · intro start hstart hmem
    rcases mem_append.mp hstart with hstart | hstart
    · rcases mem_cons.mp hstart with rfl | hstart
      · exact htable c hmem c (by simp [hgroups]) rfl
      · rw [mem_singleton.mp hstart] at hmem
        exact hgroup c hgroups c (by simp [hmem]) rfl
    · obtain ⟨g, hg, rfl⟩ := List.mem_map.mp hstart
      obtain ⟨hlow, hhigh⟩ := mem_range'_1.mp hmem
      exact hbackup hg (mem_range'_1.mpr ⟨by omega, by omega⟩)

theorem WellLaid.nodup_groups : (img.bgds.flatMap img.groupStatic).Nodup := by
  refine hlaid.nodup.sublist ?_
  change (img.bgds.flatMap img.groupStatic).Sublist
    ([0, 1] ++ range' 2 img.bgdTableBlocks ++ img.bgds.flatMap img.groupStatic ++ _ ++ _ ++ _ ++ _)
  simp only [append_assoc]
  exact (sublist_append_left _ _).trans
    ((sublist_append_right _ _).trans (sublist_append_right _ _))

theorem WellLaid.group_eq {g g' : ℕ} {bgd' : EfsBlockGroupDesc}
    (hbgd : img.bgds[g]? = some bgd) (hbgd' : img.bgds[g']? = some bgd')
    (hc : c ∈ img.groupStatic bgd) (hc' : c ∈ img.groupStatic bgd') : g = g' := by
  have hpair := pairwise_iff_getElem.mp (nodup_flatMap.mp hlaid.nodup_groups).2
  obtain ⟨hlt, rfl⟩ := List.getElem?_eq_some_iff.mp hbgd
  obtain ⟨hlt', rfl⟩ := List.getElem?_eq_some_iff.mp hbgd'
  rcases lt_trichotomy g g' with hg | hg | hg
  · exact absurd hc' (hpair g g' hlt hlt' hg hc)
  · exact hg
  · exact absurd hc (hpair g' g hlt' hlt hg hc')

theorem WellLaid.bitmap_inj {kind kind' : BitmapKind} {g g' : ℕ}
    (h : (img.bitmaps kind)[g]? = some c) (h' : (img.bitmaps kind')[g']? = some c) :
    kind = kind' ∧ g = g' := by
  rw [bitmaps, getElem?_map] at h h'
  obtain ⟨bgd, hbgd, rfl⟩ := map_eq_some_iff.mp h
  obtain ⟨bgd', hbgd', heq⟩ := map_eq_some_iff.mp h'
  have hg : g = g' := hlaid.group_eq hbgd hbgd' (img.bitmapBlock_mem_groupStatic kind bgd)
    (heq ▸ img.bitmapBlock_mem_groupStatic kind' bgd')
  subst hg
  rw [hbgd] at hbgd'
  cases hbgd'
  refine ⟨?_, rfl⟩
  have hne := (nodup_flatMap.mp hlaid.nodup_groups).1 bgd (mem_of_getElem? hbgd)
  rw [groupStatic, cons_append, nodup_cons] at hne
  have hne' : bgd.blockBitmapBlock.toNat ≠ bgd.inodeBitmapBlock.toNat :=
    fun heq ↦ hne.1 (by simp [heq])
  cases kind <;> cases kind'
  · rfl
  · exact absurd heq.symm hne'
  · exact absurd heq hne'
  · rfl

theorem WellLaid.bitmap_not_mem_table {kind : BitmapKind}
    (hc : c ∈ img.bitmaps kind) (hbgd : bgd ∈ img.bgds) : c ∉ img.inodeTable bgd := by
  obtain ⟨bgd', hbgd', rfl⟩ := List.mem_map.mp hc
  intro hmem
  obtain ⟨g, hg⟩ := mem_iff_getElem?.mp hbgd
  obtain ⟨g', hg'⟩ := mem_iff_getElem?.mp hbgd'
  obtain rfl : g' = g := hlaid.group_eq hg' hg (img.bitmapBlock_mem_groupStatic kind bgd')
    (mem_append_right _ hmem)
  rw [hg] at hg'
  cases hg'
  have hnodup := (nodup_flatMap.mp hlaid.nodup_groups).1 bgd hbgd
  exact (nodup_append.mp hnodup).2.2 _ (bitmapBlock_mem kind bgd) _ hmem rfl

/-- The primary table has no block in common with the copies of the superblock and of the table. -/
theorem WellLaid.table_apart {g : ℕ} (hg : g ∈ img.backupGroups)
    (hc : c ∈ range' 2 img.bgdTableBlocks) :
    c ∉ range' (g * img.blocksPerGroup) (1 + img.bgdTableBlocks) := by
  intro hmem
  have hnodup := hlaid.nodup
  rw [staticBlocks] at hnodup
  simp only [nodup_append, append_assoc] at hnodup
  obtain ⟨-, ⟨-, -, htable⟩, -⟩ := hnodup
  refine htable c hc c ?_ rfl
  have hbackup : c ∈ img.backupGroups.flatMap fun g ↦
      range' (g * img.blocksPerGroup) (1 + img.bgdTableBlocks) :=
    mem_flatMap.mpr ⟨g, hg, hmem⟩
  simp only [mem_append, hbackup, true_or, or_true]

theorem WellLaid.superblockCopies_apart
    (hc : c ∈ img.superblockCopies) : c ∉ range' 2 img.bgdTableBlocks := by
  intro hmem
  rcases mem_append.mp hc with hc | hc
  · rw [mem_range'_1] at hmem
    simp only [mem_cons, not_mem_nil, or_false] at hc
    omega
  · obtain ⟨g, hg, rfl⟩ := List.mem_map.mp hc
    exact hlaid.table_apart hg hmem (mem_range'_1.mpr ⟨le_rfl, by omega⟩)

theorem WellLaid.length_sb_le : img.sb.toBytes.length ≤ img.blockSize := by
  rw [EfsSuperblock.length_toBytes]
  exact le_trans (by decide) hlaid.blockSize_ge

end Places

/-! ## Writes -/

variable {b : ℕ}

section Writes

variable {img : Image} {data : List UInt8} {off n : ℕ} (d : Disk)

theorem read_write_apart {off' : ℕ} (h : off' + n ≤ off ∨ off + data.length ≤ off') :
    (d.write off data).read off' n = d.read off' n := by
  refine Disk.read_congr fun a hlow hhigh ↦ ?_
  change (Disk.written off data a).getD _ = _
  rw [Disk.written_eq_none (by omega), getD_none]

theorem read_write_take (off : ℕ) (hn : n ≤ data.length) :
    (d.write off data).read off n = data.take n := by
  refine ext_getElem (by simp [hn]) fun i hi _ ↦ ?_
  rw [Disk.length_read] at hi
  simp only [Disk.read, getElem_map, getElem_range, getElem_take]
  change (Disk.written off data (off + i)).getD _ = _
  rw [Disk.written, if_pos (Nat.le_add_right _ _), Nat.add_sub_cancel_left,
    getElem?_eq_getElem (hi.trans_le hn), getD_some]

theorem readBlock_of_write
    (h : (c + 1) * img.blockSize ≤ off ∨ off + data.length ≤ c * img.blockSize) :
    readBlock { img with disk := img.disk.write off data } c = img.readBlock c := by
  rw [Nat.succ_mul] at h
  exact read_write_apart img.disk h

theorem length_padded (h : data.length ≤ n) :
    (data ++ replicate (n - data.length) 0).length = n := by
  rw [length_append, length_replicate]
  omega

theorem readBlock_writeBlock_of_ne (hlen : data.length ≤ img.blockSize) (hne : c ≠ b) :
    (img.writeBlock b data).readBlock c = img.readBlock c := by
  refine readBlock_of_write ?_
  rw [length_padded hlen, ← Nat.succ_mul]
  rcases lt_or_gt_of_ne hne with hlt | hlt
  · exact .inl (Nat.mul_le_mul_right _ hlt)
  · exact .inr (Nat.mul_le_mul_right _ hlt)

theorem readBlock_writeBlock_self (hlen : data.length = img.blockSize) :
    (img.writeBlock b data).readBlock b = data := by
  have hpad : data ++ replicate (img.blockSize - data.length) 0 = data := by
    rw [hlen, Nat.sub_self, replicate_zero, append_nil]
  change (img.disk.write (b * img.blockSize) (data ++ _)).read (b * img.blockSize) img.blockSize = _
  rw [hpad, read_write_take img.disk _ hlen.ge, ← hlen, take_length]

/-- The same data is written at several places, none of them here. -/
theorem read_foldl_write_apart {bs : ℕ} {l : List ℕ}
    (hl : ∀ b ∈ l, off + n ≤ b * bs ∨ b * bs + data.length ≤ off) (d : Disk) :
    (l.foldl (fun d b ↦ d.write (b * bs) data) d).read off n = d.read off n := by
  induction l generalizing d with
  | nil => rfl
  | cons b l ih =>
    rw [foldl_cons, ih (fun b' hb' ↦ hl b' (mem_cons_of_mem b hb')),
      read_write_apart d (hl b mem_cons_self)]

theorem foldl_writeTable (l : List ℕ) (data : List UInt8) (img : Image) :
    l.foldl (fun s b ↦ { s with disk := s.disk.write (b * s.blockSize) data }) img = { img with
      disk := l.foldl (fun d b ↦ d.write (b * img.blockSize) data) img.disk } := by
  induction l generalizing img with
  | nil => rfl
  | cons b l ih => exact ih _

theorem le_divCeil_mul {a : ℕ} (hb : 0 < b) : a ≤ divCeil a b * b := by
  have hmod := Nat.div_add_mod (a + (b - 1)) b
  have hlt := Nat.mod_lt (a + (b - 1)) hb
  rw [divCeil, mul_comm]
  omega

theorem apart_of_not_mem_range' {start n bs : ℕ} (h : c ∉ range' start n) :
    (c + 1) * bs ≤ start * bs ∨ start * bs + n * bs ≤ c * bs := by
  rw [mem_range'_1, not_and_or, not_le, not_lt] at h
  rcases h with h | h
  · exact .inl (Nat.mul_le_mul_right _ h)
  · exact .inr ((add_mul _ _ _).symm.trans_le (Nat.mul_le_mul_right _ h))

end Writes

/-! ## Cleared bits -/

/-- The primary table of descriptors, as it is on disk. -/
def tableRegion (img : Image) : List UInt8 :=
  img.disk.read (2 * img.blockSize) (img.bgdTableBlocks * img.blockSize)

/-- What only the last pass changes: the table on disk, and the totals of the superblock. -/
def lastWritten (img : Image) : List UInt8 × UInt64 × UInt64 :=
  (img.tableRegion, img.sb.freeBlocks, img.sb.freeInodes)

/-- How many of the bits are in the bitmap of a group. -/
def freedIn (img : Image) (freed : List (BitmapKind × ℕ)) (kind : BitmapKind) (g : ℕ) : ℕ :=
  freed.countP fun p ↦ p.1 = kind ∧ p.2 / img.perGroup kind = g

/-- An image has come from another by clearing bits, one after the other. Each of them is counted in
the descriptor of its group, as far as a `u64` goes. -/
structure Frees (freed : List (BitmapKind × ℕ)) (img img' : Image) : Prop where
  geometry : img'.geometry = img.geometry
  bit_iff : ∀ kind i, img'.bit kind i = true ↔ img.bit kind i = true ∧ (kind, i) ∉ freed
  counts : ∀ kind g bgd, img.bgds[g]? = some bgd →
    (freeCount kind bgd).toNat + img.freedIn freed kind g < 2 ^ 64 →
    ∃ bgd', img'.bgds[g]? = some bgd' ∧
      (freeCount kind bgd').toNat = (freeCount kind bgd).toNat + img.freedIn freed kind g

/-- The counts have been raised in memory only. -/
structure Cleared (freed : List (BitmapKind × ℕ)) (img img' : Image) : Prop
    extends Frees freed img img' where
  lastWritten : img'.lastWritten = img.lastWritten

section Cleared

variable {img img' img'' : Image} {freed freed' : List (BitmapKind × ℕ)}

theorem lastWritten_of_write {off : ℕ} {data : List UInt8}
    (h : off + data.length ≤ 2 * img.blockSize ∨
      2 * img.blockSize + img.bgdTableBlocks * img.blockSize ≤ off) :
    lastWritten { img with disk := img.disk.write off data } = img.lastWritten :=
  Prod.ext (read_write_apart img.disk h.symm) rfl

theorem lastWritten_writeBlock {data : List UInt8} (hlen : data.length ≤ img.blockSize)
    (hb : b ∉ range' 2 img.bgdTableBlocks) :
    (img.writeBlock b data).lastWritten = img.lastWritten := by
  refine lastWritten_of_write ?_
  rw [length_padded hlen, ← Nat.succ_mul]
  exact apart_of_not_mem_range' hb

theorem Frees.of_reads (hgeo : img'.geometry = img.geometry)
    (hread : ∀ kind, ∀ c ∈ img.bitmaps kind, img'.readBlock c = img.readBlock c)
    (hcounts : ∀ kind, img'.bgds.map (freeCount kind) = img.bgds.map (freeCount kind)) :
    Frees [] img img' where
  geometry := hgeo
  bit_iff kind i := by
    rw [bit_congr hgeo (hread kind)]
    exact ⟨fun h ↦ ⟨h, not_mem_nil⟩, And.left⟩
  counts kind g bgd hbgd _ := by
    have hcount : (img'.bgds.map (freeCount kind))[g]? = some (freeCount kind bgd) := by
      rw [hcounts, getElem?_map, hbgd]
      rfl
    rw [getElem?_map] at hcount
    obtain ⟨bgd', hbgd', hcount⟩ := map_eq_some_iff.mp hcount
    exact ⟨bgd', hbgd', congrArg UInt64.toNat hcount⟩

theorem Frees.trans (h : Frees freed img img') (h' : Frees freed' img' img'') :
    Frees (freed ++ freed') img img'' where
  geometry := h'.geometry.trans h.geometry
  bit_iff kind i := by
    rw [h'.bit_iff, h.bit_iff, and_assoc, mem_append, not_or]
  counts kind g bgd hbgd hlt := by
    have hsum : img.freedIn (freed ++ freed') kind g
        = img.freedIn freed kind g + img'.freedIn freed' kind g := by
      rw [freedIn, freedIn, freedIn, countP_append, perGroup_congr h.geometry]
    rw [hsum] at hlt ⊢
    obtain ⟨bgd', hbgd', hcount⟩ := h.counts kind g bgd hbgd (by omega)
    obtain ⟨bgd'', hbgd'', hcount'⟩ := h'.counts kind g bgd' hbgd' (by omega)
    exact ⟨bgd'', hbgd'', by omega⟩

theorem Frees.trans_empty (h : Frees freed img img') (h' : Frees [] img' img'') :
    Frees freed img img'' := append_nil freed ▸ h.trans h'

theorem Cleared.refl (img : Image) : Cleared [] img img :=
  ⟨.of_reads rfl (fun _ _ _ ↦ rfl) fun _ ↦ rfl, rfl⟩

theorem Cleared.trans (h : Cleared freed img img') (h' : Cleared freed' img' img'') :
    Cleared (freed ++ freed') img img'' :=
  ⟨h.toFrees.trans h'.toFrees, h'.lastWritten.trans h.lastWritten⟩

theorem Cleared.trans_empty (h : Cleared freed img img') (h' : Cleared [] img' img'') :
    Cleared freed img img'' := append_nil freed ▸ h.trans h'

variable {l : List α}

theorem Cleared.foldl {f : Image → α → Image} {step : α → List (BitmapKind × ℕ)}
    (hstep : ∀ s, ∀ x ∈ l, s.geometry = img.geometry → Cleared (step x) s (f s x)) :
    Cleared (l.flatMap step) img (l.foldl f img) := by
  induction l generalizing img with
  | nil => exact Cleared.refl img
  | cons x l ih =>
    have hx := hstep img x mem_cons_self rfl
    exact hx.trans (ih fun s y hy hs ↦
      hstep s y (mem_cons_of_mem x hy) (hs.trans hx.geometry))

theorem Cleared.foldl_bits {f : Image → ℕ → Image} {kind : BitmapKind} (l : List ℕ)
    (hstep : ∀ s i, s.geometry = img.geometry → Cleared [(kind, i)] s (f s i)) :
    Cleared (l.map fun i ↦ (kind, i)) img (l.foldl f img) := by
  rw [← flatMap_pure_eq_map]
  exact Cleared.foldl fun s i _ ↦ hstep s i

theorem Cleared.foldl_empty {f : Image → α → Image}
    (hstep : ∀ s, ∀ x ∈ l, s.geometry = img.geometry → Cleared [] s (f s x)) :
    Cleared [] img (l.foldl f img) := by
  have h := Cleared.foldl hstep
  rwa [flatMap_eq_nil_iff.mpr fun _ _ ↦ rfl] at h

end Cleared

/-! ## The writes besides the bitmaps -/

section Others

variable {img : Image}

variable {ino : ℕ} {slot : ℕ × ℕ}

variable (hlaid : img.WellLaid)

include hlaid

theorem WellLaid.cleared_writeSuperblockAll : Cleared [] img img.writeSuperblockAll := by
  refine Cleared.foldl_empty fun s b hb hs ↦ ?_
  have hlen : img.sb.toBytes.length ≤ s.blockSize := blockSize_congr hs ▸ hlaid.length_sb_le
  refine ⟨.of_reads rfl (fun kind c hc ↦ readBlock_writeBlock_of_ne hlen ?_) fun _ ↦ rfl,
    lastWritten_writeBlock hlen ?_⟩
  · rintro rfl
    rw [bitmaps_congr hs] at hc
    obtain ⟨bgd, hbgd, rfl⟩ := List.mem_map.mp hc
    exact (hlaid.not_mem_of_group hbgd (img.bitmapBlock_mem_groupStatic kind bgd)).1 hb
  · rw [bgdTableBlocks_congr hs]
    exact hlaid.superblockCopies_apart hb

theorem WellLaid.length_tableBytes :
    img.tableBytes.length = img.bgdTableBlocks * img.blockSize := by
  have hbytes : (img.bgds.flatMap EfsBlockGroupDesc.toBytes).length = img.bgds.length * 64 := by
    rw [length_flatMap, map_congr_left fun bgd _ ↦ EfsBlockGroupDesc.length_toBytes bgd,
      map_const', sum_replicate_nat]
    rfl
  refine length_padded ?_
  rw [hbytes, hlaid.groups]
  exact le_divCeil_mul (Nat.two_pow_pos _)

theorem WellLaid.frees_writeBgdTableAll : Frees [] img img.writeBgdTableAll := by
  rw [writeBgdTableAll, foldl_writeTable]
  refine .of_reads rfl (fun kind c hc ↦ read_foldl_write_apart (fun b hb ↦ ?_) img.disk) fun _ ↦ rfl
  obtain ⟨bgd, hbgd, rfl⟩ := List.mem_map.mp hc
  rw [hlaid.length_tableBytes, ← Nat.succ_mul]
  exact apart_of_not_mem_range'
    ((hlaid.not_mem_of_group hbgd (img.bitmapBlock_mem_groupStatic kind bgd)).2 b hb)

theorem WellLaid.slot_of_inodeLocation (h : img.inodeLocation ino = some slot) :
    slot.2 + InodeRecord.bytesLen ≤ img.blockSize ∧
      ∃ bgd ∈ img.bgds, slot.1 ∈ img.inodeTable bgd := by
  rw [inodeLocation] at h
  split_ifs at h with hno
  obtain ⟨bgd, hbgd, rfl⟩ := map_eq_some_iff.mp h
  have hpos : 0 < img.blockSize := Nat.two_pow_pos _
  have hk : (ino - 1) % img.inodesPerGroup < img.inodesPerGroup := Nat.mod_lt _ (by omega)
  generalize (ino - 1) % img.inodesPerGroup = k at hk
  obtain ⟨m, hm⟩ := hlaid.dvd_blockSize
  constructor
  · change k * img.sb.inodeSize.toNat % img.blockSize + 256 ≤ img.blockSize
    rw [hlaid.inodeSize_eq, hm, mul_comm k, Nat.mul_mod_mul_left]
    have hlt : k % m < m := Nat.mod_lt _ (by rw [hm] at hpos; omega)
    omega
  · refine ⟨bgd, mem_of_getElem? hbgd, mem_range'_1.mpr ⟨Nat.le_add_right _ _, ?_⟩⟩
    refine Nat.add_lt_add_left (Nat.div_lt_of_lt_mul ?_) _
    have hle := le_divCeil_mul (a := img.inodesPerGroup * img.sb.inodeSize.toNat) hpos
    rw [mul_comm img.blockSize]
    refine lt_of_lt_of_le (Nat.mul_lt_mul_of_pos_right hk ?_) hle
    rw [hlaid.inodeSize_eq]
    decide

theorem WellLaid.cleared_writeRecord (h : img.inodeLocation ino = some slot)
    {r : InodeRecord} (hr : r.dataArea.length = 176) : Cleared [] img (img.writeRecord slot r) := by
  obtain ⟨hfit, bgd, hbgd, hmem⟩ := hlaid.slot_of_inodeLocation h
  have hlen : r.toBytes.length = 256 := by
    rw [InodeRecord.length_toBytes, hr]
    rfl
  rw [InodeRecord.bytesLen] at hfit
  refine ⟨.of_reads rfl (fun kind c hc ↦ readBlock_of_write ?_) fun _ ↦ rfl,
    lastWritten_of_write ?_⟩
  · have hne : c ∉ range' slot.1 1 := by
      intro hc'
      obtain rfl : c = slot.1 := by simpa using hc'
      exact hlaid.bitmap_not_mem_table hc hbgd hmem
    have hapart : _ ≤ slot.1 * img.blockSize ∨ _ := apart_of_not_mem_range' hne
    omega
  · have htable := (hlaid.not_mem_of_group hbgd (mem_append_right _ hmem)).2 2
        (by simp [tableCopies])
    have hapart : _ ≤ 2 * img.blockSize ∨ _ := apart_of_not_mem_range' htable
    rw [Nat.succ_mul] at hapart
    omega

end Others

/-! ## The bits of the bitmaps -/

section Bits

variable {img : Image} {kind : BitmapKind} {i : ℕ} {f : EfsBlockGroupDesc → EfsBlockGroupDesc}

/-- A function that counts one more, as far as a `u64` goes, for a kind of bits. -/
structure CountsOne (kind : BitmapKind) (f : EfsBlockGroupDesc → EfsBlockGroupDesc) : Prop where
  places : ∀ bgd, placesOfBgd (f bgd) = placesOfBgd bgd
  count : ∀ bgd, (freeCount kind bgd).toNat + 1 < 2 ^ 64 →
    (freeCount kind (f bgd)).toNat = (freeCount kind bgd).toNat + 1
  other : ∀ kind' bgd, kind' ≠ kind → freeCount kind' (f bgd) = freeCount kind' bgd

theorem cleared_of_no_group
    (h : img.bgds[i / img.perGroup kind]? = none) : Cleared [(kind, i)] img img where
  geometry := rfl
  bit_iff kind' j := by
    refine ⟨fun hbit ↦ ⟨hbit, fun hmem ↦ ?_⟩, And.left⟩
    cases mem_singleton.mp hmem
    rw [bit, bitmaps, getElem?_map, h] at hbit
    cases hbit
  counts kind' g bgd hbgd _ := by
    have hzero : img.freedIn [(kind, i)] kind' g = 0 := by
      refine countP_eq_zero.mpr fun p hp ↦ ?_
      rw [mem_singleton.mp hp, decide_eq_true_eq]
      rintro ⟨rfl, rfl⟩
      rw [h] at hbgd
      cases hbgd
    exact ⟨bgd, hbgd, by rw [hzero, add_zero]⟩
  lastWritten := rfl

/-- An increment that does not wrap below the bound. -/
def Increments (count : UInt64 → UInt64) : Prop :=
  ∀ x, x.toNat + 1 < 2 ^ 64 → (count x).toNat = x.toNat + 1

theorem increments_add_one : Increments (· + 1) := by
  intro x hx
  rw [UInt64.toNat_add, UInt64.toNat_one, Nat.mod_eq_of_lt hx]

theorem increments_saturatingSucc : Increments saturatingSucc := by
  intro x hx
  rw [saturatingSucc, if_pos hx]
  exact increments_add_one x hx

variable {count : UInt64 → UInt64}

variable (hlaid : img.WellLaid)

include hlaid

theorem WellLaid.bit_clearBitAt_iff
    (hc : (img.bitmaps kind)[i / img.perGroup kind]? = some c) (kind' : BitmapKind) (j : ℕ) :
    (img.clearBitAt c (i % img.perGroup kind)).bit kind' j = true ↔
      img.bit kind' j = true ∧ (kind', j) ≠ (kind, i) := by
  have hlen : (clearBit (img.readBlock c) (i % img.perGroup kind)).length = img.blockSize := by
    rw [length_clearBit, length_readBlock]
  rw [ne_eq, Prod.mk.injEq]
  change ((img.bitmaps kind')[j / img.perGroup kind']?).any (fun c' ↦
      bitAt ((img.clearBitAt c (i % img.perGroup kind)).readBlock c')
        (j % img.perGroup kind')) = true
    ↔ ((img.bitmaps kind')[j / img.perGroup kind']?).any (fun c' ↦
      bitAt (img.readBlock c') (j % img.perGroup kind')) = true ∧ _
  cases hc' : (img.bitmaps kind')[j / img.perGroup kind']? with
  | none => simp
  | some c' =>
    rw [any_some, any_some]
    by_cases heq : c' = c
    · subst heq
      obtain ⟨rfl, hdiv⟩ := hlaid.bitmap_inj hc' hc
      rw [clearBitAt, readBlock_writeBlock_self hlen, bitAt_clearBit_iff]
      refine and_congr_right fun _ ↦ not_congr ⟨fun hmod ↦ ⟨rfl, Nat.ext_div_mod hdiv hmod⟩, ?_⟩
      exact fun h ↦ h.2 ▸ rfl
    · rw [clearBitAt, readBlock_writeBlock_of_ne hlen.le heq]
      refine ⟨fun h ↦ ⟨h, ?_⟩, And.left⟩
      rintro ⟨rfl, rfl⟩
      rw [hc] at hc'
      exact heq (some.inj hc').symm

theorem WellLaid.cleared_count (kind : BitmapKind) (i : ℕ)
    (hbgd : img.bgds[i / img.perGroup kind]? = some bgd) (hf : CountsOne kind f) :
    Cleared [(kind, i)] img
      { img.clearBitAt (bitmapBlock kind bgd) (i % img.perGroup kind) with
        bgds := img.bgds.modify (i / img.perGroup kind) f } where
  geometry := Prod.ext rfl (map_modify_of_eq hf.places _ _)
  bit_iff kind' j := by
    rw [mem_singleton, ← ne_eq, ← hlaid.bit_clearBitAt_iff (getElem?_bitmaps kind hbgd) kind' j]
    refine Bool.eq_iff_iff.mp (bit_congr ?_ ?_ j)
    · exact Prod.ext rfl (map_modify_of_eq hf.places _ _)
    · exact fun _ _ ↦ rfl
  counts kind' g bgd' hbgd' hlt := by
    have hone : img.freedIn [(kind, i)] kind' g
        = if kind = kind' ∧ i / img.perGroup kind' = g then 1 else 0 := by
      simp [freedIn, countP_singleton]
    rw [hone] at hlt ⊢
    change ∃ x, (img.bgds.modify (i / img.perGroup kind) f)[g]? = some x ∧ _
    rw [getElem?_modify, hbgd']
    refine ⟨_, rfl, ?_⟩
    dsimp only
    by_cases hg : i / img.perGroup kind = g
    · rw [if_pos hg]
      by_cases hkind : kind' = kind
      · subst hkind
        rw [if_pos ⟨rfl, hg⟩] at hlt ⊢
        exact hf.count bgd' hlt
      · rw [if_neg fun h ↦ hkind h.1.symm, hf.other kind' bgd' hkind, add_zero]
    · rw [if_neg hg, if_neg, add_zero]
      rintro ⟨rfl, h⟩
      exact hg h
  lastWritten := by
    have hlen : (clearBit (img.readBlock (bitmapBlock kind bgd)) (i % img.perGroup kind)).length
        = img.blockSize := by rw [length_clearBit, length_readBlock]
    have hgroup := hlaid.not_mem_of_group (mem_of_getElem? hbgd)
      (img.bitmapBlock_mem_groupStatic kind bgd)
    exact lastWritten_writeBlock hlen.le (hgroup.2 2 (by simp [tableCopies]))

theorem WellLaid.cleared_clearBlockBit (hcount : Increments count)
    (b : ℕ) : Cleared [(.block, b)] img (img.clearBlockBit count b) := by
  rw [clearBlockBit]
  cases hbgd : img.bgds[b / img.blocksPerGroup]? with
  | none => exact cleared_of_no_group hbgd
  | some bgd =>
    refine hlaid.cleared_count .block b hbgd ⟨fun _ ↦ rfl, fun _ ↦ hcount _, ?_⟩
    rintro (_ | _) _ hkind
    · exact absurd rfl hkind
    · rfl

theorem WellLaid.cleared_clearInodeBit (hcount : Increments count)
    (i : ℕ) : Cleared [(.inode, i)] img (img.clearInodeBit count i) := by
  rw [clearInodeBit]
  cases hbgd : img.bgds[i / img.inodesPerGroup]? with
  | none => exact cleared_of_no_group hbgd
  | some bgd =>
    refine hlaid.cleared_count .inode i hbgd ⟨fun _ ↦ rfl, fun _ ↦ hcount _, ?_⟩
    rintro (_ | _) _ hkind
    · rfl
    · exact absurd rfl hkind

end Bits

/-! ## The passes -/

section Passes

variable {img : Image}

theorem geometry_setSuperblock {f : EfsSuperblock → EfsSuperblock}
    (hf : ∀ sb, placesOfSb (f sb) = placesOfSb sb) :
    (img.setSuperblock f).geometry = img.geometry := by
  have hchecksum (sb : EfsSuperblock) (x : UInt32) :
      placesOfSb { sb with checksum := x } = placesOfSb sb := rfl
  exact Prod.ext ((hchecksum _ _).trans (hf img.sb)) rfl

/-- The bits that are cleared for findings, if that is accepted. -/
def leakedOf (kind : BitmapKind) (findings : List Finding) (accepted : Bool) :
    List (BitmapKind × ℕ) :=
  if accepted then (leakedBits kind findings).map fun i ↦ (kind, i) else []

theorem cleared_uncountDir (info : InodeInfo) : Cleared [] img (img.uncountDir info) := by
  rw [uncountDir]
  split_ifs
  · refine ⟨.of_reads (Prod.ext rfl (map_modify_of_eq ?_ _ _)) (fun _ _ _ ↦ rfl)
      fun kind ↦ map_modify_of_eq ?_ _ _, rfl⟩
    · exact fun _ ↦ rfl
    · exact fun _ ↦ by cases kind <;> rfl
  · exact Cleared.refl img

theorem setSuperblock_totals (img : Image) (f : EfsSuperblock → EfsSuperblock) :
    (img.setSuperblock f).sb.freeBlocks = (f img.sb).freeBlocks ∧
      (img.setSuperblock f).sb.freeInodes = (f img.sb).freeInodes := by
  have hchecksum (sb : EfsSuperblock) (x : UInt32) :
      EfsSuperblock.freeBlocks { sb with checksum := x } = sb.freeBlocks ∧
        EfsSuperblock.freeInodes { sb with checksum := x } = sb.freeInodes := ⟨rfl, rfl⟩
  exact hchecksum (f img.sb) (f img.sb).checksumOf

/-- The bits of a deleted inode. -/
def orphanBits (shared : List ℕ) (info : InodeInfo) : List (BitmapKind × ℕ) :=
  ((info.blocks.filter (· ∉ shared)).map fun b ↦ (.block, b)) ++ [(.inode, info.ino - 1)]

variable {infos : List InodeInfo} {findings : List Finding} {img' : Image} {p : BitmapKind × ℕ}
  {answers : Answers} {accepted : Bool}

theorem frees_sumCounts (img : Image) : Frees [] img img.sumCounts := by
  have hgeo : img.sumCounts.geometry = img.geometry := by
    refine Prod.ext rfl ?_
    change (img.bgds.map _).map placesOfBgd = img.bgds.map placesOfBgd
    rw [List.map_map]
    rfl
  refine .of_reads hgeo (fun _ _ _ ↦ rfl) fun kind ↦ ?_
  change (img.bgds.map _).map (freeCount kind) = img.bgds.map (freeCount kind)
  rw [List.map_map]
  exact map_congr_left fun _ _ ↦ by cases kind <;> rfl

/-- The bits that a repair clears, in order. -/
def freedBits (infos : List InodeInfo) (findings : List Finding) (answers : Answers) :
    List (BitmapKind × ℕ) :=
  leakedOf .block findings answers.leakedBlocks ++ leakedOf .inode findings answers.leakedInodes ++
    (deletedInfos infos findings answers.orphans).flatMap (orphanBits (doubleClaimed findings))

theorem mem_leakedOf {kind : BitmapKind} : p ∈ leakedOf kind findings accepted ↔
      accepted = true ∧ p.1 = kind ∧ p.2 ∈ leakedBits kind findings := by
  rw [leakedOf]
  split_ifs with haccepted
  · rw [List.mem_map]
    constructor
    · rintro ⟨i, hi, rfl⟩
      exact ⟨haccepted, rfl, hi⟩
    · exact fun ⟨_, hkind, hi⟩ ↦ ⟨p.2, hi, Prod.ext hkind.symm rfl⟩
  · exact iff_of_false not_mem_nil fun h ↦ haccepted h.1

theorem mem_orphanBits {shared : List ℕ} {info : InodeInfo} :
    p ∈ orphanBits shared info ↔
      p.1 = .block ∧ p.2 ∈ info.blocks ∧ p.2 ∉ shared ∨ p = (.inode, info.ino - 1) := by
  rw [orphanBits, mem_append, mem_singleton, List.mem_map]
  refine or_congr_left ⟨?_, fun ⟨hkind, hb, hsingle⟩ ↦ ⟨p.2, ?_, Prod.ext hkind.symm rfl⟩⟩
  · rintro ⟨b, hb, rfl⟩
    obtain ⟨hb, hsingle⟩ := mem_filter.mp hb
    exact ⟨rfl, hb, of_decide_eq_true hsingle⟩
  · exact mem_filter.mpr ⟨hb, decide_eq_true hsingle⟩

theorem mem_freedBits : p ∈ freedBits infos findings answers ↔
      p ∈ leakedOf .block findings answers.leakedBlocks ∨
      p ∈ leakedOf .inode findings answers.leakedInodes ∨
      ∃ info ∈ deletedInfos infos findings answers.orphans,
        p ∈ orphanBits (doubleClaimed findings) info := by
  rw [freedBits, mem_append, mem_append, mem_flatMap, or_assoc]

/-- The passes before the orphans are deleted. -/
def firstPasses (img : Image) (findings : List Finding) (answers : Answers) : Image :=
  (((img.setFsckInProgress true).repairLeakedBitmapBits findings
    answers.leakedBlocks).repairLeakedInodeBits findings answers.leakedInodes).repairLinkCounts
    findings answers.linkCounts

theorem applyRepairs_eq_some : img.applyRepairs infos findings answers = some img' ↔
      ∃ s,
        (img.firstPasses findings answers).repairOrphans infos findings answers.orphans = some s ∧
        (s.repairBgdSums findings answers.bgdSums).setFsckInProgress false = img' := by
  refine bind_eq_some_iff.trans (exists_congr fun s ↦ and_congr_right fun _ ↦ ?_)
  exact some_inj

variable (hlaid : img.WellLaid)

include hlaid

theorem WellLaid.cleared_setSuperblock {f : EfsSuperblock → EfsSuperblock}
    (hf : ∀ sb, placesOfSb (f sb) = placesOfSb sb)
    (htotals : ∀ sb, (f sb).freeBlocks = sb.freeBlocks ∧ (f sb).freeInodes = sb.freeInodes) :
    Cleared [] img (img.setSuperblock f).writeSuperblockAll := by
  have hgeo : (img.setSuperblock f).geometry = img.geometry := geometry_setSuperblock hf
  have hsize : (img.setSuperblock f).blockSize = img.blockSize := blockSize_congr hgeo
  refine Cleared.trans_empty ⟨.of_reads hgeo (fun kind c _ ↦ ?_) fun _ ↦ rfl, Prod.ext ?_ ?_⟩
    (hlaid.congr hgeo).cleared_writeSuperblockAll
  · rw [readBlock, readBlock, hsize]
    rfl
  · change tableRegion _ = _
    rw [tableRegion, hsize, bgdTableBlocks_congr hgeo]
    rfl
  · have htotals' := img.setSuperblock_totals f
    exact Prod.ext (htotals'.1.trans (htotals _).1) (htotals'.2.trans (htotals _).2)

theorem WellLaid.cleared_zeroRecord (ino : ℕ) : Cleared [] img (img.zeroRecord ino) := by
  rw [zeroRecord]
  cases hslot : img.inodeLocation ino with
  | none => exact Cleared.refl img
  | some slot => exact hlaid.cleared_writeRecord hslot rfl

theorem WellLaid.cleared_deleteOrphan (shared : List ℕ) (info : InodeInfo) :
    Cleared (orphanBits shared info) img (deleteOrphan shared img info) := by
  have hblocks := Cleared.foldl_bits (info.blocks.filter (· ∉ shared)) fun s b hs ↦
    (hlaid.congr hs).cleared_clearBlockBit increments_saturatingSucc b
  have hinode := hblocks.trans ((hlaid.congr hblocks.geometry).cleared_clearInodeBit
    increments_saturatingSucc (info.ino - 1))
  have hdir := hinode.trans_empty (cleared_uncountDir info)
  exact hdir.trans_empty ((hlaid.congr hdir.geometry).cleared_zeroRecord info.ino)

theorem WellLaid.cleared_repairOrphans (h : img.repairOrphans infos findings accepted = some img') :
    Cleared ((deletedInfos infos findings accepted).flatMap (orphanBits (doubleClaimed findings)))
      img img' := by
  have hloop := Cleared.foldl (l := deletedInfos infos findings accepted) fun s info _ hs ↦
    (hlaid.congr hs).cleared_deleteOrphan (doubleClaimed findings) info
  rw [repairOrphans] at h
  dsimp only at h
  split_ifs at h with hpanic hpending
  · cases h
    exact hloop.trans_empty
      ((hlaid.congr hloop.geometry).cleared_setSuperblock (fun _ ↦ rfl) fun _ ↦ ⟨rfl, rfl⟩)
  · cases h
    exact hloop

theorem WellLaid.cleared_setFsckInProgress (value : Bool) :
    Cleared [] img (img.setFsckInProgress value) :=
  hlaid.cleared_setSuperblock (fun _ ↦ rfl) fun _ ↦ ⟨rfl, rfl⟩

variable (findings accepted)

theorem WellLaid.cleared_repairLeakedBitmapBits : Cleared (leakedOf .block findings accepted) img
      (img.repairLeakedBitmapBits findings accepted) := by
  rw [repairLeakedBitmapBits, leakedOf]
  split_ifs
  · exact .foldl_bits _ fun s b hs ↦ (hlaid.congr hs).cleared_clearBlockBit increments_add_one b
  · exact Cleared.refl img

theorem WellLaid.cleared_repairLeakedInodeBits : Cleared (leakedOf .inode findings accepted) img
      (img.repairLeakedInodeBits findings accepted) := by
  rw [repairLeakedInodeBits, leakedOf]
  split_ifs
  · exact .foldl_bits _ fun s i hs ↦ (hlaid.congr hs).cleared_clearInodeBit increments_add_one i
  · exact Cleared.refl img

theorem WellLaid.cleared_repairLinkCounts :
    Cleared [] img (img.repairLinkCounts findings accepted) := by
  rw [repairLinkCounts]
  split_ifs
  · refine Cleared.foldl_empty fun s x _ hs ↦ ?_
    rw [repairLinkCount]
    cases hslot : s.inodeLocation x.1 with
    | none => exact Cleared.refl s
    | some slot => exact (hlaid.congr hs).cleared_writeRecord hslot (s.length_dataArea slot)
  · exact Cleared.refl img

theorem WellLaid.frees_repairBgdSums : Frees [] img (img.repairBgdSums findings accepted) := by
  rw [repairBgdSums]
  split_ifs
  · have hsum := frees_sumCounts img
    have htable := hsum.trans_empty (hlaid.congr hsum.geometry).frees_writeBgdTableAll
    exact htable.trans_empty (hlaid.congr htable.geometry).cleared_writeSuperblockAll.toFrees
  · exact (Cleared.refl img).toFrees

theorem WellLaid.cleared_firstPasses (answers : Answers) :
    Cleared (leakedOf .block findings answers.leakedBlocks ++
      leakedOf .inode findings answers.leakedInodes) img (img.firstPasses findings answers) := by
  have hbegin := hlaid.cleared_setFsckInProgress true
  have hblocks := hbegin.trans
    ((hlaid.congr hbegin.geometry).cleared_repairLeakedBitmapBits findings answers.leakedBlocks)
  have hinodes := hblocks.trans
    ((hlaid.congr hblocks.geometry).cleared_repairLeakedInodeBits findings answers.leakedInodes)
  exact hinodes.trans_empty
    ((hlaid.congr hinodes.geometry).cleared_repairLinkCounts findings answers.linkCounts)

variable {findings}

/-- **The bits that the passes clear** are those of the leaked bits and of the orphans. Until the
last pass, the counts are raised in memory only. -/
theorem WellLaid.cleared_repairOrphans_firstPasses
    (h : (img.firstPasses findings answers).repairOrphans
      infos findings answers.orphans = some img') :
    Cleared (freedBits infos findings answers) img img' := by
  have hfirst := hlaid.cleared_firstPasses findings answers
  exact hfirst.trans ((hlaid.congr hfirst.geometry).cleared_repairOrphans h)

theorem WellLaid.frees_applyRepairs (h : img.applyRepairs infos findings answers = some img') :
    Frees (freedBits infos findings answers) img img' := by
  obtain ⟨s, horphans, rfl⟩ := applyRepairs_eq_some.mp h
  have horphan := (hlaid.cleared_repairOrphans_firstPasses horphans).toFrees
  have hsums := horphan.trans_empty
    ((hlaid.congr horphan.geometry).frees_repairBgdSums findings answers.bgdSums)
  exact hsums.trans_empty ((hlaid.congr hsums.geometry).cleared_setFsckInProgress false).toFrees

end Passes

end Fsck.Image

end Edos

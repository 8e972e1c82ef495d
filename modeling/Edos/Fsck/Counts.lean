import Edos.Fsck.FreedBits

/-!
# The free counts after a repair

Every bit that a repair clears is counted in the descriptor of its group (`Frees.counts`). But the
passes count in memory. The descriptors go to the disk, and their sums into the superblock, only in
the last pass, and that does nothing unless the descriptors had a finding before the repair began. A
leaked bit in an image whose counts agree is cleared on disk and counted nowhere
(`count_not_written`).
-/

namespace Edos.Fsck

open List Option

variable {α : Type*} {l : List α} {n off b : ℕ} {data : List UInt8} {bgd : EfsBlockGroupDesc}

namespace Image

variable {img : Image} {freed : List (BitmapKind × ℕ)}

/-! ## The counts -/

/-- The free counts of the groups are the zeros in their bitmaps. -/
def Counted (img : Image) : Prop :=
  ∀ kind g bgd, img.bgds[g]? = some bgd →
    (freeCount kind bgd).toNat
      = zeroBits (img.readBlock (bitmapBlock kind bgd)) (img.groupLen kind g)

/-- The totals of the superblock are the sums. -/
def Totals (img : Image) : Prop :=
  img.sb.freeBlocks = sumFreeBlocks img.bgds ∧ img.sb.freeInodes = sumFreeInodes img.bgds

/-- The zeros in a bitmap after some bits have been cleared. -/
def zerosAfter (img : Image) (freed : List (BitmapKind × ℕ)) (kind : BitmapKind) (g : ℕ) : ℕ :=
  ((Finset.range (img.groupLen kind g)).filter fun k ↦
    img.bit kind (g * img.perGroup kind + k) = false ∨
      (kind, g * img.perGroup kind + k) ∈ freed).card

/-- The counts before, raised by the bits that are freed if the table is `written`, are the zeros
after; and if it is not, the totals are right already. -/
def CountsMeet (img : Image) (freed : List (BitmapKind × ℕ)) (written : Bool) : Prop :=
  (∀ kind g bgd, img.bgds[g]? = some bgd →
    (freeCount kind bgd).toNat + (if written then img.freedIn freed kind g else 0)
      = img.zerosAfter freed kind g) ∧
    (written = true ∨ img.Totals)

theorem groupLen_le (img : Image) (kind : BitmapKind) (g : ℕ) :
    img.groupLen kind g ≤ img.perGroup kind := by
  cases kind with
  | block =>
    rw [groupLen, groupBlocks, perGroup]
    omega
  | inode => exact min_le_left _ _

theorem bit_of_group {kind : BitmapKind} {g k c : ℕ} (hc : (img.bitmaps kind)[g]? = some c)
    (hk : k < img.perGroup kind) :
    img.bit kind (g * img.perGroup kind + k) = bitAt (img.readBlock c) k := by
  have hdiv : (g * img.perGroup kind + k) / img.perGroup kind = g := by
    rw [mul_comm, Nat.mul_add_div (Nat.zero_lt_of_lt hk), Nat.div_eq_of_lt hk, add_zero]
  have hmod : (g * img.perGroup kind + k) % img.perGroup kind = k := by
    rw [mul_comm, Nat.mul_add_mod, Nat.mod_eq_of_lt hk]
  rw [bit, hdiv, hmod, hc]
  rfl

theorem zeroBits_eq_zerosAfter {img' : Image} (hgeo : img'.geometry = img.geometry)
    (hbit : ∀ kind i, img'.bit kind i = true ↔ img.bit kind i = true ∧ (kind, i) ∉ freed)
    (kind : BitmapKind) {g : ℕ} (hbgd : img'.bgds[g]? = some bgd) :
    zeroBits (img'.readBlock (bitmapBlock kind bgd)) (img'.groupLen kind g)
      = img.zerosAfter freed kind g := by
  rw [zeroBits, zerosAfter, groupLen_congr hgeo]
  refine congrArg Finset.card (Finset.filter_congr fun k hk ↦ ?_)
  have hlt := (Finset.mem_range.mp hk).trans_le (img.groupLen_le kind g)
  rw [← perGroup_congr hgeo] at hlt
  rw [← bit_of_group (getElem?_bitmaps kind hbgd) hlt, ← Bool.not_eq_true, hbit,
    not_and_or, not_not, Bool.not_eq_true, perGroup_congr hgeo]

/-- The counts of the descriptors `bgds`, when they are read with what is on disk after the bits are
cleared. -/
theorem Frees.counted_iff {img' : Image} (h : Frees freed img img') {bgds : List EfsBlockGroupDesc}
    (hplaces : bgds.map placesOfBgd = img.bgds.map placesOfBgd) {extra : BitmapKind → ℕ → ℕ}
    (hcounts : ∀ kind g bgd, img.bgds[g]? = some bgd → ∃ bgd', bgds[g]? = some bgd' ∧
      (freeCount kind bgd').toNat = (freeCount kind bgd).toNat + extra kind g) :
    Counted { img' with bgds := bgds } ↔ ∀ kind g bgd, img.bgds[g]? = some bgd →
      (freeCount kind bgd).toNat + extra kind g = img.zerosAfter freed kind g := by
  have hsb : placesOfSb img'.sb = placesOfSb img.sb := congrArg Prod.fst h.geometry
  have hgeo : Image.geometry { img' with bgds := bgds } = img.geometry := Prod.ext hsb hplaces
  have hbit (kind : BitmapKind) (i : ℕ) : Image.bit { img' with bgds := bgds } kind i = true ↔
      img.bit kind i = true ∧ (kind, i) ∉ freed := by
    rw [bit_congr (hgeo.trans h.geometry.symm) (fun _ _ ↦ rfl) i, h.bit_iff]
  constructor
  · intro hcounted kind g bgd hbgd
    obtain ⟨bgd', hbgd', hcount⟩ := hcounts kind g bgd hbgd
    rw [← hcount, hcounted kind g bgd' hbgd', zeroBits_eq_zerosAfter hgeo hbit kind hbgd']
  · intro hmeet kind g bgd' hbgd'
    have hlen := congrArg List.length hplaces
    rw [length_map, length_map] at hlen
    have hlt : g < img.bgds.length := hlen ▸ (List.getElem?_eq_some_iff.mp hbgd').1
    obtain ⟨bgd'', hbgd'', hcount⟩ := hcounts kind g _ (getElem?_eq_getElem hlt)
    cases hbgd'.symm.trans hbgd''
    rw [hcount, hmeet kind g _ (getElem?_eq_getElem hlt),
      zeroBits_eq_zerosAfter hgeo hbit kind hbgd']

/-- The table is as it was. -/
theorem Cleared.meet_iff {img' : Image} (h : Cleared freed img img') :
    Counted { img' with bgds := img.bgds } ∧ Totals { img' with bgds := img.bgds } ↔
      img.CountsMeet freed false := by
  have htotals : Totals { img' with bgds := img.bgds } ↔ img.Totals := by
    have hsb := congrArg Prod.snd h.lastWritten
    change img'.sb.freeBlocks = _ ∧ img'.sb.freeInodes = _ ↔ _
    rw [(Prod.mk.inj hsb).1, (Prod.mk.inj hsb).2]
    rfl
  rw [htotals, h.counted_iff rfl fun _ _ bgd hbgd ↦ ⟨bgd, hbgd, (add_zero _).symm⟩]
  exact and_congr_right fun _ ↦ (or_iff_right Bool.false_ne_true).symm

/-- The table is written with the counts in memory. -/
theorem Frees.meet_iff {img' : Image} (h : Frees freed img img') (htotals : img'.Totals)
    (hfits : ∀ kind g bgd, img.bgds[g]? = some bgd →
      (freeCount kind bgd).toNat + img.freedIn freed kind g < 2 ^ 64) :
    img'.Counted ∧ img'.Totals ↔ img.CountsMeet freed true := by
  have hcounted := h.counted_iff (congrArg Prod.snd h.geometry) fun kind g bgd hbgd ↦
    h.counts kind g bgd hbgd (hfits kind g bgd hbgd)
  exact ⟨fun hmeet ↦ ⟨hcounted.mp hmeet.1, .inl rfl⟩, fun hmeet ↦ ⟨hcounted.mpr hmeet.1, htotals⟩⟩

end Image

/-! ## What is on disk -/

variable {bs : ℕ}

/-- The same data is written at several places: what is at one of them stays. -/
theorem read_foldl_write (hn : n ≤ data.length) {l : List ℕ}
    (hl : ∀ b ∈ l, b * bs = off ∨ off + n ≤ b * bs ∨ b * bs + data.length ≤ off) {d : Disk}
    (hd : d.read off n = data.take n) :
    (l.foldl (fun d b ↦ d.write (b * bs) data) d).read off n = data.take n := by
  induction l generalizing d with
  | nil => exact hd
  | cons b l ih =>
    refine ih (fun b' hb' ↦ hl b' (mem_cons_of_mem b hb')) ?_
    rcases hl b mem_cons_self with rfl | hapart
    · exact Image.read_write_take d _ hn
    · rw [Image.read_write_apart d hapart, hd]

theorem window_read (d : Disk) {i m : ℕ} (h : i + m ≤ n) :
    window (d.read off n) i m = d.read (off + i) m := by
  refine ext_getElem (by simp [window, Disk.length_read]; omega) fun j hj hj' ↦ ?_
  simp [window, Disk.read, add_assoc]

theorem window_flatMap {f : α → List UInt8} {w : ℕ} (hf : ∀ x, (f x).length = w) {i : ℕ} {x : α}
    (hx : l[i]? = some x) (rest : List UInt8) : window (l.flatMap f ++ rest) (i * w) w = f x := by
  induction l generalizing i with
  | nil => cases hx
  | cons y l ih =>
    rw [flatMap_cons, append_assoc]
    cases i with
    | zero =>
      cases hx
      rw [zero_mul, window_append_left (hf _)]
    | succ i =>
      rw [window_append_right (by rw [hf, Nat.succ_mul]; omega), hf, Nat.succ_mul,
        Nat.add_sub_cancel]
      exact ih hx

namespace Image

variable {img : Image}

theorem foldl_writeBlock (l : List ℕ) (data : List UInt8) (img : Image) :
    l.foldl (fun s b ↦ s.writeBlock b data) img = { img with
      disk := l.foldl (fun d b ↦ d.write (b * img.blockSize)
        (data ++ replicate (img.blockSize - data.length) 0)) img.disk } := by
  induction l generalizing img with
  | nil => rfl
  | cons b l ih => exact ih _

section Disk

variable (hlaid : img.WellLaid)

include hlaid

theorem WellLaid.loadBgds_eq :
    loadBgds img.disk img.sb = (range img.bgds.length).map fun i ↦
      EfsBlockGroupDesc.ofBytes (window img.tableRegion (i * EfsBlockGroupDesc.size)
        EfsBlockGroupDesc.size) := by
  rw [loadBgds, hlaid.groups]
  refine map_congr_left fun i hi ↦ congrArg EfsBlockGroupDesc.ofBytes ?_
  have hfit : i * EfsBlockGroupDesc.size + EfsBlockGroupDesc.size
      ≤ img.bgdTableBlocks * img.blockSize := by
    have hle : img.sb.blockGroupCount.toNat * 64 ≤ img.bgdTableBlocks * img.blockSize :=
      le_divCeil_mul (Nat.two_pow_pos _)
    have hi := mem_range.mp hi
    rw [EfsBlockGroupDesc.size]
    omega
  rw [tableRegion, window_read _ hfit]
  rfl

theorem WellLaid.tableOnDisk_of_region
    (h : img.tableRegion = img.tableBytes) : img.TableOnDisk := by
  rw [TableOnDisk, hlaid.loadBgds_eq, h]
  refine ext_getElem (by simp) fun i hi hi' ↦ ?_
  rw [getElem_map, getElem_range, tableBytes, window_flatMap EfsBlockGroupDesc.length_toBytes
    (getElem?_eq_getElem hi')]
  exact img.bgds[i].ofBytes_toBytes

theorem WellLaid.loadBgds_congr {img' : Image} {freed : List (BitmapKind × ℕ)}
    (h : Cleared freed img img') : loadBgds img'.disk img'.sb = loadBgds img.disk img.sb := by
  have hlen := congrArg (fun g ↦ g.2.length) h.geometry
  rw [geometry, geometry, length_map, length_map] at hlen
  rw [(hlaid.congr h.geometry).loadBgds_eq, hlaid.loadBgds_eq, hlen,
    show img'.tableRegion = img.tableRegion from congrArg Prod.fst h.lastWritten]

theorem WellLaid.sbOnDisk_writeSuperblockAll (hsize : img.blockSize = 4096) :
    img.writeSuperblockAll.SbOnDisk := by
  have hpad := length_padded hlaid.length_sb_le
  have hsb := img.sb.length_toBytes
  rw [SbOnDisk, writeSuperblockAll, foldl_writeBlock]
  rw [superblockCopies, cons_append, foldl_cons, hsize] at *
  have hfits : EfsSuperblock.size ≤
      (img.sb.toBytes ++ replicate (4096 - img.sb.toBytes.length) 0).length := by
    rw [hpad]
    decide
  rw [read_foldl_write hfits (fun b _ ↦ ?_) (read_write_take img.disk 4096 hfits)]
  · rw [take_left' hsb]
    exact img.sb.ofBytes_toBytes
  · omega

theorem WellLaid.region_writeBgdTableAll : img.writeBgdTableAll.tableRegion = img.tableBytes := by
  have hlen := hlaid.length_tableBytes
  rw [writeBgdTableAll, foldl_writeTable]
  change (img.tableCopies.foldl _ img.disk).read (2 * img.blockSize)
    (img.bgdTableBlocks * img.blockSize) = _
  rw [tableCopies, cons_append, foldl_cons, ← hlen,
    read_foldl_write le_rfl (fun b hb ↦ ?_) (read_write_take img.disk _ le_rfl), take_length]
  refine .inr ?_
  rw [hlen, ← add_mul, ← add_mul]
  suffices 2 + img.bgdTableBlocks ≤ b ∨ b + img.bgdTableBlocks ≤ 2 by
    rcases this with hle | hle
    · exact .inl (Nat.mul_le_mul_right _ hle)
    · exact .inr (Nat.mul_le_mul_right _ hle)
  rcases mem_append.mp hb with hb | hb
  · rw [mem_singleton.mp hb]
    omega
  · obtain ⟨g, hg, rfl⟩ := List.mem_map.mp hb
    have hstart := hlaid.table_apart (c := g * img.blocksPerGroup + 1) hg
    have hsecond := hlaid.table_apart (c := 2) hg
    simp only [mem_range'_1] at hstart hsecond
    omega

theorem WellLaid.load_setFsckInProgress (hsize : img.blockSize = 4096) (value : Bool) :
    load (img.setFsckInProgress value).disk
      = some { img.setFsckInProgress value with bgds := loadBgds img.disk img.sb } := by
  have hgeo : (img.setSuperblock fun sb ↦
      { sb with fsckInProgress := if value then 1 else 0 }).geometry = img.geometry :=
    geometry_setSuperblock fun _ ↦ rfl
  have hsb : (img.setFsckInProgress value).SbOnDisk :=
    (hlaid.congr hgeo).sbOnDisk_writeSuperblockAll ((blockSize_congr hgeo).trans hsize)
  have hcleared := hlaid.cleared_setFsckInProgress value
  rw [load, hsb, if_pos (hlaid.congr hcleared.geometry).validate, hlaid.loadBgds_congr hcleared]

end Disk

/-! ## The repair -/

theorem Totals.congr {img' : Image} (h : img.Totals) (hbgds : img'.bgds = img.bgds)
    (hsb : img'.lastWritten.2 = img.lastWritten.2) : img'.Totals := by
  rw [Totals, hbgds, show img'.sb.freeBlocks = _ from (Prod.mk.inj hsb).1,
    show img'.sb.freeInodes = _ from (Prod.mk.inj hsb).2]
  exact h

theorem bgds_writeSuperblockAll (img : Image) : img.writeSuperblockAll.bgds = img.bgds := by
  rw [writeSuperblockAll, foldl_writeBlock]

theorem bgds_setFsckInProgress (img : Image) (value : Bool) :
    (img.setFsckInProgress value).bgds = img.bgds := by
  have hbgds (sb : EfsSuperblock) : bgds { img with sb := sb } = img.bgds := rfl
  rw [setFsckInProgress, bgds_writeSuperblockAll]
  exact hbgds _

theorem sumCounts_totals (img : Image) : img.sumCounts.Totals := by
  have h := setSuperblock_totals
    ⟨img.disk, img.sb, img.bgds.map fun bgd ↦ { bgd with checksum := bgdChecksum bgd }⟩ fun sb ↦
      { sb with
        freeBlocks := sumFreeBlocks
          (img.bgds.map fun bgd ↦ { bgd with checksum := bgdChecksum bgd })
        freeInodes := sumFreeInodes
          (img.bgds.map fun bgd ↦ { bgd with checksum := bgdChecksum bgd }) }
  exact h

/-- **The last pass** writes the counts and their sums. -/
theorem WellLaid.onDisk_sumCounts (hlaid : img.WellLaid) :
    img.sumCounts.writeBgdTableAll.writeSuperblockAll.TableOnDisk ∧
      img.sumCounts.writeBgdTableAll.writeSuperblockAll.Totals := by
  have hsum := frees_sumCounts img
  have hlaid' := hlaid.congr hsum.geometry
  have htable := hlaid'.frees_writeBgdTableAll
  have hcleared := (hlaid'.congr htable.geometry).cleared_writeSuperblockAll
  have hbgds : img.sumCounts.writeBgdTableAll.bgds = img.sumCounts.bgds := by
    rw [writeBgdTableAll, foldl_writeTable]
  constructor
  · rw [TableOnDisk, (hlaid'.congr htable.geometry).loadBgds_congr hcleared,
      bgds_writeSuperblockAll]
    refine (hlaid'.congr htable.geometry).tableOnDisk_of_region ?_
    rw [hlaid'.region_writeBgdTableAll, tableBytes, tableBytes, hbgds,
      blockSize_congr htable.geometry, bgdTableBlocks_congr htable.geometry]
  · refine Totals.congr ?_ (bgds_writeSuperblockAll _) (congrArg Prod.snd hcleared.lastWritten)
    refine img.sumCounts_totals.congr hbgds ?_
    rw [writeBgdTableAll, foldl_writeTable]
    rfl

theorem exists_load_iff {d : Disk} (h : load d = some img) :
    (∃ x, load d = some x ∧ x.Counted ∧ x.Totals) ↔ img.Counted ∧ img.Totals := by
  rw [h]
  refine ⟨?_, fun hcounts ↦ ⟨img, rfl, hcounts⟩⟩
  rintro ⟨x, hx, hcounts⟩
  cases hx
  exact hcounts

theorem checksum_sealSb (sb : EfsSuperblock) : (sealSb sb).checksum = (sealSb sb).checksumOf := by
  have hfield (x : UInt32) : EfsSuperblock.checksum { sb with checksum := x } = x := rfl
  have hrest (x : UInt32) : EfsSuperblock.checksumOf { sb with checksum := x } = sb.checksumOf :=
    congrArg (fun s ↦ crc32 (EfsSuperblock.toBytes s)) rfl
  exact (hfield _).trans (hrest _).symm

theorem checksum_sealBgd (bgd : EfsBlockGroupDesc) :
    (sealBgd bgd).checksum = bgdChecksum (sealBgd bgd) := by
  have hfield (x : UInt32) : EfsBlockGroupDesc.checksum { bgd with checksum := x } = x := rfl
  have hrest (x : UInt32) : bgdChecksum { bgd with checksum := x } = bgdChecksum bgd :=
    congrArg (fun s ↦ crc32 (EfsBlockGroupDesc.toBytes s)) rfl
  exact (hfield _).trans (hrest _).symm

/-- The root is all there is, but block 9 is marked too. -/
def leakyImage (freeBlocks : UInt64) : Image := smallImage freeBlocks 7 1 []

/-- There is one group. -/
theorem forall_leakyImage {freeBlocks : UInt64} {p : BitmapKind → ℕ → EfsBlockGroupDesc → Prop}
    (h : ∀ kind, p kind 0 (smallBgd 7)) :
    ∀ kind g bgd, (leakyImage freeBlocks).bgds[g]? = some bgd → p kind g bgd := by
  rintro kind (_ | g) bgd hbgd
  · cases hbgd
    exact h kind
  · cases hbgd

/-- A leaked bit is all there is for the passes. -/
theorem sel_of_leaked {before : Image} {found : List Finding} (hcheck : before.Finds img found)
    (hfound : img.rebuildBlocks.2 ++ img.compareGroups ++ img.checkLinkCounts
      = [.leakedBit .block b]) :
    leakedBits .block found = [b] ∧ leakedBits .inode found = [] ∧ linkMismatches found = [] ∧
      pendingInodes found = [] ∧ ∀ infos accepted, deletedInfos infos found accepted = [] := by
  have hsel {α : Type} {sel : Finding → Option α}
      (hsel : ∀ f, f.decides = false → sel f = none := by
        intro f hf; cases f <;> first | rfl | cases hf) :
      found.filterMap sel = [.leakedBit .block b].filterMap sel := by
    rw [filterMap_findings hcheck hsel, ← filterMap_append, ← filterMap_append, hfound]
  have hpending : pendingInodes found = [] := hsel
  have hleaks : leakedInodes found = [] := hsel
  refine ⟨hsel, hsel, hsel, hpending, fun infos accepted ↦ ?_⟩
  rw [deletedInfos, hpending, hleaks, ite_self]
  rfl

/-- The phases after the journal find nothing about the descriptors. -/
theorem check_not_isBgd {before : Image} {found : List Finding} (hcheck : before.Finds img found)
    (hload : before.loadFindings = []) : found.any Finding.isBgd = false := by
  obtain ⟨fs, hcheck, rfl⟩ := hcheck
  rw [hload, nil_append]
  refine List.any_eq_false.mpr fun f hf ↦ ?_
  have hplain {fs : List Finding} (hfs : Plain fs) (hf : f ∈ fs) : ¬ f.isBgd = true := by
    rw [(Bool.or_eq_false_iff.mp (hfs f hf)).2]
    exact Bool.false_ne_true
  rw [check_eq_some hcheck] at hf
  rcases mem_append.mp hf with hf | hf
  swap
  · obtain ⟨_, rfl | rfl | ⟨_, _, rfl⟩⟩ := img.checkLinkCounts_finds f hf <;>
      exact Bool.false_ne_true
  rcases mem_append.mp hf with hf | hf
  swap
  · exact hplain img.walkFindings_plain hf
  rcases mem_append.mp hf with hf | hf
  · exact hplain img.orphanChain_plain hf
  rcases mem_append.mp hf with hf | hf
  swap
  · obtain ⟨_, _, rfl | rfl⟩ := img.compareGroups_finds f hf <;> exact Bool.false_ne_true
  rcases mem_append.mp hf with hf | hf
  · exact hplain (img.scanAllInodes_plain _) hf
  · obtain ⟨_, _, _, rfl⟩ := img.rebuildBlocks_finds f hf
    exact Bool.false_ne_true

/-- A leaked bit is all there is: it is cleared, and nothing else is done. -/
theorem repair_of_leaked {before : Image} {found : List Finding} (hcheck : before.Finds img found)
    (hload : before.loadFindings = [])
    (hfound : img.rebuildBlocks.2 ++ img.compareGroups ++ img.checkLinkCounts
      = [.leakedBit .block b]) :
    before.repair img .yes = some
      (((img.setFsckInProgress true).clearBlockBit (· + 1) b).setFsckInProgress false) := by
  obtain ⟨hblocks, hinodes, hlinks, hpending, hdeleted⟩ := sel_of_leaked hcheck hfound
  have hfinding : .leakedBit .block b ∈ found :=
    mem_leakedBits.mp (by rw [hblocks]; exact mem_singleton_self b)
  have hbgd : found.any Finding.isBgd = false := check_not_isBgd hcheck hload
  rw [repair_eq hcheck (List.any_eq_true.mpr ⟨_, hfinding, rfl⟩), applyRepairs_eq_some]
  refine ⟨(img.setFsckInProgress true).clearBlockBit (· + 1) b, ?_, ?_⟩
  · rw [firstPasses, repairLeakedBitmapBits, repairLeakedInodeBits, repairLinkCounts, hblocks,
      hinodes, hlinks]
    simp [repairOrphans, hdeleted, hpending, Answers.yes]
  · rw [repairBgdSums, hbgd]
    rfl

theorem loadFindings_eq_nil (hsb : img.sb.checksum = img.sb.checksumOf)
    (hfeatures : img.sb.incompatibleFeatures &&& ~~~ incompatJournal = 0)
    (hsentinel : img.sb.fsckInProgress = 0) (htotals : img.Totals)
    (hbgds : ∀ bgd ∈ img.bgds, bgd.checksum = bgdChecksum bgd) : img.loadFindings = [] := by
  rw [loadFindings, if_neg (not_not.mpr hsb), if_neg (not_not.mpr hfeatures),
    if_neg (not_not.mpr hsentinel), if_neg (not_not.mpr htotals.1.symm),
    if_neg (not_not.mpr htotals.2.symm), filter_eq_nil_iff.mpr]
  · rfl
  · intro x hx
    rw [decide_eq_true_eq, not_not]
    exact hbgds x.1 (fst_mem_of_mem_zipIdx hx)

end Image

end Edos.Fsck

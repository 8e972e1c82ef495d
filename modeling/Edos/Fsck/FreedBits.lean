import Edos.Fsck.ClearedBits
import Edos.Fsck.DirTree

/-!
# What a repair frees

The bits that a repair clears are leaked, or belong to an inode that is deleted. A leaked bit is one
that neither the static metadata nor a scanned inode accounts for. Of a deleted inode the blocks
that another inode claims are kept. So nothing is lost that the checker knows of.

But nothing compares the blocks of a deleted inode with the static metadata: if an orphan's extent
covers the superblock, the repair marks the superblock as free (`superblock_freed`).
-/

namespace Edos.Fsck

open Function List
open Option hiding or_assoc

/-- The type of a file, from its mode. -/
def fileKind (mode : UInt16) : FileKind :=
  if mode &&& sIfmt = sIfreg then .regular
  else if mode &&& sIfmt = sIfdir then .directory
  else if mode &&& sIfmt = sIflnk then .symlink
  else if mode &&& sIfmt = sIfifo then .fifo
  else .other

/-! ## Findings -/

/-- The findings that the passes before the last one go through. -/
def Finding.decides : Finding → Bool
  | leakedBit _ _ | doubleClaimed _ _ _ | pendingDeletion _ | orphanInode _ | linkCount _ _ _ =>
    true
  | _ => false

/-- The findings that a repair looks at. -/
def Finding.isRead (f : Finding) : Bool := f.decides || f.isBgd

/-- No pass looks at these findings. -/
def Plain (fs : List Finding) : Prop := ∀ f ∈ fs, f.isRead = false

variable {α : Type*}

namespace Plain

variable {fs fs' : List Finding}

theorem nil : Plain [] := nofun

theorem one {f : Finding} (h : f.isRead = false) : Plain [f] := by
  rintro f' hf'
  rwa [mem_singleton.mp hf']

theorem append (h : Plain fs) (h' : Plain fs') : Plain (fs ++ fs') :=
  forall_mem_append.mpr ⟨h, h'⟩

theorem cons {f : Finding} (hf : f.isRead = false) (h : Plain fs) : Plain (f :: fs) :=
  forall_mem_cons.mpr ⟨hf, h⟩

theorem oneIf {f : Finding} (h : f.isRead = false) (c : Prop) [Decidable c] :
    Plain (if c then [f] else []) := by
  split_ifs
  · exact one h
  · exact nil

theorem oneUnless {f : Finding} (h : f.isRead = false) (c : Prop) [Decidable c] :
    Plain (if c then [] else [f]) := by
  split_ifs
  · exact nil
  · exact one h

theorem flatMap {l : List α} {g : α → List Finding} (h : ∀ x ∈ l, Plain (g x)) :
    Plain (l.flatMap g) := by
  intro f hf
  obtain ⟨x, hx, hf⟩ := mem_flatMap.mp hf
  exact h x hx f hf

end Plain

theorem applyClaims_finds (l : List (ℕ × ℕ)) (owner : ℕ → Option ℕ) (bm : RebuiltBitmap) :
    ∀ f ∈ (applyClaims l owner bm).2, ∃ b prev ino, f = .doubleClaimed b prev ino := by
  induction l generalizing owner bm with
  | nil => exact nofun
  | cons claim l ih =>
    rw [applyClaims]
    cases owner claim.1 with
    | none => exact ih _ _
    | some prev => exact forall_mem_cons.mpr ⟨⟨_, _, _, rfl⟩, ih _ _⟩

theorem dirRound_plain (block : List UInt8) (bs dir lb off : ℕ) :
    Plain (dirRound block bs dir lb off).findings := by
  rw [dirRound]
  dsimp only
  split_ifs <;> first | exact .nil | exact .one rfl

theorem parseDirBlockFrom_plain (block : List UInt8) (bs dir lb fuel off : ℕ) :
    ∀ parsed ∈ parseDirBlockFrom block bs dir lb fuel off, Plain parsed.2 := by
  induction fuel generalizing off with
  | zero => exact nofun
  | succ fuel ih =>
    have hround := dirRound_plain block bs dir lb off
    rw [parseDirBlockFrom]
    cases (dirRound block bs dir lb off).next with
    | none =>
      intro parsed hparsed
      obtain rfl := Option.some.inj hparsed
      exact hround
    | some next =>
      intro parsed hparsed
      obtain ⟨rest, hrest, rfl⟩ := Option.map_eq_some_iff.mp hparsed
      exact hround.append (ih next rest hrest)

theorem parseDirBlock_plain (block : List UInt8) (bs dir lb : ℕ) :
    Plain (parseDirBlock block bs dir lb).2 := by
  rw [parseDirBlock]
  cases hparsed : parseDirBlockFrom block bs dir lb (bs / 12 + 1) 0 with
  | none => exact .nil
  | some parsed => exact parseDirBlockFrom_plain block bs dir lb _ 0 parsed hparsed

variable {start len : ℕ}

namespace Image

variable (img : Image)

/-- An inode as the driver reads it. -/
def toDiskInode (r : InodeRecord) : DiskInode where
  kind := fileKind r.mode
  linkCount := r.linkCount.toNat
  size := r.size.toNat
  orphanNext := r.orphanNext
  storage := if r.isInlineData then .inline r.dataArea
    else .extents (loadExtentMap r.dataArea img.readBlock)
      ((treeBlocks r.dataArea).toOption.getD [])


theorem loadFindings_decides : ∀ f ∈ img.loadFindings, f.decides = false := by
  have hif {f : Finding} (hf : f.decides = false) (c : Prop) [Decidable c] :
      ∀ f' ∈ (if c then [f] else []), f'.decides = false := by
    split_ifs
    · exact fun f' hf' ↦ mem_singleton.mp hf' ▸ hf
    · exact nofun
  intro f hf
  simp only [loadFindings, mem_append] at hf
  obtain ((((hf | hf) | hf) | hf) | hf) | hf := hf
  · exact hif rfl _ f hf
  · exact hif rfl _ f hf
  · exact hif rfl _ f hf
  · obtain ⟨x, -, rfl⟩ := List.mem_map.mp hf
    rfl
  · exact hif rfl _ f hf
  · exact hif rfl _ f hf

theorem chainFrom_plain (fuel ino : ℕ) (set : List ℕ) : Plain (img.chainFrom fuel ino set).2.1 := by
  induction fuel generalizing ino set with
  | zero => exact .nil
  | succ fuel ih =>
    rw [chainFrom]
    split_ifs with hrange hloop
    · exact .one rfl
    · exact .one rfl
    · cases img.readInode ino with
      | none => exact .one rfl
      | some inode =>
        dsimp only
        by_cases hend : inode.orphanNext = 0
        · rw [if_pos hend]
          exact .oneIf rfl _
        · rw [if_neg hend]
          exact (Plain.oneIf rfl _).append (ih _ _)

theorem orphanChain_plain : Plain img.orphanChain.2 := by
  rw [orphanChain]
  by_cases hnone : img.sb.lastOrphan = 0
  · rw [if_pos hnone]
    exact .nil
  · rw [if_neg hnone]
    exact (((Plain.oneIf rfl _).append (img.chainFrom_plain _ _ _)).append (.oneIf rfl _)).append
      (.oneUnless rfl _)

theorem collectLeafExtents_plain (totalBlocks ino : ℕ) (node : List UInt8) (is : List ℕ) :
    Plain (collectLeafExtents totalBlocks ino node is).2 := by
  induction is with
  | nil => exact .nil
  | cons i is ih =>
    rw [collectLeafExtents]
    cases readNodeEntry node i with
    | none => exact .one rfl
    | some e =>
      dsimp only
      split_ifs
      · exact .cons rfl ih
      · exact .cons rfl ih
      · exact ih

theorem collectLeaf_plain (ino i : ℕ) (area : List UInt8) :
    Plain (img.collectLeaf ino i area).2 := by
  rw [collectLeaf]
  cases readNodeEntry area i with
  | none => exact .one rfl
  | some idx =>
    dsimp only
    split_ifs
    · exact .one rfl
    · cases readNodeHeader (img.readBlock idx.block) with
      | none => exact .one rfl
      | some hdr =>
        dsimp only
        split_ifs
        · exact .one rfl
        · exact collectLeafExtents_plain _ _ _ _

theorem collectTree_plain (ino : ℕ) (area : List UInt8) (is : List ℕ) :
    Plain (img.collectTree ino area is).2 := by
  induction is with
  | nil => exact .nil
  | cons i is ih =>
    have hleaf := img.collectLeaf_plain ino i area
    rw [collectTree]
    generalize img.collectLeaf ino i area = leaf at hleaf ⊢
    match leaf, hleaf with
    | (none, fs), hleaf => exact hleaf
    | (some es, fs), hleaf => exact hleaf.append ih

theorem collectExtents_plain (ino : ℕ) (inode : InodeRecord) :
    Plain (img.collectExtents ino inode).2 := by
  rw [collectExtents]
  split_ifs
  · exact .one rfl
  · exact .nil
  · cases readNodeHeader inode.dataArea with
    | none => exact .one rfl
    | some hdr =>
      dsimp only
      split_ifs
      · exact .one rfl
      · exact .one rfl
      · exact .one rfl
      · exact .one rfl
      · exact collectLeafExtents_plain _ _ _ _
      · exact .cons rfl (img.collectTree_plain _ _ _)

theorem verifyInode_plain (chain : List ℕ) (ino : ℕ) (inode : InodeRecord) :
    Plain (img.verifyInode chain ino inode).2 := by
  refine ((Plain.oneIf rfl _).append ?_).append (img.collectExtents_plain ino inode)
  split_ifs
  · exact .one rfl
  · exact .one rfl
  · exact .nil

theorem scanAllInodes_plain (chain : List ℕ) : Plain (img.scanAllInodes chain).2 := by
  refine .flatMap fun result hresult ↦ ?_
  obtain ⟨⟨bgd, g⟩, -, hresult⟩ := mem_flatMap.mp hresult
  obtain ⟨k, -, rfl⟩ := List.mem_map.mp hresult
  exact img.verifyInode_plain _ _ _

theorem dirEntries_plain (ino : ℕ) (inode : InodeRecord) :
    Plain (img.dirEntries ino inode).2 := by
  rw [dirEntries]
  split_ifs
  · exact parseDirBlock_plain _ _ _ _
  · refine .flatMap fun parsed hparsed ↦ ?_
    obtain ⟨lb, -, rfl⟩ := List.mem_map.mp hparsed
    cases img.readInodeDataBlock inode lb with
    | none => exact .nil
    | some block => exact parseDirBlock_plain _ _ _ _

theorem processEntry_plain (visited : List ℕ) (ino parent : ℕ) (entry : DirEntry) :
    Plain (img.processEntry visited ino parent entry).findings := by
  rw [processEntry]
  by_cases hdot : entry.2 = nameBytes "."
  · rw [if_pos hdot]
    exact .oneIf rfl _
  by_cases hdotdot : entry.2 = nameBytes ".."
  · rw [if_neg hdot, if_pos hdotdot]
    exact .oneIf rfl _
  rw [if_neg hdot, if_neg hdotdot]
  by_cases hrange : entry.1.inode.toNat < 1 ∨ img.totalInodes < entry.1.inode.toNat
  · rw [if_pos hrange]
    exact .one rfl
  rw [if_neg hrange]
  cases findInfo img.infos entry.1.inode.toNat with
  | none => exact .one rfl
  | some info =>
    dsimp only
    split_ifs
    · exact .one rfl
    · exact .nil
    · exact .nil
    · exact .nil

theorem rebuildBlocks_finds :
    ∀ f ∈ img.rebuildBlocks.2, ∃ b prev ino, f = .doubleClaimed b prev ino :=
  applyClaims_finds _ _ _

theorem walkFindings_plain : Plain img.walkFindings := by
  refine .flatMap fun visit _ ↦ .append ?_ (.flatMap fun outcome houtcome ↦ ?_)
  · rw [queuedEntries]
    cases img.readInode visit.2.1 with
    | none => exact .nil
    | some inode => exact img.dirEntries_plain _ _
  · obtain ⟨entry, -, rfl⟩ := List.mem_map.mp houtcome
    exact img.processEntry_plain _ _ _ _

/-! ## Leaked bits -/

variable {img}

/-- The rebuilt bitmap of a kind. -/
def rebuilt (img : Image) : BitmapKind → RebuiltBitmap
  | .block => img.rebuildBlocks.1
  | .inode => img.rebuildInodes

variable {kind : BitmapKind} {fs found : List Finding} {i : ℕ} {f : Finding} {before : Image}

theorem mem_leakedBits : i ∈ leakedBits kind fs ↔ .leakedBit kind i ∈ fs := by
  rw [leakedBits, mem_filterMap]
  constructor
  · rintro ⟨f, hf, hi⟩
    cases f with
    | leakedBit kind' index =>
      dsimp only at hi
      split_ifs at hi with hkind
      cases hi
      exact hkind ▸ hf
    | _ => cases hi
  · exact fun h ↦ ⟨_, h, by simp⟩

theorem leakedBits_eq_nil (h : ∀ i, .leakedBit kind i ∉ fs) : leakedBits kind fs = [] :=
  eq_nil_iff_forall_not_mem.mpr fun i hi ↦ h i (mem_leakedBits.mp hi)

variable {rebuilt : RebuiltBitmap} {onDisk : List UInt8}

theorem leakedBit_mem_compare {kind' : BitmapKind} :
    .leakedBit kind i ∈ compare rebuilt onDisk start len kind' ↔
      kind = kind' ∧ ∃ l < len, i = start + l ∧ rebuilt.get i = false ∧ bitAt onDisk l = true := by
  rw [compare, mem_filterMap]
  constructor
  · rintro ⟨l, hl, hfound⟩
    cases hget : rebuilt.get (start + l) <;> cases hbit : bitAt onDisk l <;>
      simp only [hget, hbit] at hfound <;> cases hfound
    exact ⟨rfl, l, mem_range.mp hl, rfl, hget, hbit⟩
  · rintro ⟨rfl, l, hl, rfl, hget, hbit⟩
    exact ⟨l, mem_range.mpr hl, by simp only [hget, hbit]⟩

theorem compare_finds (h : f ∈ compare rebuilt onDisk start len kind) :
    ∃ i, f = .missingBit kind i ∨ f = .leakedBit kind i := by
  obtain ⟨l, -, hfound⟩ := mem_filterMap.mp h
  cases hget : rebuilt.get (start + l) <;> cases hbit : bitAt onDisk l <;>
    simp only [hget, hbit] at hfound <;> cases hfound
  · exact ⟨_, .inr rfl⟩
  · exact ⟨_, .inl rfl⟩

/-- The findings of the comparison of the bitmaps. -/
def compareGroups (img : Image) : List Finding :=
  img.bgds.zipIdx.flatMap fun (bgd, g) ↦ img.compareGroup g bgd

theorem compareGroups_finds (img : Image) :
    ∀ f ∈ img.compareGroups, ∃ kind i, f = .missingBit kind i ∨ f = .leakedBit kind i := by
  intro f hf
  obtain ⟨⟨bgd, g⟩, -, hf⟩ := mem_flatMap.mp hf
  rcases mem_append.mp hf with hf | hf
  · exact ⟨_, compare_finds hf⟩
  · exact ⟨_, compare_finds hf⟩

theorem checkLinkCounts_finds (img : Image) :
    ∀ f ∈ img.checkLinkCounts, ∃ ino, f = .pendingDeletion ino ∨ f = .orphanInode ino ∨
      ∃ onDisk observed, f = .linkCount ino onDisk observed := by
  intro f hf
  obtain ⟨info, -, hf⟩ := mem_flatMap.mp hf
  rw [checkLinkCount] at hf
  split_ifs at hf
  · exact ⟨_, .inl (mem_singleton.mp hf)⟩
  · exact ⟨_, .inr (.inl (mem_singleton.mp hf))⟩
  · exact ⟨_, .inr (.inr ⟨_, _, mem_singleton.mp hf⟩)⟩
  · cases hf

theorem check_eq_some (h : img.check = some fs) :
    fs = img.orphanChain.2 ++ ((img.scanAllInodes img.orphanChain.1).2 ++ img.rebuildBlocks.2 ++
      img.bgds.zipIdx.flatMap fun (bgd, g) ↦ img.compareGroup g bgd) ++ img.walkFindings ++
        img.checkLinkCounts := by
  obtain ⟨scanned, hscanned, h₁⟩ := bind_eq_some_iff.mp h
  obtain ⟨root, -, h₂⟩ := bind_eq_some_iff.mp h₁
  rw [scanFindings] at hscanned
  split_ifs at hscanned
  cases hscanned
  exact (some.inj h₂).symm

/-- The findings that a repair goes through: those of the load, and those of the check. -/
def Finds (before img : Image) (found : List Finding) : Prop :=
  ∃ fs, img.check = some fs ∧ found = before.loadFindings ++ fs

theorem exists_finds (h : img.check.isSome = true) : ∃ found, before.Finds img found := by
  obtain ⟨fs, hcheck⟩ := isSome_iff_exists.mp h
  exact ⟨_, fs, hcheck, rfl⟩

section

variable (h : before.Finds img found)

include h

theorem filterMap_findings {sel : Finding → Option α}
    (hsel : ∀ f, f.decides = false → sel f = none) :
    found.filterMap sel = img.rebuildBlocks.2.filterMap sel ++
      img.compareGroups.filterMap sel ++ img.checkLinkCounts.filterMap sel := by
  obtain ⟨fs, hcheck, rfl⟩ := h
  have hload : before.loadFindings.filterMap sel = [] :=
    filterMap_eq_nil_iff.mpr fun f hf ↦ hsel f (before.loadFindings_decides f hf)
  have hplain {fs : List Finding} (hfs : Plain fs) : fs.filterMap sel = [] :=
    filterMap_eq_nil_iff.mpr fun f hf ↦ hsel f (Bool.or_eq_false_iff.mp (hfs f hf)).1
  rw [check_eq_some hcheck]
  simp only [filterMap_append, hload, hplain img.orphanChain_plain,
    hplain (img.scanAllInodes_plain _), hplain img.walkFindings_plain, nil_append, append_nil]
  rfl

theorem mem_findings_iff (hf : f.decides = true) :
    f ∈ found ↔ f ∈ img.rebuildBlocks.2 ∨ f ∈ img.compareGroups ∨
      f ∈ img.checkLinkCounts := by
  have hsel : ∀ f', f'.decides = false → Option.guard (· = f) f' = none := by
    intro f' hf'
    rw [guard_eq_none_iff]
    simp only [decide_eq_false_iff_not]
    rintro rfl
    rw [hf] at hf'
    cases hf'
  have hmem (l : List Finding) : f ∈ l ↔ f ∈ l.filterMap (Option.guard (· = f)) := by simp
  rw [hmem, filterMap_findings h hsel, mem_append, mem_append, ← hmem, ← hmem, ← hmem, or_assoc]

theorem leakedBits_findings : leakedBits kind found = leakedBits kind img.compareGroups := by
  have hclaims : leakedBits kind img.rebuildBlocks.2 = [] := by
    refine leakedBits_eq_nil fun i hi ↦ ?_
    obtain ⟨_, _, _, heq⟩ := img.rebuildBlocks_finds _ hi
    cases heq
  have hlinks : leakedBits kind img.checkLinkCounts = [] := by
    refine leakedBits_eq_nil fun i hi ↦ ?_
    obtain ⟨_, heq | heq | ⟨_, _, heq⟩⟩ := img.checkLinkCounts_finds _ hi <;> cases heq
  have hfound : leakedBits kind found = leakedBits kind img.rebuildBlocks.2 ++
      leakedBits kind img.compareGroups ++ leakedBits kind img.checkLinkCounts :=
    filterMap_findings h fun f hf ↦ by cases f <;> first | rfl | cases hf
  rw [hfound, hclaims, hlinks, nil_append, append_nil]

/-- **Leaked bits** are set on disk and not in the rebuilt bitmap. -/
theorem mem_leakedBits_iff :
    i ∈ leakedBits kind found ↔
      ∃ g bgd l, img.bgds[g]? = some bgd ∧ l < img.groupLen kind g ∧
        i = g * img.perGroup kind + l ∧ (img.rebuilt kind).get i = false ∧
        bitAt (img.readBlock (bitmapBlock kind bgd)) l = true := by
  rw [leakedBits_findings h, mem_leakedBits]
  simp only [compareGroups, mem_flatMap, compareGroup, mem_append, leakedBit_mem_compare]
  constructor
  · rintro ⟨⟨bgd, g⟩, hbgd, ⟨rfl, l, hl⟩ | ⟨rfl, l, hl⟩⟩
    · exact ⟨g, bgd, l, mem_zipIdx_iff_getElem?.mp hbgd, hl⟩
    · exact ⟨g, bgd, l, mem_zipIdx_iff_getElem?.mp hbgd, hl⟩
  · rintro ⟨g, bgd, l, hbgd, hl⟩
    refine ⟨(bgd, g), mem_zipIdx_iff_getElem?.mpr hbgd, ?_⟩
    cases kind with
    | block => exact .inl ⟨rfl, l, hl⟩
    | inode => exact .inr ⟨rfl, l, hl⟩

/-- Orphans are found when the links are counted. -/
theorem mem_findings_orphan_iff {ino : ℕ} (hf : f = .pendingDeletion ino ∨ f = .orphanInode ino) :
    f ∈ found ↔ f ∈ img.checkLinkCounts := by
  have hclaims : f ∉ img.rebuildBlocks.2 := by
    intro hmem
    obtain ⟨_, _, _, rfl⟩ := img.rebuildBlocks_finds _ hmem
    rcases hf with hf | hf <;> cases hf
  have hcompare : f ∉ img.compareGroups := by
    intro hmem
    obtain ⟨_, _, rfl | rfl⟩ := img.compareGroups_finds _ hmem <;>
      rcases hf with hf | hf <;> cases hf
  have hdecides : f.decides = true := by rcases hf with rfl | rfl <;> rfl
  rw [mem_findings_iff h hdecides]
  simp only [hclaims, hcompare, false_or]

/-- **Deleted inodes** have been scanned, and no entry names them. -/
theorem mem_deletedInfos {accepted : Bool} {info : InodeInfo}
    (hinfo : info ∈ deletedInfos img.infos found accepted) :
    info ∈ img.infos ∧ img.observedLinks info.ino = 0 := by
  obtain ⟨ino, hino, hfind⟩ := mem_filterMap.mp hinfo
  obtain ⟨hmem, rfl⟩ := findInfo_eq_some hfind
  refine ⟨hmem, ?_⟩
  have hfound : .pendingDeletion info.ino ∈ found ∨
      .orphanInode info.ino ∈ found := by
    rcases mem_append.mp hino with hino | hino
    · obtain ⟨f, hf, heq⟩ := mem_filterMap.mp hino
      cases f <;> cases heq
      exact .inl hf
    · split_ifs at hino
      · obtain ⟨f, hf, heq⟩ := mem_filterMap.mp hino
        cases f <;> cases heq
        exact .inr hf
      · cases hino
  rw [mem_findings_orphan_iff h (.inl rfl), mem_findings_orphan_iff h (.inr rfl)] at hfound
  exact (orphan_of_mem_checkLinkCounts hfound.symm).2

end

end Image

/-! ## Rebuilt bits -/

theorem RebuiltBitmap.get_foldl_set (l : List ℕ) (bm : RebuiltBitmap) (i : ℕ) :
    (l.foldl .set bm).get i = true ↔ bm.get i = true ∨ i < bm.len ∧ i ∈ l := by
  induction l generalizing bm with
  | nil => simp
  | cons x l ih =>
    rw [foldl_cons, ih, RebuiltBitmap.len_set, RebuiltBitmap.get_set]
    simp only [Bool.or_eq_true, Bool.and_eq_true, decide_eq_true_eq, mem_cons]
    tauto

theorem RebuiltBitmap.len_foldl_set (l : List ℕ) (bm : RebuiltBitmap) :
    (l.foldl .set bm).len = bm.len := by
  induction l generalizing bm with
  | nil => rfl
  | cons x l ih => rw [foldl_cons, ih, RebuiltBitmap.len_set]

section Claims

variable {l : List (ℕ × ℕ)} {owner : ℕ → Option ℕ} {bm : RebuiltBitmap} {b : ℕ}

/-- Every claimed block that has no owner yet is marked, and what was marked stays so. -/
theorem get_applyClaims (hb : b < bm.len)
    (h : bm.get b = true ∨ owner b = none ∧ b ∈ l.map Prod.fst) :
    (applyClaims l owner bm).1.get b = true := by
  induction l generalizing owner bm with
  | nil => exact h.resolve_right nofun
  | cons claim l ih =>
    rw [applyClaims]
    cases hown : owner claim.1 with
    | some prev =>
      refine ih hb (h.imp_right fun ⟨hnone, h⟩ ↦ ?_)
      have hne : b ≠ claim.1 := by
        rintro rfl
        cases hnone.symm.trans hown
      exact ⟨by rwa [update_of_ne hne], (mem_cons.mp h).resolve_left hne⟩
    | none =>
      refine ih (by rwa [RebuiltBitmap.len_set]) ?_
      rw [RebuiltBitmap.get_set]
      by_cases heq : b = claim.1
      · exact .inl (by simp [heq, heq ▸ hb])
      · rcases h with h | ⟨hnone, h⟩
        · exact .inl (by rw [h, Bool.true_or])
        · exact .inr ⟨by rwa [update_of_ne heq], (mem_cons.mp h).resolve_left heq⟩

theorem mem_doubleClaimed {fs : List Finding} :
    b ∈ Image.doubleClaimed fs ↔ ∃ prev ino, .doubleClaimed b prev ino ∈ fs := by
  rw [Image.doubleClaimed, mem_filterMap]
  constructor
  · rintro ⟨f, hf, heq⟩
    cases f <;> cases heq
    exact ⟨_, _, hf⟩
  · exact fun ⟨prev, ino, h⟩ ↦ ⟨_, h, rfl⟩

/-- A block is not claimed twice, or claimed when it has an owner, without a finding. -/
theorem doubleClaimed_of_count
    (h : 2 ≤ (l.map Prod.fst).count b + if owner b = none then 0 else 1) :
    b ∈ Image.doubleClaimed (applyClaims l owner bm).2 := by
  induction l generalizing owner bm with
  | nil =>
    rw [map_nil, count_nil] at h
    split_ifs at h <;> omega
  | cons claim l ih =>
    rw [map_cons, count_cons] at h
    rw [applyClaims]
    by_cases heq : claim.1 = b
    · rw [if_pos (by simp [heq]), ← heq] at h
      rw [← heq]
      cases hown : owner claim.1 with
      | some prev => exact mem_doubleClaimed.mpr ⟨prev, claim.2, mem_cons_self⟩
      | none =>
        rw [hown, if_pos rfl] at h
        exact heq ▸ ih (by rw [← heq, update_self, if_neg (some_ne_none _)]; exact h)
    · rw [if_neg (by simpa using heq), add_zero] at h
      have hrest (bm : RebuiltBitmap) : b ∈ Image.doubleClaimed
          (applyClaims l (update owner claim.1 (some claim.2)) bm).2 :=
        ih (by rwa [update_of_ne (Ne.symm heq)])
      cases owner claim.1 with
      | some prev =>
        obtain ⟨prev', ino, hmem⟩ := mem_doubleClaimed.mp (hrest bm)
        exact mem_doubleClaimed.mpr ⟨prev', ino, mem_cons_of_mem _ hmem⟩
      | none => exact hrest _

end Claims

theorem map_fst_claims (infos : List InodeInfo) :
    (claims infos).map Prod.fst = infos.flatMap InodeInfo.blocks := by
  rw [claims, map_flatMap]
  refine congrArg (List.flatMap · infos) (funext fun info ↦ ?_)
  rw [List.map_map]
  exact List.map_id _

variable {info' : InodeInfo}

theorem count_flatMap_two {infos : List InodeInfo} {info : InodeInfo} {b : ℕ} (h : info ∈ infos)
    (h' : info' ∈ infos) (hne : info ≠ info') (hb : b ∈ info.blocks)
    (hb' : b ∈ info'.blocks) : 2 ≤ (infos.flatMap InodeInfo.blocks).count b := by
  obtain ⟨s, t, rfl⟩ := append_of_mem h
  have hrest : b ∈ (s ++ t).flatMap InodeInfo.blocks := by
    refine mem_flatMap.mpr ⟨info', ?_, hb'⟩
    rcases mem_append.mp h' with h' | h'
    · exact mem_append_left t h'
    · exact mem_append_right s ((mem_cons.mp h').resolve_left hne.symm)
  have h₁ := count_pos_iff.mpr hb
  have h₂ := count_pos_iff.mpr hrest
  simp only [flatMap_append, flatMap_cons, count_append] at h₂ ⊢
  omega

namespace Image

variable {img : Image} {b ino n : ℕ} {area node : List UInt8} {es : List (ℕ × ℕ)} {info : InodeInfo}
  {r : InodeRecord} {before img' : Image} {found : List Finding} {answers : Answers}

theorem get_rebuildBlocks (hb : b < img.totalBlocks)
    (h : b ∈ img.staticBlocks ∨ ∃ info ∈ img.infos, b ∈ info.blocks) :
    img.rebuildBlocks.1.get b = true := by
  have hlen : (img.seedStaticMetadata (.new img.totalBlocks)).len = img.totalBlocks :=
    RebuiltBitmap.len_foldl_set _ _
  refine get_applyClaims (hlen.symm ▸ hb) ?_
  rcases h with h | ⟨info, hinfo, h⟩
  · exact .inl ((RebuiltBitmap.get_foldl_set _ _ _).mpr (.inr ⟨hb, h⟩))
  · rw [map_fst_claims]
    exact .inr ⟨rfl, mem_flatMap.mpr ⟨info, hinfo, h⟩⟩

theorem get_rebuildInodes {i : ℕ} :
    img.rebuildInodes.get i = true ↔
      i < img.totalInodes ∧ ∃ info ∈ img.infos, info.ino - 1 = i := by
  rw [rebuildInodes, RebuiltBitmap.get_foldl_set, List.mem_map]
  have hnew : (RebuiltBitmap.new img.totalInodes).get i = false := Bool.and_false _
  rw [hnew]
  exact or_iff_right Bool.false_ne_true

/-! ## Blocks of an inode -/

variable {is : List ℕ}

/-- The extents of a leaf are in the filesystem, and none is dropped without a finding. -/
theorem collectLeafExtents_spec {totalBlocks : ℕ}
    (h : (collectLeafExtents totalBlocks ino node is).1 = some es) :
    (∀ e ∈ es, e.1 + e.2 ≤ totalBlocks) ∧
      ((∀ i, .extentRange ino i ∉ (collectLeafExtents totalBlocks ino node is).2) →
        ∀ i ∈ is, ∃ e, readNodeEntry node i = some e ∧ (e.block, e.length) ∈ es) := by
  induction is generalizing es with
  | nil =>
    cases h
    exact ⟨nofun, fun _ ↦ nofun⟩
  | cons i is ih =>
    rw [collectLeafExtents] at h ⊢
    split at h
    · cases h
    rename_i e he
    dsimp only at h ⊢
    split_ifs at h ⊢ with hlen hlast
    · exact ⟨(ih h).1, fun hrange ↦ absurd mem_cons_self (hrange i)⟩
    · obtain ⟨rest, hrest, rfl⟩ := map_eq_some_iff.mp h
      obtain ⟨hle, hclaimed⟩ := ih hrest
      refine ⟨forall_mem_cons.mpr ⟨not_lt.mp hlast, hle⟩, fun hrange ↦
        forall_mem_cons.mpr ⟨⟨e, he, mem_cons_self⟩, fun j hj ↦ ?_⟩⟩
      obtain ⟨e', he', hmem⟩ := hclaimed hrange j hj
      exact ⟨e', he', mem_cons_of_mem _ hmem⟩

/-- The leaf block behind an index entry, and the extents in it. -/
def LeafClaimed (img : Image) (es : List (ℕ × ℕ)) (b : ℕ) : Prop :=
  (b, 1) ∈ es ∧ ∃ hdr, readNodeHeader (img.readBlock b) = some hdr ∧
    ∀ j < hdr.entries.toNat, ∃ e, readNodeEntry (img.readBlock b) j = some e ∧
      (e.block, e.length) ∈ es

theorem LeafClaimed.mono {es' : List (ℕ × ℕ)} (h : img.LeafClaimed es b) (hsub : es ⊆ es') :
    img.LeafClaimed es' b := by
  obtain ⟨hb, hdr, hhdr, hes⟩ := h
  refine ⟨hsub hb, hdr, hhdr, fun j hj ↦ ?_⟩
  obtain ⟨e, he, hmem⟩ := hes j hj
  exact ⟨e, he, hsub hmem⟩

theorem collectLeaf_spec {i : ℕ} (h : (img.collectLeaf ino i area).1 = some es) :
    (∀ e ∈ es, e.1 + e.2 ≤ img.totalBlocks) ∧
      ((∀ i', .extentRange ino i' ∉ (img.collectLeaf ino i area).2) →
        ∃ idx, readNodeEntry area i = some idx ∧ img.LeafClaimed es idx.block) := by
  rw [collectLeaf] at h ⊢
  split at h
  · cases h
  rename_i idx hidx
  dsimp only at h ⊢
  split_ifs at h ⊢ with hout
  split at h
  · cases h
  rename_i hdr hhdr
  split_ifs at h ⊢ with hbad
  obtain ⟨rest, hrest, rfl⟩ := map_eq_some_iff.mp h
  obtain ⟨hle, hclaimed⟩ := collectLeafExtents_spec hrest
  refine ⟨forall_mem_cons.mpr ⟨by omega, hle⟩, fun hrange ↦
    ⟨idx, hidx, mem_cons_self, hdr, hhdr, fun j hj ↦ ?_⟩⟩
  obtain ⟨e, he, hmem⟩ := hclaimed hrange j (mem_range.mpr hj)
  exact ⟨e, he, mem_cons_of_mem _ hmem⟩

theorem collectTree_spec (h : (img.collectTree ino area is).1 = some es) :
    (∀ e ∈ es, e.1 + e.2 ≤ img.totalBlocks) ∧
      ((∀ i, .extentRange ino i ∉ (img.collectTree ino area is).2) →
        ∀ i ∈ is, ∃ idx, readNodeEntry area i = some idx ∧ img.LeafClaimed es idx.block) := by
  induction is generalizing es with
  | nil =>
    cases h
    exact ⟨nofun, fun _ ↦ nofun⟩
  | cons i is ih =>
    rw [collectTree] at h ⊢
    match hl : img.collectLeaf ino i area with
    | (none, fs) =>
      rw [hl] at h
      cases h
    | (some es', fs) =>
      rw [hl] at h
      obtain ⟨rest, hrest, rfl⟩ := map_eq_some_iff.mp h
      obtain ⟨hle, hone⟩ := collectLeaf_spec (congrArg Prod.fst hl)
      rw [hl] at hone
      obtain ⟨hrestle, hmany⟩ := ih hrest
      refine ⟨forall_mem_append.mpr ⟨hle, hrestle⟩, fun hrange ↦ ?_⟩
      obtain ⟨idx, hidx, hclaimed⟩ := hone fun j hj ↦ hrange j (mem_append_left _ hj)
      refine forall_mem_cons.mpr
        ⟨⟨idx, hidx, hclaimed.mono (subset_append_left _ _)⟩, fun j hj ↦ ?_⟩
      obtain ⟨idx', hidx', hclaimed'⟩ := hmany (fun j hj ↦ hrange j (mem_append_right _ hj)) j hj
      exact ⟨idx', hidx', hclaimed'.mono (subset_append_right _ _)⟩

theorem mem_of_readEntries {es : List NodeEntry} (h : readEntries node n = .ok es) {e : NodeEntry}
    (he : e ∈ es) : ∃ i < n, readNodeEntry node i = some e := by
  obtain ⟨i, hi, heq⟩ := exists_of_mem_mapM h he
  refine ⟨i, mem_range.mp hi, ?_⟩
  split at heq
  · rename_i hread
    cases heq
    exact hread
  · cases heq

theorem mem_of_readLeafEntries {capacity : ℕ} {map : ExtentMap}
    (h : readLeafEntries node n capacity = .ok map) (hb : b ∈ map.physical) :
    ∃ i < n, ∃ e, readNodeEntry node i = some e ∧ b ∈ range' e.block e.length := by
  rw [readLeafEntries] at h
  split_ifs at h
  obtain ⟨es, hes, rfl⟩ := map_eq_ok.mp h
  obtain ⟨x, hx, hb⟩ := mem_flatMap.mp hb
  obtain ⟨e, he, rfl⟩ := List.mem_map.mp hx
  obtain ⟨i, hi, hread⟩ := mem_of_readEntries hes he
  exact ⟨i, hi, e, hread, hb⟩

theorem exists_of_mem_physical {x : Except Fault ExtentMap}
    (hb : b ∈ ExtentMap.physical (x.toOption.getD [])) : ∃ map, x = .ok map ∧ b ∈ map.physical := by
  cases x with
  | error e => cases hb
  | ok map => exact ⟨map, rfl, hb⟩

theorem mem_blocks_of_extent (h : (start, len) ∈ info.extents)
    (hb : b ∈ range' start len) : b ∈ info.blocks := mem_flatMap.mpr ⟨_, h, hb⟩

theorem mem_blocks_of_tree {index : List NodeEntry}
    {leaves : List ExtentMap}
    (hclaimed : ∀ i < n, ∃ idx, readNodeEntry area i = some idx ∧
      img.LeafClaimed info.extents idx.block)
    (hindex : readEntries area n = .ok index)
    (hleaves : index.mapM (fun e ↦ loadLeaf (img.readBlock e.block)) = .ok leaves)
    (hb : b ∈ ExtentMap.physical leaves.flatten) : b ∈ info.blocks := by
  obtain ⟨x, hx, hb⟩ := mem_flatMap.mp hb
  obtain ⟨leaf, hleaf, hx⟩ := mem_flatten.mp hx
  obtain ⟨e, he, hload⟩ := exists_of_mem_mapM hleaves hleaf
  obtain ⟨i, hi, hread⟩ := mem_of_readEntries hindex he
  obtain ⟨idx, hidx, -, hdr, hhdr, hentries⟩ := hclaimed i hi
  rw [hread] at hidx
  cases hidx
  rw [loadLeaf, hhdr] at hload
  dsimp only at hload
  split_ifs at hload
  obtain ⟨j, hj, e', he', hb⟩ :=
    mem_of_readLeafEntries hload (mem_flatMap.mpr ⟨x, hx, hb⟩)
  obtain ⟨e'', he'', hmem⟩ := hentries j hj
  rw [he'] at he''
  cases he''
  exact mem_blocks_of_extent hmem hb

/-- **An inode's blocks are claimed**, if it is accepted and no extent of it is dropped. -/
theorem mem_blocks_of_owned {chain : List ℕ} (hinfo : (img.verifyInode chain ino r).1 = some info)
    (hrange : ∀ i, .extentRange ino i ∉ (img.verifyInode chain ino r).2)
    (hb : b ∈ (img.toDiskInode r).ownedBlocks) : b ∈ info.blocks := by
  obtain ⟨extents, hextents, rfl⟩ := map_eq_some_iff.mp hinfo
  change (img.collectExtents ino r).1 = some extents at hextents
  replace hrange : ∀ i, .extentRange ino i ∉ (img.collectExtents ino r).2 :=
    fun i hi ↦ hrange i (mem_append_right _ hi)
  cases hinline : r.isInlineData with
  | true =>
    simp [DiskInode.ownedBlocks, DiskInode.extentsOrNone, DiskInode.loadExtentMap,
      DiskInode.treeBlocks, toDiskInode, hinline, Except.toOption, ExtentMap.physical] at hb
  | false =>
    rw [collectExtents, hinline, if_neg Bool.false_ne_true] at hextents hrange
    simp only [DiskInode.ownedBlocks, DiskInode.extentsOrNone, DiskInode.loadExtentMap,
      DiskInode.treeBlocks, toDiskInode, hinline, Bool.false_eq_true, if_false] at hb
    rw [loadExtentMap, treeBlocks] at hb
    split at hextents
    · cases hextents
    rename_i hdr hhdr
    rw [hhdr] at hrange hb
    dsimp only at hextents hrange hb
    split_ifs at hextents hrange with hmagic hdeep hcount hmax hdepth
    · rw [if_neg hmagic, if_pos hdepth, if_pos (.inr hdepth)] at hb
      have hclaimed := (collectLeafExtents_spec hextents).2 hrange
      rcases mem_append.mp hb with hb | hb
      · obtain ⟨map, hmap, hb⟩ := exists_of_mem_physical hb
        obtain ⟨i, hi, e, he, hb⟩ := mem_of_readLeafEntries hmap hb
        obtain ⟨e', he', hmem⟩ := hclaimed i (mem_range.mpr hi)
        rw [he] at he'
        cases he'
        exact mem_blocks_of_extent hmem hb
      · cases hb
    · have hone : hdr.depth = 1 := by
        have hne : hdr.depth.toNat ≠ 0 := fun h ↦ hdepth (UInt16.toNat_inj.mp h)
        have hle : ¬ 1 < hdr.depth.toNat := fun h ↦ hdeep (UInt16.lt_iff_toNat_lt.mpr h)
        exact UInt16.toNat_inj.mp (show hdr.depth.toNat = 1 by omega)
      rw [if_neg hmagic, if_neg hdepth, if_pos hone, if_neg (not_or.mpr ⟨hmagic, hdepth⟩),
        min_eq_left (not_lt.mp hcount)] at hb
      have hclaimed := (collectTree_spec hextents).2 fun i hi ↦ hrange i (mem_cons_of_mem _ hi)
      replace hclaimed : ∀ i < hdr.entries.toNat, ∃ idx, readNodeEntry r.dataArea i = some idx ∧
          img.LeafClaimed extents idx.block := fun i hi ↦ hclaimed i (mem_range.mpr hi)
      rcases mem_append.mp hb with hb | hb
      · obtain ⟨map, hmap, hb⟩ := exists_of_mem_physical hb
        obtain ⟨index, hindex, hmap⟩ := bind_eq_ok.mp hmap
        obtain ⟨leaves, hleaves, hmap⟩ := bind_eq_ok.mp hmap
        cases hmap
        exact mem_blocks_of_tree hclaimed hindex hleaves hb
      · cases hindex : readEntries r.dataArea hdr.entries.toNat with
        | error e =>
          rw [hindex] at hb
          cases hb
        | ok index =>
          rw [hindex] at hb
          obtain ⟨e, he, rfl⟩ := List.mem_map.mp hb
          obtain ⟨i, hi, hread⟩ := mem_of_readEntries hindex he
          obtain ⟨idx, hidx, hleaf, -⟩ := hclaimed i hi
          rw [hread] at hidx
          cases hidx
          exact mem_blocks_of_extent hleaf (mem_range'_1.mpr ⟨le_rfl, Nat.lt_succ_self _⟩)

/-! ## Repairs -/

/-- The bit of an inode is set. -/
def Allocated (img : Image) (ino : ℕ) : Prop :=
  1 ≤ ino ∧ ino ≤ img.totalInodes ∧ img.bit .inode (ino - 1) = true

theorem exists_group (halloc : img.Allocated ino) (hr : img.readInode ino = some r) :
    ∃ g bgd k, img.bgds[g]? = some bgd ∧ k < img.groupInodes g ∧
      ino = g * img.inodesPerGroup + k + 1 ∧
      bitAt (img.readBlock bgd.inodeBitmapBlock.toNat) k = true ∧
      r = img.recordAt (img.tableSlot bgd k) := by
  obtain ⟨hpos, hle, hbit⟩ := halloc
  obtain ⟨slot, hslot, rfl⟩ := map_eq_some_iff.mp hr
  rw [inodeLocation] at hslot
  split_ifs at hslot with hno
  obtain ⟨bgd, hbgd, rfl⟩ := map_eq_some_iff.mp hslot
  rw [bit, bitmaps, getElem?_map, perGroup, hbgd] at hbit
  have hlt : (ino - 1) % img.inodesPerGroup < img.inodesPerGroup := Nat.mod_lt _ (by omega)
  have hsplit := Nat.div_add_mod' (ino - 1) img.inodesPerGroup
  refine ⟨_, bgd, _, hbgd, ?_, by omega, hbit, rfl⟩
  exact Nat.lt_min.mpr ⟨hlt, by omega⟩

/-- `verify_inode` accepts an inode and drops none of its extents. -/
def ReadWhole (img : Image) (ino : ℕ) (r : InodeRecord) : Prop :=
  (img.verifyInode img.orphanChain.1 ino r).1 ≠ none ∧
    ∀ i, .extentRange ino i ∉ (img.verifyInode img.orphanChain.1 ino r).2

theorem readWhole_of_collectExtents (hsome : (img.collectExtents ino r).1 ≠ none)
    (hrange : ∀ i, .extentRange ino i ∉ (img.collectExtents ino r).2) : img.ReadWhole ino r := by
  refine ⟨fun h ↦ hsome (map_eq_none_iff.mp h), fun i hi ↦ ?_⟩
  rcases mem_append.mp hi with hi | hi
  · rcases mem_append.mp hi with hi | hi <;> split_ifs at hi <;> simp at hi
  · exact hrange i hi

/-- An inode that is read whole is scanned, with all its blocks. -/
theorem exists_info_of_readWhole (halloc : img.Allocated ino) (hr : img.readInode ino = some r)
    (hwhole : img.ReadWhole ino r) :
    ∃ info ∈ img.infos, info.ino = ino ∧
      ∀ b ∈ (img.toDiskInode r).ownedBlocks, b ∈ info.blocks := by
  obtain ⟨hsome, hrange⟩ := hwhole
  obtain ⟨info, hinfo⟩ := ne_none_iff_exists'.mp hsome
  obtain ⟨g, bgd, k, hbgd, hk, rfl, hbit, rfl⟩ := exists_group halloc hr
  refine ⟨info, mem_infos_iff.mpr ⟨g, bgd, k, hbgd, hk, hbit, hinfo⟩, ?_,
    fun b hb ↦ mem_blocks_of_owned hinfo hrange hb⟩
  obtain ⟨extents, -, rfl⟩ := map_eq_some_iff.mp hinfo
  rfl

theorem unused_of_leaked (hcheck : before.Finds img found) (hb : b ∈ leakedBits .block found) :
    b ∉ img.staticBlocks ∧ ∀ info ∈ img.infos, b ∉ info.blocks := by
  obtain ⟨g, bgd, l, -, hl, rfl, hget, -⟩ := (mem_leakedBits_iff hcheck).mp hb
  have hlt : g * img.perGroup .block + l < img.totalBlocks := by
    change l < min (g * img.blocksPerGroup + img.blocksPerGroup) img.totalBlocks
      - g * img.blocksPerGroup at hl
    rw [perGroup]
    omega
  refine ⟨fun hmem ↦ ?_, fun info hinfo hmem ↦ ?_⟩
  · rw [rebuilt, get_rebuildBlocks hlt (.inl hmem)] at hget
    cases hget
  · rw [rebuilt, get_rebuildBlocks hlt (.inr ⟨info, hinfo, hmem⟩)] at hget
    cases hget

/-- Double claims are found when the claims are gone through. -/
theorem mem_doubleClaimed_iff (hcheck : before.Finds img found) :
    b ∈ doubleClaimed found ↔ b ∈ doubleClaimed img.rebuildBlocks.2 := by
  rw [mem_doubleClaimed, mem_doubleClaimed]
  refine exists_congr fun prev ↦ exists_congr fun ino ↦ ?_
  rw [mem_findings_iff hcheck rfl]
  refine or_iff_left (not_or.mpr ⟨fun hmem ↦ ?_, fun hmem ↦ ?_⟩)
  · obtain ⟨_, _, heq | heq⟩ := img.compareGroups_finds _ hmem <;> cases heq
  · obtain ⟨_, heq | heq | ⟨_, _, heq⟩⟩ := img.checkLinkCounts_finds _ hmem <;> cases heq

theorem doubleClaimed_of_two (hcheck : before.Finds img found) (h : info ∈ img.infos)
    (h' : info' ∈ img.infos) (hne : info ≠ info') (hb : b ∈ info.blocks) (hb' : b ∈ info'.blocks) :
    b ∈ doubleClaimed found := by
  have hcount := count_flatMap_two h h' hne hb hb'
  rw [← map_fst_claims] at hcount
  exact (mem_doubleClaimed_iff hcheck).mpr (doubleClaimed_of_count hcount)

/-- Nothing is freed for findings that cannot be fixed. -/
theorem freedBits_eq_nil (infos : List InodeInfo) (answers : Answers)
    (h : found.any Finding.fixable = false) : freedBits infos found answers = [] := by
  have hsel {sel : Finding → Option ℕ} (hsel : ∀ f, f.fixable = false → sel f = none) :
      found.filterMap sel = [] :=
    filterMap_eq_nil_iff.mpr fun f hf ↦
      hsel f (Bool.eq_false_of_not_eq_true (List.any_eq_false.mp h f hf))
  have hleaked (kind : BitmapKind) : leakedBits kind found = [] :=
    hsel fun f hf ↦ by cases f <;> first | rfl | cases hf
  have hpending : pendingInodes found = [] :=
    hsel fun f hf ↦ by cases f <;> first | rfl | cases hf
  have horphans : leakedInodes found = [] :=
    hsel fun f hf ↦ by cases f <;> first | rfl | cases hf
  simp [freedBits, leakedOf, deletedInfos, hleaked, hpending, horphans]

/-- A repair does nothing, if nothing that was found can be fixed, or goes through its passes. -/
theorem repair_cases (hcheck : before.Finds img found) (h : before.repair img answers = some img') :
    found.any Finding.fixable = false ∧ img' = img ∨
      img.applyRepairs img.infos found answers = some img' := by
  obtain ⟨fs, hcheck, rfl⟩ := hcheck
  rw [repair, hcheck, Option.bind_eq_bind, Option.bind_some] at h
  dsimp only at h
  split_ifs at h with hfixable
  · exact .inr h
  · exact .inl ⟨Bool.eq_false_of_not_eq_true hfixable, (some.inj h).symm⟩

theorem WellLaid.frees_repair (hlaid : img.WellLaid) (hcheck : before.Finds img found)
    (h : before.repair img answers = some img') :
    Frees (freedBits img.infos found answers) img img' := by
  rcases repair_cases hcheck h with ⟨hfixable, rfl⟩ | h
  · rw [freedBits_eq_nil _ _ hfixable]
    exact (Cleared.refl _).toFrees
  · exact hlaid.frees_applyRepairs h

/-- A block that the scan has listed for an inode is freed only with the inode. -/
theorem freed_of_listed (hcheck : before.Finds img found) (hinfo : info ∈ img.infos)
    (hb : b ∈ info.blocks) (hfreed : (.block, b) ∈ freedBits img.infos found answers) :
    (.inode, info.ino - 1) ∈ freedBits img.infos found answers := by
  rcases mem_freedBits.mp hfreed with hleaked | hleaked | ⟨info', hinfo', hbits⟩
  · exact absurd hb ((unused_of_leaked hcheck (mem_leakedOf.mp hleaked).2.2).2 info hinfo)
  · cases (mem_leakedOf.mp hleaked).2.1
  · obtain ⟨-, hb', hsingle⟩ | hkind := mem_orphanBits.mp hbits
    swap
    · cases hkind
    by_cases heq : info' = info
    · exact mem_freedBits.mpr (.inr (.inr ⟨info', hinfo', mem_orphanBits.mpr (.inr (heq ▸ rfl))⟩))
    · have hscanned := (mem_deletedInfos hcheck hinfo').1
      exact absurd (doubleClaimed_of_two hcheck hscanned hinfo heq hb' hb) hsingle

/-- An inode that the scan has listed loses its bit only if no entry names it. -/
theorem nolinks_of_freed (hcheck : before.Finds img found) (hinfo : info ∈ img.infos)
    (hfreed : (.inode, info.ino - 1) ∈ freedBits img.infos found answers) :
    img.observedLinks info.ino = 0 := by
  have hino := readInode_of_mem_infos hinfo
  rcases mem_freedBits.mp hfreed with hleaked | hleaked | ⟨info', hinfo', hbits⟩
  · cases (mem_leakedOf.mp hleaked).2.1
  · obtain ⟨_, _, _, _, _, _, hget, _⟩ :=
      (mem_leakedBits_iff hcheck).mp (mem_leakedOf.mp hleaked).2.2
    have hset : img.rebuildInodes.get (info.ino - 1) = true :=
      get_rebuildInodes.mpr ⟨by omega, info, hinfo, rfl⟩
    rw [rebuilt, hset] at hget
    cases hget
  · obtain ⟨hscanned, hzero⟩ := mem_deletedInfos hcheck hinfo'
    rcases mem_orphanBits.mp hbits with ⟨hkind, -⟩ | heq
    · cases hkind
    · have hino' := readInode_of_mem_infos hscanned
      have hpred := (Prod.mk.inj heq).2
      rwa [show info.ino = info'.ino by omega]

/-- The superblock in memory is the one on disk. -/
def SbOnDisk (img : Image) : Prop :=
  EfsSuperblock.ofBytes (img.disk.read 4096 EfsSuperblock.size) = img.sb

/-- The descriptors in memory are those on disk. -/
def TableOnDisk (img : Image) : Prop := loadBgds img.disk img.sb = img.bgds

theorem wellLaid_of_load {d : Disk} (h : load d = some img) (hstatic : img.staticBlocks.Nodup) :
    img.WellLaid ∧ img.SbOnDisk ∧ img.TableOnDisk := by
  rw [load] at h
  split_ifs at h with hvalid
  cases h
  exact ⟨⟨hvalid, by rw [loadBgds, length_map, length_range], hstatic⟩, rfl, rfl⟩

theorem WellLaid.exists_applyRepairs (hlaid : img.WellLaid) (hgroups : img.blocksPerGroup ≠ 0)
    (infos : List InodeInfo) (findings : List Finding) (answers : Answers) :
    ∃ img', img.applyRepairs infos findings answers = some img' := by
  have hgeo := (hlaid.cleared_firstPasses findings answers).geometry
  have horphans : ∃ s, (img.firstPasses findings answers).repairOrphans infos findings
      answers.orphans = some s := by
    rw [repairOrphans]
    rw [if_neg fun h ↦ hgroups ((blocksPerGroup_congr hgeo).symm.trans h.1)]
    exact ⟨_, rfl⟩
  obtain ⟨s, hs⟩ := horphans
  exact ⟨_, applyRepairs_eq_some.mpr ⟨s, hs, rfl⟩⟩

theorem repair_eq (hcheck : before.Finds img found) (hfixable : found.any Finding.fixable = true) :
    before.repair img answers = img.applyRepairs img.infos found answers := by
  obtain ⟨fs, hcheck, rfl⟩ := hcheck
  rw [repair, hcheck]
  exact if_pos hfixable

/-- A block of an orphan that no other inode claims is freed. -/
theorem exists_repair_of_orphan (hlaid : img.WellLaid) (hgroups : img.blocksPerGroup ≠ 0)
    (hcheck : img.check.isSome = true) (hfound : .orphanInode info.ino ∈ img.checkLinkCounts)
    (hinfo : findInfo img.infos info.ino = some info) (hb : b ∈ info.blocks)
    (hsingle : b ∉ doubleClaimed img.rebuildBlocks.2) :
    ∃ img', before.repair img .yes = some img' ∧ img'.bit .block b = false := by
  obtain ⟨found, hcheck⟩ : ∃ found, before.Finds img found := exists_finds hcheck
  have hfinding : .orphanInode info.ino ∈ found :=
    (mem_findings_iff hcheck rfl).mpr (.inr (.inr hfound))
  have hdeleted : info ∈ deletedInfos img.infos found true := by
    refine mem_filterMap.mpr ⟨info.ino, mem_append_right _ ?_, hinfo⟩
    exact mem_filterMap.mpr ⟨_, hfinding, rfl⟩
  obtain ⟨img', happly⟩ := hlaid.exists_applyRepairs hgroups img.infos found .yes
  refine ⟨img', ?_, ?_⟩
  · rw [repair_eq hcheck (List.any_eq_true.mpr ⟨_, hfinding, rfl⟩), happly]
  · rw [← Bool.not_eq_true, (hlaid.frees_applyRepairs happly).bit_iff]
    refine fun h ↦ h.2 (mem_freedBits.mpr (.inr (.inr ⟨info, hdeleted, mem_orphanBits.mpr
      (.inl ⟨rfl, hb, ?_⟩)⟩)))
    rwa [mem_doubleClaimed_iff hcheck]

def sealSb (sb : EfsSuperblock) : EfsSuperblock := { sb with checksum := sb.checksumOf }

def sealBgd (bgd : EfsBlockGroupDesc) : EfsBlockGroupDesc :=
  { bgd with checksum := bgdChecksum bgd }

/-- The superblock of one group of 16 blocks and 8 inodes. -/
def smallSb (freeBlocks freeInodes : UInt64) : EfsSuperblock :=
  sealSb { EfsSuperblock.ofBytes [] with
    magic := efsMagic, version := efsVersion, totalBlocks := 16, totalInodes := 8,
    freeBlocks := freeBlocks, freeInodes := freeInodes, blockSizeLog2 := 12, blocksPerGroup := 16,
    inodesPerGroup := 8, inodeSize := 256, blockGroupCount := 1 }

/-- The bitmaps are in blocks 5 and 6, the inode table in block 7. -/
def smallBgd (freeInodes : UInt64) : EfsBlockGroupDesc :=
  sealBgd { EfsBlockGroupDesc.ofBytes [] with
    blockBitmapBlock := 5, inodeBitmapBlock := 6, inodeTableBlock := 7, freeBlocksCount := 7,
    freeInodesCount := freeInodes }

/-- The root with `.` and `..`, and maybe another inode. Block 9 is marked. -/
def smallImage (freeBlocks freeInodes : UInt64) (inodes : UInt8) (second : List UInt8) : Image where
  disk := ((diskWith [(5 * 4096, [0xFF, 0x02]), (6 * 4096, [inodes]),
    (7 * 4096, InodeRecord.toBytes { InodeRecord.zero with
      mode := sIfdir, linkCount := 2, size := 32, flags := inodeFlagInlineData,
      dataArea := EfsDirEntryHeader.toBytes ⟨1, 16, 1, 2⟩ ++ [0x2E, 0, 0, 0] ++
        EfsDirEntryHeader.toBytes ⟨1, 16, 2, 2⟩ ++ [0x2E, 0x2E, 0, 0] ++
        replicate 144 0 }), (7 * 4096 + 256, second)]).write 8192
          (smallBgd freeInodes).toBytes).write 4096 (smallSb freeBlocks freeInodes).toBytes
  sb := smallSb freeBlocks freeInodes
  bgds := [smallBgd freeInodes]

theorem load_smallImage (freeBlocks freeInodes : UInt64) (inodes : UInt8) (second : List UInt8) :
    load (smallImage freeBlocks freeInodes inodes second).disk
      = some (smallImage freeBlocks freeInodes inodes second) := by
  have hsb : EfsSuperblock.ofBytes ((smallImage freeBlocks freeInodes inodes second).disk.read 4096
      EfsSuperblock.size) = smallSb freeBlocks freeInodes := by
    have hlen := (smallSb freeBlocks freeInodes).length_toBytes
    rw [← hlen, smallImage, read_write_take _ _ le_rfl, take_length]
    exact (smallSb freeBlocks freeInodes).ofBytes_toBytes
  have hbgd : loadBgds (smallImage freeBlocks freeInodes inodes second).disk
      (smallSb freeBlocks freeInodes) = [smallBgd freeInodes] := by
    have hread : (smallImage freeBlocks freeInodes inodes second).disk.read 8192
        EfsBlockGroupDesc.size = (smallBgd freeInodes).toBytes := by
      have hlen := (smallBgd freeInodes).length_toBytes
      rw [smallImage, read_write_apart, ← hlen, read_write_take _ _ le_rfl, take_length]
      rw [EfsSuperblock.length_toBytes]
      exact .inr (by decide)
    have hround := (smallBgd freeInodes).ofBytes_toBytes
    rw [← hread] at hround
    exact congrArg (· :: []) hround
  have hvalid : (smallSb freeBlocks freeInodes).validate = true := rfl
  rw [load, hsb, if_pos hvalid, hbgd]
  rfl

/-- Inode 2, with one block, has no name. -/
def orphanImage (start : ℕ) : Image :=
  smallImage 7 6 3 (InodeRecord.toBytes { InodeRecord.zero with
    mode := sIfreg, linkCount := 1, size := 4096,
    dataArea := nodeBytes 176 0 maxInlineExtents [⟨0, 1, start⟩] })

/-- What the scan makes of inode 2. -/
def orphanInfo (start : ℕ) : InodeInfo := ⟨2, sIfreg, 1, false, [(start, 1)]⟩

theorem exists_repair_orphanImage {b : ℕ} (hb : b = 1 ∨ b = 9) :
    (orphanImage b).staticBlocks.Nodup ∧ (orphanImage b).bit .block b = true ∧
      ∃ img', (orphanImage b).repair (orphanImage b) .yes = some img' ∧
        img'.bit .block b = false := by
  have hlaid : (orphanImage b).WellLaid := by
    rcases hb with rfl | rfl <;> exact ⟨rfl, rfl, by decide +kernel⟩
  have hcheck : (orphanImage b).check.isSome = true := by
    rcases hb with rfl | rfl <;> decide +kernel
  have hinfo : findInfo (orphanImage b).infos (orphanInfo b).ino = some (orphanInfo b) := by
    rcases hb with rfl | rfl <;> decide +kernel
  have hfound : .orphanInode (orphanInfo b).ino ∈ (orphanImage b).checkLinkCounts := by
    rcases hb with rfl | rfl <;> decide +kernel
  have hsingle : b ∉ doubleClaimed (orphanImage b).rebuildBlocks.2 := by
    rcases hb with rfl | rfl <;> decide +kernel
  refine ⟨hlaid.nodup, by rcases hb with rfl | rfl <;> decide +kernel, ?_⟩
  exact exists_repair_of_orphan hlaid (show (16 : ℕ) ≠ 0 by decide) hcheck hfound hinfo
    (mem_blocks_of_extent mem_cons_self (mem_range'_1.mpr ⟨le_rfl, by omega⟩)) hsingle

end Image

end Edos.Fsck

import Edos.Efs.Directory
import Edos.Lib.Except

/-!
# Directories as maps

What the directory functions do to the entries of a directory: `Represents s es` says that the
blocks of the directory hold the entries `es`, and the lemmas here say how a call changes them. The
rest of the driver only sees directories in this way.

`update_dotdot_entry` is the one function besides adding and removing that changes a directory: it
overwrites an inode number in place.
-/

namespace Edos

open List

/-! ## The parent entry -/

/-- The scan of `update_dotdot_entry`. -/
def findDotdot (data : List UInt8) : Option (ℕ × EfsDirEntryHeader) :=
  (walk false data data.length 0).find? fun (off, hdr) ↦
    hdr.inode ≠ 0 ∧ hdr.nameLen = 2 ∧ off + dirEntryHeaderSize + 2 ≤ data.length ∧
      window data (off + dirEntryHeaderSize) 2 = nameBytes ".."

/-- `update_dotdot_entry`. -/
def DirStore.updateDotdotEntry (s : DirStore) (newParentIno : UInt64) : Except Fault DirStore := do
  let data ← s.readDirDataCached
  match findDotdot data with
  | none => .error (.error .fileNotFound)
  | some (off, _) => s.writeDirBlocks (patch data off (leBytes 8 newParentIno.toNat))

theorem findDotdot_eq (data : List UInt8) : findDotdot data = findName data ".." := by
  have hlen : (nameBytes "..").length = 2 := rfl
  refine congrArg (fun p ↦ (walk false data data.length 0).find? p) (funext fun (off, hdr) ↦ ?_)
  refine decide_eq_decide.mpr (and_congr_right fun _ ↦ ⟨?_, ?_⟩)
  · rintro ⟨hname, hle, hwindow⟩
    have htwo : hdr.nameLen.toNat = 2 := by rw [hname]; rfl
    exact ⟨by rw [htwo]; exact hle, by rw [htwo]; exact hwindow⟩
  · rintro ⟨hle, hwindow⟩
    have htwo : hdr.nameLen.toNat = 2 := by
      have hcount := congrArg List.length hwindow
      rw [hlen, window, length_take, length_drop] at hcount
      omega
    refine ⟨UInt8.toNat_inj.mp htwo, ?_, ?_⟩
    · rwa [htwo] at hle
    · rwa [htwo] at hwindow

namespace DirRecord

variable {r : DirRecord}

/-- A record that leads to another inode. -/
def retarget (r : DirRecord) (inode : UInt64) : DirRecord := { r with inode := inode }

theorem patch_retarget (xs : List DirRecord) (r : DirRecord) (ys : List DirRecord)
    (inode : UInt64) :
    patch (bytesOf (xs ++ r :: ys)) (totalSize xs) (leBytes 8 inode.toNat)
      = bytesOf (xs ++ r.retarget inode :: ys) := by
  have hhead := r.headerSize_le
  rw [dirEntryHeaderSize] at hhead
  have hpatch : patch r.header.toBytes 0 (leBytes 8 inode.toNat)
      = (r.retarget inode).header.toBytes := rfl
  rw [← add_zero (totalSize xs), patch_split (by rw [length_leBytes]; omega), bytesOf_split,
    bytes, patch_append_of_le _ (by simp [dirEntryHeaderSize]), hpatch]
  rfl

theorem Valid.retarget (hr : r.Valid) (hlive : r.inode ≠ 0) (inode : UInt64) :
    (r.retarget inode).Valid :=
  ⟨hr.size_lt, fun _ ↦ hr.min_le hlive, fun _ ↦ hr.utf8 hlive⟩

end DirRecord

namespace DirStore

open DirRecord

variable {s s' : DirStore} {map : ExtentMap} {blks : List (List DirRecord)} {newParentIno : UInt64}

/-- **Changing the parent entry.** -/
theorem updateDotdotEntry_spec (h : Layout s map blks) (hino : newParentIno ≠ 0)
    (hmem : ∃ r ∈ blks.flatten, r.Names "..") :
    ∃ s' blks', s.updateDotdotEntry newParentIno = .ok s' ∧ Layout s' map blks' ∧
      ∃ es v es', entriesOf blks = es ++ ("..", v) :: es' ∧
        entriesOf blks' = es ++ ("..", newParentIno, v.2) :: es' := by
  simp only [updateDotdotEntry, h.read, bind, Except.bind, findDotdot_eq]
  cases hfind : findName (bytesOf blks.flatten) ".." with
  | none =>
    obtain ⟨r, hr, hnames⟩ := hmem
    exact absurd hnames ((findName_bytesOf_eq_none h.valid).mp hfind r hr)
  | some found =>
    obtain ⟨off, hdr⟩ := found
    obtain ⟨xs, r, ys, hsplit, rfl, rfl, hnames, -⟩ := (findName_bytesOf h.valid).mp hfind
    obtain ⟨before, us, vs, after, rfl, rfl, rfl⟩ := exists_block hsplit
    have hvalid (r' : DirRecord) (hr' : r' ∈ us ++ r :: vs) : r'.Valid :=
      h.valid r' (mem_flatten.mpr ⟨_, by simp, hr'⟩)
    have hr : r.Valid := hvalid r (by simp)
    have hpatch : patch (bytesOf (before.flatten ++ us ++ r :: (vs ++ after.flatten)))
        (totalSize (before.flatten ++ us)) (leBytes 8 newParentIno.toNat)
        = bytesOf (before ++ (us ++ r.retarget newParentIno :: vs) :: after).flatten := by
      rw [patch_retarget]
      simp
    have hsize : totalSize (us ++ r.retarget newParentIno :: vs) = totalSize (us ++ r :: vs) := by
      rw [totalSize_append, totalSize_append, totalSize_cons, totalSize_cons]
      rfl
    obtain ⟨s', hwrite, hlayout, -⟩ := writeDirBlocks_block h hsize (by
      rw [forall_mem_append, forall_mem_cons] at hvalid ⊢
      exact ⟨hvalid.1, hr.retarget hnames.1 newParentIno, hvalid.2.2⟩)
    refine ⟨s', _, ?_, hlayout, entriesOf before ++ us.filterMap asEntry, (r.inode, r.fileType),
      vs.filterMap asEntry ++ entriesOf after, ?_, ?_⟩
    · dsimp only
      rw [hsplit, hpatch, hwrite]
    · rw [entriesOf_block, filterMap_append, filterMap_cons_some (asEntry_of_names hnames)]
      simp only [append_assoc, cons_append]
    · have hnames' : (r.retarget newParentIno).Names ".." := ⟨hino, hnames.2⟩
      rw [entriesOf_block, filterMap_append, filterMap_cons_some
        (asEntry_of_names hnames')]
      simp only [append_assoc, cons_append]
      rfl

/-- It fails if there is no such entry. -/
theorem exists_dotdot_of_update (h : Layout s map blks)
    (hok : s.updateDotdotEntry newParentIno = .ok s') : ∃ r ∈ blks.flatten, r.Names ".." := by
  simp only [updateDotdotEntry, h.read, bind, Except.bind, findDotdot_eq] at hok
  split at hok
  · cases hok
  rename_i hfind
  obtain ⟨xs, r, ys, hsplit, -, -, hnames, -⟩ := (findName_bytesOf h.valid).mp hfind
  exact ⟨r, by rw [hsplit]; simp, hnames⟩

/-! ## Entries -/

variable {fileType : UInt8}

/-- Writing an entry panics if the name is longer than what the byte for its length can say. -/
theorem length_le_of_writeDirEntry {buf buf' : List UInt8} {inode : UInt64} {recLen : ℕ}
    {name : List UInt8} (hbuf : dirEntryHeaderSize + (UInt8.ofNat name.length).toNat ≤ buf.length)
    (h : writeDirEntry buf inode recLen (.ofNat name.length) fileType name = .ok buf') :
    name.length ≤ 255 := by
  have hlen (hdr : EfsDirEntryHeader) : (patch buf 0 hdr.toBytes).length = buf.length :=
    length_patch (by rw [hdr.length_toBytes]; omega)
  rw [writeDirEntry, if_neg (by omega)] at h
  dsimp only at h
  rw [hlen, if_pos hbuf] at h
  split_ifs at h with heq
  have hlt := (UInt8.ofNat name.length).toNat_lt
  omega

variable {ino : UInt64}

theorem length_le_of_addDirEntry {name : String}
    (h : s.addDirEntry name ino fileType = .ok s') : (nameBytes name).length ≤ 255 := by
  obtain ⟨data, -, h⟩ := bind_eq_ok.mp h
  have hmin := add_le_dirEntryMinSize (.ofNat (nameBytes name).length)
  cases hslack : findSlack data (dirEntryMinSize (.ofNat (nameBytes name).length)) with
  | some found =>
    obtain ⟨off, hdr⟩ := found
    rw [hslack] at h
    obtain ⟨data', hinsert, -⟩ := bind_eq_ok.mp h
    have hroom : dirEntryMinSize (.ofNat (nameBytes name).length) ≤ hdr.recLen - hdr.minLen := by
      have hfound := find?_some hslack
      exact of_decide_eq_true hfound
    simp only [insertAt] at hinsert
    split_ifs at hinsert with hlive hlong hlong
    all_goals
      obtain ⟨buf, hwrite, -⟩ := map_eq_ok.mp hinsert
      refine length_le_of_writeDirEntry ?_ hwrite
      rw [window, length_take, length_drop]
      omega
  | none =>
    rw [hslack] at h
    obtain ⟨block, hwrite, -⟩ := bind_eq_ok.mp h
    refine length_le_of_writeDirEntry ?_ hwrite
    have hlt := (UInt8.ofNat (nameBytes name).length).toNat_lt
    rw [window, length_take, length_drop, length_append, length_replicate,
      dirEntryHeaderSize, efsBlockSize]
    omega

/-- The directory holds the given entries. -/
def Represents (s : DirStore) (es : List (String × UInt64 × UInt8)) : Prop :=
  (⟨s, es⟩ : Directory).Consistent

namespace Represents

variable {es : List (String × UInt64 × UInt8)} {name : String} (h : s.Represents es)
include h

theorem lookup (name : String) : s.lookupInDir name = .ok (es.lookup name) :=
  h.finiteMap.lookup name

theorem ino_ne_zero {v : UInt64 × UInt8} (hv : es.lookup name = some v) : v.1 ≠ 0 := by
  obtain ⟨map, blks, hlayout, hperm⟩ := h.layout
  obtain ⟨r, hr, hentry⟩ := mem_filterMap.mp
    (hperm.mem_iff.mpr ((lookup_eq_some_iff h.nodup).mp hv))
  obtain ⟨hnames, rfl⟩ := (asEntry_eq_some_iff (hlayout.valid r hr)).mp hentry
  exact hnames.1

/-- **Removing an entry** takes it away from the map. -/
theorem remove (hmem : name ∈ es.map Prod.fst) (hkeep : s.RemovesInside name)
    (hok : s.removeDirEntry name = .ok s') : s'.Represents (es.filter fun e ↦ e.1 ≠ name) := by
  obtain ⟨map, blks, hlayout, hperm⟩ := h.layout
  obtain ⟨s₁, blks', hremove, hlayout', ⟨es₁, v, es₂, hold, hnew⟩, -⟩ := removeDirEntry_spec hlayout
    (Directory.exists_names hlayout hperm hmem) fun off hdr hfind ↦
      hkeep _ hlayout.read off hdr hfind
  obtain rfl := Except.ok.inj (hremove.symm.trans hok)
  refine ⟨⟨map, blks', hlayout', ?_⟩, h.nodup.sublist (filter_sublist.map _)⟩
  have hkeys : ((entriesOf blks).map Prod.fst).Nodup := (hperm.map _).nodup_iff.mpr h.nodup
  rw [hold] at hkeys
  rw [hnew, ← filter_ne_of_split hkeys, ← hold]
  exact hperm.filter _

theorem exists_remove (hmem : name ∈ es.map Prod.fst) (hkeep : s.RemovesInside name) :
    ∃ s', s.removeDirEntry name = .ok s' := by
  obtain ⟨map, blks, hlayout, hperm⟩ := h.layout
  obtain ⟨s', -, hremove, -⟩ := removeDirEntry_spec hlayout
    (Directory.exists_names hlayout hperm hmem) fun off hdr hfind ↦
      hkeep _ hlayout.read off hdr hfind
  exact ⟨s', hremove⟩

theorem exists_updateDotdot (hmem : ".." ∈ es.map Prod.fst) (hino : ino ≠ 0) :
    ∃ s', s.updateDotdotEntry ino = .ok s' := by
  obtain ⟨map, blks, hlayout, hperm⟩ := h.layout
  obtain ⟨s', -, hupdate, -⟩ := updateDotdotEntry_spec hlayout hino
    (Directory.exists_names hlayout hperm hmem)
  exact ⟨s', hupdate⟩

theorem removesInside (hmem : name ∈ es.map Prod.fst) (hkeep : s.RemovesInside name)
    (hok : s.removeDirEntry name = .ok s') {name' : String} (hne : name' ≠ name)
    (hkeep' : s.RemovesInside name') : s'.RemovesInside name' := by
  obtain ⟨map, blks, hlayout, hperm⟩ := h.layout
  obtain ⟨s₁, blks', hremove, hlayout', -, hstay⟩ := removeDirEntry_spec hlayout
    (Directory.exists_names hlayout hperm hmem) fun off hdr hfind ↦
      hkeep _ hlayout.read off hdr hfind
  obtain rfl := Except.ok.inj (hremove.symm.trans hok)
  intro data hread off hdr hfind
  obtain rfl := Except.ok.inj (hlayout'.read.symm.trans hread)
  obtain ⟨hdr', hfind'⟩ := hstay name' hne off hdr hfind
  exact hkeep' _ hlayout.read off hdr' hfind'

/-- **Adding an entry** puts it into the map. -/
theorem add (hino : ino ≠ 0) (hnew : name ∉ es.map Prod.fst)
    (hok : s.addDirEntry name ino fileType = .ok s') :
    s'.Represents (es ++ [(name, ino, fileType)]) := by
  obtain ⟨map, blks, hlayout, hperm⟩ := h.layout
  rcases addDirEntry_spec hlayout hino (length_le_of_addDirEntry hok) with
    ⟨s₁, map', blks', hadd, hlayout', hperm'⟩ | ⟨e, herr⟩
  · obtain rfl := Except.ok.inj (hadd.symm.trans hok)
    refine ⟨⟨map', blks', hlayout', ?_⟩, ?_⟩
    · exact hperm'.trans ((hperm.cons _).trans (perm_append_singleton ..).symm)
    · rw [map_append, map_singleton]
      exact nodup_append_comm.mp (nodup_cons.mpr ⟨hnew, h.nodup⟩)
  · cases herr.symm.trans hok

/-- **Changing the parent entry** changes nothing else. -/
theorem updateDotdot (hino : ino ≠ 0) (hok : s.updateDotdotEntry ino = .ok s') :
    s'.Represents (es.map (setKey ".." fun v ↦ (ino, v.2))) := by
  obtain ⟨map, blks, hlayout, hperm⟩ := h.layout
  obtain ⟨s₁, blks', hupdate, hlayout', es₁, v, es₂, hold, hnew⟩ :=
    updateDotdotEntry_spec hlayout hino (exists_dotdot_of_update hlayout hok)
  obtain rfl := Except.ok.inj (hupdate.symm.trans hok)
  refine ⟨⟨map, blks', hlayout', ?_⟩, ?_⟩
  · have hkeys : ((entriesOf blks).map Prod.fst).Nodup := (hperm.map _).nodup_iff.mpr h.nodup
    rw [hold] at hkeys
    have hset := map_setKey_of_split hkeys fun v ↦ (ino, v.2)
    rw [hnew, ← hset, ← hold]
    exact hperm.map _
  · have hfst : Prod.fst ∘ setKey ".." (fun v : UInt64 × UInt8 ↦ (ino, v.2)) = Prod.fst :=
      funext fun e ↦ setKey_fst ..
    rw [map_map, hfst]
    exact h.nodup

end Represents

/-- A new directory, to which entries with short names can be added. -/
theorem exists_newDir {newIno parentIno : UInt64} (hnew : newIno ≠ 0) (hparent : parentIno ≠ 0) :
    ∃ s map, Represents s [(".", newIno, ftDir), ("..", parentIno, ftDir)] ∧
      OneBlock s map newIno 16 4064 := by
  obtain ⟨s, hs⟩ : ∃ s, createDir (fun _ ↦ []) [10] newIno parentIno = .ok s := by
    simp only [createDir, allocBlock, bind, Except.bind, newDirBlock_eq]
    exact ⟨_, rfl⟩
  obtain ⟨phys, -, hblock⟩ := oneBlock_createDir (by decide) (by decide) hnew hparent hs
    (by decide : 0 < 16)
  exact ⟨s, _, Directory.consistent_created (by decide) (by decide) hnew hparent hs, hblock⟩

end DirStore

end Edos

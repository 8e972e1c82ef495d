import Edos.Efs.DriverSpec

/-!
# Truncating a file and growing it again

`vfs::truncate` changes the size in the file system, drops the cached pages behind the new end, and
zeroes the tail of the cached page that the end is in. What is behind the end in the place that the
page is filled from stays: in the data area of the inode, or in the last block on the device. If the
page is not in the cache when the file grows again, the old bytes are in the file again.

A page in the cache need not be zero either. A fill cuts its page at the end of the file, but
readahead brings whole blocks, and a fill that is under way while the file is cut is published as it
is (`stale_byte_read`). So a byte is zero just when the place that it is read from has a zero there
(`shrink_grow_read_iff`).

An inline file that grows past its data area is converted. The new block is written through the
block cache, but pages are filled from the device, so its page has to be in the cache as well.
-/

namespace Edos

open Function List Option

/-- A byte of a block. -/
def Page.byte (p : Page) (i : ℕ) : UInt8 := p.bytes.getD i 0

variable {i : ℕ}

theorem Page.byte_padded (bs : List UInt8) (hi : i < journalBlockSize) :
    (Page.padded bs).byte i = bs.getD i 0 := by
  change (bs.take journalBlockSize ++ replicate (journalBlockSize - bs.length) 0).getD i 0 = _
  rw [getD_eq_getElem?_getD, getD_eq_getElem?_getD]
  by_cases hlen : i < bs.length
  · rw [getElem?_append_left (by rw [length_take]; omega), getElem?_take_of_lt hi]
  · rw [getElem?_append_right (by rw [length_take]; omega),
      getElem?_eq_none (not_lt.mp hlen), getElem?_replicate]
    split_ifs <;> rfl

theorem getD_take_zero (bs : List UInt8) (n i : ℕ) :
    (bs.take n).getD i 0 = if i < n then bs.getD i 0 else 0 := by
  rw [getD_eq_getElem?_getD, getD_eq_getElem?_getD, getElem?_take]
  split_ifs <;> rfl

variable {page : Page} {offset p : ℕ}

theorem div_of_lt (hi : i < journalBlockSize) :
    (p * journalBlockSize + i) / journalBlockSize = p := by
  rw [mul_comm, Nat.mul_add_div (by decide), Nat.div_eq_of_lt hi, add_zero]

namespace EfsDriver

open Fallible

/-! ## The file system side -/

/-- `fill_pages_bulk`, for one page: from the inode, or from the device past the block cache. -/
def fillPage (ino p : ℕ) : Op Page := do
  let inode ← readInode ino
  if inode.size ≤ p * journalBlockSize then return .padded []
  else
    match inode.storage with
    | .inline area =>
      if area.length < p * journalBlockSize then panic
      else return .padded ((area.take inode.size).drop (p * journalBlockSize))
    | .extents _ _ =>
      let map ← loadExtentMap inode
      match map.lookup (p % 2 ^ 32) with
      | none => return .padded []
      | some phys =>
        io
        let page ← gets fun d ↦ d.home phys
        return .padded (page.bytes.take (inode.size - p * journalBlockSize))

/-- A write past the block cache, which drops its copy. -/
def writeHome (b : ℕ) (data : Page) : Op Unit := do
  io
  modify fun d ↦
    { d with home := update d.home b data, blocks := update d.blocks b data }

/-- `flush_page`. -/
def flushPage (ino p : ℕ) (data : Page) : Op Unit := do
  ensureExtents ino
  let phys ← ensureBlockForLogical ino (p % 2 ^ 32) .overwritten
  writeHome phys data

/-- The byte that is in the place that a page of the file is filled from. -/
def backing (d : EfsDriver) (ino offset : ℕ) : UInt8 :=
  match (d.inodes ino).storage with
  | .inline area => area.getD offset 0
  | .extents (.error _) _ => 0
  | .extents (.ok map) _ =>
    match map.lookup (offset / journalBlockSize % 2 ^ 32) with
    | none => 0
    | some phys => (d.home phys).byte (offset % journalBlockSize)

variable {d d' : EfsDriver} {ino : ℕ}

theorem readOnly_fillPage (ino p : ℕ) : ReadOnly (fillPage ino p) := by
  refine (readOnly_readInode ino).bind fun inode ↦ ?_
  split_ifs
  · exact readOnly_pure _
  split
  · split_ifs
    · exact readOnly_panic
    · exact readOnly_pure _
  · refine (readOnly_loadExtentMap _).bind fun map ↦ ?_
    split
    · exact readOnly_pure _
    · exact readOnly_io.bind fun _ ↦ (readOnly_gets _).bind fun _ ↦ readOnly_pure _

theorem fillPage_byte (h : fillPage ino p d = (.ok page, d')) (hi : i < journalBlockSize) :
    page.byte i = if p * journalBlockSize + i < (d.inodes ino).size then
      d.backing ino (p * journalBlockSize + i) else 0 := by
  obtain ⟨inode, t, hread, h₁⟩ := bind_ok_iff.mp h
  obtain ⟨rfl, -, rfl⟩ := readInode_ok hread
  have hzero : (Page.padded []).byte i = 0 := Page.byte_padded [] hi
  split_ifs at h₁ with hsize
  · cases h₁
    rw [hzero, if_neg (by omega)]
  · generalize hinode : d.inodes ino = inode at *
    obtain ⟨kind, links, size, next, storage⟩ := inode
    cases storage with
    | inline area =>
      dsimp only at h₁
      split_ifs at h₁ with harea
      · cases h₁
      · cases h₁
        rw [Page.byte_padded _ hi, backing, hinode, getD_eq_getElem?_getD, getElem?_drop,
          ← getD_eq_getElem?_getD, getD_take_zero]
    | extents map nodes =>
      obtain ⟨map', u, hmap, h₂⟩ := bind_ok_iff.mp h₁
      obtain ⟨rfl, fs, rfl⟩ := loadExtentMap_ok hmap
      cases hlook : map'.lookup (p % 2 ^ 32) with
      | none =>
        rw [hlook] at h₂
        cases h₂
        rw [hzero, backing, hinode]
        dsimp only
        rw [div_of_lt hi, hlook]
        split_ifs <;> rfl
      | some phys =>
        rw [hlook] at h₂
        obtain ⟨_, u, hio, h₃⟩ := bind_ok_iff.mp h₂
        obtain rfl := io_ok hio
        cases h₃
        rw [Page.byte_padded _ hi, getD_take_zero, backing, hinode]
        dsimp only
        rw [div_of_lt hi, hlook, Nat.mul_add_mod_of_lt hi]
        exact if_congr (by omega) rfl rfl

/-- An inline file outgrows its data area. -/
def Converts (d : EfsDriver) (ino size : ℕ) : Prop :=
  (∃ area, (d.inodes ino).storage = .inline area) ∧ inodeDataAreaSize < size

theorem truncateInner_size {size : ℕ} (h : truncateInner ino size d = (.ok (), d')) :
    (d'.inodes ino).size = size := by
  obtain ⟨inode, t, -, h₁⟩ := bind_ok_iff.mp h
  obtain ⟨kind, links, oldSize, next, storage⟩ := inode
  cases storage with
  | inline area =>
    dsimp only at h₁
    split_ifs at h₁
    · obtain ⟨_, u, -, h₂⟩ := bind_ok_iff.mp h₁
      obtain ⟨base, u', -, h₃⟩ := bind_ok_iff.mp h₂
      rw [writeInode_self h₃]
    · rw [writeInode_self h₁]
  | extents map nodes =>
    dsimp only at h₁
    split_ifs at h₁
    · rw [writeInode_self h₁]
    · obtain ⟨_, t, -, h₂⟩ := bind_ok_iff.mp h₁
      obtain ⟨_, u, -, h₃⟩ := bind_ok_iff.mp h₂
      obtain ⟨updated, u', -, h₄⟩ := bind_ok_iff.mp h₃
      rw [writeInode_self h₄]

theorem truncateInner_grow {size : ℕ} (hsize : (d.inodes ino).size ≤ size)
    (hconvert : ¬d.Converts ino size) (h : truncateInner ino size d = (.ok (), d')) (offset : ℕ) :
    d'.backing ino offset = d.backing ino offset := by
  obtain ⟨inode, t, hread, h₁⟩ := bind_ok_iff.mp h
  obtain ⟨rfl, -, rfl⟩ := readInode_ok hread
  have hsame
      (hw : writeInode ino { d.inodes ino with size } { d with faults := d.faults.tail } =
        (.ok (), d')) :
      d'.backing ino offset = d.backing ino offset := by
    have hinode := writeInode_self hw
    obtain rfl := writeInode_ok hw
    rw [backing, hinode, backing]
  generalize hinode : d.inodes ino = inode at *
  obtain ⟨kind, links, oldSize, next, storage⟩ := inode
  cases storage with
  | inline area =>
    split_ifs at h₁ with hgrow
    · exact absurd ⟨⟨area, by rw [hinode]⟩, hgrow.2⟩ hconvert
    · exact hsame h₁
  | extents map nodes =>
    rw [if_pos hsize] at h₁
    exact hsame h₁

theorem truncateInner_convert {size : ℕ} (hsize : (d.inodes ino).size ≤ size)
    (hconvert : d.Converts ino size) (h : truncateInner ino size d = (.ok (), d'))
    (hlow : journalBlockSize ≤ offset) (hhigh : offset < 2 ^ 44) : d'.backing ino offset = 0 := by
  obtain ⟨inode, t, hread, h₁⟩ := bind_ok_iff.mp h
  obtain ⟨rfl, -, rfl⟩ := readInode_ok hread
  obtain ⟨⟨area, harea⟩, hlarge⟩ := hconvert
  simp only [harea] at h₁
  rw [if_pos ⟨hsize, hlarge⟩] at h₁
  obtain ⟨_, t, hconv, h₂⟩ := bind_ok_iff.mp h₁
  obtain ⟨phys, u, -, hc⟩ := bind_ok_iff.mp hconv
  obtain ⟨_, u', -, hw⟩ := bind_ok_iff.mp hc
  obtain ⟨base, t', hbase, h₃⟩ := bind_ok_iff.mp h₂
  obtain ⟨rfl, -⟩ := readInode_ok hbase
  have hblock : offset / journalBlockSize % 2 ^ 32 = offset / journalBlockSize := by
    refine Nat.mod_eq_of_lt (Nat.div_lt_of_lt_mul ?_)
    exact hhigh
  have hpos : ¬offset / journalBlockSize < 1 :=
    not_lt.mpr ((Nat.one_le_div_iff (by decide)).mpr hlow)
  rw [backing, writeInode_self h₃, writeInode_self hw]
  rw [hblock]
  simp [ExtentMap.lookup, ExtentMap.partitionPoint, ExtentMap.before, hpos]

/-- What a truncation writes goes through the block cache. -/
theorem home_truncateInner {size : ℕ} {r : Except Fault Unit}
    (h : truncateInner ino size d = (r, d')) :
    d'.home = d.home := by
  have hI : Stable (fun t ↦ t.home = d.home) fun _ _ ↦ True :=
    ⟨fun _ _ _ _ _ _ hhome h ↦ hhome.trans h, fun _ _ _ ↦ trivial, fun _ _ _ h _ ↦ h,
      fun _ _ _ _ ↦ trivial⟩
  have hkeeps : Keeps (fun t ↦ t.home = d.home) (truncateInner ino size) fun _ ↦ True := by
    refine (hI.readInode ino).bind fun inode _ ↦ ?_
    split
    · split_ifs
      · exact (hI.convertInlineToExtents trivial _).bind fun _ _ ↦ (hI.readInode ino).bind fun _ _ ↦
          hI.writeInode trivial
      · exact hI.writeInode trivial
    · split_ifs
      · exact hI.writeInode trivial
      · exact hI.independent.read (readOnly_loadOrDefault _) fun map ↦
          (keeps_forM fun b _ ↦ hI.independent.freeBlock b).bind fun _ _ ↦
          (@Stable.storeExtentMap _ _ hI ino _ trivial _).bind fun _ _ ↦ hI.writeInode trivial
  exact (hkeeps.state h rfl)

end EfsDriver

/-! ## The page cache side -/

/-- A page of the file. -/
structure FilePage where
  data : Page
  dirty : Bool

/-- A fill of a page that is under way: the device has been asked for a block, or for none if there
is a hole; or the page has been read and is not in the cache yet. -/
inductive PageFill where
  | queued (phys : Option ℕ)
  | done (data : Page)

/-- What a fill brings, if the device delivers now. Readahead brings the whole block. -/
def PageFill.data (d : EfsDriver) : PageFill → Page
  | queued none => .padded []
  | queued (some phys) => d.home phys
  | done data => data

theorem PageFill.data_congr {d d' : EfsDriver} (h : d'.home = d.home) (fill : PageFill) :
    fill.data d' = fill.data d := by
  rcases fill with (_ | phys) | data
  · rfl
  · exact congrFun h phys
  · rfl

/-- The file system, and the cached pages of one of its files. -/
structure FileCache where
  driver : EfsDriver
  pages : ℕ → Option FilePage
  inFlight : ℕ → Option PageFill

/-- Zeros from a byte on. -/
def Page.zeroFrom (p : Page) (i : ℕ) : Page := .padded (p.bytes.take i)

theorem Page.byte_zeroFrom (p : Page) (i : ℕ) {j : ℕ} (hj : j < journalBlockSize) :
    (p.zeroFrom i).byte j = if j < i then p.byte j else 0 := by
  rw [zeroFrom, byte_padded _ hj, getD_take_zero, byte]

/-- `zero_tail`. The page is not marked dirty. -/
def zeroTail (size : ℕ) (pages : ℕ → Option FilePage) : ℕ → Option FilePage :=
  if size % journalBlockSize = 0 then pages
  else fun p ↦ if p = size / journalBlockSize then
      (pages p).map fun c ↦ { c with data := c.data.zeroFrom (size % journalBlockSize) }
    else pages p

def invalidateFrom (first : ℕ) (pages : ℕ → Option FilePage) : ℕ → Option FilePage :=
  fun p ↦ if p < first then pages p else none

namespace FileCache

open EfsDriver Fallible

variable (ino : ℕ)

/-- `vfs::truncate`: the cache is changed whether the file system succeeds or not. The fills that
are under way are not looked at. -/
def truncate (size : ℕ) (s : FileCache) : Except Fault Unit × FileCache :=
  let (r, d) := truncateInner ino size s.driver
  (r, { s with
    driver := d
    pages := zeroTail size
      (invalidateFrom ((size + (journalBlockSize - 1)) / journalBlockSize) s.pages) })

/-- `finalize_prefetch`, and the end of a reader's fill: a page that is in the cache stays. -/
def publish (p : ℕ) (fill : PageFill) (s : FileCache) : FileCache :=
  { s with
    pages := update s.pages p ((s.pages p).or (some ⟨fill.data s.driver, false⟩))
    inFlight := update s.inFlight p none }

/-- `get_or_fill_async_sync`: find a page in the cache, join the fill that is under way, or fill it.
-/
def getOrFill (p : ℕ) (s : FileCache) : Except Fault Page × FileCache :=
  match s.pages p with
  | some c => (.ok c.data, s)
  | none =>
    match s.inFlight p with
    | some fill => (.ok (fill.data s.driver), s.publish p fill)
    | none =>
      match fillPage ino p s.driver with
      | (.ok page, d) =>
        (.ok page, { s with driver := d, pages := update s.pages p (some ⟨page, false⟩) })
      | (.error e, d) => (.error e, { s with driver := d })

/-- Read a byte. -/
def readByte (offset : ℕ) (s : FileCache) : Except Fault UInt8 × FileCache :=
  match getOrFill ino (offset / journalBlockSize) s with
  | (.ok page, s') => (.ok (page.byte (offset % journalBlockSize)), s')
  | (.error e, s') => (.error e, s')

/-- What can happen to the cached pages without a write: one is read in, at once or by a reader that
is interrupted before the page is in the cache; readahead is submitted for one, the device delivers
it, the fill is published, or it fails; a clean one is evicted, a dirty one is flushed, and the
block cache writes a block. -/
inductive Event where
  | fill (p : ℕ)
  | startFill (p : ℕ)
  | submit (p : ℕ)
  | transfer (p : ℕ)
  | finish (p : ℕ)
  | fail (p : ℕ)
  | evict (p : ℕ)
  | flush (p : ℕ)
  | writeBack (b : ℕ)

def step (s : FileCache) : Event → Option FileCache
  | .fill p => some (getOrFill ino p s).2
  | .startFill p =>
    match s.pages p, s.inFlight p with
    | none, none =>
      match fillPage ino p s.driver with
      | (.ok page, d) =>
        some { s with driver := d, inFlight := update s.inFlight p (some (.done page)) }
      | (.error _, d) => some { s with driver := d }
    | _, _ => none
  | .submit p =>
    -- `submit_prefetch_pages`, for one page
    match s.inFlight p, (s.driver.inodes ino).storage with
    | none, .extents (.ok map) _ =>
      if (s.driver.inodes ino).kind = .regular ∧
        p * journalBlockSize < (s.driver.inodes ino).size then
        some { s with inFlight := update s.inFlight p (some (.queued (map.lookup (p % 2 ^ 32)))) }
      else none
    | _, _ => none
  | .transfer p => (s.inFlight p).map fun fill ↦
      { s with inFlight := update s.inFlight p (some (.done (fill.data s.driver))) }
  | .finish p => (s.inFlight p).map fun fill ↦ s.publish p fill
  | .fail p => some { s with inFlight := update s.inFlight p none }
  | .evict p =>
    match s.pages p with
    | some ⟨_, false⟩ => some { s with pages := update s.pages p none }
    | _ => none
  | .flush p =>
    match s.pages p with
    | some ⟨data, true⟩ =>
      match flushPage ino p data s.driver with
      | (.ok (), d) => some { s with driver := d, pages := update s.pages p (some ⟨data, false⟩) }
      | (.error _, d) => some { s with driver := d }
    | _ => none
  | .writeBack b => some { s with driver := { s.driver with
      home := update s.driver.home b (s.driver.blocks b) } }

/-- The byte at the place that a read finds it: in the cached page, in the fill that is under way,
or where the page is filled from. -/
def standing (o : ℕ) (s : FileCache) : UInt8 :=
  match s.pages (o / journalBlockSize) with
  | some c => c.data.byte (o % journalBlockSize)
  | none =>
    match s.inFlight (o / journalBlockSize) with
    | some fill => (fill.data s.driver).byte (o % journalBlockSize)
    | none => s.driver.backing ino o

/-! ## One call -/

variable {o size : ℕ} {s s' : FileCache} {r : Except Fault Unit} {byte : UInt8}

theorem truncate_pages (h : truncate ino size s = (r, s')) (p : ℕ) :
    s'.pages p = if size ≤ p * journalBlockSize then none
      else if p = size / journalBlockSize then
        (s.pages p).map fun c ↦ { c with data := c.data.zeroFrom (size % journalBlockSize) }
      else s.pages p := by
  obtain rfl : s' = (truncate ino size s).2 := (congrArg Prod.snd h).symm
  change zeroTail size (invalidateFrom _ s.pages) p = _
  unfold zeroTail invalidateFrom journalBlockSize
  by_cases hmod : size % 4096 = 0
  · rw [if_pos hmod]
    by_cases hp : size ≤ p * 4096
    · rw [if_pos hp, if_neg (by omega)]
    · rw [if_neg hp, if_pos (by omega), if_neg (by omega)]
  · rw [if_neg hmod]
    by_cases hp : size ≤ p * 4096
    · simp only [if_pos hp, if_neg (show ¬p < (size + (4096 - 1)) / 4096 by omega),
        if_neg (show ¬p = size / 4096 by omega)]
    · simp only [if_neg hp, if_pos (show p < (size + (4096 - 1)) / 4096 by omega)]

/-- A byte of a cached page in the file stays, and one behind its end is zero. -/
theorem byte_truncate (h : truncate ino size s = (r, s')) {c : FilePage} (hc : s'.pages p = some c)
    (hi : i < journalBlockSize) : ∃ c₀, s.pages p = some c₀ ∧
      c.data.byte i = if p * journalBlockSize + i < size then c₀.data.byte i else 0 := by
  rw [truncate_pages ino h] at hc
  unfold journalBlockSize at *
  split_ifs at hc with hend hlast
  · obtain ⟨c₀, hc₀, rfl⟩ := map_eq_some_iff.mp hc
    refine ⟨c₀, hc₀, ?_⟩
    rw [Page.byte_zeroFrom _ _ hi]
    exact if_congr (by omega) rfl rfl
  · exact ⟨c, hc, (if_pos (by omega)).symm⟩

theorem truncate_inner (h : truncate ino size s = (r, s')) :
    truncateInner ino size s.driver = (r, s'.driver) ∧ s'.inFlight = s.inFlight := by
  cases h
  exact ⟨rfl, rfl⟩

/-- A page that is still in the file is cached if it was. -/
theorem isSome_truncate (h : truncate ino size s = (r, s')) (ho : o < size) :
    (s'.pages (o / journalBlockSize)).isSome = (s.pages (o / journalBlockSize)).isSome := by
  rw [truncate_pages ino h, if_neg (by unfold journalBlockSize; omega)]
  split_ifs
  · exact isSome_map
  · rfl

/-- What a fill does: nothing, or a page comes into the cache. -/
theorem getOrFill_cases {r : Except Fault Page} (h : getOrFill ino p s = (r, s')) :
    (∃ c, s.pages p = some c ∧ r = .ok c.data ∧ s' = s) ∨
      s.pages p = none ∧ ((∃ fill, s.inFlight p = some fill ∧ r = .ok (fill.data s.driver) ∧
        s' = s.publish p fill) ∨
      s.inFlight p = none ∧ Unchanged s.driver s'.driver ∧ s'.inFlight = s.inFlight ∧
        ((∃ e, r = .error e) ∧ s'.pages = s.pages ∨
          ∃ page, r = .ok page ∧ fillPage ino p s.driver = (.ok page, s'.driver) ∧
            s'.pages = update s.pages p (some ⟨page, false⟩))) := by
  rw [getOrFill] at h
  cases hp : s.pages p with
  | some c =>
    rw [hp] at h
    cases h
    exact .inl ⟨c, rfl, rfl, rfl⟩
  | none =>
    rw [hp] at h
    refine .inr ⟨rfl, ?_⟩
    cases hf : s.inFlight p with
    | some fill =>
      rw [hf] at h
      cases h
      exact .inl ⟨fill, rfl, rfl, rfl⟩
    | none =>
      rw [hf] at h
      obtain ⟨page, d, hfill⟩ | ⟨e, d, hfill⟩ := ok_or_error (fillPage ino p) s.driver
      · rw [hfill] at h
        cases h
        exact .inr ⟨rfl, (readOnly_fillPage ino p).unchanged hfill, rfl,
          .inr ⟨page, rfl, hfill, rfl⟩⟩
      · rw [hfill] at h
        cases h
        exact .inr ⟨rfl, (readOnly_fillPage ino p).unchanged hfill, rfl, .inl ⟨⟨e, rfl⟩, rfl⟩⟩

variable {ino}

theorem readByte_standing (ho : o < (s.driver.inodes ino).size)
    (h : readByte ino o s = (.ok byte, s')) : byte = s.standing ino o := by
  obtain ⟨r, t, hget⟩ : ∃ r t, getOrFill ino (o / journalBlockSize) s = (r, t) := ⟨_, _, rfl⟩
  rw [readByte, hget] at h
  rw [standing]
  obtain ⟨c, hc, rfl, -⟩ | ⟨hp,
    ⟨fill, hf, rfl, -⟩ | ⟨hf, -, -, ⟨⟨e, rfl⟩, -⟩ | ⟨page, rfl, hfill, -⟩⟩⟩ :=
    getOrFill_cases ino hget
  · cases h
    rw [hc]
  · cases h
    rw [hp, hf]
  · cases h
  · cases h
    rw [hp, hf, fillPage_byte hfill (Nat.mod_lt _ (by decide)), Nat.div_add_mod', if_pos ho]

/-- A growth leaves every byte where it is, if the file is not converted. -/
theorem standing_grow (h : truncate ino size s = (.ok (), s'))
    (hsize : (s.driver.inodes ino).size ≤ size) (hconvert : ¬s.driver.Converts ino size)
    (ho : o < size) : s'.standing ino o = s.standing ino o := by
  obtain ⟨hinner, hfills⟩ := truncate_inner ino h
  have hsome := isSome_truncate ino h ho
  rw [standing, standing, hfills]
  cases hc : s'.pages (o / journalBlockSize) with
  | some c =>
    obtain ⟨c₀, hc₀, hbyte⟩ := byte_truncate ino h hc (Nat.mod_lt o (by decide))
    rw [hc₀]
    rwa [Nat.div_add_mod', if_pos ho] at hbyte
  | none =>
    rw [hc] at hsome
    rw [isNone_iff_eq_none.mp (isSome_eq_false_iff.mp hsome.symm)]
    cases s.inFlight (o / journalBlockSize) with
    | some fill => exact congrArg (Page.byte · _) (fill.data_congr (home_truncateInner hinner))
    | none => exact truncateInner_grow hsize hconvert hinner o

/-! ## Between the two calls, and after -/

variable (ino)

theorem stable_size (size : ℕ) :
    Stable (fun d ↦ (d.inodes ino).size = size) fun x inode ↦ x = ino → inode.size = size where
  independent _ _ hinodes _ _ _ _ h := (congrArg (fun inodes ↦ (inodes ino).size) hinodes).trans h
  read d x h hx := hx ▸ h
  write d x inode h hinode := by
    rcases eq_or_ne ino x with rfl | hne
    · exact (congrArg DiskInode.size (update_self ..)).trans (hinode rfl)
    · exact (congrArg DiskInode.size (update_of_ne hne ..)).trans h
  storage _ _ _ h := h

theorem keepsSize_flushPage (size p : ℕ) (data : Page) :
    Keeps (fun d ↦ (d.inodes ino).size = size) (flushPage ino p data) fun _ ↦ True :=
  ((stable_size ino size).ensureExtents ino).bind fun _ _ ↦
    ((stable_size ino size).ensureBlockForLogical ino _ _).bind fun _ _ ↦
    ((stable_size ino size).independent.readOnly readOnly_io).bind fun _ _ ↦
      keeps_modify fun _ h ↦ h

/-- A page `p` of the file is zero between two offsets. -/
def ZeroOn (a b p : ℕ) (data : Page) : Prop :=
  ∀ i < journalBlockSize, a ≤ p * journalBlockSize + i → p * journalBlockSize + i < b →
    data.byte i = 0

/-- The page of an offset is in the cache, or on its way. -/
def Held (s : FileCache) (o : ℕ) : Prop :=
  (s.pages (o / journalBlockSize)).isSome ∨ (s.inFlight (o / journalBlockSize)).isSome

/-- A file of this size that reads as zero between `a` and `b`: what is cached is zero there, so is
what the fills that are under way bring, and so is what the other pages are filled from. -/
structure ReadsZero (a b n : ℕ) (s : FileCache) : Prop where
  size : (s.driver.inodes ino).size = n
  cached : ∀ p c, s.pages p = some c → ZeroOn a b p c.data
  inFlight : ∀ p fill, s.inFlight p = some fill → ZeroOn a b p (fill.data s.driver)
  covered : ∀ o, a ≤ o → o < b → o < n → s.Held o ∨ s.driver.backing ino o = 0

/-- Readahead is submitted only for blocks that are zero between `a` and `b`. A page is evicted, or
a fill dropped, only if the other is there or what the page is filled from is zero. Blocks are only
written while all pages in question are held, and none of them is still to be delivered by the
device. -/
def Careful (a b size : ℕ) (s : FileCache) : Event → Prop
  | .fill _ | .startFill _ | .transfer _ | .finish _ => True
  | .submit p => ∀ o, a ≤ o → o < b → o / journalBlockSize = p → s.driver.backing ino o = 0
  | .fail p => ∀ o, a ≤ o → o < b → o < size → o / journalBlockSize = p →
      (s.pages p).isSome ∨ s.driver.backing ino o = 0
  | .evict p => ∀ o, a ≤ o → o < b → o < size → o / journalBlockSize = p →
      (s.inFlight p).isSome ∨ s.driver.backing ino o = 0
  | .flush _ | .writeBack _ => ∀ o, a ≤ o → o < b → (o < size → s.Held o) ∧
      ∀ phys, s.inFlight (o / journalBlockSize) ≠ some (.queued (some phys))

variable {ino} {a b : ℕ}

theorem backing_of_unchanged {d d' : EfsDriver} (h : Unchanged d d') (o : ℕ) :
    d'.backing ino o = d.backing ino o := by
  obtain ⟨fs, rfl⟩ := h
  rfl

theorem home_of_unchanged {d d' : EfsDriver} (h : Unchanged d d') : d'.home = d.home := by
  obtain ⟨fs, rfl⟩ := h
  rfl

theorem forall_update {α : Type} {f : ℕ → Option α} {x : Option α} {P : ℕ → α → Prop}
    (hf : ∀ q y, f q = some y → P q y) (hx : ∀ y, x = some y → P p y) :
    ∀ q y, update f p x q = some y → P q y := by
  intro q y hy
  rcases eq_or_ne q p with rfl | hne
  · rw [update_self] at hy
    exact hx y hy
  · rw [update_of_ne hne] at hy
    exact hf q y hy

theorem isSome_update {α : Type} {f : ℕ → Option α} {q : ℕ} {x : α}
    (h : (f q).isSome) : (update f p (some x) q).isSome := by
  rw [update_apply]
  split_ifs
  · rfl
  · exact h

/-- What a page is filled with is zero, if the page is not held. -/
theorem ReadsZero.fillPage {d : EfsDriver} (h : ReadsZero ino a b size s) (hp : s.pages p = none)
    (hf : s.inFlight p = none) (hfill : fillPage ino p s.driver = (.ok page, d)) :
    ZeroOn a b p page := by
  intro i hi ha hb
  rw [fillPage_byte hfill hi, h.size]
  split_ifs with hlt
  · refine (h.covered _ ha hb hlt).resolve_left ?_
    rw [Held, div_of_lt hi, hp, hf]
    exact nofun
  · rfl

/-- Only the faults that are to come have changed in the driver. -/
theorem ReadsZero.unchanged {d : EfsDriver} (h : ReadsZero ino a b size s)
    (hd : Unchanged s.driver d) : ReadsZero ino a b size { s with driver := d } where
  size := by
    obtain ⟨fs, rfl⟩ := hd
    exact h.size
  cached := h.cached
  inFlight p fill hfill := by
    rw [fill.data_congr (home_of_unchanged hd)]
    exact h.inFlight p fill hfill
  covered o ha hb ho := by
    rw [backing_of_unchanged hd]
    exact h.covered o ha hb ho

theorem ReadsZero.publish {fill : PageFill} (h : ReadsZero ino a b size s)
    (hfill : s.inFlight p = some fill) : ReadsZero ino a b size (s.publish p fill) where
  size := h.size
  cached := by
    refine forall_update h.cached fun c hc ↦ ?_
    cases hp : s.pages p with
    | some c' =>
      rw [hp] at hc
      cases hc
      exact h.cached p c hp
    | none =>
      rw [hp] at hc
      cases hc
      exact h.inFlight p fill hfill
  inFlight := forall_update h.inFlight nofun
  covered o ha hb ho := by
    refine (h.covered o ha hb ho).imp_left fun hheld ↦ ?_
    rcases eq_or_ne (o / journalBlockSize) p with heq | hne
    · refine .inl ?_
      change (update s.pages p _ _).isSome = true
      rw [heq, update_self, isSome_or]
      exact Bool.or_true _
    · refine hheld.imp (fun hc ↦ ?_) fun hc ↦ ?_
      · change (update s.pages p _ _).isSome = true
        rwa [update_of_ne hne]
      · change (update s.inFlight p none _).isSome = true
        rwa [update_of_ne hne]

theorem ReadsZero.setPage {data : Page} {dirty : Bool} (h : ReadsZero ino a b size s)
    (hdata : ZeroOn a b p data) :
    ReadsZero ino a b size { s with pages := update s.pages p (some ⟨data, dirty⟩) } where
  size := h.size
  cached := forall_update h.cached fun c hc ↦ by cases hc; exact hdata
  inFlight := h.inFlight
  covered o ha hb ho := (h.covered o ha hb ho).imp_left (.imp_left isSome_update)

theorem ReadsZero.setFill (h : ReadsZero ino a b size s) (fill : PageFill)
    (hdata : ZeroOn a b p (fill.data s.driver)) :
    ReadsZero ino a b size { s with inFlight := update s.inFlight p (some fill) } where
  size := h.size
  cached := h.cached
  inFlight := forall_update h.inFlight fun f hf ↦ by cases hf; exact hdata
  covered o ha hb ho := (h.covered o ha hb ho).imp_left (.imp_right isSome_update)

theorem ReadsZero.getOrFill {r : Except Fault Page} (h : ReadsZero ino a b size s)
    (hfill : getOrFill ino p s = (r, s')) : ReadsZero ino a b size s' := by
  obtain ⟨c, -, -, rfl⟩ | ⟨hp, ⟨fill, hf, -, rfl⟩ | ⟨hf, hd, hfills, hcases⟩⟩ :=
    getOrFill_cases ino hfill
  · exact h
  · exact h.publish hf
  obtain ⟨d', pages', inFlight'⟩ := s'
  dsimp only at hd hfills hcases
  subst hfills
  obtain ⟨-, rfl⟩ | ⟨page, -, hpage, rfl⟩ := hcases
  · exact h.unchanged hd
  · exact (h.unchanged hd).setPage (h.fillPage hp hf hpage)

/-- The driver has written blocks: the pages in question are held, and none is to be delivered. -/
theorem ReadsZero.written {d : EfsDriver} (h : ReadsZero ino a b size s)
    (hsize : (d.inodes ino).size = size)
    (hheld : ∀ o, a ≤ o → o < b → (o < size → s.Held o) ∧
      ∀ phys, s.inFlight (o / journalBlockSize) ≠ some (.queued (some phys))) :
    ReadsZero ino a b size { s with driver := d } where
  size := hsize
  cached := h.cached
  inFlight p fill hfill i hi ha hb := by
    have hqueued := (hheld _ ha hb).2
    rw [div_of_lt hi, hfill] at hqueued
    have hdata : fill.data d = fill.data s.driver := by
      rcases fill with (_ | phys) | data
      · rfl
      · exact absurd rfl (hqueued phys)
      · rfl
    exact hdata ▸ h.inFlight p fill hfill i hi ha hb
  covered o ha hb ho := .inl ((hheld o ha hb).1 ho)

/-- What readahead asks the device for is what the page is filled from. -/
theorem zeroOn_queued {d : EfsDriver} {map : ExtentMap} {nodes : List ℕ}
    (hmap : (d.inodes ino).storage = .extents (.ok map) nodes)
    (h : ∀ o, a ≤ o → o < b → o / journalBlockSize = p → d.backing ino o = 0) :
    ZeroOn a b p ((PageFill.queued (map.lookup (p % 2 ^ 32))).data d) := by
  intro i hi ha hb
  have hzero := h _ ha hb (div_of_lt hi)
  rw [backing, hmap] at hzero
  dsimp only at hzero
  rw [div_of_lt hi, Nat.mul_add_mod_of_lt hi] at hzero
  cases hlook : map.lookup (p % 2 ^ 32) with
  | none => exact Page.byte_padded [] hi
  | some phys =>
    rw [hlook] at hzero
    exact hzero

/-- **Every careful event keeps the zeros.** -/
theorem ReadsZero.step {event : Event} (h : ReadsZero ino a b size s)
    (hcareful : Careful ino a b size s event)
    (hstep : step ino s event = some s') : ReadsZero ino a b size s' := by
  cases event with
  | fill p =>
    cases hstep
    exact h.getOrFill (Prod.ext rfl rfl)
  | startFill p =>
    simp only [FileCache.step] at hstep
    split at hstep
    · rename_i hp hf
      obtain ⟨page, d, hfill⟩ | ⟨e, d, hfill⟩ := ok_or_error (EfsDriver.fillPage ino p) s.driver
      · rw [hfill] at hstep
        cases hstep
        exact (h.unchanged ((readOnly_fillPage ino p).unchanged hfill)).setFill (.done page)
          (h.fillPage hp hf hfill)
      · rw [hfill] at hstep
        cases hstep
        exact h.unchanged ((readOnly_fillPage ino p).unchanged hfill)
    · cases hstep
  | submit p =>
    simp only [FileCache.step] at hstep
    split at hstep
    · rename_i map nodes hf hmap
      split_ifs at hstep
      cases hstep
      exact h.setFill _ (zeroOn_queued hmap hcareful)
    · cases hstep
  | transfer p =>
    obtain ⟨fill, hf, rfl⟩ := map_eq_some_iff.mp hstep
    exact h.setFill (.done (fill.data s.driver)) (h.inFlight p fill hf)
  | finish p =>
    obtain ⟨fill, hf, rfl⟩ := map_eq_some_iff.mp hstep
    exact h.publish hf
  | fail p =>
    cases hstep
    refine ⟨h.size, h.cached, forall_update h.inFlight nofun, fun o ha hb ho ↦ ?_⟩
    rcases eq_or_ne (o / journalBlockSize) p with rfl | hne
    · exact (hcareful o ha hb ho rfl).imp_left .inl
    · refine (h.covered o ha hb ho).imp_left (.imp_right fun hc ↦ ?_)
      change (update s.inFlight p none _).isSome = true
      rwa [update_of_ne hne]
  | evict p =>
    simp only [FileCache.step] at hstep
    split at hstep
    · cases hstep
      refine ⟨h.size, forall_update h.cached nofun, h.inFlight, fun o ha hb ho ↦ ?_⟩
      rcases eq_or_ne (o / journalBlockSize) p with rfl | hne
      · exact (hcareful o ha hb ho rfl).imp_left .inr
      · refine (h.covered o ha hb ho).imp_left (.imp_left fun hc ↦ ?_)
        change (update s.pages p none _).isSome = true
        rwa [update_of_ne hne]
    · cases hstep
  | flush p =>
    simp only [FileCache.step] at hstep
    split at hstep
    · rename_i data hp
      split at hstep
      · rename_i d hflush
        cases hstep
        have hsize := (keepsSize_flushPage ino size p data).state hflush h.size
        exact (h.written hsize hcareful).setPage (h.cached p ⟨data, true⟩ hp)
      · rename_i d hflush
        cases hstep
        exact h.written ((keepsSize_flushPage ino size p data).state hflush h.size) hcareful
    · cases hstep
  | writeBack b' =>
    cases hstep
    exact h.written h.size hcareful

theorem ReadsZero.reaches (h : ReadsZero ino a b size s)
    (hreach : Reaches (FileCache.step ino) (Careful ino a b size) s s') :
    ReadsZero ino a b size s' :=
  hreach.invariant h fun _ _ _ hs hcareful hstep ↦ hs.step hcareful hstep

theorem ReadsZero.standing (h : ReadsZero ino a b size s) (ha : a ≤ o) (hb : o < b)
    (ho : o < size) :
    s.standing ino o = 0 := by
  have hmod : o % journalBlockSize < journalBlockSize := Nat.mod_lt _ (by decide)
  have hsplit := Nat.div_add_mod' o journalBlockSize
  rw [FileCache.standing]
  cases hp : s.pages (o / journalBlockSize) with
  | some c => exact h.cached _ c hp _ hmod (by omega) (by omega)
  | none =>
    cases hf : s.inFlight (o / journalBlockSize) with
    | some fill => exact h.inFlight _ fill hf _ hmod (by omega) (by omega)
    | none =>
      refine (h.covered o ha hb ho).resolve_left ?_
      rw [Held, hp, hf]
      exact nofun

/-! ## The two calls -/

/-- **After a shrink the cached pages are zero behind the end.** -/
theorem readsZero_shrink (h : truncate ino a s = (.ok (), s'))
    (hfills : ∀ p fill, s.inFlight p = some fill → ZeroOn a b p (fill.data s.driver)) :
    ReadsZero ino a b a s' := by
  obtain ⟨hinner, hsame⟩ := truncate_inner ino h
  refine ⟨truncateInner_size hinner, fun p c hc i hi ha hb ↦ ?_, fun p fill hfill ↦ ?_,
    fun o ha _ hlt ↦ absurd hlt (not_lt.mpr ha)⟩
  · obtain ⟨c₀, -, hbyte⟩ := byte_truncate ino h hc hi
    rwa [if_neg (not_lt.mpr ha)] at hbyte
  · rw [fill.data_congr (home_truncateInner hinner)]
    exact hfills p fill (hsame ▸ hfill)

theorem ReadsZero.grow (h : ReadsZero ino a b a s) (hab : a < b)
    (hgrow : truncate ino b s = (.ok (), s'))
    (hconvert : s.driver.Converts ino b → s.Held 0 ∧ b ≤ 2 ^ 44)
    (hcovered : ∀ o, a ≤ o → o < b → s.Held o ∨ s.driver.backing ino o = 0) :
    ReadsZero ino a b b s' := by
  obtain ⟨hinner, hsame⟩ := truncate_inner ino hgrow
  have hsize : (s.driver.inodes ino).size ≤ b := h.size.le.trans hab.le
  refine ⟨truncateInner_size hinner, fun p c hc i hi ha hb ↦ ?_, fun p fill hfill ↦ ?_,
    fun o ha hb _ ↦ ?_⟩
  · obtain ⟨c₀, hc₀, hbyte⟩ := byte_truncate ino hgrow hc hi
    rw [hbyte, h.cached p c₀ hc₀ i hi ha hb, ite_self]
  · rw [fill.data_congr (home_truncateInner hinner)]
    exact h.inFlight p fill (hsame ▸ hfill)
  rw [Held, isSome_truncate ino hgrow hb, hsame]
  by_cases hconv : s.driver.Converts ino b
  · obtain ⟨hheld, hhigh⟩ := hconvert hconv
    rcases lt_or_ge o journalBlockSize with hlow | hlow
    · rw [Nat.div_eq_of_lt hlow]
      exact .inl hheld
    · exact .inr (truncateInner_convert hsize hconv hinner hlow (hb.trans_le hhigh))
  · rw [truncateInner_grow hsize hconv hinner]
    exact hcovered o ha hb

/-- Nothing that happens to the cache changes the size. -/
theorem size_of_shrink {s₁ : FileCache} (h : truncate ino a s = (.ok (), s₁))
    (hevents : Reaches (FileCache.step ino) (fun _ _ ↦ True) s₁ s') :
    (s'.driver.inodes ino).size = a := by
  have hempty {o : ℕ} {P : Prop} (ha : a ≤ o) (hb : o < a) : P := absurd hb (not_lt.mpr ha)
  refine ((readsZero_shrink (b := a) h fun _ _ _ _ _ ha hb ↦ hempty ha hb).reaches
    (hevents.mono fun t event _ ↦ ?_)).size
  cases event with
  | fill p | startFill p | transfer p | finish p => trivial
  | submit p | fail p | evict p | flush p | writeBack p => exact fun o ha hb ↦ hempty ha hb

/-- **When a byte between the two ends is zero.** Right after the second call, if the file is not
converted: just when it was zero in the place that it is read from. That is so after every run of
careful events, if the fills that were under way at the first call bring zeros; if the pages are
held, or filled from zeros, at the second call, and the first one is held if the file is converted;
and it stays so in every run of careful events after it. -/
theorem shrink_grow_read_iff {f₀ f₁ f₂ f₃ : FileCache} (hab : a < b)
    (hshrink : truncate ino a f₀ = (.ok (), f₁))
    (hevents : Reaches (FileCache.step ino) (fun _ _ ↦ True) f₁ f₂)
    (hgrow : truncate ino b f₂ = (.ok (), f₃)) :
    (¬f₂.driver.Converts ino b → ∀ o byte f, o < b →
      FileCache.readByte ino o f₃ = (.ok byte, f) → (byte = 0 ↔ f₂.standing ino o = 0)) ∧
    ((∀ p fill, f₀.inFlight p = some fill → ZeroOn a b p (fill.data f₀.driver)) →
      Reaches (FileCache.step ino) (Careful ino a b a) f₁ f₂ →
      (f₂.driver.Converts ino b → f₂.Held 0 ∧ b ≤ 2 ^ 44) →
      (∀ o, a ≤ o → o < b → f₂.Held o ∨ f₂.driver.backing ino o = 0) →
      ∀ f₄, Reaches (FileCache.step ino) (Careful ino a b b) f₃ f₄ → ∀ o byte f, a ≤ o → o < b →
        FileCache.readByte ino o f₄ = (.ok byte, f) → byte = 0) := by
  have hsize : (f₂.driver.inodes ino).size ≤ b := (size_of_shrink hshrink hevents).le.trans hab.le
  constructor
  · intro hconvert o byte f ho hread
    have hnew := truncateInner_size (truncate_inner ino hgrow).1
    rw [readByte_standing (hnew.symm ▸ ho) hread, standing_grow hgrow hsize hconvert ho]
  · intro hfills hcareful hconvert hcovered f₄ hreach o byte f ha hb hread
    have hzero := (((readsZero_shrink hshrink hfills).reaches hcareful).grow hab hgrow hconvert
      hcovered).reaches hreach
    rw [readByte_standing (hzero.size.symm ▸ hb) hread, hzero.standing ha hb hb]

/-- An inline file of ten bytes, with its page in the cache or not. -/
def tenBytes (cached : Bool) : FileCache where
  driver := withEntry ⟨.regular, 1, 10, 0, .inline (replicate 176 1)⟩
  pages _ := if cached then some ⟨.padded (replicate 10 1), false⟩ else none
  inFlight _ := none

/-- The file is cut to two bytes. -/
def twoBytes (cached : Bool) : FileCache := (truncate 5 2 (tenBytes cached)).2

/-- And it is grown to five. -/
def fiveBytes (cached : Bool) : FileCache := (truncate 5 5 (twoBytes cached)).2

/-- A file with two blocks, the second of which has ten bytes of it. -/
def twoBlocks : FileCache where
  driver := { withEntry ⟨.regular, 1, 4106, 0, .extents (.ok [⟨0, 2, 7⟩]) []⟩ with
    home := fun b ↦ .padded (if b = 8 then replicate 10 1 else []) }
  pages _ := none
  inFlight _ := none

/-- With the page in the cache, byte 3 reads as zero. -/
theorem shrink_grow_read_iff_cached :
    truncate 5 2 (tenBytes true) = (.ok (), twoBytes true) ∧
      truncate 5 5 (twoBytes true) = (.ok (), fiveBytes true) ∧
      ∃ byte f, FileCache.readByte 5 3 (fiveBytes true) = (.ok byte, f) ∧ byte = 0 := by
  have hshrink : truncate 5 2 (tenBytes true) = (.ok (), twoBytes true) := Prod.ext rfl rfl
  have hgrow : truncate 5 5 (twoBytes true) = (.ok (), fiveBytes true) := Prod.ext rfl rfl
  have hconvert : ¬(twoBytes true).driver.Converts 5 5 := fun h ↦ absurd h.2 (by decide)
  refine ⟨hshrink, hgrow, _, _, rfl, ?_⟩
  exact ((shrink_grow_read_iff (by decide) hshrink .refl hgrow).1 hconvert 3 _ _ (by decide)
    rfl).mpr rfl

set_option maxRecDepth 2000 in
/-- Without it, the old byte is back. And it is back with the page in the cache, if readahead
brought it there between the two calls. -/
theorem stale_byte_read :
    (truncate 5 2 (tenBytes false) = (.ok (), twoBytes false) ∧
      truncate 5 5 (twoBytes false) = (.ok (), fiveBytes false) ∧
      (FileCache.readByte 5 3 (fiveBytes false)).1 = .ok 1) ∧
    ∃ f₁ f₂ f₃, truncate 5 4098 twoBlocks = (.ok (), f₁) ∧
      run (FileCache.step 5) f₁ [.submit 1, .fill 0, .fill 1] = some f₂ ∧
      truncate 5 4101 f₂ = (.ok (), f₃) ∧ (FileCache.readByte 5 4099 f₃).1 = .ok 1 := by
  refine ⟨⟨Prod.ext rfl rfl, Prod.ext rfl rfl, rfl⟩, _, _, _, Prod.ext rfl rfl, rfl,
    Prod.ext rfl rfl, ?_⟩
  rfl

end FileCache

end Edos

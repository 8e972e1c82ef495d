import Edos.Journal.RingLayout
import Edos.Lib.WriteLog

/-!
# Replaying the journal

Mount-time recovery scans the ring and writes every block of every committed transaction to its home
location, unless it is revoked. The kernel and `efs-fsck` compute the same list of home writes from
the scan (`homeWrites`). `efs-fsck` applies it in order; the kernel queues the writes, up to sixteen
at a time, and lets the device complete them in any order.

## Addresses

The disk is an array of bytes. `first_block` is relative to the partition, so a ring block is read
at `partition_start_lba` plus its offset; the block number of a descriptor entry is absolute on the
device and a home block is written at `fs_block * 8` sectors. Nothing in the code keeps the two
apart: that no home block lies in the journal region is an assumption on the image.

## Order

Two journal copies of one block, enrolled by transactions that follow each other closely, are
outstanding together. Re-journalling a block does not revoke its earlier copy, so nothing orders the
two writes, and the older one may reach the disk last (`kernelReplay_agrees_iff`).
-/

namespace Edos

open List Option

/-! ## The disk -/

/-- The bytes of a device. -/
abbrev Disk := ℕ → UInt8

namespace Disk

def read (d : Disk) (off n : ℕ) : List UInt8 := (range n).map fun i ↦ d (off + i)

/-- What writing `data` at `off` does to the byte at `a`. -/
def written (off : ℕ) (data : List UInt8) (a : ℕ) : Option UInt8 :=
  if off ≤ a then data[a - off]? else none

def write (d : Disk) (off : ℕ) (data : List UInt8) : Disk := fun a ↦ (written off data a).getD (d a)

@[simp] theorem length_read (d : Disk) (off n : ℕ) : (d.read off n).length = n := by simp [read]

theorem read_congr {d d' : Disk} {off n : ℕ} (h : ∀ a, off ≤ a → a < off + n → d a = d' a) :
    d.read off n = d'.read off n := by
  refine map_congr_left fun i hi ↦ h _ (Nat.le_add_right _ _) ?_
  have := mem_range.mp hi
  omega

theorem written_eq_none {off a : ℕ} {data : List UInt8} (h : a < off ∨ off + data.length ≤ a) :
    written off data a = none := by
  rw [written]
  split_ifs with hle
  · exact getElem?_eq_none (by omega)
  · rfl

end Disk

/-! ## Home writes -/

/-- The home-block writes a scan calls for, in the order in which both replayers issue them. -/
def homeWrites (scan : JournalScan) : List (UInt64 × List UInt8) :=
  scan.txs.flatMap fun tx ↦
    (range tx.entries.length).filterMap fun i ↦ replayWrite tx i scan.revokes

def sectorsPerBlock : ℕ := 8

/-- The byte offset of a device block, through its LBA. -/
def homeOffset (fsBlock : UInt64) : ℕ := 512 * (fsBlock.toNat * sectorsPerBlock)

/-- What a home write does to the disk. -/
def homeWrite (w : UInt64 × List UInt8) (a : ℕ) : Option UInt8 :=
  Disk.written (homeOffset w.1) w.2 a

/-- Where the journal lies on the device. -/
structure JournalRegion where
  partitionStartLba : ℕ
  firstBlock : ℕ
  blockCount : ℕ

/-- The kernel is built with overflow checks. -/
inductive Panic where
  | overflow
  deriving DecidableEq

namespace JournalRegion

variable (g : JournalRegion)

/-- The LBA of a block of the region. -/
def lba (regionBlock : ℕ) : ℕ :=
  g.partitionStartLba + (g.firstBlock + regionBlock) * sectorsPerBlock

/-- Read a block of the region, as the scan's callback does. -/
def readBlock (d : Disk) (regionBlock : ℕ) : Except Panic (List UInt8) :=
  if g.lba regionBlock < 2 ^ 64 then .ok (d.read (512 * g.lba regionBlock) journalBlockSize)
  else .error .overflow

/-- Pass 1 of `replay`. Block 0 of the region is the journal superblock. -/
def scan (tailSeq tailBlock : ℕ) (d : Disk) : Except (ScanFault Panic) JournalScan :=
  if g.blockCount = 0 then .error .overflow
  else scanCommitted (g.readBlock d) (g.blockCount - 1) journalBlockSize tailSeq tailBlock

/-- A device block that has no sector in common with the journal region. -/
def Outside (fsBlock : UInt64) : Prop :=
  (fsBlock.toNat + 1) * sectorsPerBlock ≤ g.lba 0 ∨
    g.lba g.blockCount ≤ fsBlock.toNat * sectorsPerBlock

end JournalRegion

/-- What `replay` reports. -/
structure ReplayResult where
  txsApplied : ℕ
  nextSeq : ℕ
  nextBlock : ℕ
  deriving DecidableEq

/-- Pass 2 of `replay` when writes complete in the order they are submitted. The LBA of a home block
is a checked `u64` product; what has been written before it overflows stays written. -/
def applyHomeWrites : List (UInt64 × List UInt8) → Disk → Disk × Except (ScanFault Panic) Unit
  | [], d => (d, .ok ())
  | w :: ws, d =>
    if w.1.toNat * sectorsPerBlock < 2 ^ 64 then applyHomeWrites ws (applyWrite homeWrite d w)
    else (d, .error .overflow)

/-- The kernel's `replay`, with in-order completion: the disk it leaves, and what it returns. -/
def kernelReplay (g : JournalRegion) (tailSeq tailBlock : ℕ) (d : Disk) :
    Disk × Except (ScanFault Panic) ReplayResult :=
  match g.scan tailSeq tailBlock d with
  | .error e => (d, .error e)
  | .ok scan =>
    if scan.txs.isEmpty then (d, .ok ⟨0, tailSeq, tailBlock⟩)
    else
      let (d', outcome) := applyHomeWrites (homeWrites scan) d
      (d', outcome.map fun _ ↦ ⟨scan.txs.length, scan.nextSeq, scan.nextBlock⟩)

/-- The disk when replay is cut off after `k` home writes. -/
def crashedReplay (g : JournalRegion) (tailSeq tailBlock k : ℕ) (d : Disk) : Disk :=
  match g.scan tailSeq tailBlock d with
  | .error _ => d
  | .ok scan => (applyHomeWrites ((homeWrites scan).take k) d).1

/-- Why `efs-fsck` refuses to replay. -/
inductive FsckError where
  | unalignedPartition
  deriving DecidableEq

/-- `write_device_block`: the byte offset is a `u64` product, and a short block is padded. -/
def writeDeviceBlock (d : Disk) (w : UInt64 × List UInt8) : Disk :=
  d.write (w.1.toNat * journalBlockSize % 2 ^ 64)
    (w.2 ++ replicate (journalBlockSize - w.2.length) 0)

/-- The home writes of `efs-fsck`'s `replay`, one at a time. -/
def fsckReplay (partitionOffset : ℕ) (scan : JournalScan) (d : Disk) : Except FsckError Disk :=
  if partitionOffset % journalBlockSize ≠ 0 then .error .unalignedPartition
  else .ok ((homeWrites scan).foldl writeDeviceBlock d)

/-! ## Home writes are whole blocks -/

variable {firstBlock i ringSize : ℕ} {w : UInt64 × List UInt8} {g : JournalRegion} {d : Disk}
  {scan : JournalScan}

theorem length_replayWrite {tx : ScannedTx} {m : RevokeMap}
    (hlen : ∀ b ∈ tx.dataBlocks, b.length = journalBlockSize) (h : replayWrite tx i m = some w) :
    w.2.length = journalBlockSize := by
  simp only [replayWrite, bind_eq_bind, bind_eq_some_iff, Option.pure_def] at h
  obtain ⟨entry, -, h⟩ := h
  split_ifs at h with hrev
  obtain ⟨data, hdata, h⟩ := bind_eq_some_iff.mp h
  have hdata := hlen data (mem_of_getElem? hdata)
  split_ifs at h with hesc
  · cases h
    rw [length_patch (by rw [length_leBytes]; omega), hdata]
  · cases h
    exact hdata

theorem JournalRegion.length_readBlock {b : List UInt8}
    (h : g.readBlock d i = .ok b) : b.length = journalBlockSize := by
  rw [readBlock] at h
  split_ifs at h
  rw [← Except.ok.inj h, Disk.length_read]

theorem JournalRegion.scan_eq_ok {tailSeq tailBlock : ℕ}
    (h : g.scan tailSeq tailBlock d = .ok scan) :
    scanCommitted (g.readBlock d) (g.blockCount - 1) journalBlockSize tailSeq tailBlock
      = .ok scan := by
  rw [JournalRegion.scan] at h
  split_ifs at h
  exact h

theorem length_homeWrite {tailSeq tailBlock : ℕ} (hscan : g.scan tailSeq tailBlock d = .ok scan) :
    ∀ w ∈ homeWrites scan, w.2.length = journalBlockSize := by
  intro w hw
  obtain ⟨tx, htx, hw⟩ := mem_flatMap.mp hw
  obtain ⟨i, -, hw⟩ := mem_filterMap.mp hw
  exact length_replayWrite (scanCommitted_dataBlocks
    (fun _ _ ↦ JournalRegion.length_readBlock) (JournalRegion.scan_eq_ok hscan) tx htx) hw

/-- Writes of whole blocks agree where they overlap exactly when they do not write different
contents to the same block. -/
theorem compatible_homeWrite_iff {w' : UInt64 × List UInt8} (hw : w.2.length = journalBlockSize)
    (hw' : w'.2.length = journalBlockSize) :
    Compatible homeWrite w w' ↔ (w.1 = w'.1 → w.2 = w'.2) := by
  have hat (u : UInt64 × List UInt8) (i : ℕ) : homeWrite u (homeOffset u.1 + i) = u.2[i]? := by
    rw [homeWrite, Disk.written, if_pos (Nat.le_add_right _ _), Nat.add_sub_cancel_left]
  constructor
  · intro h heq
    refine ext_getElem (hw.trans hw'.symm) fun i hi hi' ↦ ?_
    refine h (homeOffset w.1 + i) _ _ ?_ ?_
    · rw [hat, getElem?_eq_getElem hi]
    · rw [heq, hat, getElem?_eq_getElem hi']
  · intro h a v v' hv hv'
    have hin {u : UInt64 × List UInt8} {x : UInt8} (hu : u.2.length = journalBlockSize)
        (hx : homeWrite u a = some x) :
        u.1.toNat * journalBlockSize ≤ a ∧ a < u.1.toNat * journalBlockSize + journalBlockSize := by
      by_contra hout
      rw [homeWrite, Disk.written_eq_none] at hx
      · cases hx
      · simp only [homeOffset, sectorsPerBlock, journalBlockSize] at *
        omega
    have hsame : w.1 = w'.1 := by
      have h1 := hin hw hv
      have h2 := hin hw' hv'
      apply UInt64.toNat_inj.mp
      simp only [journalBlockSize] at h1 h2
      omega
    obtain ⟨b, data⟩ := w
    obtain ⟨b', data'⟩ := w'
    obtain rfl : b = b' := hsame
    obtain rfl : data = data' := h rfl
    exact some.inj (hv.symm.trans hv')

/-- The bytes of a home block. -/
def Disk.homeBlock (d : Disk) (b : UInt64) : List UInt8 := d.read (homeOffset b) journalBlockSize

theorem homeBlock_applyWrite (d : Disk) (hw : w.2.length = journalBlockSize) (b : UInt64) :
    Disk.homeBlock (applyWrite homeWrite d w) b = if w.1 = b then w.2 else d.homeBlock b := by
  split_ifs with hb
  · subst hb
    refine ext_getElem ((Disk.length_read _ _ _).trans hw.symm) fun i hi hi' ↦ ?_
    simp only [Disk.homeBlock, Disk.read, getElem_map, getElem_range, applyWrite,
      homeWrite, Disk.written]
    rw [if_pos (Nat.le_add_right _ _), Nat.add_sub_cancel_left, getElem?_eq_getElem hi', getD_some]
  · have hne : w.1.toNat ≠ b.toNat := fun h ↦ hb (UInt64.toNat_inj.mp h)
    refine Disk.read_congr fun a hle hlt ↦ ?_
    rw [applyWrite, homeWrite, Disk.written_eq_none, getD_none]
    simp only [homeOffset, sectorsPerBlock, journalBlockSize] at hle hlt hw ⊢
    omega

/-- **The last home write of a block wins.** -/
theorem homeBlock_applyAll {ws : List (UInt64 × List UInt8)}
    (hlen : ∀ w ∈ ws, w.2.length = journalBlockSize) (d : Disk) (b : UInt64) :
    Disk.homeBlock (applyAll homeWrite ws d) b
      = ((ws.filter fun w ↦ w.1 = b).getLast?.map Prod.snd).getD (d.homeBlock b) := by
  induction ws generalizing d with
  | nil => simp [applyAll]
  | cons w ws ih =>
    rw [applyAll, foldl_cons, ← applyAll, ih fun w' hw' ↦ hlen w' (mem_cons_of_mem w hw'),
      homeBlock_applyWrite d (hlen w mem_cons_self), filter_cons]
    by_cases hb : w.1 = b
    · rw [if_pos hb, if_pos (decide_eq_true hb), getLast?_cons]
      cases (ws.filter fun w ↦ w.1 = b).getLast? <;> simp
    · rw [if_neg hb, if_neg (by simpa using hb)]

/-! ## Images -/

/-- A disk whose journal region, from block `firstBlock` on, holds the given ring. -/
def imageDisk (firstBlock : ℕ) (ring : ℕ → List UInt8) : Disk :=
  fun a ↦ ((ring (a / 4096 - firstBlock - 1))[a % 4096]?).getD 0

variable {blockCount : ℕ} {ring : ℕ → List UInt8}

theorem readBlock_imageDisk (hlen : (ring i).length = journalBlockSize)
    (haddr : (firstBlock + (i + 1)) * 8 < 2 ^ 64) :
    JournalRegion.readBlock ⟨0, firstBlock, blockCount⟩ (imageDisk firstBlock ring) (i + 1)
      = .ok (ring i) := by
  have hlba : JournalRegion.lba ⟨0, firstBlock, blockCount⟩ (i + 1) =
      (firstBlock + (i + 1)) * 8 := by
    simp only [JournalRegion.lba, sectorsPerBlock, zero_add]
  rw [JournalRegion.readBlock, hlba, if_pos haddr]
  refine congrArg _ (ext_getElem (by rw [Disk.length_read, hlen]) fun k hk hk' ↦ ?_)
  rw [hlen, journalBlockSize] at hk'
  have hdiv : (512 * ((firstBlock + (i + 1)) * 8) + k) / 4096 - firstBlock - 1 = i := by omega
  have hmod : (512 * ((firstBlock + (i + 1)) * 8) + k) % 4096 = k := by omega
  simp only [Disk.read, getElem_map, getElem_range, imageDisk, hdiv, hmod]
  rw [getElem?_eq_getElem, getD_some]

theorem holds_imageDisk {pos : ℕ} {blocks : List (List UInt8)} (hring : 0 < ringSize)
    (hlen : ∀ i, (ring i).length = journalBlockSize) (haddr : (firstBlock + ringSize) * 8 < 2 ^ 64)
    (h : Holds (ringReader ring) ringSize pos blocks) :
    Holds (JournalRegion.readBlock ⟨0, firstBlock, blockCount⟩ (imageDisk firstBlock ring)) ringSize
      pos blocks := by
  intro k b hk
  have hmod := Nat.mod_lt (pos + k) hring
  have hslot := h k b hk
  rw [readRingBlock_ringReader] at hslot
  rw [readRingBlock_eq_ok, readBlock_imageDisk (hlen _) (by omega), Except.ok.inj hslot]

theorem filterMap_range_getElem? {α β : Type*} (l : List α) (f : α → Option β) :
    (range l.length).filterMap (fun i ↦ l[i]?.bind f) = l.filterMap f := by
  induction l with
  | nil => rfl
  | cons a l ih =>
    rw [length_cons, range_succ_eq_map, filterMap_cons, filterMap_map, filterMap_cons, ← ih]
    rfl

/-- The home writes of a scan that found the given images: every block of each that no later
transaction revoked. -/
theorem homeWrites_scanned (txs : List TxImage) (h : scan.txs = txs.map TxImage.scanned) :
    homeWrites scan = txs.flatMap fun tx ↦ tx.blocks.filterMap fun e ↦
      if scan.revokes[e.1]?.any fun v ↦ tx.seq ≤ v then none else some (e.1, e.2.bytes) := by
  rw [homeWrites, h, flatMap_map]
  refine flatMap_congr fun tx _ ↦ ?_
  have hlen : tx.scanned.entries.length = tx.blocks.length := tx.length_entries
  rw [hlen, ← filterMap_range_getElem? tx.blocks]
  refine filterMap_congr fun i hi ↦ ?_
  have hlt := mem_range.mp hi
  rw [getElem?_eq_getElem hlt, bind_some]
  exact replayWrite_scanned (getElem?_eq_getElem hlt) _

variable {txs : List TxImage}

/-- A disk image with the given transactions at the start of its ring, and zeros behind them. -/
theorem layout_imageDisk (hring : 0 < ringSize) (hfit : (layout txs).length ≤ ringSize)
    (hfirst : firstBlock + ringSize < 2 ^ 60) :
    let read := JournalRegion.readBlock ⟨0, firstBlock, ringSize + 1⟩
      (imageDisk firstBlock (writeRing ringSize (fun _ ↦ Page.zero.bytes) 0 (layout txs)))
    Holds read ringSize 0 (layout txs) ∧
      ((layout txs).length < ringSize → ∃ block,
        readRingBlock read ringSize (0 + (layout txs).length) = .ok block ∧
          ∀ seq hdr, checkDescriptor block seq ≠ .ok hdr) := by
  have hlen : ∀ i, (writeRing ringSize (fun _ ↦ Page.zero.bytes) 0 (layout txs) i).length
      = journalBlockSize := by
    refine writeRing_forall (P := fun b ↦ b.length = journalBlockSize)
      (fun _ ↦ Page.zero.length_bytes) fun b hb ↦ ?_
    obtain ⟨tx, -, hb⟩ := mem_flatMap.mp hb
    exact tx.length_of_mem_ringBlocks hb
  refine ⟨holds_imageDisk hring hlen (by omega) (holds_writeRing hfit), fun hlt ↦
    ⟨Page.zero.bytes, ?_, ?_⟩⟩
  · have hmod : (0 + (layout txs).length) % ringSize = (layout txs).length := by
      rw [zero_add, Nat.mod_eq_of_lt hlt]
    rw [readRingBlock_eq_ok, hmod]
    refine (readBlock_imageDisk (hlen _) (by omega)).trans ?_
    rw [writeRing_of_ne fun k hk ↦ by rw [zero_add, Nat.mod_eq_of_lt (by omega)]; omega]
  · simp [checkDescriptor, Page.parseHeader_zero]

theorem scan_imageDisk (hring : 0 < ringSize) (hcons : Consecutive 1 txs)
    (hcap : ∀ tx ∈ txs, tx.blocks.length ≤ descriptorCapacity journalBlockSize)
    (hfit : (layout txs).length ≤ ringSize) (hfirst : firstBlock + ringSize < 2 ^ 60)
    (hseq : 1 + txs.length < 2 ^ 64) :
    ∃ why, JournalRegion.scan ⟨0, firstBlock, ringSize + 1⟩ 1 0
        (imageDisk firstBlock (writeRing ringSize (fun _ ↦ Page.zero.bytes) 0 (layout txs)))
      = .ok ⟨txs.map TxImage.scanned, addRevokes ∅ (txs.flatMap TxImage.readableRevokes),
          1 + txs.length, 0 + (layout txs).length, (layout txs).length, why⟩ := by
  obtain ⟨hholds, hnext⟩ := layout_imageDisk hring hfit hfirst
  rw [JournalRegion.scan, if_neg (Nat.succ_ne_zero _), Nat.add_sub_cancel]
  refine scanCommitted_of_holds hring hcons hcap hfit hholds (fun hlt ↦ ?_) (by omega) hseq
  obtain ⟨block, hread, hnot⟩ := hnext hlt
  exact ⟨block, hread, hnot _⟩

/-! ## The kernel's queue against one write at a time -/

def maxInflightReplay : ℕ := 16

/-- States of pass 2 of the kernel's `replay`, over any order of completion. -/
def ReplayReaches (scan : JournalScan) (d : Disk)
    (q : WriteQueue ℕ UInt8 (UInt64 × List UInt8)) : Prop :=
  Reaches (WriteQueue.step homeWrite maxInflightReplay) (fun _ _ ↦ True)
    (WriteQueue.start (homeWrites scan) d) q

/-- Home writes that can be outstanding together do not write different contents to one block. -/
def NoRewriteInWindow (ws : List (UInt64 × List UInt8)) : Prop :=
  ∀ i j w w', i < j → j < i + maxInflightReplay → ws[i]? = some w → ws[j]? = some w' →
    w.1 = w'.1 → w.2 = w'.2

theorem windowCompatible_homeWrites {ws : List (UInt64 × List UInt8)}
    (hlen : ∀ w ∈ ws, w.2.length = journalBlockSize) (h : NoRewriteInWindow ws) :
    WindowCompatible homeWrite maxInflightReplay ws :=
  fun i j w w' hij hji hi hj ↦ (compatible_homeWrite_iff (hlen w (mem_of_getElem? hi))
    (hlen w' (mem_of_getElem? hj))).mpr (h i j w w' hij hji hi hj)

/-- `efs-fsck` writes a home block to the same bytes as the kernel. -/
theorem writeDeviceBlock_eq (hlen : w.2.length = journalBlockSize)
    (haddr : w.1.toNat * journalBlockSize < 2 ^ 64) :
    writeDeviceBlock d w = applyWrite homeWrite d w := by
  have hoff : w.1.toNat * journalBlockSize = homeOffset w.1 := by
    simp only [homeOffset, sectorsPerBlock, journalBlockSize]
    omega
  rw [writeDeviceBlock, Nat.mod_eq_of_lt haddr, hlen, Nat.sub_self, replicate_zero,
    append_nil, hoff]
  rfl

theorem fsckReplay_eq_ok {partitionOffset : ℕ} {home : Disk}
    (hlen : ∀ w ∈ homeWrites scan, w.2.length = journalBlockSize)
    (haddr : ∀ w ∈ homeWrites scan, w.1.toNat * journalBlockSize < 2 ^ 64)
    (h : fsckReplay partitionOffset scan d = .ok home) :
    home = applyAll homeWrite (homeWrites scan) d := by
  rw [fsckReplay] at h
  split_ifs at h
  rw [← Except.ok.inj h, applyAll]
  exact foldl_ext _ _ _ fun d w hw ↦ writeDeviceBlock_eq (hlen w hw) (haddr w hw)

/-- **Kernel replay and `efs-fsck` replay.** In every order of completion the kernel leaves the disk
that `efs-fsck` leaves, and never has two different contents for one block outstanding, exactly when
the scan has no two home writes of different contents for one block fewer than sixteen writes
apart. -/
theorem kernelReplay_agrees_iff {g : JournalRegion} {tailSeq tailBlock partitionOffset : ℕ}
    {d home : Disk} {scan : JournalScan} (hscan : g.scan tailSeq tailBlock d = .ok scan)
    (haddr : ∀ w ∈ homeWrites scan, w.1.toNat * journalBlockSize < 2 ^ 64)
    (hfsck : fsckReplay partitionOffset scan d = .ok home) :
    (∀ q, ReplayReaches scan d q → (q.Drained → q.store = home) ∧
      ∀ i j w w', q.Outstanding i w → q.Outstanding j w' → w.1 = w'.1 → w.2 = w'.2) ↔
      NoRewriteInWindow (homeWrites scan) := by
  have hlen := length_homeWrite hscan
  constructor
  · intro h i j w w' hij hji hi hj
    obtain ⟨hjlen, -⟩ := List.getElem?_eq_some_iff.mp hj
    obtain ⟨q, hq, -, hinflight⟩ := WriteQueue.reaches_outstanding homeWrite
      (by decide : 0 < maxInflightReplay) (homeWrites scan) d (j + 1) hjlen
    have hat {k : ℕ} {u : UInt64 × List UInt8} (hk : (homeWrites scan)[k]? = some u) (hkj : k ≤ j)
        (hjk : j < k + maxInflightReplay) :
        q.Outstanding (k - (j + 1 - maxInflightReplay)) u := by
      rw [WriteQueue.Outstanding, hinflight, getElem?_map, getElem?_drop,
        Nat.add_sub_cancel' (by omega), getElem?_take_of_lt (by omega), hk]
      rfl
    exact (h q hq).2 _ _ w w' (hat hi hij.le hji) (hat hj le_rfl (by omega))
  · intro h q hq
    have hcompat := windowCompatible_homeWrites hlen h
    refine ⟨fun hdrained ↦ ?_, fun i j w w' hi hj ↦ ?_⟩
    · rw [fsckReplay_eq_ok hlen haddr hfsck]
      exact WriteQueue.store_of_drained hcompat hq hdrained
    · have hmem {k : ℕ} {u : UInt64 × List UInt8} (hk : q.Outstanding k u) :
          u ∈ q.inflight.map Prod.fst := List.mem_map_of_mem (mem_of_getElem? hk)
      obtain ⟨reaped, hsound⟩ := WriteQueue.sound_of_reaches hcompat hq
      have hin {u : UInt64 × List UInt8} (hu : u ∈ q.inflight.map Prod.fst) :
          u.2.length = journalBlockSize := by
        refine hlen u ?_
        rw [hsound.split]
        exact mem_append_right _ (mem_append_left _ hu)
      exact (compatible_homeWrite_iff (hin (hmem hi)) (hin (hmem hj))).mp
        (hsound.compatible hcompat (hmem hi) (hmem hj))

/-- A page of ones. -/
def Page.one : Page := ⟨replicate journalBlockSize 1, length_replicate⟩

/-- A disk whose journal holds one transaction, which journals block 5. -/
def diskWithFive : Disk :=
  imageDisk 16 (writeRing 6 (fun _ ↦ Page.zero.bytes) 0 (layout [committedFive]))

theorem scan_diskWithFive :
    ∃ why, JournalRegion.scan ⟨0, 16, 7⟩ 1 0 diskWithFive
      = .ok ⟨[committedFive.scanned], ∅, 2, 3, 3, why⟩ := by
  obtain ⟨why, hscan⟩ := scan_imageDisk (by decide : 0 < 6)
    (by decide : Consecutive 1 [committedFive]) (by decide)
    (by rw [length_layout_committedFive]; decide) (by decide : 16 + 6 < 2 ^ 60) (by decide)
  exact ⟨why, hscan⟩

/-- The home writes of one transaction are to different blocks: their order does not matter. -/
theorem kernelReplay_agrees_twoBlocks :
    let txs : List TxImage := [⟨1, 1, [(5, Page.zero), (6, Page.one)], []⟩]
    let d := imageDisk 16 (writeRing 6 (fun _ ↦ Page.zero.bytes) 0 (layout txs))
    ∃ scan home, JournalRegion.scan ⟨0, 16, 7⟩ 1 0 d = .ok scan ∧
      homeWrites scan = [(5, Page.zero.bytes), (6, Page.one.bytes)] ∧
      fsckReplay 0 scan d = .ok home ∧ ∀ q, ReplayReaches scan d q → q.Drained →
        q.store = home := by
  intro txs d
  have hlen : (layout txs).length = 4 := by rw [length_layout]; decide
  obtain ⟨why, hscan⟩ := scan_imageDisk (by decide : 0 < 6) (by decide : Consecutive 1 txs)
    (by decide) (by rw [hlen]; decide) (by decide : 16 + 6 < 2 ^ 60) (by decide)
  have hwrites : homeWrites ⟨txs.map TxImage.scanned,
      addRevokes ∅ (txs.flatMap TxImage.readableRevokes), 1 + txs.length, 0 + (layout txs).length,
      (layout txs).length, why⟩ = [(5, Page.zero.bytes), (6, Page.one.bytes)] := by
    rfl
  have hagree := kernelReplay_agrees_iff hscan (by rw [hwrites]; decide)
    (rfl : fsckReplay 0 _ d = .ok _)
  refine ⟨_, _, hscan, hwrites, rfl, fun q hq ↦ (hagree.mpr ?_ q hq).1⟩
  rw [hwrites]
  rintro (_ | i) (_ | _ | j) w w' hij _ hi hj
  · exact absurd hij (lt_irrefl _)
  · cases hi
    cases hj
    exact fun h ↦ absurd h (by decide)
  · cases hj
  all_goals
    have hj' := (List.getElem?_eq_some_iff.mp hj).1
    simp only [length_cons, length_nil] at hj'
    omega

/-- **Reordered.** Two committed transactions journal block 5. The two home writes are outstanding
together, the device completes the second before the first, and the kernel leaves the older contents
where `efs-fsck` leaves the newer ones. -/
theorem kernelReplay_reorders :
    let txs : List TxImage := [committedFive, ⟨2, 2, [(5, Page.one)], []⟩]
    let d := imageDisk 16 (writeRing 6 (fun _ ↦ Page.zero.bytes) 0 (layout txs))
    ∃ scan home q, JournalRegion.scan ⟨0, 16, 7⟩ 1 0 d = .ok scan ∧
      fsckReplay 0 scan d = .ok home ∧ ReplayReaches scan d q ∧ q.Drained ∧
      home (4096 * 5) = 1 ∧ q.store (4096 * 5) = 0 := by
  intro txs d
  have hlen : (layout txs).length = 6 := by rw [length_layout]; decide
  obtain ⟨why, hscan⟩ := scan_imageDisk (by decide : 0 < 6) (by decide : Consecutive 1 txs)
    (by decide) hlen.le (by decide : 16 + 6 < 2 ^ 60) (by decide)
  have hwrites : homeWrites ⟨txs.map TxImage.scanned,
      addRevokes ∅ (txs.flatMap TxImage.readableRevokes), 1 + txs.length, 0 + (layout txs).length,
      (layout txs).length, why⟩ = [(5, Page.zero.bytes), (5, Page.one.bytes)] := by
    rfl
  have hrun : run (WriteQueue.step homeWrite maxInflightReplay)
      (WriteQueue.start [(5, Page.zero.bytes), (5, Page.one.bytes)] d)
      [.submit, .submit, .complete 1, .complete 0, .reap, .reap]
      = some ⟨[], [], applyWrite homeWrite (applyWrite homeWrite d (5, Page.one.bytes))
          (5, Page.zero.bytes)⟩ := rfl
  have hfive (d' : Disk) (page : Page) : applyWrite homeWrite d' (5, page.bytes) (4096 * 5)
      = (page.bytes[0]?).getD (d' (4096 * 5)) := by
    have hoff : homeOffset 5 = 4096 * 5 := by decide
    rw [applyWrite, homeWrite, Disk.written, hoff, if_pos le_rfl, Nat.sub_self]
  have hhome := fsckReplay_eq_ok (length_homeWrite hscan) (by rw [hwrites]; decide)
    (rfl : fsckReplay 0 _ d = .ok _)
  refine ⟨_, _, ⟨[], [], applyWrite homeWrite (applyWrite homeWrite d (5, Page.one.bytes))
    (5, Page.zero.bytes)⟩, hscan, rfl, ?_, ⟨rfl, rfl⟩, ?_, ?_⟩
  · exact reaches_of_run (fun _ _ _ ↦ trivial) hrun
  · rw [hhome, hwrites]
    exact hfive (applyWrite homeWrite d (5, Page.zero.bytes)) Page.one
  · exact hfive (applyWrite homeWrite d (5, Page.one.bytes)) Page.zero

/-! ## Restarting a replay -/

section Restart

variable {g : JournalRegion} {tailSeq tailBlock : ℕ} {d d' : Disk}

theorem JournalRegion.readBlock_congr
    (h : ∀ a, 512 * g.lba 0 ≤ a → a < 512 * g.lba g.blockCount → d a = d' a) {i : ℕ}
    (hi : i < g.blockCount) : g.readBlock d i = g.readBlock d' i := by
  have hread : d.read (512 * g.lba i) journalBlockSize
      = d'.read (512 * g.lba i) journalBlockSize := by
    have hlow : g.lba 0 ≤ g.lba i := by simp only [lba, sectorsPerBlock]; omega
    have hhigh : g.lba i + 8 ≤ g.lba g.blockCount := by simp only [lba, sectorsPerBlock]; omega
    rw [journalBlockSize]
    exact Disk.read_congr fun a hle hlt ↦ h a (by omega) (by omega)
  rw [readBlock, readBlock, hread]

theorem JournalRegion.scan_congr
    (h : ∀ a, 512 * g.lba 0 ≤ a → a < 512 * g.lba g.blockCount → d a = d' a)
    (tailSeq tailBlock : ℕ) :
    g.scan tailSeq tailBlock d = g.scan tailSeq tailBlock d' := by
  rw [scan, scan, scanCommitted_congr fun i hi ↦ readBlock_congr h (by omega)]

variable {ws : List (UInt64 × List UInt8)}

/-- The home writes that come before one whose LBA overflows. -/
def reachableWrites (ws : List (UInt64 × List UInt8)) : List (UInt64 × List UInt8) :=
  ws.takeWhile fun w ↦ w.1.toNat * sectorsPerBlock < 2 ^ 64

theorem applyHomeWrites_spec (ws : List (UInt64 × List UInt8)) (d : Disk) :
    applyHomeWrites ws d = (applyAll homeWrite (reachableWrites ws) d,
      if reachableWrites ws = ws then .ok () else .error .overflow) := by
  induction ws generalizing d with
  | nil => rfl
  | cons w ws ih =>
    by_cases h : w.1.toNat * sectorsPerBlock < 2 ^ 64
    · rw [applyHomeWrites, if_pos h, ih, reachableWrites, reachableWrites,
        takeWhile_cons_of_pos (by rwa [decide_eq_true_eq])]
      simp only [cons.injEq, true_and]
      rfl
    · rw [applyHomeWrites, if_neg h, reachableWrites,
        takeWhile_cons_of_neg (by rwa [decide_eq_true_eq])]
      rfl

/-- With every home block addressable, all the home writes are applied. -/
theorem applyHomeWrites_eq (h : ∀ w ∈ ws, w.1.toNat * sectorsPerBlock < 2 ^ 64) (d : Disk) :
    applyHomeWrites ws d = (applyAll homeWrite ws d, .ok ()) := by
  have hall : reachableWrites ws = ws :=
    takeWhile_eq_self_iff.mpr fun w hw ↦ decide_eq_true (h w hw)
  rw [applyHomeWrites_spec, hall, if_pos rfl]

theorem mem_reachableWrites_take {k : ℕ} {w : UInt64 × List UInt8}
    (h : w ∈ reachableWrites (ws.take k)) : w ∈ reachableWrites ws := by
  rw [reachableWrites, ← take_append_drop k ws, takeWhile_append]
  split_ifs
  · have hwhole : reachableWrites (ws.take k) <+: ws.take k := takeWhile_prefix _
    exact mem_append_left _ (hwhole.subset h)
  · exact h

/-- Replaying again over a replay that was cut off. -/
theorem applyHomeWrites_restart (ws : List (UInt64 × List UInt8)) (k : ℕ) (d : Disk) :
    applyHomeWrites ws (applyHomeWrites (ws.take k) d).1 = applyHomeWrites ws d := by
  rw [applyHomeWrites_spec, applyHomeWrites_spec, applyHomeWrites_spec ws d,
    applyAll_absorb fun w hw ↦ mem_reachableWrites_take hw]

theorem applyHomeWrites_region {scan : JournalScan} (hscan : g.scan tailSeq tailBlock d = .ok scan)
    (hout : ∀ w ∈ homeWrites scan, g.Outside w.1) (k a : ℕ) (hle : 512 * g.lba 0 ≤ a)
    (hlt : a < 512 * g.lba g.blockCount) :
    (applyHomeWrites ((homeWrites scan).take k) d).1 a = d a := by
  have hmem {w : UInt64 × List UInt8} (hw : w ∈ reachableWrites ((homeWrites scan).take k)) :
      w ∈ homeWrites scan := mem_of_mem_take ((List.takeWhile_prefix _).subset hw)
  rw [applyHomeWrites_spec]
  refine applyAll_of_untouched (fun w hw ↦ Disk.written_eq_none ?_) d
  rw [length_homeWrite hscan w (hmem hw), homeOffset, journalBlockSize]
  rcases hout w (hmem hw) with hlow | hhigh
  · rw [Nat.succ_mul, sectorsPerBlock] at hlow
    rw [sectorsPerBlock]
    omega
  · omega

theorem kernelReplay_region
    (hout : ∀ scan, g.scan tailSeq tailBlock d = .ok scan → ∀ w ∈ homeWrites scan, g.Outside w.1)
    (a : ℕ) (hle : 512 * g.lba 0 ≤ a) (hlt : a < 512 * g.lba g.blockCount) :
    (kernelReplay g tailSeq tailBlock d).1 a = d a := by
  rw [kernelReplay]
  split
  · rfl
  · rename_i scan hscan
    split_ifs
    · rfl
    · have hregion := applyHomeWrites_region hscan (hout scan hscan)
          (homeWrites scan).length a hle hlt
      rwa [take_length] at hregion

/-- What the kernel's `replay` returns is where its scan ended. -/
theorem kernelReplay_eq_ok {res : ReplayResult}
    (h : (kernelReplay g tailSeq tailBlock d).2 = .ok res) :
    ∃ scan, g.scan tailSeq tailBlock d = .ok scan ∧ res.nextSeq = scan.nextSeq ∧
      res.nextBlock = scan.nextBlock := by
  rw [kernelReplay] at h
  split at h
  · cases h
  · rename_i scan hscan
    refine ⟨scan, hscan, ?_⟩
    split_ifs at h with hempty
    · cases h
      obtain ⟨hseq, hblock⟩ := scanCommitted_next_of_empty (JournalRegion.scan_eq_ok hscan)
        (List.isEmpty_iff.mp hempty)
      exact ⟨hseq.symm, hblock.symm⟩
    · simp only at h
      cases hout : (applyHomeWrites (homeWrites scan) d).2 with
      | error e => rw [hout] at h; cases h
      | ok _ => rw [hout] at h; cases h; exact ⟨rfl, rfl⟩

/-- **Replay is restartable.** With home blocks outside the journal region, a replay that follows
one cut off after any number of home writes finds the same transactions, returns the same cursors
and leaves the same disk as one replay that was not. A scan from the cursors it returns finds
nothing, unless the walk had gone once around the ring and the slot it came back to opens a
committed transaction with just that sequence number. -/
theorem kernelReplay_restart (g : JournalRegion) (tailSeq tailBlock : ℕ) (d : Disk)
    (hout : ∀ scan, g.scan tailSeq tailBlock d = .ok scan →
      ∀ w ∈ homeWrites scan, g.Outside w.1) :
    (∀ k, g.scan tailSeq tailBlock (crashedReplay g tailSeq tailBlock k d)
          = g.scan tailSeq tailBlock d ∧
        kernelReplay g tailSeq tailBlock (crashedReplay g tailSeq tailBlock k d)
          = kernelReplay g tailSeq tailBlock d) ∧
      ∀ res scan', (kernelReplay g tailSeq tailBlock d).2 = .ok res →
        g.scan res.nextSeq res.nextBlock (kernelReplay g tailSeq tailBlock d).1 = .ok scan' →
        scan'.txs ≠ [] →
        (∃ scan, g.scan tailSeq tailBlock d = .ok scan ∧ scan.stop = .ringBound res.nextSeq) ∧
          ∃ tx m pos' hasRevoke, tx.seq = res.nextSeq ∧
            scanTx (g.readBlock d) (g.blockCount - 1) journalBlockSize ∅ res.nextBlock res.nextSeq
              = .ok (.accept tx m pos' hasRevoke) := by
  constructor
  · intro k
    rw [crashedReplay]
    split
    · exact ⟨rfl, rfl⟩
    · rename_i scan hscan
      have hsame : g.scan tailSeq tailBlock (applyHomeWrites ((homeWrites scan).take k) d).1
          = g.scan tailSeq tailBlock d :=
        JournalRegion.scan_congr (applyHomeWrites_region hscan (hout scan hscan) k) _ _
      refine ⟨hsame, ?_⟩
      rw [kernelReplay, kernelReplay, hsame, hscan]
      simp only [applyHomeWrites_restart]
      split_ifs with hempty
      · have hnone : homeWrites scan = [] := by
          rw [homeWrites, List.isEmpty_iff.mp hempty, flatMap_nil]
        rw [hnone, take_nil]
        rfl
      · rfl
  · intro res scan' hres hscan' hne
    obtain ⟨scan, hscan, hseq, hblock⟩ := kernelReplay_eq_ok hres
    rw [JournalRegion.scan_congr (kernelReplay_region hout)] at hscan'
    have hcommitted := JournalRegion.scan_eq_ok hscan
    have hcommitted' := JournalRegion.scan_eq_ok hscan'
    rcases Nat.eq_zero_or_pos (g.blockCount - 1) with hzero | hring
    · rw [hzero] at hcommitted'
      cases hcommitted'
      exact absurd rfl hne
    obtain ⟨-, txs, es, pos, seq, why, hacc, hstop, rfl⟩ :=
      (scanCommitted_eq_ok hring).mp hcommitted
    obtain ⟨-, txs', es', pos', seq', why', hacc', -, rfl⟩ :=
      (scanCommitted_eq_ok hring).mp hcommitted'
    rw [hseq, hblock] at hacc' ⊢
    cases hacc' with
    | nil => exact absurd rfl hne
    | cons _ hturn _ _ =>
      refine ⟨⟨_, hscan, ?_⟩, _, _, _, _, scanTx_accept_seq hturn, hturn⟩
      rcases hstop with ⟨-, hwhy⟩ | ⟨-, m, hstop⟩
      · exact hwhy
      · exact absurd (hturn.symm.trans hstop) (by simp)

end Restart

/-- Block 5 is outside a region that starts at block 16. -/
theorem kernelReplay_restart_diskWithFive :
    kernelReplay ⟨0, 16, 7⟩ 1 0 (crashedReplay ⟨0, 16, 7⟩ 1 0 1 diskWithFive)
      = kernelReplay ⟨0, 16, 7⟩ 1 0 diskWithFive := by
  obtain ⟨why, hfive⟩ := scan_diskWithFive
  refine ((kernelReplay_restart ⟨0, 16, 7⟩ 1 0 diskWithFive fun scan hscan w hw ↦ ?_).1 1).2
  rw [hfive] at hscan
  rw [← Except.ok.inj hscan, homeWrites_scanned [committedFive] rfl] at hw
  rw [mem_singleton.mp hw]
  exact .inl (by decide)

end Edos

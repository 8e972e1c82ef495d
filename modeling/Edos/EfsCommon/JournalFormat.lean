import Edos.Lib.Bytes

/-!
# Journal blocks on disk

The three block kinds of the journal ring and the checksum that seals them: the writers
`build_descriptor_block`, `build_revoke_block` and `build_commit_block`, and the readers
`parse_header`, `parse_descriptor_entries`, `parse_revoke_entries` and `commit_payload_crc`. Every
structure is packed, so a record is the concatenation of its fields in little-endian order.

## What is lost on the way

A descriptor stores the number of its entries and then the entries that fit; a revoke block stores
the entries that fit and relies on the zeroed rest of the block to end the list. Both writers drop
what does not fit without a word, and the revoke reader also stops at an entry that happens to be
all zeros. The read-back theorems `parseDescriptorEntries_build` and `parseRevokeEntries_build` say
exactly that much and no more: the first `recordCapacity` entries, and of the revokes only those
before the first null one.
-/

namespace Edos

open List

/-! ## CRC32 -/

/-- One shift of the reflected polynomial. -/
def crcShift (c : UInt32) : UInt32 :=
  if c &&& 1 ≠ 0 then (0xEDB88320 : UInt32) ^^^ (c >>> 1) else c >>> 1

/-- An entry of `CRC32_TABLE`, as `make_crc32_table` computes it. -/
def crc32Table (i : UInt32) : UInt32 := crcShift^[8] i

/-- CRC32 over a byte slice. -/
def crc32 (data : List UInt8) : UInt32 :=
  ~~~ data.foldl (fun crc byte ↦ crc32Table ((crc ^^^ byte.toUInt32) &&& 0xFF) ^^^ (crc >>> 8))
    0xFFFFFFFF

/-- The checksum of a transaction's payload: its data blocks, concatenated in order. -/
def commitBlockChecksum (payload : List UInt8) : UInt32 := crc32 payload

/-! ## Headers and entries -/

/-- `JOURNAL_BLOCK_MAGIC`, the bytes `EJB!`. -/
def journalBlockMagic : UInt32 := 0x21424A45

/-- The discriminant stored in a header's `kind`. -/
inductive JournalBlockKind where
  | descriptor
  | commit
  | revoke
  deriving DecidableEq, Repr

/-- The byte the kind is stored as. -/
def JournalBlockKind.toByte : JournalBlockKind → UInt8
  | descriptor => 1
  | commit => 2
  | revoke => 3

/-- The header at offset 0 of a descriptor, commit or revoke block. The padding bytes are written
as zeros and never read. -/
structure JournalBlockHeader where
  magic : UInt32
  kind : UInt8
  seq : ℕ
  txId : UInt64
  deriving DecidableEq, Repr

namespace JournalBlockHeader

def size : ℕ := 24

def toBytes (h : JournalBlockHeader) : List UInt8 :=
  leBytes 4 h.magic.toNat ++ [h.kind] ++ [0, 0, 0] ++ leBytes 8 h.seq ++ leBytes 8 h.txId.toNat

def ofBytes (bs : List UInt8) : JournalBlockHeader where
  magic := UInt32.ofNat (leNat (window bs 0 4))
  kind := (window bs 4 1).headD 0
  seq := leNat (window bs 8 8)
  txId := UInt64.ofNat (leNat (window bs 16 8))

@[simp] theorem length_toBytes (h : JournalBlockHeader) : h.toBytes.length = size := by
  simp [toBytes, size]

theorem ofBytes_toBytes (h : JournalBlockHeader) (hseq : h.seq < 2 ^ 64) :
    ofBytes h.toBytes = h := by
  have hmagic : window h.toBytes 0 4 = leBytes 4 h.magic.toNat := rfl
  have hkind : window h.toBytes 4 1 = [h.kind] := rfl
  have hs : window h.toBytes 8 8 = leBytes 8 h.seq := rfl
  have htx : window h.toBytes 16 8 = leBytes 8 h.txId.toNat := rfl
  rw [ofBytes, hmagic, hkind, hs, htx, leNat_leBytes_of_lt h.magic.toNat_lt,
    leNat_leBytes_of_lt (n := 8) hseq, leNat_leBytes_of_lt h.txId.toNat_lt]
  simp

end JournalBlockHeader

def descFlagEscaped : UInt32 := 1

/-- One entry of a descriptor block. -/
structure DescriptorEntry where
  fsBlock : UInt64
  flags : UInt32
  reserved : UInt32
  deriving DecidableEq, Repr

namespace DescriptorEntry

def size : ℕ := 16

def toBytes (e : DescriptorEntry) : List UInt8 :=
  leBytes 8 e.fsBlock.toNat ++ leBytes 4 e.flags.toNat ++ leBytes 4 e.reserved.toNat

def ofBytes (bs : List UInt8) : DescriptorEntry where
  fsBlock := UInt64.ofNat (leNat (window bs 0 8))
  flags := UInt32.ofNat (leNat (window bs 8 4))
  reserved := UInt32.ofNat (leNat (window bs 12 4))

@[simp] theorem length_toBytes (e : DescriptorEntry) : e.toBytes.length = size := by
  simp [toBytes, size]

@[simp] theorem ofBytes_toBytes (e : DescriptorEntry) : ofBytes e.toBytes = e := by
  have hblock : window e.toBytes 0 8 = leBytes 8 e.fsBlock.toNat := rfl
  have hflags : window e.toBytes 8 4 = leBytes 4 e.flags.toNat := rfl
  have hres : window e.toBytes 12 4 = leBytes 4 e.reserved.toNat := rfl
  rw [ofBytes, hblock, hflags, hres, leNat_leBytes_of_lt e.fsBlock.toNat_lt,
    leNat_leBytes_of_lt e.flags.toNat_lt, leNat_leBytes_of_lt e.reserved.toNat_lt]
  simp

end DescriptorEntry

/-- One entry of a revoke block: discard journal copies of `fsBlock` up to and including `seq`. -/
structure RevokeEntry where
  fsBlock : UInt64
  seq : ℕ
  deriving DecidableEq, Repr

namespace RevokeEntry

def size : ℕ := 16

def toBytes (e : RevokeEntry) : List UInt8 := leBytes 8 e.fsBlock.toNat ++ leBytes 8 e.seq

def ofBytes (bs : List UInt8) : RevokeEntry where
  fsBlock := UInt64.ofNat (leNat (window bs 0 8))
  seq := leNat (window bs 8 8)

/-- The entry that ends a revoke list. -/
def isNull (e : RevokeEntry) : Bool := e.fsBlock == 0 && e.seq == 0

@[simp] theorem length_toBytes (e : RevokeEntry) : e.toBytes.length = size := by
  simp [toBytes, size]

theorem ofBytes_toBytes (e : RevokeEntry) (hseq : e.seq < 2 ^ 64) : ofBytes e.toBytes = e := by
  have hblock : window e.toBytes 0 8 = leBytes 8 e.fsBlock.toNat := rfl
  have hs : window e.toBytes 8 8 = leBytes 8 e.seq := rfl
  rw [ofBytes, hblock, hs, leNat_leBytes_of_lt e.fsBlock.toNat_lt,
    leNat_leBytes_of_lt (n := 8) hseq]
  simp

theorem ofBytes_zero : ofBytes (replicate 16 0) = ⟨0, 0⟩ := by decide

end RevokeEntry

/-! ## Writers -/

/-- A zeroed block with a header at its start. -/
def headerBlock (blockSize : ℕ) (kind : JournalBlockKind) (seq : ℕ) (txId : UInt64) :
    List UInt8 :=
  patch (replicate blockSize 0) 0
    (JournalBlockHeader.toBytes ⟨journalBlockMagic, kind.toByte, seq, txId⟩)

/-- Header, entry count, entries. -/
def buildDescriptorBlock (blockSize seq : ℕ) (txId : UInt64) (entries : List DescriptorEntry) :
    List UInt8 :=
  putRecords DescriptorEntry.size (JournalBlockHeader.size + 4) blockSize DescriptorEntry.toBytes
    (patch (headerBlock blockSize .descriptor seq txId) JournalBlockHeader.size
      (leBytes 4 entries.length)) 0 entries

/-- Header, entries. -/
def buildRevokeBlock (blockSize seq : ℕ) (txId : UInt64) (entries : List RevokeEntry) :
    List UInt8 :=
  putRecords RevokeEntry.size JournalBlockHeader.size blockSize RevokeEntry.toBytes
    (headerBlock blockSize .revoke seq txId) 0 entries

/-- Header, payload checksum. -/
def buildCommitBlock (blockSize seq : ℕ) (txId : UInt64) (payloadCrc : UInt32) : List UInt8 :=
  patch (headerBlock blockSize .commit seq txId) JournalBlockHeader.size
    (leBytes 4 payloadCrc.toNat)

/-! ## Readers -/

/-- The header of a block, if it is long enough to have one and carries the magic. -/
def parseHeader (block : List UInt8) : Option JournalBlockHeader :=
  if block.length < JournalBlockHeader.size then none
  else
    let hdr := JournalBlockHeader.ofBytes (window block 0 JournalBlockHeader.size)
    if hdr.magic ≠ journalBlockMagic then none else some hdr

/-- The entries of a descriptor block, as many as it claims and has room for. -/
def parseDescriptorEntries (block : List UInt8) (blockSize : ℕ) : List DescriptorEntry :=
  if block.length < JournalBlockHeader.size + 4 then []
  else
    getRecords DescriptorEntry.size (JournalBlockHeader.size + 4) blockSize DescriptorEntry.ofBytes
      block (leNat (window block JournalBlockHeader.size 4)) 0

/-- The entries of a revoke block, up to the first null one. The loop advances by a whole entry,
so `blockSize` rounds are more than it can take. -/
def parseRevokeEntries (block : List UInt8) (blockSize : ℕ) : List RevokeEntry :=
  getRecordsUntil RevokeEntry.size blockSize RevokeEntry.ofBytes RevokeEntry.isNull block blockSize
    JournalBlockHeader.size

/-- The checksum a commit block claims. -/
def commitPayloadCrc (commitBlock : List UInt8) : UInt32 :=
  if commitBlock.length < JournalBlockHeader.size + 4 then 0
  else UInt32.ofNat (leNat (window commitBlock JournalBlockHeader.size 4))

/-- How many entries one descriptor block can name. -/
def descriptorCapacity (blockSize : ℕ) : ℕ :=
  recordCapacity DescriptorEntry.size (JournalBlockHeader.size + 4) blockSize

/-- How many entries one revoke block can hold. -/
def revokeCapacity (blockSize : ℕ) : ℕ :=
  recordCapacity RevokeEntry.size JournalBlockHeader.size blockSize

theorem length_parseDescriptorEntries_le (block : List UInt8) (blockSize : ℕ) :
    (parseDescriptorEntries block blockSize).length ≤ descriptorCapacity blockSize := by
  rw [parseDescriptorEntries]
  split_ifs
  · exact Nat.zero_le _
  · exact length_getRecords_le (by decide) block _ 0

/-! ## Reading back what was written -/

section ReadBack

variable {blockSize seq : ℕ} {txId : UInt64}

theorem length_headerBlock (kind : JournalBlockKind) (h : JournalBlockHeader.size ≤ blockSize) :
    (headerBlock blockSize kind seq txId).length = blockSize := by
  rw [headerBlock, length_patch (by simpa using h), length_replicate]

theorem window_headerBlock {kind : JournalBlockKind} {o n : ℕ} (ho : JournalBlockHeader.size ≤ o)
    (hn : o + n ≤ blockSize) :
    window (headerBlock blockSize kind seq txId) o n = replicate n 0 := by
  rw [headerBlock, window_patch_of_disjoint (Nat.zero_le _) (Or.inr (by simpa using ho)),
    window_replicate hn]

/-- Any block that still starts with the header it was built with parses to that header. -/
theorem parseHeader_of_window {block : List UInt8} {kind : JournalBlockKind} (blockSize : ℕ)
    (hlen : JournalBlockHeader.size ≤ block.length) (hseq : seq < 2 ^ 64)
    (hwin : window block 0 JournalBlockHeader.size
      = window (headerBlock blockSize kind seq txId) 0 JournalBlockHeader.size) :
    parseHeader block = some ⟨journalBlockMagic, kind.toByte, seq, txId⟩ := by
  have hself : window block 0 JournalBlockHeader.size
      = JournalBlockHeader.toBytes ⟨journalBlockMagic, kind.toByte, seq, txId⟩ := by
    rw [hwin, headerBlock, window_patch_self (Nat.zero_le _) (JournalBlockHeader.length_toBytes _)]
  rw [parseHeader, if_neg (by omega), hself, JournalBlockHeader.ofBytes_toBytes _ hseq]
  simp

theorem length_buildDescriptorBlock (entries : List DescriptorEntry)
    (h : JournalBlockHeader.size + 4 ≤ blockSize) :
    (buildDescriptorBlock blockSize seq txId entries).length = blockSize := by
  refine length_putRecords DescriptorEntry.length_toBytes _ ?_
  rw [length_patch (by rw [length_headerBlock _ (by omega), length_leBytes]; exact h),
    length_headerBlock _ (by omega)]

theorem length_buildRevokeBlock (entries : List RevokeEntry)
    (h : JournalBlockHeader.size ≤ blockSize) :
    (buildRevokeBlock blockSize seq txId entries).length = blockSize :=
  length_putRecords RevokeEntry.length_toBytes _ (length_headerBlock _ h)

theorem length_buildCommitBlock (crc : UInt32) (h : JournalBlockHeader.size + 4 ≤ blockSize) :
    (buildCommitBlock blockSize seq txId crc).length = blockSize := by
  rw [buildCommitBlock,
    length_patch (by rw [length_headerBlock _ (by omega), length_leBytes]; exact h),
    length_headerBlock _ (by omega)]

theorem parseHeader_buildDescriptorBlock (entries : List DescriptorEntry)
    (h : JournalBlockHeader.size + 4 ≤ blockSize) (hseq : seq < 2 ^ 64) :
    parseHeader (buildDescriptorBlock blockSize seq txId entries)
      = some ⟨journalBlockMagic, JournalBlockKind.descriptor.toByte, seq, txId⟩ := by
  have hlen : (headerBlock blockSize .descriptor seq txId).length = blockSize :=
    length_headerBlock _ (by omega)
  refine parseHeader_of_window blockSize
    (by rw [length_buildDescriptorBlock _ h]; omega) hseq ?_
  rw [buildDescriptorBlock, window_putRecords_below DescriptorEntry.length_toBytes _
      (by rw [length_patch (by rw [hlen, length_leBytes]; exact h), hlen]) (by omega),
    window_patch_of_disjoint (by omega) (Or.inl (by omega))]

theorem parseHeader_buildRevokeBlock (entries : List RevokeEntry)
    (h : JournalBlockHeader.size ≤ blockSize) (hseq : seq < 2 ^ 64) :
    parseHeader (buildRevokeBlock blockSize seq txId entries)
      = some ⟨journalBlockMagic, JournalBlockKind.revoke.toByte, seq, txId⟩ := by
  refine parseHeader_of_window blockSize
    (by rw [length_buildRevokeBlock _ h]; exact h) hseq ?_
  rw [buildRevokeBlock, window_putRecords_below RevokeEntry.length_toBytes _
    (length_headerBlock _ h) (by omega)]

theorem parseHeader_buildCommitBlock (crc : UInt32) (h : JournalBlockHeader.size + 4 ≤ blockSize)
    (hseq : seq < 2 ^ 64) :
    parseHeader (buildCommitBlock blockSize seq txId crc)
      = some ⟨journalBlockMagic, JournalBlockKind.commit.toByte, seq, txId⟩ := by
  have hlen : (headerBlock blockSize .commit seq txId).length = blockSize :=
    length_headerBlock _ (by omega)
  refine parseHeader_of_window blockSize
    (by rw [length_buildCommitBlock _ h]; omega) hseq ?_
  rw [buildCommitBlock, window_patch_of_disjoint (by omega) (Or.inl (by omega))]

theorem commitPayloadCrc_buildCommitBlock (crc : UInt32)
    (h : JournalBlockHeader.size + 4 ≤ blockSize) :
    commitPayloadCrc (buildCommitBlock blockSize seq txId crc) = crc := by
  have hlen : (headerBlock blockSize .commit seq txId).length = blockSize :=
    length_headerBlock _ (by omega)
  rw [commitPayloadCrc, length_buildCommitBlock crc h, if_neg (by omega), buildCommitBlock,
    window_patch_self (by omega) (length_leBytes 4 _), leNat_leBytes_of_lt crc.toNat_lt,
    UInt32.ofNat_toNat]

/-- **Reading a descriptor back.** The entries that fit come back in order; the rest are gone. -/
theorem parseDescriptorEntries_build (entries : List DescriptorEntry)
    (h : JournalBlockHeader.size + 4 ≤ blockSize) (hlen : entries.length < 2 ^ 32) :
    parseDescriptorEntries (buildDescriptorBlock blockSize seq txId entries) blockSize
      = entries.take (descriptorCapacity blockSize) := by
  have hhdr : (headerBlock blockSize .descriptor seq txId).length = blockSize :=
    length_headerBlock _ (by omega)
  have hbase : (patch (headerBlock blockSize .descriptor seq txId) JournalBlockHeader.size
      (leBytes 4 entries.length)).length = blockSize := by
    rw [length_patch (by rw [hhdr, length_leBytes]; exact h), hhdr]
  have hcount : window (buildDescriptorBlock blockSize seq txId entries) JournalBlockHeader.size 4
      = leBytes 4 entries.length := by
    rw [buildDescriptorBlock, window_putRecords_below DescriptorEntry.length_toBytes _ hbase
      (by omega), window_patch_self (by omega) (length_leBytes 4 _)]
  have hzero : ∀ j, j < recordCapacity DescriptorEntry.size
      (JournalBlockHeader.size + 4) blockSize →
      window (patch (headerBlock blockSize .descriptor seq txId) JournalBlockHeader.size
        (leBytes 4 entries.length)) (JournalBlockHeader.size + 4 + j * DescriptorEntry.size)
        DescriptorEntry.size = replicate DescriptorEntry.size 0 := by
    intro j hj
    have hfit := (slot_fits_iff (by decide) j).mpr hj
    rw [window_patch_of_disjoint (by omega) (Or.inr (by rw [length_leBytes]; omega)),
      window_headerBlock (by omega) hfit]
  rw [parseDescriptorEntries, length_buildDescriptorBlock _ h, if_neg (by omega), hcount,
    leNat_leBytes_of_lt (n := 4) hlen, buildDescriptorBlock,
    getRecords_putRecords (by decide) DescriptorEntry.length_toBytes
      (fun e _ ↦ DescriptorEntry.ofBytes_toBytes e) hbase hzero, ← descriptorCapacity,
    show min entries.length (descriptorCapacity blockSize) - entries.length = 0 by omega,
    replicate_zero, append_nil]
  rw [take_eq_take_iff]
  omega

/-- **Reading a revoke block back.** Of the entries that fit, those before the first null one. -/
theorem parseRevokeEntries_build (entries : List RevokeEntry)
    (h : JournalBlockHeader.size ≤ blockSize) (hseq : ∀ e ∈ entries, e.seq < 2 ^ 64) :
    parseRevokeEntries (buildRevokeBlock blockSize seq txId entries) blockSize
      = (entries.take (revokeCapacity blockSize)).takeWhile fun e ↦ !e.isNull := by
  have hcap : revokeCapacity blockSize ≤ blockSize :=
    (Nat.div_le_self _ _).trans (Nat.sub_le _ _)
  have hzero : ∀ j, j < recordCapacity RevokeEntry.size JournalBlockHeader.size blockSize →
      window (headerBlock blockSize .revoke seq txId)
        (JournalBlockHeader.size + j * RevokeEntry.size) RevokeEntry.size
        = replicate RevokeEntry.size 0 := by
    intro j hj
    exact window_headerBlock (by omega) ((slot_fits_iff (by decide) j).mpr hj)
  have hloop := getRecordsUntil_eq_takeWhile RevokeEntry.size JournalBlockHeader.size blockSize
    RevokeEntry.ofBytes RevokeEntry.isNull (buildRevokeBlock blockSize seq txId entries) blockSize 0
  rw [zero_mul, add_zero] at hloop
  rw [parseRevokeEntries, hloop, buildRevokeBlock,
    getRecords_putRecords (by decide) RevokeEntry.length_toBytes
      (fun e he ↦ RevokeEntry.ofBytes_toBytes e (hseq e he)) (length_headerBlock _ h) hzero,
    ← revokeCapacity, min_eq_right hcap]
  -- The zeroed slots behind the last entry decode to the null entry and end the list.
  rw [show replicate RevokeEntry.size (0 : UInt8) = replicate 16 0 from rfl,
    RevokeEntry.ofBytes_zero]
  cases revokeCapacity blockSize - entries.length with
  | zero => rw [replicate_zero, append_nil]
  | succ n =>
    rw [replicate_succ, takeWhile_append]
    split_ifs with hall
    · have hwhole :=
        takeWhile_prefix (l := take (revokeCapacity blockSize) entries) fun e ↦ !e.isNull
      rw [hwhole.eq_of_length hall]
      simp [RevokeEntry.isNull]
    · rfl

end ReadBack

end Edos

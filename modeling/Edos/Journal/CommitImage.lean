import Edos.EfsCommon.ScanTrace

/-!
# What a commit writes to the ring

`seal_and_commit` turns a transaction into a run of ring blocks: a descriptor, the enrolled pages
with their first word blanked where it collides with the journal magic, a revoke block if anything
was freed, and the commit block sealing the payload. `TxImage` is the transaction at the moment its
pages are copied out, and `TxImage.ringBlocks` the run of blocks it becomes.

## Reading an image back

One turn of the scan over an image of at most `descriptorCapacity` blocks accepts it
(`scanTx_image`); over a larger one it stops, because the block it takes for the commit block is the
first data block the descriptor could not name, and no data block ever carries the magic
(`scanTx_image_too_large`). The two together say that the capacity of the descriptor is the whole
of what recovery needs.
-/

namespace Edos

open List

/-- `BLOCK_SIZE` of the kernel's journal. -/
def journalBlockSize : ℕ := 4096

/-- The contents of a cached metadata page. -/
structure Page where
  bytes : List UInt8
  length_bytes : bytes.length = journalBlockSize
  deriving DecidableEq

namespace Page

/-- The first little-endian word, which is what tells a journal block from data. -/
def firstWord (page : Page) : UInt32 := UInt32.ofNat (leNat (window page.bytes 0 4))

def escaped (page : Page) : Bool := page.firstWord == journalBlockMagic

/-- The copy of the page that goes to the ring. -/
def blockCopy (page : Page) : List UInt8 :=
  if page.escaped then patch page.bytes 0 (replicate 4 0) else page.bytes

theorem length_blockCopy (page : Page) : page.blockCopy.length = journalBlockSize := by
  rw [blockCopy]
  split_ifs
  · rw [length_patch (by rw [page.length_bytes]; decide), page.length_bytes]
  · exact page.length_bytes

/-- A data block in the ring is never mistaken for a journal block. -/
theorem parseHeader_blockCopy (page : Page) : parseHeader page.blockCopy = none := by
  have hmagic : (JournalBlockHeader.ofBytes
      (window page.blockCopy 0 JournalBlockHeader.size)).magic ≠ journalBlockMagic := by
    rw [JournalBlockHeader.ofBytes, window_window _ (by decide)]
    by_cases hesc : page.escaped = true
    · rw [blockCopy, if_pos hesc, window_patch_self (Nat.zero_le _) length_replicate,
        leNat_replicate_zero]
      exact (by decide : UInt32.ofNat 0 ≠ journalBlockMagic)
    · rw [blockCopy, if_neg hesc]
      simpa [escaped, firstWord] using hesc
  rw [parseHeader, if_neg (by rw [length_blockCopy]; decide), if_pos hmagic]

/-- **Unescaping.** Restoring the magic in the copy of an escaped page gives the page back. -/
theorem unescape_blockCopy {page : Page} (h : page.escaped = true) :
    patch page.blockCopy 0 (leBytes 4 journalBlockMagic.toNat) = page.bytes := by
  have hlen := page.length_bytes
  have hlen4 : 4 ≤ page.bytes.length := by rw [hlen]; decide
  have hwin : (window page.bytes 0 4).length = 4 := length_window (by omega)
  have hword : leBytes 4 journalBlockMagic.toNat = window page.bytes 0 4 := by
    have hfirst : page.firstWord = journalBlockMagic := by simpa [escaped] using h
    have hlt : leNat (window page.bytes 0 4) < 2 ^ 32 := by
      have hlt := leNat_lt (window page.bytes 0 4)
      rwa [hwin] at hlt
    rw [← hfirst, firstWord, UInt32.toNat_ofNat', Nat.mod_eq_of_lt hlt, leBytes_leNat hwin]
  rw [blockCopy, if_pos h, hword, patch_patch_self (Nat.zero_le _) (by rw [hwin]; rfl),
    patch_window_self (by omega)]

end Page

/-! ## The image of a transaction -/

/-- A transaction as `seal_and_commit` sees it when it copies the enrolled pages: the entries of
`enrolled_blocks` and of `revokes` in key order, each page with its contents at that moment. -/
structure TxImage where
  seq : ℕ
  txId : UInt64
  blocks : List (UInt64 × Page)
  revokes : List UInt64
  deriving DecidableEq

variable {b : List UInt8}

namespace TxImage

variable (tx : TxImage)

def entries : List DescriptorEntry :=
  tx.blocks.map fun e ↦ ⟨e.1, if e.2.escaped then descFlagEscaped else 0, 0⟩

def dataBlocks : List (List UInt8) := tx.blocks.map fun e ↦ e.2.blockCopy

/-- Every revoke of a transaction carries the sequence number of that transaction. -/
def revokeEntries : List RevokeEntry := tx.revokes.map fun b ↦ ⟨b, tx.seq⟩

def hasRevokes : Bool := !tx.revokes.isEmpty

/-- The ring blocks the commit needs: descriptor, data, perhaps a revoke block, commit. -/
def needed : ℕ := 1 + tx.blocks.length + tx.hasRevokes.toNat + 1

def revokeBlock : List (List UInt8) :=
  if tx.hasRevokes then [buildRevokeBlock journalBlockSize tx.seq tx.txId tx.revokeEntries] else []

def commitBlock : List UInt8 :=
  buildCommitBlock journalBlockSize tx.seq tx.txId (commitBlockChecksum tx.dataBlocks.flatten)

/-- The blocks in ring order. -/
def ringBlocks : List (List UInt8) :=
  buildDescriptorBlock journalBlockSize tx.seq tx.txId tx.entries ::
    (tx.dataBlocks ++ (tx.revokeBlock ++ [tx.commitBlock]))

/-- What the scan should make of the image. -/
def scanned : ScannedTx := ⟨tx.seq, tx.entries, tx.dataBlocks⟩

/-- The revokes that can be read back from the one revoke block: as many as fit, and only those
before an entry for block 0 of transaction 0, which looks like the end of the list. -/
def readableRevokes : List RevokeEntry :=
  (tx.revokeEntries.take (revokeCapacity journalBlockSize)).takeWhile fun e ↦ !e.isNull

@[simp] theorem length_entries : tx.entries.length = tx.blocks.length := length_map _

@[simp] theorem length_dataBlocks : tx.dataBlocks.length = tx.blocks.length := length_map _

@[simp] theorem length_revokeBlock : tx.revokeBlock.length = tx.hasRevokes.toNat := by
  rw [revokeBlock]
  cases tx.hasRevokes <;> rfl

theorem length_of_mem_ringBlocks (hb : b ∈ tx.ringBlocks) : b.length = journalBlockSize := by
  simp only [ringBlocks, mem_cons, mem_append, not_mem_nil, or_false] at hb
  rcases hb with rfl | hb | hb | rfl
  · exact length_buildDescriptorBlock _ (by decide)
  · obtain ⟨e, -, rfl⟩ := mem_map.mp hb
    exact e.2.length_blockCopy
  · rw [revokeBlock] at hb
    split_ifs at hb
    · rw [mem_singleton.mp hb]
      exact length_buildRevokeBlock _ (by decide)
    · cases hb
  · exact length_buildCommitBlock _ (by decide)

theorem length_ringBlocks : tx.ringBlocks.length = tx.needed := by
  simp only [ringBlocks, needed, length_cons, length_append, length_dataBlocks,
    length_revokeBlock, length_nil]
  omega

end TxImage

/-! ## Blocks held by the ring -/

section Holds

variable {E : Type*} {read : ℕ → Except E (List UInt8)} {ringSize : ℕ} {bs : List (List UInt8)}

theorem holds_append {pos : ℕ} {as : List (List UInt8)} :
    Holds read ringSize pos (as ++ bs) ↔
      Holds read ringSize pos as ∧ Holds read ringSize (pos + as.length) bs := by
  induction as generalizing pos with
  | nil => exact ⟨fun h ↦ ⟨holds_nil pos, h⟩, fun h ↦ h.2⟩
  | cons a as ih =>
    rw [cons_append, holds_cons, holds_cons, ih, and_assoc, length_cons,
      add_assoc pos 1, add_comm 1]

variable {blocks : List (List UInt8)}

theorem Holds.agreeOn {read' : ℕ → Except E (List UInt8)} {pos : ℕ}
    (h : Holds read ringSize pos blocks) (h' : Holds read' ringSize pos blocks) :
    AgreeOn read read' ringSize pos (pos + blocks.length) := by
  intro p hle hlt
  obtain ⟨k, rfl⟩ := Nat.exists_eq_add_of_le hle
  have hk : blocks[k]? = some (blocks.get ⟨k, by omega⟩) := getElem?_eq_getElem (by omega)
  rw [readRingBlock_eq_ok.mp (h k _ hk), readRingBlock_eq_ok.mp (h' k _ hk)]

end Holds

/-! ## One turn over an image -/

section Turn

variable {E : Type*} {read : ℕ → Except E (List UInt8)} {ringSize pos : ℕ} {tx : TxImage} {seq : ℕ}
  {txId : UInt64}

theorem isRevokeOf_buildRevokeBlock (entries : List RevokeEntry) (hseq : seq < 2 ^ 64) :
    isRevokeOf (buildRevokeBlock journalBlockSize seq txId entries) seq = true := by
  rw [isRevokeOf, parseHeader_buildRevokeBlock entries (by decide) hseq]
  simp

theorem isRevokeOf_buildCommitBlock (crc : UInt32) (seq' : ℕ) (hseq : seq < 2 ^ 64) :
    isRevokeOf (buildCommitBlock journalBlockSize seq txId crc) seq' = false := by
  rw [isRevokeOf, parseHeader_buildCommitBlock crc (by decide) hseq]
  simp [JournalBlockKind.toByte]

theorem checkDescriptor_buildDescriptorBlock (entries : List DescriptorEntry)
    (hseq : seq < 2 ^ 64) :
    checkDescriptor (buildDescriptorBlock journalBlockSize seq txId entries) seq
      = .ok ⟨journalBlockMagic, JournalBlockKind.descriptor.toByte, seq, txId⟩ := by
  rw [checkDescriptor, parseHeader_buildDescriptorBlock entries (by decide) hseq]
  simp

/-- The ring behind the data of an image: what the scan reads there tells whether the image has
revokes and which of them can be read, and the commit block comes after that. -/
theorem Holds.behind_data (hholds : Holds read ringSize pos (tx.revokeBlock ++ [tx.commitBlock]))
    (hseq : tx.seq < 2 ^ 64) :
    (∃ next, readRingBlock read ringSize pos = .ok next ∧
      isRevokeOf next tx.seq = tx.hasRevokes ∧
      (if tx.hasRevokes then parseRevokeEntries next journalBlockSize else [])
        = tx.readableRevokes) ∧
      readRingBlock read ringSize (pos + tx.hasRevokes.toNat) = .ok tx.commitBlock := by
  obtain ⟨hrev, hcommit⟩ := holds_append.mp hholds
  rw [TxImage.length_revokeBlock] at hcommit
  refine ⟨?_, (holds_cons.mp hcommit).1⟩
  rw [TxImage.revokeBlock] at hrev
  cases hhas : tx.hasRevokes with
  | true =>
    rw [hhas, if_pos rfl] at hrev
    refine ⟨_, (holds_cons.mp hrev).1, isRevokeOf_buildRevokeBlock _ hseq, ?_⟩
    rw [if_pos rfl, parseRevokeEntries_build _ (by decide), TxImage.readableRevokes]
    intro e he
    obtain ⟨b, -, rfl⟩ := mem_map.mp he
    exact hseq
  | false =>
    rw [hhas] at hcommit
    refine ⟨tx.commitBlock, (holds_cons.mp hcommit).1, isRevokeOf_buildCommitBlock _ _ hseq, ?_⟩
    have hnil : tx.revokes = [] := by simpa [TxImage.hasRevokes] using hhas
    simp [TxImage.readableRevokes, TxImage.revokeEntries, hnil]

/-- **An image that fits is accepted**, with all of its blocks. -/
theorem scanTx_image (hholds : Holds read ringSize pos tx.ringBlocks)
    (hcap : tx.blocks.length ≤ descriptorCapacity journalBlockSize) (hseq : tx.seq < 2 ^ 64)
    (hpos : pos + tx.needed < 2 ^ 64) :
    ∃ m, scanTx read ringSize journalBlockSize ∅ pos tx.seq
      = .ok (.accept tx.scanned m (pos + tx.needed) tx.hasRevokes) := by
  obtain ⟨hdesc, hrest⟩ := holds_cons.mp hholds
  obtain ⟨hdata, hbehind⟩ := holds_append.mp hrest
  rw [TxImage.length_dataBlocks] at hbehind
  obtain ⟨⟨next, hnext, hrev, -⟩, hcommit⟩ := hbehind.behind_data hseq
  rw [TxImage.needed] at hpos ⊢
  refine ⟨_, scanTx_eq_accept.mpr ⟨_, _, next, tx.commitBlock, hdesc,
    checkDescriptor_buildDescriptorBlock _ hseq, rfl, ?_, by omega, ?_, ?_, hrev.symm, rfl, ?_, ?_,
    ?_, ?_, hpos⟩⟩
  · rw [parseDescriptorEntries_build _ (by decide), take_of_length_le]
    · rfl
    · rwa [TxImage.length_entries]
    · rw [TxImage.length_entries]
      exact hcap.trans_lt (by decide)
  · have hread := readDataBlocks_eq_ok.mpr ⟨hdata, tx.length_dataBlocks, rfl, fun _ ↦ by omega⟩
    rw [TxImage.scanned, TxImage.length_entries, hread]
  · rw [TxImage.scanned, TxImage.length_entries, hnext]
  · rw [TxImage.scanned, TxImage.length_entries, hcommit]
  · rw [isCommitOf, TxImage.commitBlock, parseHeader_buildCommitBlock _ (by decide) hseq]
    simp
  · rw [TxImage.commitBlock, commitPayloadCrc_buildCommitBlock _ (by decide)]
    rfl
  · rw [TxImage.scanned, TxImage.length_entries]
    omega

theorem length_parse_descriptor (hcap : tx.blocks.length ≤ descriptorCapacity journalBlockSize) :
    (parseDescriptorEntries (buildDescriptorBlock journalBlockSize tx.seq tx.txId tx.entries)
      journalBlockSize).length = tx.blocks.length := by
  rw [parseDescriptorEntries_build _ (by decide)
    (by rw [TxImage.length_entries]; exact hcap.trans_lt (by decide)), length_take,
    TxImage.length_entries, min_eq_right hcap]

theorem foundRevokes_image (hholds : Holds read ringSize pos tx.ringBlocks)
    (hcap : tx.blocks.length ≤ descriptorCapacity journalBlockSize) (hseq : tx.seq < 2 ^ 64) :
    foundRevokes read ringSize journalBlockSize pos tx.seq = tx.readableRevokes := by
  obtain ⟨hdesc, hrest⟩ := holds_cons.mp hholds
  obtain ⟨-, hbehind⟩ := holds_append.mp hrest
  rw [TxImage.length_dataBlocks] at hbehind
  obtain ⟨⟨next, hnext, hrev, hfound⟩, -⟩ := hbehind.behind_data hseq
  rw [foundRevokes, hdesc]
  simp only [checkDescriptor_buildDescriptorBlock _ hseq, length_parse_descriptor hcap, hnext, hrev]
  exact hfound

/-- **An image without its commit block.** The turn stops, with the revokes already found. -/
theorem scanTx_image_torn {block : List UInt8}
    (hholds : Holds read ringSize pos tx.ringBlocks.dropLast) (hrev : tx.hasRevokes = true)
    (hcommit : readRingBlock read ringSize (pos + (tx.needed - 1)) = .ok block)
    (hnot : parseHeader block = none)
    (hcap : tx.blocks.length ≤ descriptorCapacity journalBlockSize) (hseq : tx.seq < 2 ^ 64)
    (hpos : pos + tx.needed < 2 ^ 64) :
    (∃ m, scanTx read ringSize journalBlockSize ∅ pos tx.seq = .ok (.stop (.partialTx tx.seq) m)) ∧
      foundRevokes read ringSize journalBlockSize pos tx.seq = tx.readableRevokes := by
  have hdrop : tx.ringBlocks.dropLast
      = buildDescriptorBlock journalBlockSize tx.seq tx.txId tx.entries ::
          (tx.dataBlocks ++ tx.revokeBlock) := by
    rw [TxImage.ringBlocks, ← append_assoc, ← cons_append, dropLast_concat]
  rw [hdrop] at hholds
  obtain ⟨hdesc, hrest⟩ := holds_cons.mp hholds
  obtain ⟨hdata, hrevoke⟩ := holds_append.mp hrest
  rw [TxImage.length_dataBlocks, TxImage.revokeBlock, if_pos hrev] at hrevoke
  rw [TxImage.needed, hrev, Bool.toNat_true] at hpos hcommit
  have hnext := (holds_cons.mp hrevoke).1
  have hkind : isRevokeOf (buildRevokeBlock journalBlockSize tx.seq tx.txId tx.revokeEntries) tx.seq
      = true := isRevokeOf_buildRevokeBlock _ hseq
  have hread := readDataBlocks_eq_ok.mpr ⟨hdata, tx.length_dataBlocks, rfl, fun _ ↦ by omega⟩
  constructor
  · refine ⟨addRevokes ∅ (parseRevokeEntries (buildRevokeBlock journalBlockSize tx.seq tx.txId
      tx.revokeEntries) journalBlockSize), ?_⟩
    rw [scanTx, hdesc]
    simp only [bind, Except.bind, checkDescriptor_buildDescriptorBlock _ hseq]
    rw [u64Add_of_lt (by omega)]
    simp only [length_parse_descriptor hcap, hread]
    rw [scanCommit, hnext]
    simp only [bind, Except.bind, hkind, if_true]
    rw [u64Add_of_lt (by omega)]
    simp only
    rw [show pos + 1 + tx.blocks.length + 1 = pos + (1 + tx.blocks.length + 1 + 1 - 1) by omega,
      hcommit]
    simp only [judgeCommit, isCommitOf, hnot, Bool.false_eq_true, if_false]
    rfl
  · rw [foundRevokes, hdesc]
    simp only [checkDescriptor_buildDescriptorBlock _ hseq, length_parse_descriptor hcap, hnext,
      hkind, if_true]
    rw [parseRevokeEntries_build _ (by decide), TxImage.readableRevokes]
    intro e he
    obtain ⟨b, -, rfl⟩ := mem_map.mp he
    exact hseq

/-- **An image that does not fit stops the walk.** The block read as the commit block is the first
data block that the descriptor has no entry for. -/
theorem scanTx_image_too_large (hholds : Holds read ringSize pos tx.ringBlocks)
    (hcap : descriptorCapacity journalBlockSize < tx.blocks.length)
    (hlen : tx.blocks.length < 2 ^ 32) (hseq : tx.seq < 2 ^ 64) (hpos : pos + tx.needed < 2 ^ 64) :
    (∃ m, scanTx read ringSize journalBlockSize ∅ pos tx.seq
      = .ok (.stop (.partialTx tx.seq) m)) ∧
      foundRevokes read ringSize journalBlockSize pos tx.seq = [] := by
  obtain ⟨hdesc, hrest⟩ := holds_cons.mp hholds
  obtain ⟨hdata, -⟩ := holds_append.mp hrest
  rw [TxImage.needed] at hpos
  obtain ⟨⟨b, page⟩, hpage⟩ : ∃ e, tx.blocks[descriptorCapacity journalBlockSize]? = some e :=
    ⟨_, getElem?_eq_getElem hcap⟩
  have hnext : readRingBlock read ringSize (pos + 1 + descriptorCapacity journalBlockSize)
      = .ok page.blockCopy :=
    hdata _ _ (by rw [TxImage.dataBlocks, getElem?_map, hpage]; rfl)
  have hnamed : Holds read ringSize (pos + 1)
      (tx.dataBlocks.take (descriptorCapacity journalBlockSize)) := by
    rw [← take_append_drop (descriptorCapacity journalBlockSize) tx.dataBlocks] at hdata
    exact (holds_append.mp hdata).1
  have htake : (tx.dataBlocks.take (descriptorCapacity journalBlockSize)).length
      = descriptorCapacity journalBlockSize := by
    rw [length_take, TxImage.length_dataBlocks, min_eq_left hcap.le]
  have hread := readDataBlocks_eq_ok.mpr ⟨hnamed, htake, rfl, fun _ ↦ by omega⟩
  have hentries : (tx.entries.take (descriptorCapacity journalBlockSize)).length
      = descriptorCapacity journalBlockSize := by
    rw [length_take, TxImage.length_entries, min_eq_left hcap.le]
  have hnot : parseHeader page.blockCopy = none := page.parseHeader_blockCopy
  refine ⟨⟨∅, ?_⟩, ?_⟩
  · rw [scanTx, hdesc]
    simp only [bind, Except.bind, checkDescriptor_buildDescriptorBlock _ hseq]
    rw [u64Add_of_lt (by omega), parseDescriptorEntries_build _ (by decide)
      (by rwa [TxImage.length_entries])]
    simp only [hentries, hread]
    rw [scanCommit, hnext]
    simp only [bind, Except.bind, isRevokeOf, judgeCommit, isCommitOf, hnot, Bool.false_eq_true,
      if_false]
    rfl
  · rw [foundRevokes, hdesc]
    simp only [checkDescriptor_buildDescriptorBlock _ hseq]
    rw [parseDescriptorEntries_build _ (by decide) (by rwa [TxImage.length_entries]), hentries,
      hnext]
    simp only [isRevokeOf, hnot, Bool.false_eq_true, if_false]

end Turn

end Edos

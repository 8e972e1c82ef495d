import Edos.Journal.CommitImage
import Mathlib.Data.List.TakeWhile

/-!
# Transactions laid out in the ring

Commits append: each image follows the one before it, and the ring wraps. `layout` is the run of
blocks a list of images becomes, and a scan over a ring that holds it accepts the images one after
the other (`accepts_layout`). This is the fact on which recovery rests, and the invariants of the
running journal are stated so that it applies to them.

## What recovery gets back

`scanCommitted_layout` is the round trip through the ring. Two things are asked of the input that
the layout alone does not give: the cursors must stay in the range of a `u64`, and transaction 0
must not revoke block 0, because that revoke is written as the null entry that ends the list.

`scanCommitted_eq_iff` compares two rings that differ only behind the accepted transactions. The
transactions found are the same, but the revokes of the transaction that tears the walk are already
merged, and the maps agree only as far as those revokes are covered by others.
-/

namespace Edos

open Function List

/-! ## Laying images out -/

/-- The blocks of a list of images, in ring order. -/
def layout (txs : List TxImage) : List (List UInt8) := txs.flatMap TxImage.ringBlocks

/-- The images carry consecutive sequence numbers from `seq` on. -/
def Consecutive (seq : ℕ) (txs : List TxImage) : Prop :=
  txs.map TxImage.seq = range' seq txs.length

/-- The revokes written by a list of images, each with the sequence number of its transaction. -/
def writtenRevokes (txs : List TxImage) : List (UInt64 × ℕ) :=
  txs.flatMap fun tx ↦ tx.revokes.map fun b ↦ (b, tx.seq)

instance (seq : ℕ) (txs : List TxImage) : Decidable (Consecutive seq txs) :=
  inferInstanceAs (Decidable (_ = _))

variable {i pos ringSize seq tailBlock : ℕ} {tx : TxImage} {txs : List TxImage}
  {blocks : List (List UInt8)}

theorem consecutive_cons :
    Consecutive seq (tx :: txs) ↔ tx.seq = seq ∧ Consecutive (seq + 1) txs := by
  rw [Consecutive, map_cons, length_cons, range'_succ, List.cons.injEq]
  exact Iff.rfl

theorem consecutive_append {txs' : List TxImage} :
    Consecutive seq (txs ++ txs') ↔
      Consecutive seq txs ∧ Consecutive (seq + txs.length) txs' := by
  induction txs generalizing seq with
  | nil => exact ⟨fun h ↦ ⟨rfl, h⟩, fun h ↦ h.2⟩
  | cons tx txs ih =>
    rw [cons_append, consecutive_cons, consecutive_cons, ih, and_assoc, length_cons,
      add_right_comm, add_assoc]

theorem Consecutive.seq_lt (h : Consecutive seq txs)
    (htx : tx ∈ txs) : seq ≤ tx.seq ∧ tx.seq < seq + txs.length := by
  have hmem : tx.seq ∈ range' seq txs.length := h ▸ mem_map_of_mem htx
  exact mem_range'_1.mp hmem

theorem Consecutive.seq_get (h : Consecutive seq txs)
    (hi : txs[i]? = some tx) : tx.seq = seq + i := by
  obtain ⟨hlt, rfl⟩ := List.getElem?_eq_some_iff.mp hi
  have hget := congrArg (fun l ↦ l[i]?) h
  simpa [hlt] using hget

theorem layout_append (txs txs' : List TxImage) :
    layout (txs ++ txs') = layout txs ++ layout txs' := flatMap_append

theorem layout_singleton (tx : TxImage) : layout [tx] = tx.ringBlocks := append_nil _

theorem length_layout (txs : List TxImage) :
    (layout txs).length = (txs.map TxImage.needed).sum := by
  rw [layout, length_flatMap]
  simp only [TxImage.length_ringBlocks]

theorem layout_eq_nil (h : (layout txs).length = 0) : txs = [] := by
  cases txs with
  | nil => rfl
  | cons tx txs =>
    rw [length_layout, map_cons, sum_cons, TxImage.needed] at h
    omega

variable {E : Type*} {read : ℕ → Except E (List UInt8)}

/-- **A scan walks a layout to its end.** -/
theorem accepts_layout {bound : ℕ} : ∀ {pos seq : ℕ}, Holds read ringSize pos (layout txs) →
      Consecutive seq txs → (∀ tx ∈ txs, tx.blocks.length ≤ descriptorCapacity journalBlockSize) →
      pos + (layout txs).length ≤ bound → bound < 2 ^ 64 → seq + txs.length < 2 ^ 64 →
      Accepts read ringSize journalBlockSize bound pos seq (txs.map TxImage.scanned)
        (txs.flatMap TxImage.readableRevokes) (pos + (layout txs).length) (seq + txs.length) := by
  induction txs with
  | nil => intro pos seq _ _ _ _ _ _; exact .nil pos seq
  | cons tx txs ih =>
    intro pos seq hholds hcons hcap hfit hbound hseq
    have hlen : (layout (tx :: txs)).length = tx.needed + (layout txs).length := by
      rw [length_layout, length_layout, map_cons, sum_cons]
    obtain ⟨hhead, htail⟩ := holds_append.mp hholds
    rw [TxImage.length_ringBlocks] at htail
    obtain ⟨rfl, hcons⟩ := consecutive_cons.mp hcons
    have hneeded : 0 < tx.needed := Nat.succ_pos _
    rw [length_cons] at hseq
    obtain ⟨m, hturn⟩ := scanTx_image hhead (hcap tx mem_cons_self) (by omega) (by omega)
    have hrest := ih htail hcons (fun tx' h ↦ hcap tx' (mem_cons_of_mem _ h)) (by omega) hbound
      (by omega)
    rw [map_cons, flatMap_cons, ← foundRevokes_image hhead (hcap tx mem_cons_self)
      (by omega), hlen, length_cons, ← add_assoc, add_comm txs.length, ← add_assoc]
    exact .cons (by omega) hturn (by omega) hrest

/-! ## A ring in memory -/

/-- Reading a ring given by the contents of its slots; region block 0 is the superblock. -/
def ringReader (ring : ℕ → List UInt8) (i : ℕ) : Except Empty (List UInt8) := .ok (ring (i - 1))

/-- Write consecutive blocks from a cursor on, as the commit path does. -/
def writeRing (ringSize : ℕ) : (ℕ → List UInt8) → ℕ → List (List UInt8) → ℕ → List UInt8
  | ring, _, [] => ring
  | ring, pos, b :: bs =>
    writeRing ringSize (update ring (pos % ringSize) b) (pos + 1) bs

@[simp] theorem readRingBlock_ringReader (ring : ℕ → List UInt8) (ringSize pos : ℕ) :
    readRingBlock (ringReader ring) ringSize pos = .ok (ring (pos % ringSize)) := rfl

/-- Cursors less than a turn apart fall on different slots. -/
theorem add_mod_ne_mod {k n : ℕ} (hk : 0 < k) (hkn : k < n) : (pos + k) % n ≠ pos % n := by
  intro h
  have hzero := Nat.sub_mod_eq_zero_of_mod_eq h
  rw [Nat.add_sub_cancel_left, Nat.mod_eq_of_lt hkn] at hzero
  omega

theorem writeRing_of_ne :
    ∀ {ring : ℕ → List UInt8} {pos : ℕ}, (∀ k < blocks.length, (pos + k) % ringSize ≠ i) →
      writeRing ringSize ring pos blocks i = ring i := by
  induction blocks with
  | nil => intro ring pos _; rfl
  | cons b blocks ih =>
    intro ring pos h
    rw [writeRing, ih, update_of_ne]
    · exact (h 0 (Nat.succ_pos _)).symm
    · intro k hk
      rw [add_assoc, add_comm 1]
      exact h (k + 1) (Nat.succ_lt_succ hk)

theorem holds_writeRing :
    ∀ {ring : ℕ → List UInt8} {pos : ℕ}, blocks.length ≤ ringSize →
      Holds (ringReader (writeRing ringSize ring pos blocks)) ringSize pos blocks := by
  induction blocks with
  | nil => intro ring pos _; exact holds_nil pos
  | cons b blocks ih =>
    intro ring pos hlen
    rw [length_cons] at hlen
    refine holds_cons.mpr ⟨?_, ih (by omega)⟩
    rw [readRingBlock_ringReader, writeRing, writeRing_of_ne, update_self]
    intro k hk
    rw [add_assoc]
    exact add_mod_ne_mod (by omega) (by omega)

/-- A write to a slot less than a turn behind the start of a run leaves the run as it is. -/
theorem Holds.update {ring : ℕ → List UInt8} {p : ℕ}
    (h : Holds (ringReader ring) ringSize pos blocks) (hle : pos + blocks.length ≤ p)
    (hlt : p < pos + ringSize) (b : List UInt8) :
    Holds (ringReader (update ring (p % ringSize) b)) ringSize pos blocks := by
  intro k c hk
  obtain ⟨hklen, -⟩ := List.getElem?_eq_some_iff.mp hk
  have hne : (pos + k) % ringSize ≠ p % ringSize := by
    obtain ⟨d, rfl⟩ := Nat.exists_eq_add_of_le (show pos + k ≤ p by omega)
    exact (add_mod_ne_mod (by omega) (by omega)).symm
  rw [readRingBlock_ringReader, update_of_ne hne, ← readRingBlock_ringReader]
  exact h k c hk

theorem writeRing_forall {P : List UInt8 → Prop} :
    ∀ {ring : ℕ → List UInt8} {pos : ℕ}, (∀ i, P (ring i)) → (∀ b ∈ blocks, P b) →
      ∀ i, P (writeRing ringSize ring pos blocks i) := by
  induction blocks with
  | nil => intro ring pos hring _; exact hring
  | cons b blocks ih =>
    intro ring pos hring hblocks
    refine ih (fun i ↦ ?_) fun c hc ↦ hblocks c (mem_cons_of_mem b hc)
    by_cases hi : i = pos % ringSize
    · rw [hi, update_self]
      exact hblocks b mem_cons_self
    · rw [update_of_ne hi]
      exact hring i

/-! ## The round trip -/

theorem TxImage.readableRevokes_eq (hcap : tx.revokes.length ≤ revokeCapacity journalBlockSize)
    (hnull : ¬(tx.seq = 0 ∧ 0 ∈ tx.revokes)) : tx.readableRevokes = tx.revokeEntries := by
  rw [readableRevokes, take_of_length_le (by rw [revokeEntries, length_map]; exact hcap),
    takeWhile_eq_self_iff]
  intro e he
  obtain ⟨b, hb, rfl⟩ := mem_map.mp he
  rw [Bool.not_eq_true', RevokeEntry.isNull, Bool.and_eq_false_iff, beq_eq_false_iff_ne,
    beq_eq_false_iff_ne]
  by_contra hcon
  push Not at hcon
  obtain ⟨rfl, hseq⟩ := hcon
  exact hnull ⟨hseq, hb⟩

/-- What `replay_write` makes of an entry of a scanned image: the original page, unless a
transaction at or after this one revoked the block. -/
theorem replayWrite_scanned {b : UInt64} {page : Page} (h : tx.blocks[i]? = some (b, page))
    (m : RevokeMap) :
    replayWrite tx.scanned i m
      = if m[b]?.any fun v ↦ tx.seq ≤ v then none else some (b, page.bytes) := by
  have hentry : tx.scanned.entries[i]?
      = some ⟨b, if page.escaped then descFlagEscaped else 0, 0⟩ := by
    rw [TxImage.scanned, TxImage.entries, getElem?_map, h]
    rfl
  have hdata : tx.scanned.dataBlocks[i]? = some page.blockCopy := by
    rw [TxImage.scanned, TxImage.dataBlocks, getElem?_map, h]
    rfl
  have hlen : 4 ≤ page.blockCopy.length := by rw [page.length_blockCopy]; decide
  rw [replayWrite, hentry, hdata]
  simp only [Option.bind_eq_bind, Option.bind_some, Option.pure_def]
  congr 1
  cases hesc : page.escaped with
  | true => rw [if_pos ⟨by decide, hlen⟩, Page.unescape_blockCopy hesc]
  | false => rw [if_neg (fun h ↦ h.1 (by decide)), Page.blockCopy, hesc]; rfl

variable {block : List UInt8}

theorem scanTx_stop_of_not_descriptor (blockSize : ℕ)
    (hread : readRingBlock read ringSize pos = .ok block)
    (hnot : ∀ hdr, checkDescriptor block seq ≠ .ok hdr) :
    (∃ why, scanTx read ringSize blockSize ∅ pos seq = .ok (.stop why ∅)) ∧
      foundRevokes read ringSize blockSize pos seq = [] := by
  rw [scanTx, foundRevokes, hread]
  cases hdesc : checkDescriptor block seq with
  | ok hdr => exact absurd hdesc (hnot hdr)
  | error why => exact ⟨⟨why, by simp only [bind, Except.bind, hdesc]; rfl⟩, by simp only [hdesc]⟩

variable {tailSeq : ℕ}

/-- **The scan of a ring that holds a layout and no descriptor behind it.** -/
theorem scanCommitted_of_holds
    (hring : 0 < ringSize)
    (hcons : Consecutive tailSeq txs)
    (hcap : ∀ tx ∈ txs, tx.blocks.length ≤ descriptorCapacity journalBlockSize)
    (hfit : (layout txs).length ≤ ringSize)
    (hholds : Holds read ringSize tailBlock (layout txs))
    (hnext : (layout txs).length < ringSize → ∃ block,
      readRingBlock read ringSize (tailBlock + (layout txs).length) = .ok block ∧
        ∀ hdr, checkDescriptor block (tailSeq + txs.length) ≠ .ok hdr)
    (hblock : tailBlock + ringSize < 2 ^ 64) (hseq : tailSeq + txs.length < 2 ^ 64) :
    ∃ why, scanCommitted read ringSize journalBlockSize tailSeq tailBlock
      = .ok ⟨txs.map TxImage.scanned, addRevokes ∅ (txs.flatMap TxImage.readableRevokes),
          tailSeq + txs.length, tailBlock + (layout txs).length, (layout txs).length, why⟩ := by
  have hacc := accepts_layout hholds hcons hcap (by omega : _ ≤ tailBlock + ringSize) hblock hseq
  obtain ⟨why, hstop, htorn⟩ : ∃ why,
      StopsAt read ringSize journalBlockSize (tailBlock + ringSize)
        (tailBlock + (layout txs).length) (tailSeq + txs.length) why ∧
      tornRevokes read ringSize journalBlockSize (tailBlock + ringSize)
        (tailBlock + (layout txs).length) (tailSeq + txs.length) = [] := by
    by_cases hfull : (layout txs).length < ringSize
    · obtain ⟨block, hread, hnot⟩ := hnext hfull
      obtain ⟨⟨why, hturn⟩, hfound⟩ :=
        scanTx_stop_of_not_descriptor journalBlockSize hread hnot
      exact ⟨why, .inr ⟨by omega, ∅, hturn⟩, by rw [tornRevokes, if_neg (by omega), hfound]⟩
    · exact ⟨_, .inl ⟨by omega, rfl⟩, by rw [tornRevokes, if_pos (by omega)]⟩
  refine ⟨why, (scanCommitted_eq_ok hring).mpr ⟨hblock, _, _, _, _, why, hacc, hstop, ?_⟩⟩
  rw [htorn, append_nil, Nat.add_sub_cancel_left]

theorem isMaxOf_layout (hcap : ∀ tx ∈ txs, tx.revokes.length ≤ revokeCapacity journalBlockSize)
    (hnull : ∀ tx ∈ txs, tx.seq = 0 → 0 ∉ tx.revokes) :
    IsMaxOf (addRevokes ∅ (txs.flatMap TxImage.readableRevokes)) (writtenRevokes txs) := by
  have hpairs : revokePairs (txs.flatMap TxImage.readableRevokes) = writtenRevokes txs := by
    rw [revokePairs, map_flatMap, writtenRevokes]
    refine flatMap_congr fun tx htx ↦ ?_
    rw [TxImage.readableRevokes_eq (hcap tx htx) fun h ↦ hnull tx htx h.1 h.2,
      TxImage.revokeEntries, map_map]
    rfl
  rw [← hpairs]
  exact isMaxOf_addRevokes _

/-- **The journal round trip.** Transactions laid out in the ring are found again, with their
revokes, and replaying an entry that is not revoked writes the page that was enrolled. -/
theorem scanCommitted_layout {E : Type*} {read : ℕ → Except E (List UInt8)}
    {ringSize tailSeq tailBlock : ℕ} {txs : List TxImage} (hring : 1 ≤ ringSize)
    (hcons : Consecutive tailSeq txs)
    (hcap : ∀ tx ∈ txs, tx.blocks.length ≤ 254 ∧ tx.revokes.length ≤ 254)
    (hfit : (layout txs).length ≤ ringSize)
    (hholds : ∀ k b, (layout txs)[k]? = some b → read ((tailBlock + k) % ringSize + 1) = .ok b)
    (hnext : (layout txs).length < ringSize → ∃ block,
      read ((tailBlock + (layout txs).length) % ringSize + 1) = .ok block ∧
        ∀ hdr, parseHeader block = some hdr →
          ¬(hdr.kind = JournalBlockKind.descriptor.toByte ∧ hdr.seq = tailSeq + txs.length))
    (hnull : ∀ tx ∈ txs, tx.seq = 0 → 0 ∉ tx.revokes)
    (hblock : tailBlock + ringSize < 2 ^ 64) (hseq : tailSeq + txs.length < 2 ^ 64) :
    ∃ scan, scanCommitted read ringSize 4096 tailSeq tailBlock = .ok scan ∧
      scan.txs = txs.map TxImage.scanned ∧ scan.nextSeq = tailSeq + txs.length ∧
      scan.nextBlock = tailBlock + (layout txs).length ∧
      IsMaxOf scan.revokes (writtenRevokes txs) ∧
      ∀ tx ∈ txs, ∀ i b page, tx.blocks[i]? = some (b, page) →
        (∀ v, scan.revokes[b]? = some v → v < tx.seq) →
        replayWrite tx.scanned i scan.revokes = some (b, page.bytes) := by
  have hread : Holds read ringSize tailBlock (layout txs) := by
    exact fun k b hk ↦ readRingBlock_eq_ok.mpr (hholds k b hk)
  obtain ⟨why, hscan⟩ := scanCommitted_of_holds hring hcons
    (fun tx htx ↦ (hcap tx htx).1) hfit hread
    (fun hlt ↦ by
      obtain ⟨block, hblock, hnot⟩ := hnext hlt
      refine ⟨block, readRingBlock_eq_ok.mpr hblock, fun hdr hdesc ↦ ?_⟩
      obtain ⟨hparse, hkind⟩ := checkDescriptor_eq_ok hdesc
      exact hnot hdr hparse hkind) hblock hseq
  refine ⟨_, hscan, rfl, rfl, rfl, isMaxOf_layout (fun tx htx ↦ (hcap tx htx).2) hnull, ?_⟩
  intro tx _ i b page hb hlater
  rw [replayWrite_scanned hb, if_neg]
  intro hany
  obtain ⟨v, hv, hle⟩ := (Option.any_eq_true _ _).mp hany
  exact absurd (hlater v hv) (Nat.not_lt.mpr (of_decide_eq_true hle))

/-- A page of zeros. -/
def Page.zero : Page := ⟨replicate journalBlockSize 0, length_replicate⟩

theorem Page.parseHeader_zero : parseHeader Page.zero.bytes = none := by
  have hesc : Page.zero.escaped = false := by
    decide
  have hcopy : Page.zero.blockCopy = Page.zero.bytes := by rw [blockCopy, hesc]; rfl
  rw [← hcopy, parseHeader_blockCopy]

/-- A page whose first word is the journal magic. -/
def Page.magic : Page :=
  ⟨patch (replicate journalBlockSize 0) 0 (leBytes 4 journalBlockMagic.toNat), by
    rw [length_patch (by rw [length_leBytes, length_replicate]; decide),
      length_replicate]⟩

/-- Two transactions of seven blocks in all, from cursor 5 of a ring of seven, so that they wrap:
the second revokes a block of the first and enrols a page that has to be escaped. -/
theorem scanCommitted_layout_wrapped :
    let txs : List TxImage := [⟨3, 1, [(9, Page.zero)], []⟩, ⟨4, 2, [(8, Page.magic)], [9]⟩]
    ∃ scan, scanCommitted (ringReader (writeRing 7 (fun _ ↦ []) 5 (layout txs))) 7 4096 3 5
        = .ok scan ∧
      scan.txs = txs.map TxImage.scanned ∧ scan.nextSeq = 3 + txs.length ∧
      scan.nextBlock = 5 + (layout txs).length ∧ IsMaxOf scan.revokes (writtenRevokes txs) ∧
      ∀ tx ∈ txs, ∀ i b page, tx.blocks[i]? = some (b, page) →
        (∀ v, scan.revokes[b]? = some v → v < tx.seq) →
        replayWrite tx.scanned i scan.revokes = some (b, page.bytes) := by
  intro txs
  have hlen : (layout txs).length = 7 := by rw [length_layout]; decide
  refine scanCommitted_layout (by decide) (by decide) (by decide) hlen.le ?_
    (fun hlt ↦ absurd hlt (by omega)) (by decide) (by decide) (by decide)
  exact fun k b hk ↦ readRingBlock_eq_ok.mp (holds_writeRing hlen.le k b hk)

/-- A scan that accepts the last sequence number has no result. -/
theorem scanCommitted_seq_overflow (tx : TxImage)
    (hholds : Holds read ringSize tailBlock tx.ringBlocks)
    (hcap : tx.blocks.length ≤ descriptorCapacity journalBlockSize) (hseq : tx.seq + 1 = 2 ^ 64)
    (hfit : tx.needed ≤ ringSize) (hblock : tailBlock + ringSize < 2 ^ 64) :
    scanCommitted read ringSize journalBlockSize tx.seq tailBlock = .error .overflow := by
  have hneeded : 0 < tx.needed := Nat.succ_pos _
  obtain ⟨m, hturn⟩ := scanTx_image hholds hcap (by omega) (by omega)
  obtain ⟨n, rfl⟩ : ∃ n, ringSize = n + 1 := ⟨ringSize - 1, by omega⟩
  rw [scanCommitted, if_neg (by omega), u64Add_of_lt hblock]
  simp only [bind, Except.bind]
  rw [scanLoop, if_neg (by omega), hturn]
  simp only [bind, Except.bind]
  rw [u64Add, if_neg (by omega)]

/-- Without its conditions the round trip fails. The revoke of block 0 by transaction 0 is laid out
in the ring, but the scan does not find it; and a scan that comes to the end of the `u64` range,
with the end of the ring or with the next sequence number, has no result. -/
theorem scanCommitted_layout_exceptions :
    (let txs : List TxImage := [⟨0, 1, [], [0]⟩]
     ∃ scan, scanCommitted (ringReader (writeRing 3 (fun _ ↦ []) 0 (layout txs))) 3 4096 0 0
         = .ok scan ∧
       (0, 0) ∈ writtenRevokes txs ∧ scan.revokes[(0 : UInt64)]? = none ∧
       ¬IsMaxOf scan.revokes (writtenRevokes txs)) ∧
    scanCommitted (ringReader fun _ ↦ []) 1 4096 0 (2 ^ 64 - 1) = .error .overflow ∧
    (let txs : List TxImage := [⟨2 ^ 64 - 1, 1, [(9, Page.zero)], []⟩]
     scanCommitted (ringReader (writeRing 3 (fun _ ↦ []) 0 (layout txs))) 3 4096 (2 ^ 64 - 1) 0
       = .error .overflow) := by
  refine ⟨?_, rfl, ?_⟩
  · intro txs
    have hlen : (layout txs).length = 3 := by rw [length_layout]; decide
    have hholds : Holds (ringReader (writeRing 3 (fun _ ↦ []) 0 (layout txs))) 3 0 (layout txs) :=
      holds_writeRing hlen.le
    obtain ⟨why, hscan⟩ := scanCommitted_of_holds (by decide) (by decide : Consecutive 0 txs)
      (by decide) hlen.le hholds (fun hlt ↦ absurd hlt (by omega)) (by decide) (by decide)
    have hnone : (addRevokes ∅ (txs.flatMap TxImage.readableRevokes))[(0 : UInt64)]? = none := by
      decide
    refine ⟨_, hscan, by decide, hnone, fun hmax ↦ ?_⟩
    obtain ⟨v, hv, -⟩ := hmax.bound (k := (0 : UInt64)) (w := 0) (by decide)
    exact absurd (hnone.symm.trans hv) (by simp)
  · intro txs
    rw [show layout txs = TxImage.ringBlocks _ from layout_singleton _]
    exact scanCommitted_seq_overflow ⟨2 ^ 64 - 1, 1, [(9, Page.zero)], []⟩
      (holds_writeRing (by rw [TxImage.length_ringBlocks]; decide)) (by decide) (by decide)
      (by decide) (by decide)

/-! ## Torn transactions -/

/-- **The revokes of a torn transaction count.** A ring that holds a layout and behind it an image
whose commit block is missing is scanned as if the image were not there, except for its revokes. -/
theorem scanCommitted_of_torn
    (hring : 0 < ringSize) (hcons : Consecutive tailSeq txs) (htx : tx.seq = tailSeq + txs.length)
    (hcap : ∀ tx' ∈ tx :: txs, tx'.blocks.length ≤ descriptorCapacity journalBlockSize)
    (hfit : (layout txs).length + tx.needed ≤ ringSize)
    (hholds : Holds read ringSize tailBlock (layout txs ++ tx.ringBlocks.dropLast))
    (hrev : tx.hasRevokes = true)
    (hcommit : readRingBlock read ringSize (tailBlock + (layout txs).length + (tx.needed - 1))
      = .ok block) (hnot : parseHeader block = none)
    (hblock : tailBlock + ringSize < 2 ^ 64) (hseq : tailSeq + txs.length < 2 ^ 64) :
    scanCommitted read ringSize journalBlockSize tailSeq tailBlock
      = .ok ⟨txs.map TxImage.scanned,
          addRevokes ∅ (txs.flatMap TxImage.readableRevokes ++ tx.readableRevokes),
          tailSeq + txs.length, tailBlock + (layout txs).length, (layout txs).length,
          .partialTx tx.seq⟩ := by
  obtain ⟨hhead, htail⟩ := holds_append.mp hholds
  have hneeded : 0 < tx.needed := Nat.succ_pos _
  have hacc := accepts_layout hhead hcons (fun tx' h ↦ hcap tx' (mem_cons_of_mem _ h))
    (by omega : _ ≤ tailBlock + ringSize) hblock hseq
  obtain ⟨⟨m, hturn⟩, hfound⟩ := scanTx_image_torn htail hrev hcommit hnot
    (hcap tx mem_cons_self) (by omega) (by omega)
  rw [htx] at hturn hfound ⊢
  refine (scanCommitted_eq_ok hring).mpr ⟨hblock, _, _, _, _, _, hacc,
    .inr ⟨by omega, m, hturn⟩, ?_⟩
  rw [tornRevokes, if_neg (by omega), hfound, Nat.add_sub_cancel_left]

/-- Each revoke of the transaction that tears the walk over `read` is matched, for its block, by one
at least as new among the accepted revokes `es` or in the transaction that tears the walk over
`read'`. -/
def TornCovered {E : Type*} (read read' : ℕ → Except E (List UInt8))
    (ringSize blockSize bound : ℕ) (es : List RevokeEntry) (pos seq : ℕ) : Prop :=
  Dominated (revokePairs (tornRevokes read ringSize blockSize bound pos seq))
    (revokePairs (es ++ tornRevokes read' ringSize blockSize bound pos seq))

/-- **Two rings that differ behind the accepted transactions.** The scans find the same
transactions, and the same revokes exactly when each ring covers the revokes of the transaction that
tears the walk over the other. -/
theorem scanCommitted_eq_iff {E : Type*} {read read' : ℕ → Except E (List UInt8)}
    {ringSize blockSize tailSeq tailBlock : ℕ} {scan scan' : JournalScan}
    (hscan : scanCommitted read ringSize blockSize tailSeq tailBlock = .ok scan)
    (hscan' : scanCommitted read' ringSize blockSize tailSeq tailBlock = .ok scan')
    (hagree : AgreeOn read read' ringSize tailBlock scan.nextBlock)
    (hstop : scan'.nextBlock = scan.nextBlock) :
    ∃ es, Accepts read ringSize blockSize (tailBlock + ringSize) tailBlock tailSeq scan.txs es
        scan.nextBlock scan.nextSeq ∧
      (scan'.txs = scan.txs ∧ scan'.revokes = scan.revokes ↔
        TornCovered read read' ringSize blockSize (tailBlock + ringSize) es scan.nextBlock
          scan.nextSeq ∧
        TornCovered read' read ringSize blockSize (tailBlock + ringSize) es scan.nextBlock
          scan.nextSeq) := by
  rcases Nat.eq_zero_or_pos ringSize with rfl | hring
  · cases hscan
    cases hscan'
    refine ⟨[], .nil _ _, ?_⟩
    simp [TornCovered, tornRevokes, revokePairs, Dominated]
  · obtain ⟨-, txs, es, pos, seq, why, hacc, -, rfl⟩ := (scanCommitted_eq_ok hring).mp hscan
    obtain ⟨-, txs', es', pos', seq', why', hacc', -, rfl⟩ := (scanCommitted_eq_ok hring).mp hscan'
    obtain rfl : pos' = pos := hstop
    obtain ⟨rfl, rfl, rfl⟩ := (hacc.congr hagree).unique hacc'
    refine ⟨es, hacc, ?_⟩
    simp only [true_and]
    rw [(isMaxOf_addRevokes _).eq_iff_dominated (isMaxOf_addRevokes _)]
    simp only [TornCovered, revokePairs, map_append]
    rw [dominated_append_left, dominated_append_left, and_comm]

/-- A committed transaction that journals block 5. -/
def committedFive : TxImage := ⟨1, 1, [(5, Page.zero)], []⟩

/-- A ring of six slots with that transaction at its start. -/
def ringWithFive (rest : ℕ → List UInt8) : ℕ → List UInt8 :=
  writeRing 6 rest 0 (layout [committedFive])

theorem length_layout_committedFive : (layout [committedFive]).length = 3 := by
  decide

theorem holds_ringWithFive (rest : ℕ → List UInt8) :
    Holds (ringReader (ringWithFive rest)) 6 0 (layout [committedFive]) :=
  holds_writeRing (by rw [length_layout_committedFive]; decide)

theorem ringWithFive_behind (rest : ℕ → List UInt8) (h : 3 ≤ i) : ringWithFive rest i = rest i := by
  refine writeRing_of_ne fun k hk ↦ ?_
  rw [length_layout_committedFive] at hk
  omega

theorem scanCommitted_ringWithFive (rest : ℕ → List UInt8) (h : parseHeader (rest 3) = none) :
    ∃ why, scanCommitted (ringReader (ringWithFive rest)) 6 4096 1 0
      = .ok ⟨[committedFive.scanned], ∅, 2, 3, 3, why⟩ := by
  have hlen := length_layout_committedFive
  obtain ⟨why, hscan⟩ := scanCommitted_of_holds (by decide)
    (by decide : Consecutive 1 [committedFive]) (by decide) (by omega) (holds_ringWithFive rest)
    (fun _ ↦ ⟨rest 3, by
      rw [hlen, readRingBlock_ringReader, ringWithFive_behind _ (by decide)], by
      simp [checkDescriptor, h]⟩) (by decide) (by decide)
  exact ⟨why, hscan⟩

/-- Two rings with different leftovers, but no revokes in them, behind the committed transaction. -/
theorem scanCommitted_eq_of_leftovers :
    ∃ scan scan', scanCommitted (ringReader (ringWithFive fun _ ↦ [])) 6 4096 1 0 = .ok scan ∧
      scanCommitted (ringReader (ringWithFive fun _ ↦ [1])) 6 4096 1 0 = .ok scan' ∧
      scan'.txs = scan.txs ∧ scan'.revokes = scan.revokes := by
  obtain ⟨why, hscan⟩ := scanCommitted_ringWithFive (fun _ ↦ []) (by decide)
  obtain ⟨why', hscan'⟩ := scanCommitted_ringWithFive (fun _ ↦ [1]) (by decide)
  obtain ⟨es, -, hiff⟩ := scanCommitted_eq_iff hscan hscan'
    ((holds_ringWithFive _).agreeOn (holds_ringWithFive _) |>.mono le_rfl
      (by rw [length_layout_committedFive])) rfl
  refine ⟨_, _, hscan, hscan', hiff.mpr ⟨?_, ?_⟩⟩
  · intro e he
    cases he
  · intro e he
    cases he

/-- **A torn transaction takes effect.** Behind the committed transaction, one ring has the
descriptor and the revoke block of a transaction that frees block 5 and never committed. Both scans
accept the same transaction and stop at the same place; the revoke is in force in one of them, and
replay leaves block 5 as it was. -/
theorem torn_revoke_takes_effect :
    let torn : TxImage := ⟨2, 2, [], [5]⟩
    let ring := writeRing 6 (fun _ ↦ []) 0 (layout [committedFive] ++ torn.ringBlocks.dropLast)
    ∃ scan scan', scanCommitted (ringReader ring) 6 4096 1 0 = .ok scan ∧
      scanCommitted (ringReader (ringWithFive fun _ ↦ [])) 6 4096 1 0 = .ok scan' ∧
      AgreeOn (ringReader ring) (ringReader (ringWithFive fun _ ↦ [])) 6 0 scan.nextBlock ∧
      scan.nextBlock = scan'.nextBlock ∧ scan.txs = scan'.txs ∧ scan.revokes ≠ scan'.revokes ∧
      replayWrite committedFive.scanned 0 scan.revokes = none ∧
      replayWrite committedFive.scanned 0 scan'.revokes = some (5, Page.zero.bytes) := by
  intro torn ring
  have hlen := length_layout_committedFive
  have hblocks : (layout [committedFive] ++ torn.ringBlocks.dropLast).length = 5 := by
    decide
  have hholds : Holds (ringReader ring) 6 0 (layout [committedFive] ++ torn.ringBlocks.dropLast) :=
    holds_writeRing (by omega)
  have hcommit : readRingBlock (ringReader ring) 6 (0 + (layout [committedFive]).length
      + (torn.needed - 1)) = .ok [] := by
    have hneeded : torn.needed = 3 := by decide
    exact congrArg _ (writeRing_of_ne fun k hk ↦ by omega)
  have hscan := scanCommitted_of_torn (by decide) (by decide : Consecutive 1 [committedFive])
    (by decide) (by decide) (by rw [hlen]; decide) hholds (by decide) hcommit
      (by decide) (by decide)
    (by decide)
  obtain ⟨why', hscan'⟩ := scanCommitted_ringWithFive (fun _ ↦ []) (by decide)
  refine ⟨_, _, hscan, hscan', (holds_append.mp hholds).1.agreeOn (holds_ringWithFive _),
    by rw [hlen], rfl, ?_, ?_, ?_⟩
  · exact (by decide : addRevokes ∅ ([committedFive].flatMap TxImage.readableRevokes
      ++ torn.readableRevokes) ≠ ∅)
  · decide
  · rfl

end Edos

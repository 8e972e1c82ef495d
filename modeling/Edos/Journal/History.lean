import Edos.Journal.Replay
import Edos.Journal.Transaction

/-!
# From operations to the disk after replay

A metadata operation enrols the blocks it writes and revokes the blocks it frees, in some order. Its
handle keeps the two as a map and a set, the drop merges them into the open transaction, and the
commit writes the map as data blocks and the set as one revoke block. This file follows operations
along that path to the disk that replay leaves.

## What is lost on the way

The order between an enrolment and a free of the same block is lost when both are in one
transaction, and it is turned round when the handle that freed the block is dropped after the one
that wrote it. `replay_write` then reads the revoke as the later of the two, whichever it was
(`replay_restores_iff`). And the commit reserves ring space for a single revoke block, whose encoder
drops what does not fit: `revokes_complete_iff` is the exact bound.
-/

namespace Edos

open List Std
open Option hiding or_assoc

/-! ## Operations, handles, transactions -/

/-- What an operation asks of its handle: `write_block` enrols, `free_block` revokes. -/
inductive Op (P : Type*) where
  | enroll (block : UInt64) (page : P)
  | free (block : UInt64)
  deriving DecidableEq

variable {P : Type*}

def TxHandle.perform (h : TxHandle P) : Op P → TxHandle P
  | .enroll block page => h.enrollBlock block page
  | .free block => h.enrollRevoke block

/-- The transaction that handles with the given operations build up, one drop after the other. -/
def Transaction.ofHandles (seq : ℕ) (txId : UInt64) (handles : List (List (Op P))) :
    Transaction P :=
  handles.foldl (fun tx ops ↦ (ops.foldl TxHandle.perform .new).drop tx) (.new seq txId)

/-- The page a block was last enrolled with. -/
def lastEnrolled (b : UInt64) : List (Op P) → Option P
  | [] => none
  | .enroll b' page :: ops => (lastEnrolled b ops).or (if b' = b then some page else none)
  | .free _ :: ops => lastEnrolled b ops

theorem lastEnrolled_append (b : UInt64) (xs ys : List (Op P)) :
    lastEnrolled b (xs ++ ys) = (lastEnrolled b ys).or (lastEnrolled b xs) := by
  induction xs with
  | nil => rw [nil_append, lastEnrolled, or_none]
  | cons op xs ih =>
    cases op with
    | enroll b' page => rw [cons_append, lastEnrolled, lastEnrolled, ih, Option.or_assoc]
    | free b' => rw [cons_append, lastEnrolled, lastEnrolled, ih]

theorem lastEnrolled_eq_none {b : UInt64} {ops : List (Op P)}
    (h : ∀ page, Op.enroll b page ∉ ops) : lastEnrolled b ops = none := by
  induction ops with
  | nil => rfl
  | cons op ops ih =>
    have hrest := ih fun page hmem ↦ h page (mem_cons_of_mem op hmem)
    cases op with
    | enroll b' page =>
      rw [lastEnrolled, hrest, none_or, if_neg]
      rintro rfl
      exact h page mem_cons_self
    | free b' => exact hrest

theorem TxHandle.perform_spec (ops : List (Op P)) (h : TxHandle P) (b : UInt64) :
    (ops.foldl perform h).aborted = h.aborted ∧
      (ops.foldl perform h).stagedBlocks[b]? = (lastEnrolled b ops).or h.stagedBlocks[b]? ∧
      (b ∈ (ops.foldl perform h).stagedRevokes ↔ Op.free b ∈ ops ∨ b ∈ h.stagedRevokes) := by
  induction ops generalizing h with
  | nil => exact ⟨rfl, by rw [lastEnrolled, none_or]; rfl, by simp⟩
  | cons op ops ih =>
    obtain ⟨haborted, hblocks, hrevokes⟩ := ih (h.perform op)
    rw [foldl_cons]
    cases op with
    | enroll b' page =>
      refine ⟨haborted, ?_, ?_⟩
      · rw [hblocks, lastEnrolled, Option.or_assoc, perform, enrollBlock,
          ExtTreeMap.getElem?_insert]
        by_cases hb : b' = b
        · rw [if_pos hb, if_pos (by rw [hb]; exact compare_self), some_or]
        · rw [if_neg hb, if_neg fun heq ↦ hb (LawfulEqCmp.eq_of_compare heq), none_or]
      · rw [hrevokes]
        simp [perform, enrollBlock]
    | free b' =>
      refine ⟨haborted, hblocks, ?_⟩
      rw [hrevokes, perform, enrollRevoke, ExtTreeSet.mem_insert, Std.compare_eq_iff_eq]
      simp [or_assoc, or_left_comm, eq_comm]

/-- **What a transaction holds**: of each block the page it was last enrolled with, and the blocks
that were freed. How the operations were grouped into handles does not matter. -/
theorem Transaction.ofHandles_spec (seq : ℕ) (txId : UInt64) (handles : List (List (Op P)))
    (b : UInt64) :
    (ofHandles seq txId handles).enrolledBlocks[b]? = lastEnrolled b handles.flatten ∧
      (b ∈ (ofHandles seq txId handles).revokes ↔ Op.free b ∈ handles.flatten) := by
  have h (handles : List (List (Op P))) : ∀ tx : Transaction P,
      (handles.foldl (fun tx ops ↦ (ops.foldl TxHandle.perform .new).drop tx) tx).enrolledBlocks[b]?
          = (lastEnrolled b handles.flatten).or tx.enrolledBlocks[b]? ∧
        (b ∈ (handles.foldl (fun tx ops ↦ (ops.foldl TxHandle.perform .new).drop tx) tx).revokes ↔
          Op.free b ∈ handles.flatten ∨ b ∈ tx.revokes) := by
    induction handles with
    | nil =>
      intro tx
      exact ⟨by rw [flatten_nil, lastEnrolled, none_or]; rfl, by simp⟩
    | cons ops handles ih =>
      intro tx
      obtain ⟨haborted, hblocks, hrevokes⟩ := TxHandle.perform_spec ops .new b
      obtain ⟨hmap, hset⟩ := ih ((ops.foldl TxHandle.perform .new).drop tx)
      rw [foldl_cons, hmap, hset, TxHandle.getElem?_drop haborted,
        TxHandle.mem_drop_revokes haborted, hblocks, hrevokes, flatten_cons,
        lastEnrolled_append, Option.or_assoc, mem_append]
      refine ⟨?_, ?_⟩
      · rw [TxHandle.new, ExtTreeMap.getElem?_empty, none_or, Option.or_assoc]
      · simp [TxHandle.new, or_left_comm, or_assoc]
  obtain ⟨hmap, hset⟩ := h handles (.new seq txId)
  refine ⟨hmap.trans ?_, hset.trans ?_⟩
  · rw [Transaction.new, ExtTreeMap.getElem?_empty, or_none]
  · simp [Transaction.new]

theorem Transaction.ofHandles_seq (seq : ℕ) (txId : UInt64) (handles : List (List (Op P))) :
    (ofHandles seq txId handles).seq = seq := by
  have h : ∀ tx : Transaction P,
      (handles.foldl (fun tx ops ↦ (ops.foldl TxHandle.perform .new).drop tx) tx).seq = tx.seq := by
    induction handles with
    | nil => exact fun _ ↦ rfl
    | cons ops handles ih => exact fun tx ↦ (ih _).trans (TxHandle.drop_seq _ tx)
  exact h (.new seq txId)

/-- A transaction that was committed: the handles merged into it, and its pages as they were when
the commit copied them. -/
structure CommittedTx (P : Type*) where
  txId : UInt64
  handles : List (List (Op P))
  content : P → Page

namespace CommittedTx

/-- The operations of all its handles, in the order in which the handles were dropped. -/
def ops (t : CommittedTx P) : List (Op P) := t.handles.flatten

def transaction (t : CommittedTx P) (seq : ℕ) : Transaction P := .ofHandles seq t.txId t.handles

def image (t : CommittedTx P) (seq : ℕ) : TxImage := (t.transaction seq).capture t.content

theorem image_seq (t : CommittedTx P) (seq : ℕ) : (t.image seq).seq = seq :=
  Transaction.ofHandles_seq seq t.txId t.handles

theorem mem_image_revokes (t : CommittedTx P) (seq : ℕ) {b : UInt64} :
    b ∈ (t.image seq).revokes ↔ Op.free b ∈ t.ops :=
  ExtTreeSet.mem_toList.trans (Transaction.ofHandles_spec seq t.txId t.handles b).2

theorem mem_image_blocks (t : CommittedTx P) (seq : ℕ) {b : UInt64} {page : Page} :
    (b, page) ∈ (t.image seq).blocks ↔
      ∃ p, lastEnrolled b t.ops = some p ∧ t.content p = page := by
  rw [image, Transaction.mem_capture_blocks, transaction,
    (Transaction.ofHandles_spec seq t.txId t.handles b).1, ops]

theorem nodup_image_revokes (t : CommittedTx P) (seq : ℕ) : (t.image seq).revokes.Nodup := by
  refine ExtTreeSet.distinct_toList.imp ?_
  rintro b b' hne rfl
  exact hne compare_self

end CommittedTx

/-! ## Revokes -/

variable {tx : TxImage} {txs : List TxImage}

theorem TxImage.seq_of_readable {e : RevokeEntry} (h : e ∈ tx.readableRevokes) :
    e.seq = tx.seq := by
  have hmem := mem_of_mem_take (takeWhile_subset _ h)
  obtain ⟨b, -, rfl⟩ := List.mem_map.mp hmem
  rfl

/-- The one revoke block carries all the revokes exactly when there are no more than fit and none of
them is written as the null entry. -/
theorem TxImage.readable_iff (hnodup : tx.revokes.Nodup) :
    (∀ b ∈ tx.revokes, ⟨b, tx.seq⟩ ∈ tx.readableRevokes) ↔
      tx.revokes.length ≤ revokeCapacity journalBlockSize ∧ ¬(tx.seq = 0 ∧ 0 ∈ tx.revokes) := by
  constructor
  · intro h
    constructor
    · have hsub : tx.revokeEntries ⊆ tx.revokeEntries.take (revokeCapacity journalBlockSize) := by
        rintro e he
        obtain ⟨b, hb, rfl⟩ := List.mem_map.mp he
        exact takeWhile_subset _ (h b hb)
      have hinj : Function.Injective fun b : UInt64 ↦ (⟨b, tx.seq⟩ : RevokeEntry) :=
        fun b b' heq ↦ congrArg RevokeEntry.fsBlock heq
      have hle := (subperm_of_subset (List.Nodup.map hinj hnodup) hsub).length_le
      rw [length_take, revokeEntries, length_map] at hle
      exact hle.trans (min_le_left _ _)
    · rintro ⟨hseq, hmem⟩
      have hnull := mem_takeWhile_imp (h 0 hmem)
      simp [RevokeEntry.isNull, hseq] at hnull
  · rintro ⟨hcap, hnull⟩ b hb
    rw [readableRevokes_eq hcap hnull]
    exact List.mem_map_of_mem hb

variable {seq : ℕ}

/-- After transactions that all come before it, the revokes of an image are in force exactly if they
can be read back. -/
theorem covered_iff {before : List TxImage} (hbefore : ∀ tx ∈ before, tx.seq < seq)
    {es : List RevokeEntry} (hes : ∀ e ∈ es, e.seq = seq) (b : UInt64) :
    (∃ v, (addRevokes ∅ (before.flatMap TxImage.readableRevokes ++ es))[b]? = some v ∧ seq ≤ v) ↔
      ⟨b, seq⟩ ∈ es := by
  have hmax := isMaxOf_addRevokes (before.flatMap TxImage.readableRevokes ++ es)
  constructor
  · rintro ⟨v, hv, hle⟩
    obtain ⟨⟨b', v'⟩, hmem, heq⟩ := List.mem_map.mp (hmax.attained hv)
    obtain ⟨rfl, rfl⟩ := Prod.mk.inj heq
    rcases mem_append.mp hmem with hmem | hmem
    · obtain ⟨tx, htx, hmem⟩ := mem_flatMap.mp hmem
      have hold := hbefore tx htx
      rw [← TxImage.seq_of_readable hmem] at hold
      exact absurd hold (Nat.not_lt.mpr hle)
    · obtain rfl : v' = seq := hes _ hmem
      exact hmem
  · intro hmem
    exact hmax.bound (List.mem_map.mpr ⟨_, mem_append_right _ hmem, rfl⟩)

variable {img : TxImage}

/-- The revokes in force after a scan that comes to an image last: those of the transactions before
it, and those that can be read back from the image, if its descriptor can. -/
theorem exists_scan_of_last {E : Type*} {read : ℕ → Except E (List UInt8)}
    {ringSize tailSeq tailBlock : ℕ} {before : List TxImage}
    (hring : ringSize < 2 ^ 32) (hcons : Consecutive tailSeq (before ++ [img]))
    (hcap : ∀ tx ∈ before, tx.blocks.length ≤ descriptorCapacity journalBlockSize)
    (hfit : (layout (before ++ [img])).length ≤ ringSize)
    (hholds : Holds read ringSize tailBlock (layout (before ++ [img])))
    (hnext : (layout (before ++ [img])).length < ringSize → ∃ block,
      readRingBlock read ringSize (tailBlock + (layout (before ++ [img])).length) = .ok block ∧
        ∀ hdr, checkDescriptor block (tailSeq + (before ++ [img]).length) ≠ .ok hdr)
    (hblock : tailBlock + ringSize < 2 ^ 64)
    (hseq : tailSeq + (before ++ [img]).length < 2 ^ 64) :
    ∃ scan, scanCommitted read ringSize journalBlockSize tailSeq tailBlock = .ok scan ∧
      scan.revokes = addRevokes ∅ (before.flatMap TxImage.readableRevokes ++
        if img.blocks.length ≤ descriptorCapacity journalBlockSize then img.readableRevokes
        else []) := by
  have hlen : (layout (before ++ [img])).length = (layout before).length + img.needed := by
    rw [layout_append, layout_singleton, length_append, TxImage.length_ringBlocks]
  have hneeded : img.blocks.length < img.needed := by rw [TxImage.needed]; omega
  by_cases hle : img.blocks.length ≤ descriptorCapacity journalBlockSize
  · obtain ⟨why, hscan⟩ := scanCommitted_of_holds (by omega) hcons (by
        rw [forall_mem_append, forall_mem_singleton]
        exact ⟨hcap, hle⟩) hfit hholds hnext hblock hseq
    refine ⟨_, hscan, ?_⟩
    rw [if_pos hle, flatMap_append, flatMap_singleton]
  · rw [length_append, length_singleton] at hseq
    obtain ⟨hbefore, htx⟩ := consecutive_append.mp hcons
    obtain ⟨htx, -⟩ := consecutive_cons.mp htx
    rw [layout_append, layout_singleton] at hholds
    obtain ⟨hpre, himg⟩ := holds_append.mp hholds
    have hacc := accepts_layout hpre hbefore hcap (by omega : _ ≤ tailBlock + ringSize) hblock
      (by omega)
    obtain ⟨⟨m, hturn⟩, hfound⟩ := scanTx_image_too_large himg (Nat.not_le.mp hle) (by omega)
      (by omega) (by omega)
    rw [htx] at hturn hfound
    refine ⟨_, (scanCommitted_eq_ok (by omega)).mpr ⟨hblock, _, _, _, _, _, hacc,
      .inr ⟨by omega, m, hturn⟩, rfl⟩, ?_⟩
    rw [tornRevokes, if_neg (by omega), hfound, if_neg hle]

/-- **Revokes are complete up to the capacity of one block.** Once a transaction is committed, the
scan has a revoke of every block freed in it, so that no copy of such a block by an earlier
transaction is replayed, exactly if nothing was freed or the transaction enrols at most 254 blocks,
revokes at most 254, and is not transaction 0 freeing block 0. -/
theorem revokes_complete_iff {E : Type*} {read : ℕ → Except E (List UInt8)}
    {ringSize tailSeq tailBlock seq : ℕ} {before : List TxImage} {t : CommittedTx P}
    (hring : ringSize < 2 ^ 32) (hseq : seq = tailSeq + before.length)
    (hcons : Consecutive tailSeq before) (hcap : ∀ tx ∈ before, tx.blocks.length ≤ 254)
    (hfit : (layout (before ++ [t.image seq])).length ≤ ringSize)
    (hholds : ∀ k b, (layout (before ++ [t.image seq]))[k]? = some b →
      read ((tailBlock + k) % ringSize + 1) = .ok b)
    (hnext : (layout (before ++ [t.image seq])).length < ringSize → ∃ block,
      read ((tailBlock + (layout (before ++ [t.image seq])).length) % ringSize + 1) = .ok block ∧
        ∀ hdr, parseHeader block = some hdr →
          ¬(hdr.kind = JournalBlockKind.descriptor.toByte ∧ hdr.seq = seq + 1))
    (hblock : tailBlock + ringSize < 2 ^ 64) (hrange : seq + 1 < 2 ^ 64) :
    ∃ scan, scanCommitted read ringSize 4096 tailSeq tailBlock = .ok scan ∧
      ((∀ b, Op.free b ∈ t.ops → (∃ v, scan.revokes[b]? = some v ∧ seq ≤ v) ∧
          ∀ old ∈ before, ∀ i page, old.blocks[i]? = some (b, page) →
            replayWrite old.scanned i scan.revokes = none) ↔
        (∀ b, Op.free b ∉ t.ops) ∨
          ((t.transaction seq).enrolledBlocks.size ≤ 254 ∧ (t.transaction seq).revokes.size ≤ 254 ∧
            ¬(seq = 0 ∧ Op.free 0 ∈ t.ops))) := by
  have hdesc : descriptorCapacity journalBlockSize = 254 := by decide
  have hrev : revokeCapacity journalBlockSize = 254 := by decide
  have himg := t.image_seq seq
  have hcons' : Consecutive tailSeq (before ++ [t.image seq]) := by
    rw [consecutive_append, consecutive_cons, himg]
    exact ⟨hcons, hseq, rfl⟩
  have hlen : tailSeq + (before ++ [t.image seq]).length = seq + 1 := by
    rw [length_append, length_singleton, hseq, add_assoc]
  obtain ⟨scan, hscan, hrevokes⟩ := exists_scan_of_last hring hcons'
    (fun tx htx ↦ (hcap tx htx).trans hdesc.ge) hfit
    (fun k b hk ↦ readRingBlock_eq_ok.mpr (hholds k b hk)) (fun hlt ↦ by
      obtain ⟨block, hread, hnot⟩ := hnext hlt
      refine ⟨block, readRingBlock_eq_ok.mpr hread, fun hdr hdesc ↦ ?_⟩
      rw [hlen] at hdesc
      obtain ⟨hparse, hkind⟩ := checkDescriptor_eq_ok hdesc
      exact hnot hdr hparse hkind) hblock (hlen ▸ hrange)
  refine ⟨scan, hscan, ?_⟩
  have hold : ∀ tx ∈ before, tx.seq < seq := fun tx htx ↦ hseq ▸ (hcons.seq_lt htx).2
  have hblocks : (t.image seq).blocks.length = (t.transaction seq).enrolledBlocks.size :=
    Transaction.length_capture_blocks _ _
  have hcount : (t.image seq).revokes.length = (t.transaction seq).revokes.size :=
    ExtTreeSet.length_toList
  have hcovered (b : UInt64) : (∃ v, scan.revokes[b]? = some v ∧ seq ≤ v) ↔
      (t.image seq).blocks.length ≤ 254 ∧ ⟨b, seq⟩ ∈ (t.image seq).readableRevokes := by
    rw [hrevokes, covered_iff hold, hdesc]
    · split_ifs with hle
      · exact (and_iff_right hle).symm
      · exact ⟨(fun h ↦ nomatch h), fun h ↦ absurd h.1 hle⟩
    · intro e he
      split_ifs at he
      · exact (TxImage.seq_of_readable he).trans himg
      · cases he
  have hveto (b : UInt64) (hb : ∃ v, scan.revokes[b]? = some v ∧ seq ≤ v) : ∀ old ∈ before,
      ∀ i page, old.blocks[i]? = some (b, page) →
        replayWrite old.scanned i scan.revokes = none := by
    rintro old hmem i page hi
    obtain ⟨v, hv, hle⟩ := hb
    rw [replayWrite_scanned hi, hv, if_pos]
    exact decide_eq_true ((hold old hmem).le.trans hle)
  have hread := TxImage.readable_iff (t.nodup_image_revokes seq)
  rw [himg, hrev, hcount, t.mem_image_revokes] at hread
  constructor
  · intro h
    by_cases hnone : ∀ b, Op.free b ∉ t.ops
    · exact .inl hnone
    · push Not at hnone
      obtain ⟨b, hb⟩ := hnone
      refine .inr ⟨hblocks ▸ ((hcovered b).mp (h b hb).1).1, hread.mp fun b' hb' ↦ ?_⟩
      exact ((hcovered b').mp (h b' ((t.mem_image_revokes seq).mp hb')).1).2
  · rintro (hnone | ⟨hle, hsmall⟩) b hb
    · exact absurd hb (hnone b)
    · have hin := (hcovered b).mpr ⟨hblocks ▸ hle,
        hread.mpr hsmall b ((t.mem_image_revokes seq).mpr hb)⟩
      exact ⟨hin, hveto b hin⟩

/-- A transaction frees a block that the one before it has journalled. -/
theorem revokes_complete_one_free :
    let before : List TxImage := [⟨3, 1, [(9, Page.zero)], []⟩]
    let t : CommittedTx Unit := ⟨2, [[.free 9]], fun _ ↦ Page.zero⟩
    let ring := writeRing 6 (fun _ ↦ []) 5 (layout (before ++ [t.image 4]))
    ∃ scan, scanCommitted (ringReader ring) 6 4096 3 5 = .ok scan ∧
      (∃ v, scan.revokes[(9 : UInt64)]? = some v ∧ 4 ≤ v) ∧
      ∀ old ∈ before, replayWrite old.scanned 0 scan.revokes = none := by
  intro before t ring
  have hlen : (layout (before ++ [t.image 4])).length = 6 := by rw [length_layout]; decide
  have hholds : ∀ k b, (layout (before ++ [t.image 4]))[k]? = some b →
      ringReader ring ((5 + k) % 6 + 1) = .ok b :=
    fun k b hk ↦ readRingBlock_eq_ok.mp (holds_writeRing hlen.le k b hk)
  obtain ⟨scan, hscan, hiff⟩ := revokes_complete_iff (by decide)
    (by decide : 4 = 3 + before.length) (by decide) (by decide) hlen.le hholds
    (fun hlt ↦ absurd hlt (by omega)) (by decide) (by decide)
  obtain ⟨hcovered, hveto⟩ := hiff.mpr (.inr (by decide)) 9 (by decide)
  refine ⟨scan, hscan, hcovered, fun old hold ↦ hveto old hold 0 Page.zero ?_⟩
  rw [mem_singleton.mp hold]
  rfl

theorem CommittedTx.image_revokes_eq {t : CommittedTx P} {l : List UInt64} (seq : ℕ)
    (hl : l.Pairwise fun a b ↦ compare a b = .lt) (h : ∀ b, Op.free b ∈ t.ops ↔ b ∈ l) :
    (t.image seq).revokes = l := by
  have hnodup : l.Nodup := hl.imp fun {a b} hlt heq ↦ by
    rw [heq, compare_self] at hlt
    cases hlt
  have hperm : (t.image seq).revokes.Perm l :=
    (perm_ext_iff_of_nodup (t.nodup_image_revokes seq) hnodup).mpr fun b ↦
      (t.mem_image_revokes seq).trans (h b)
  refine hperm.eq_of_pairwise (fun a b _ _ hab hba ↦ ?_) ExtTreeSet.ordered_toList hl
  rw [OrientedOrd.eq_swap, hba] at hab
  cases hab

/-- The first 255 blocks. -/
def manyBlocks : List UInt64 := (range 255).map UInt64.ofNat

theorem manyBlocks_sorted : manyBlocks.Pairwise fun a b ↦ compare a b = .lt := by
  refine pairwise_map.mpr (pairwise_lt_range.imp_of_mem fun ha hb hlt ↦ ?_)
  rw [mem_range] at ha hb
  rw [Std.compare_eq_lt, UInt64.lt_iff_toNat_lt, UInt64.toNat_ofNat', UInt64.toNat_ofNat']
  omega

/-- A transaction that frees 255 blocks: the last of them has no revoke in the scan, and the copy
that the transaction before it journalled is written back. -/
theorem revokes_incomplete_many_frees :
    let before : List TxImage := [⟨1, 1, [(254, Page.zero)], []⟩]
    let t : CommittedTx Unit := ⟨2, [manyBlocks.map .free], fun _ ↦ Page.zero⟩
    let ring := writeRing 6 (fun _ ↦ []) 0 (layout (before ++ [t.image 2]))
    Op.free 254 ∈ t.ops ∧
      ∃ scan, scanCommitted (ringReader ring) 6 4096 1 0 = .ok scan ∧
        scan.revokes[(254 : UInt64)]? = none ∧
        ∀ old ∈ before,
          replayWrite old.scanned 0 scan.revokes = some (254, Page.zero.bytes) := by
  intro before t ring
  have hops (b : UInt64) : Op.free b ∈ t.ops ↔ b ∈ manyBlocks := by
    simp [t, CommittedTx.ops]
  have hrevokes : (t.image 2).revokes = manyBlocks :=
    CommittedTx.image_revokes_eq 2 manyBlocks_sorted hops
  have hblocks : (t.image 2).blocks = [] := by
    refine eq_nil_iff_forall_not_mem.mpr fun e he ↦ ?_
    obtain ⟨p, hp, -⟩ := (t.mem_image_blocks 2).mp he
    cases hp
  have hlen : (layout (before ++ [t.image 2])).length = 6 := by
    have hneeded : (t.image 2).needed = 3 := by
      rw [TxImage.needed, hblocks, TxImage.hasRevokes, hrevokes]
      decide
    rw [layout_append, length_append, layout_singleton (t.image 2),
      (t.image 2).length_ringBlocks, hneeded, length_layout]
    decide
  obtain ⟨scan, hscan, hmap⟩ := exists_scan_of_last (by decide)
    (consecutive_append.mpr ⟨by decide, consecutive_cons.mpr ⟨t.image_seq 2, rfl⟩⟩) (by decide)
    hlen.le (holds_writeRing hlen.le : Holds (ringReader ring) 6 0 _)
    (fun hlt ↦ absurd hlt (by omega)) (by decide) (by decide)
  have hnone : scan.revokes[(254 : UInt64)]? = none := by
    cases hv : scan.revokes[(254 : UInt64)]? with
    | none => rfl
    | some v =>
      rw [hmap, hblocks] at hv
      obtain ⟨e, he, heq⟩ := List.mem_map.mp ((isMaxOf_addRevokes _).attained hv)
      obtain ⟨hblock, -⟩ := Prod.mk.inj heq
      have hold : before.flatMap TxImage.readableRevokes = [] := by decide
      rw [hold, nil_append] at he
      have hread := takeWhile_subset _ he
      rw [TxImage.revokeEntries, ← map_take, hrevokes] at hread
      obtain ⟨b, hb, rfl⟩ := List.mem_map.mp hread
      rw [show b = 254 from hblock] at hb
      exact absurd hb (by decide)
  refine ⟨(hops 254).mpr (by decide), scan, hscan, hnone, fun old hold ↦ ?_⟩
  rw [mem_singleton.mp hold, replayWrite_scanned rfl, hnone]
  rfl

/-! ## What replay restores -/

/-- The images of transactions committed one after the other. -/
def CommittedTx.images : ℕ → List (CommittedTx P) → List TxImage
  | _, [] => []
  | seq, t :: ts => t.image seq :: images (seq + 1) ts

namespace CommittedTx

theorem length_images (seq : ℕ) (ts : List (CommittedTx P)) :
    (images seq ts).length = ts.length := by
  induction ts generalizing seq with
  | nil => rfl
  | cons t ts ih => rw [images, length_cons, ih, length_cons]

theorem images_append (seq : ℕ) (ts ts' : List (CommittedTx P)) :
    images seq (ts ++ ts') = images seq ts ++ images (seq + ts.length) ts' := by
  induction ts generalizing seq with
  | nil => rfl
  | cons t ts ih =>
    rw [cons_append, images, images, ih, cons_append, length_cons, add_right_comm, add_assoc]

theorem consecutive_images (seq : ℕ) (ts : List (CommittedTx P)) :
    Consecutive seq (images seq ts) := by
  induction ts generalizing seq with
  | nil => rfl
  | cons t ts ih => exact consecutive_cons.mpr ⟨t.image_seq seq, ih (seq + 1)⟩

theorem mem_images (seq : ℕ) {t : CommittedTx P} {ts : List (CommittedTx P)} (h : t ∈ ts) :
    ∃ s, t.image s ∈ images seq ts := by
  induction ts generalizing seq with
  | nil => cases h
  | cons t' ts ih =>
    rcases mem_cons.mp h with rfl | h
    · exact ⟨seq, mem_cons_self⟩
    · obtain ⟨s, hs⟩ := ih (seq + 1) h
      exact ⟨s, mem_cons_of_mem _ hs⟩

theorem exists_of_mem_images {ts : List (CommittedTx P)}
    (h : img ∈ images seq ts) : ∃ t ∈ ts, ∃ s, img = t.image s := by
  induction ts generalizing seq with
  | nil => cases h
  | cons t ts ih =>
    rcases mem_cons.mp h with rfl | h
    · exact ⟨t, mem_cons_self, seq, rfl⟩
    · obtain ⟨t', ht', hs⟩ := ih h
      exact ⟨t', mem_cons_of_mem t ht', hs⟩

end CommittedTx

/-- The journal region of a disk holds the given transactions from its tail on, within what one
descriptor and one revoke block can carry, and no transaction that continues them. -/
structure Recorded (g : JournalRegion) (d : Disk) (tailSeq tailBlock : ℕ) (txs : List TxImage) :
    Prop where
  holds : Holds (g.readBlock d) (g.blockCount - 1) tailBlock (layout txs)
  fits : (layout txs).length ≤ g.blockCount - 1
  next : (layout txs).length < g.blockCount - 1 → ∃ block,
    readRingBlock (g.readBlock d) (g.blockCount - 1) (tailBlock + (layout txs).length) = .ok block ∧
      ∀ hdr, checkDescriptor block (tailSeq + txs.length) ≠ .ok hdr
  blocks : ∀ tx ∈ txs, tx.blocks.length ≤ descriptorCapacity journalBlockSize
  revokes : ∀ tx ∈ txs, tx.revokes.length ≤ revokeCapacity journalBlockSize
  addressable : ∀ tx ∈ txs, ∀ e ∈ tx.blocks, e.1.toNat * sectorsPerBlock < 2 ^ 64
  tail_pos : 0 < tailSeq
  block_range : tailBlock + (g.blockCount - 1) < 2 ^ 64
  seq_range : tailSeq + txs.length < 2 ^ 64

/-- The home writes that a scanned image calls for under a revoke map. -/
def TxImage.unrevoked (tx : TxImage) (m : RevokeMap) : List (UInt64 × List UInt8) :=
  tx.blocks.filterMap fun e ↦
    if m[e.1]?.any fun v ↦ tx.seq ≤ v then none else some (e.1, e.2.bytes)

theorem TxImage.mem_unrevoked {m : RevokeMap} {w : UInt64 × List UInt8} :
    w ∈ tx.unrevoked m ↔ (∃ page, (w.1, page) ∈ tx.blocks ∧ page.bytes = w.2) ∧
      ∀ v, m[w.1]? = some v → v < tx.seq := by
  have hany (b : UInt64) : (m[b]?.any fun v ↦ tx.seq ≤ v) = true ↔
      ¬∀ v, m[b]? = some v → v < tx.seq := by
    rw [Option.any_eq_true]
    simp
  rw [unrevoked, mem_filterMap]
  constructor
  · rintro ⟨⟨b, page⟩, hmem, hsome⟩
    split_ifs at hsome with hrev
    obtain rfl := some.inj hsome
    exact ⟨⟨page, hmem, rfl⟩, not_not.mp ((hany b).not.mp hrev)⟩
  · rintro ⟨⟨page, hmem, hbytes⟩, hlater⟩
    refine ⟨(w.1, page), hmem, ?_⟩
    rw [if_neg fun h ↦ (hany w.1).mp h hlater, hbytes]

/-- **Replay of a recorded journal**: the scan finds the transactions, and the disk is left with the
unrevoked copies applied in order. -/
theorem Recorded.kernelReplay_eq {g : JournalRegion} {d : Disk} {tailSeq tailBlock : ℕ}
    (h : Recorded g d tailSeq tailBlock txs) (hne : txs ≠ []) (hcons : Consecutive tailSeq txs) :
    ∃ m : RevokeMap, IsMaxOf m (writtenRevokes txs) ∧
      kernelReplay g tailSeq tailBlock d
        = (applyAll homeWrite (txs.flatMap fun tx ↦ tx.unrevoked m) d,
            .ok ⟨txs.length, tailSeq + txs.length, tailBlock + (layout txs).length⟩) := by
  have hpos : 0 < (layout txs).length := by
    obtain ⟨tx, rest, rfl⟩ := exists_cons_of_ne_nil hne
    rw [length_layout, map_cons, sum_cons, TxImage.needed]
    omega
  have hfits := h.fits
  obtain ⟨why, hscan⟩ := scanCommitted_of_holds (by omega) hcons h.blocks h.fits h.holds h.next
    h.block_range h.seq_range
  refine ⟨_, isMaxOf_layout h.revokes fun tx htx hzero ↦ ?_, ?_⟩
  · have htail := h.tail_pos
    have hseq := (hcons.seq_lt htx).1
    omega
  · rw [kernelReplay, JournalRegion.scan, if_neg (by omega), hscan]
    dsimp only
    rw [if_neg (by simpa using hne), homeWrites_scanned txs rfl, applyHomeWrites_eq]
    · rw [length_map]
      rfl
    · rintro w hw
      obtain ⟨tx, htx, hw⟩ := mem_flatMap.mp hw
      obtain ⟨⟨page, hmem, -⟩, -⟩ := TxImage.mem_unrevoked.mp hw
      exact h.addressable tx htx _ hmem

theorem getLast?_of_forall_eq {α : Type*} {l : List α} {x : α} (hmem : x ∈ l)
    (h : ∀ y ∈ l, y = x) : l.getLast? = some x := by
  have hne := ne_nil_of_mem hmem
  rw [getLast?_eq_some_getLast hne, h _ (getLast_mem hne)]

section LastWrite

variable {before after : List TxImage} {tx : TxImage} {m : RevokeMap} {b : UInt64}

/-- A block is not written if each of its copies is revoked. -/
theorem filter_unrevoked_eq_nil (h : ∀ img ∈ txs, ∀ page, (b, page) ∈ img.blocks →
      ∃ v, m[b]? = some v ∧ img.seq ≤ v) :
    ((txs.flatMap fun img ↦ img.unrevoked m).filter fun w ↦ w.1 = b) = [] := by
  refine filter_eq_nil_iff.mpr ?_
  rintro ⟨b', data⟩ hw hb
  obtain rfl : b' = b := of_decide_eq_true hb
  obtain ⟨img, himg, hw⟩ := mem_flatMap.mp hw
  obtain ⟨⟨page, hpage, -⟩, hunrevoked⟩ := TxImage.mem_unrevoked.mp hw
  obtain ⟨v, hv, hle⟩ := h img himg page hpage
  exact absurd (hunrevoked v hv) hle.not_gt

/-- A block that a transaction or a later one revokes, and no later one enrols, is not written at
all: the revoke carries the sequence number of its transaction, whose own copy it covers too. -/
theorem filter_unrevoked_of_revoked (hmax : IsMaxOf m (writtenRevokes (before ++ tx :: after)))
    (hold : ∀ img ∈ before, img.seq < tx.seq) (hlater : ∀ img ∈ after, tx.seq ≤ img.seq)
    (hnew : ∀ img ∈ after, ∀ page, (b, page) ∉ img.blocks)
    (hrevoked : ∃ img ∈ tx :: after, b ∈ img.revokes) :
    (((before ++ tx :: after).flatMap fun img ↦ img.unrevoked m).filter fun w ↦ w.1 = b) = [] := by
  obtain ⟨img, himg, hrevoked⟩ := hrevoked
  obtain ⟨v, hv, hle⟩ := hmax.bound (k := b) (w := img.seq) (mem_flatMap.mpr
    ⟨img, mem_append_right _ himg, List.mem_map.mpr ⟨b, hrevoked, rfl⟩⟩)
  have hseq : tx.seq ≤ v := by
    rcases mem_cons.mp himg with rfl | himg
    · exact hle
    · exact (hlater img himg).trans hle
  refine filter_unrevoked_eq_nil fun img himg page hpage ↦ ⟨v, hv, ?_⟩
  rcases mem_append.mp himg with himg | himg
  · exact (hold img himg).le.trans hseq
  · rcases mem_cons.mp himg with rfl | himg
    · exact hseq
    · exact absurd hpage (hnew img himg page)

/-- A block that a transaction enrols and neither it nor a later one revokes is written, and the
copy of the last such transaction comes last. -/
theorem getLast?_unrevoked_of_enrolled (page : Page)
    (hmax : IsMaxOf m (writtenRevokes (before ++ tx :: after)))
    (hold : ∀ img ∈ before, img.seq < tx.seq)
    (hnew : ∀ img ∈ after, b ∉ img.revokes ∧ ∀ page', (b, page') ∉ img.blocks)
    (hblock : ∀ page', (b, page') ∈ tx.blocks ↔ page' = page) (hkept : b ∉ tx.revokes) :
    (((before ++ tx :: after).flatMap fun img ↦ img.unrevoked m).filter fun w ↦ w.1 = b).getLast?
      = some (b, page.bytes) := by
  have hnewest : ∀ v, m[b]? = some v → v < tx.seq := by
    intro v hv
    obtain ⟨img, himg, hmem⟩ := mem_flatMap.mp (hmax.attained hv)
    obtain ⟨b', hb', heq⟩ := List.mem_map.mp hmem
    obtain ⟨rfl, rfl⟩ := Prod.mk.inj heq
    rcases mem_append.mp himg with himg | himg
    · exact hold img himg
    · rcases mem_cons.mp himg with rfl | himg
      · exact absurd hb' hkept
      · exact absurd hb' (hnew img himg).1
  have hlast : ((tx.unrevoked m).filter fun w ↦ w.1 = b).getLast? = some (b, page.bytes) := by
    refine getLast?_of_forall_eq (mem_filter.mpr ⟨TxImage.mem_unrevoked.mpr
      ⟨⟨page, (hblock page).mpr rfl, rfl⟩, hnewest⟩, decide_eq_true rfl⟩) ?_
    rintro ⟨b', data⟩ hw
    obtain ⟨hmem, hb⟩ := mem_filter.mp hw
    obtain rfl : b' = b := of_decide_eq_true hb
    obtain ⟨⟨page', hpage, rfl⟩, -⟩ := TxImage.mem_unrevoked.mp hmem
    rw [(hblock page').mp hpage]
  have hnone : ((after.flatMap fun img ↦ img.unrevoked m).filter fun w ↦ w.1 = b) = [] :=
    filter_unrevoked_eq_nil fun img himg page' hpage ↦
      absurd hpage ((hnew img himg).2 page')
  rw [flatMap_append, flatMap_cons, filter_append, filter_append, hnone,
    append_nil, getLast?_append, hlast, some_or]

end LastWrite

theorem length_of_mem_unrevoked {m : RevokeMap} :
    ∀ w ∈ txs.flatMap fun tx ↦ tx.unrevoked m, w.2.length = journalBlockSize := by
  intro w hw
  obtain ⟨tx, -, hw⟩ := mem_flatMap.mp hw
  obtain ⟨⟨page, -, hbytes⟩, -⟩ := TxImage.mem_unrevoked.mp hw
  rw [← hbytes, page.length_bytes]

/-! ## Histories -/

/-- A committed transaction, each operation with the time at which it was made. Handles overlap:
those that are dropped first need not be those that did their operations first. -/
structure TimedTx (P : Type*) where
  txId : UInt64
  handles : List (List (ℕ × Op P))
  content : P → Page

namespace TimedTx

def committed (t : TimedTx P) : CommittedTx P := ⟨t.txId, t.handles.map (map Prod.snd), t.content⟩

/-- The operation is made, at a time, with a handle that is merged into the transaction. -/
def Does (t : TimedTx P) (time : ℕ) (op : Op P) : Prop := ∃ h ∈ t.handles, (time, op) ∈ h

theorem exists_does_iff (t : TimedTx P) (op : Op P) :
    (∃ time, t.Does time op) ↔ op ∈ t.committed.ops := by
  simp only [Does, committed, CommittedTx.ops, mem_flatten, List.mem_map]
  constructor
  · rintro ⟨time, h, hh, hop⟩
    exact ⟨_, ⟨h, hh, rfl⟩, List.mem_map.mpr ⟨_, hop, rfl⟩⟩
  · rintro ⟨_, ⟨h, hh, rfl⟩, hop⟩
    obtain ⟨⟨time, _⟩, hmem, rfl⟩ := List.mem_map.mp hop
    exact ⟨time, h, hh, hmem⟩

/-- In a history, the block is freed after all its enrolments in `t`. -/
def FreedAfter (t : TimedTx P) (history : List (TimedTx P)) (b : UInt64) : Prop :=
  ∃ t' ∈ history, ∃ time, t'.Does time (.free b) ∧
    ∀ time' p, t.Does time' (.enroll b p) → time' < time

end TimedTx

/-- **What replay leaves of a block**: the contents captured by the last transaction that enrolled
it, exactly if neither that one nor a later one freed the block, or they were already there. -/
theorem homeBlock_kernelReplay {g : JournalRegion} {d : Disk} {tailSeq tailBlock : ℕ}
    (before : List (CommittedTx P)) {after : List (CommittedTx P)} {t : CommittedTx P} {b : UInt64}
    {p : P} (hpage : lastEnrolled b t.ops = some p)
    (hlast : ∀ t' ∈ after, ∀ q, Op.enroll b q ∉ t'.ops)
    (hrec : Recorded g d tailSeq tailBlock (CommittedTx.images tailSeq (before ++ t :: after))) :
    ∃ d' result, kernelReplay g tailSeq tailBlock d = (d', .ok result) ∧
      (d'.homeBlock b = (t.content p).bytes ↔
        (∀ t' ∈ t :: after, Op.free b ∉ t'.ops) ∨ d.homeBlock b = (t.content p).bytes) := by
  have hcons := CommittedTx.consecutive_images tailSeq (before ++ t :: after)
  rw [CommittedTx.images_append, CommittedTx.images] at hrec hcons
  obtain ⟨hbefore, hrest⟩ := consecutive_append.mp hcons
  obtain ⟨m, hmax, hreplay⟩ := hrec.kernelReplay_eq (by simp) hcons
  have hold : ∀ img ∈ CommittedTx.images tailSeq before,
      img.seq < (t.image (tailSeq + before.length)).seq := by
    intro img hmem
    rw [t.image_seq, ← CommittedTx.length_images tailSeq]
    exact (hbefore.seq_lt hmem).2
  have hlater : ∀ img ∈ CommittedTx.images (tailSeq + before.length + 1) after,
      (t.image (tailSeq + before.length)).seq ≤ img.seq := by
    intro img hmem
    have hseq := ((consecutive_cons.mp hrest).2.seq_lt hmem).1
    rw [t.image_seq, ← CommittedTx.length_images tailSeq]
    omega
  have hnew : ∀ img ∈ CommittedTx.images (tailSeq + before.length + 1) after, ∀ page,
      (b, page) ∉ img.blocks := by
    intro img hmem page hpage
    obtain ⟨t', ht', s, rfl⟩ := CommittedTx.exists_of_mem_images hmem
    obtain ⟨q, hq, -⟩ := (t'.mem_image_blocks s).mp hpage
    rw [lastEnrolled_eq_none (hlast t' ht')] at hq
    cases hq
  refine ⟨_, _, hreplay, ?_⟩
  rw [homeBlock_applyAll length_of_mem_unrevoked]
  by_cases hfree : ∀ t' ∈ t :: after, Op.free b ∉ t'.ops
  · obtain ⟨ht, hafter⟩ := forall_mem_cons.mp hfree
    rw [getLast?_unrevoked_of_enrolled (t.content p) hmax hold (fun img himg ↦ ⟨?_, hnew img himg⟩)
      (fun page ↦ ?_) ((t.mem_image_revokes _).not.mpr ht)]
    · exact iff_of_true rfl (.inl hfree)
    · obtain ⟨t', ht', s, rfl⟩ := CommittedTx.exists_of_mem_images himg
      exact (t'.mem_image_revokes s).not.mpr (hafter t' ht')
    · rw [t.mem_image_blocks, hpage]
      simp [eq_comm]
  · rw [filter_unrevoked_of_revoked hmax hold hlater hnew]
    · rw [getLast?_nil, map_none, getD_none]
      exact ⟨.inr, fun h ↦ h.resolve_left hfree⟩
    · simp only [not_forall, not_not] at hfree
      obtain ⟨t', ht', hfree⟩ := hfree
      obtain ⟨s, hs⟩ := CommittedTx.mem_images (tailSeq + before.length) ht'
      exact ⟨_, hs, (t'.mem_image_revokes s).mpr hfree⟩

/-- **Replay restores the last enrolment**, except when the block is freed after it, iff no free of
the block made before it reaches the journal with it or after it, or its contents are in the home
block anyway. -/
theorem replay_restores_iff {g : JournalRegion} {d : Disk} {tailSeq tailBlock : ℕ}
    {before after : List (TimedTx P)} {t : TimedTx P} {b : UInt64} {p : P}
    (hpage : lastEnrolled b t.committed.ops = some p)
    (hlast : ∀ t' ∈ after, ∀ time q, ¬t'.Does time (.enroll b q))
    (hrec : Recorded g d tailSeq tailBlock
      (CommittedTx.images tailSeq ((before ++ t :: after).map TimedTx.committed))) :
    ∃ d' result, kernelReplay g tailSeq tailBlock d = (d', .ok result) ∧
      (t.FreedAfter (before ++ t :: after) b ∨ d'.homeBlock b = (t.content p).bytes ↔
        t.FreedAfter (before ++ t :: after) b ∨
          (∀ t' ∈ t :: after, ∀ time, ¬t'.Does time (.free b)) ∨
          d.homeBlock b = (t.content p).bytes) := by
  rw [map_append, map_cons] at hrec
  have hlast' : ∀ t' ∈ after.map TimedTx.committed, ∀ q, Op.enroll b q ∉ t'.ops := by
    refine List.forall_mem_map.mpr fun t' ht' q hop ↦ ?_
    obtain ⟨time, hop⟩ := (t'.exists_does_iff _).mpr hop
    exact hlast t' ht' time q hop
  obtain ⟨d', result, hreplay, hiff⟩ := homeBlock_kernelReplay _ hpage hlast' hrec
  refine ⟨d', result, hreplay, or_congr_right (hiff.trans (or_congr_left ?_))⟩
  rw [← map_cons, List.forall_mem_map]
  refine forall₂_congr fun t' _ ↦ ?_
  rw [← t'.exists_does_iff, not_exists]

theorem recorded_imageDisk {firstBlock ringSize : ℕ} (hring : 0 < ringSize)
    (hfit : (layout txs).length ≤ ringSize) (hfirst : firstBlock + ringSize < 2 ^ 60)
    (hblocks : ∀ tx ∈ txs, tx.blocks.length ≤ descriptorCapacity journalBlockSize)
    (hrevokes : ∀ tx ∈ txs, tx.revokes.length ≤ revokeCapacity journalBlockSize)
    (haddr : ∀ tx ∈ txs, ∀ e ∈ tx.blocks, e.1.toNat * sectorsPerBlock < 2 ^ 64)
    (hseq : 1 + txs.length < 2 ^ 64) :
    Recorded ⟨0, firstBlock, ringSize + 1⟩
      (imageDisk firstBlock (writeRing ringSize (fun _ ↦ Page.zero.bytes) 0 (layout txs))) 1 0
      txs := by
  obtain ⟨hholds, hnext⟩ := layout_imageDisk hring hfit hfirst
  refine ⟨hholds, hfit, fun hlt ↦ ?_, hblocks, hrevokes, haddr, by decide, ?_, hseq⟩
  · obtain ⟨block, hread, hnot⟩ := hnext hlt
    exact ⟨block, hread, hnot _⟩
  · rw [Nat.add_sub_cancel]
    omega

/-- A block journalled twice, the second time by two handles of which the one that was dropped first
wrote it last and freed another block, gets the second contents. -/
theorem replay_restores_rewritten :
    let t₀ : TimedTx Bool := ⟨1, [[(0, .enroll 5 false)]], fun _ ↦ Page.zero⟩
    let t : TimedTx Bool :=
      ⟨2, [[(2, .enroll 5 false), (3, .free 6)], [(1, .enroll 5 true)]], fun _ ↦ Page.one⟩
    let d := imageDisk 16 (writeRing 7 (fun _ ↦ Page.zero.bytes) 0
      (layout (CommittedTx.images 1 ([t₀, t].map TimedTx.committed))))
    ∃ d' result, kernelReplay ⟨0, 16, 8⟩ 1 0 d = (d', .ok result) ∧
      d'.homeBlock 5 = Page.one.bytes := by
  intro t₀ t d
  have hlen : (layout (CommittedTx.images 1 ([t₀, t].map TimedTx.committed))).length = 7 := by
    rw [length_layout]
    decide
  have hrec : Recorded ⟨0, 16, 8⟩ d 1 0
      (CommittedTx.images 1 (([t₀] ++ t :: []).map TimedTx.committed)) :=
    recorded_imageDisk (by decide) hlen.le (by decide) (by decide) (by decide) (by decide)
      (by decide)
  have hkept : ∀ t' ∈ [t₀, t], ∀ time, ¬t'.Does time (.free 5) := by
    simp [t₀, t, TimedTx.Does]
  obtain ⟨d', result, hreplay, hiff⟩ :=
    replay_restores_iff (show lastEnrolled 5 t.committed.ops = some true from rfl) (by simp) hrec
  rcases hiff.mpr (.inr (.inl fun t' ht' ↦ hkept t' (mem_cons_of_mem _ ht'))) with
    ⟨t', ht', time, hfree, -⟩ | hhome
  · exact absurd hfree (hkept t' ht' time)
  · exact ⟨d', result, hreplay, hhome⟩

/-- A disk of zeros with the given transactions in a ring of `n` blocks. -/
def historyDisk (n : ℕ) (history : List (TimedTx Unit)) : Disk :=
  imageDisk 0 (writeRing n (fun _ ↦ Page.zero.bytes) 0
    (layout (CommittedTx.images 1 (history.map TimedTx.committed))))

theorem homeBlock_historyDisk {n : ℕ} (hn : 0 < n) (hle : n ≤ 8) (history : List (TimedTx Unit)) :
    (historyDisk n history).homeBlock 9 = Page.zero.bytes := by
  have hslot : writeRing n (fun _ ↦ Page.zero.bytes) 0
      (layout (CommittedTx.images 1 (history.map TimedTx.committed))) 8 = Page.zero.bytes :=
    writeRing_of_ne fun k _ ↦ ((Nat.mod_lt _ hn).trans_le hle).ne
  have hread : JournalRegion.readBlock ⟨0, 0, 5⟩ (historyDisk n history) (8 + 1) = .ok _ :=
    readBlock_imageDisk (by rw [hslot, Page.zero.length_bytes]) (by decide)
  exact (Except.ok.inj hread).trans hslot

/-- A block that is freed with its last enrolment, or after it, stays as it is. -/
theorem not_restored {n : ℕ} {t : TimedTx Unit} {after : List (TimedTx Unit)} (hn : 0 < n)
    (hle : n ≤ 8) (hcontent : t.content () = Page.one)
    (hpage : lastEnrolled 9 t.committed.ops = some ())
    (hlast : ∀ t' ∈ after.map TimedTx.committed, ∀ q, Op.enroll 9 q ∉ t'.ops)
    (hfree : ∃ t' ∈ (t :: after).map TimedTx.committed, Op.free 9 ∈ t'.ops)
    (hrec : Recorded ⟨0, 0, n + 1⟩ (historyDisk n (t :: after)) 1 0
      (CommittedTx.images 1 ((t :: after).map TimedTx.committed))) :
    ∃ d' result, kernelReplay ⟨0, 0, n + 1⟩ 1 0 (historyDisk n (t :: after)) = (d', .ok result) ∧
      d'.homeBlock 9 ≠ Page.one.bytes := by
  obtain ⟨d', result, hreplay, hiff⟩ := homeBlock_kernelReplay [] hpage hlast hrec
  rw [show t.committed.content () = Page.one from hcontent, homeBlock_historyDisk hn hle] at hiff
  refine ⟨d', result, hreplay, hiff.not.mpr (not_or.mpr ⟨?_, ?_⟩)⟩
  · obtain ⟨t', ht', hfree⟩ := hfree
    exact fun h ↦ h t' ht' hfree
  · rw [Page.zero, Page.one]
    intro heq
    exact absurd (congrArg head? heq) (by decide)

/-- One handle frees block 9 and then enrols it. -/
def freedThenWritten : TimedTx Unit := ⟨1, [[(0, .free 9), (1, .enroll 9 ())]], fun _ ↦ Page.one⟩

/-- A handle enrols block 9. -/
def written : TimedTx Unit := ⟨1, [[(1, .enroll 9 ())]], fun _ ↦ Page.one⟩

/-- A handle that freed it before is dropped after the other one. -/
def freedBefore : TimedTx Unit := ⟨2, [[(0, .free 9)]], fun _ ↦ Page.one⟩

/-- **Freed, then written again**, by one handle or by two that overlap. The new contents are in the
ring, committed, and replay does not write them. -/
theorem replay_skips_reallocated :
    (¬freedThenWritten.FreedAfter [freedThenWritten] 9 ∧
      ∃ d' result, kernelReplay ⟨0, 0, 5⟩ 1 0 (historyDisk 4 [freedThenWritten]) =
        (d', .ok result) ∧
        d'.homeBlock 9 ≠ Page.one.bytes) ∧
    ¬written.FreedAfter [written, freedBefore] 9 ∧
      ∃ d' result, kernelReplay ⟨0, 0, 7⟩ 1 0 (historyDisk 6 [written, freedBefore]) =
          (d', .ok result) ∧ d'.homeBlock 9 ≠ Page.one.bytes := by
  refine ⟨⟨?_, not_restored (by decide) (by decide) rfl rfl (by simp) (by decide) ?_⟩,
    ?_, not_restored (by decide) (by decide) rfl rfl ?_ (by decide) ?_⟩
  · simp [TimedTx.FreedAfter, TimedTx.Does, freedThenWritten]
  · refine recorded_imageDisk (by decide) ?_ (by decide) (by decide) (by decide)
      (by decide) (by decide)
    rw [length_layout]
    decide
  · simp [TimedTx.FreedAfter, TimedTx.Does, written, freedBefore]
  · simp [TimedTx.committed, CommittedTx.ops, freedBefore]
  · refine recorded_imageDisk (by decide) ?_ (by decide) (by decide) (by decide)
      (by decide) (by decide)
    rw [length_layout]
    decide

end Edos

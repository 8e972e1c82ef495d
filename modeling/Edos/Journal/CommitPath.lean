import Edos.Journal.Flow

/-!
# What a commit leaves in the ring

Only the committer writes the ring, so what it has written stays until it commits again. The
invariant `RingWritten` says which blocks of the image at hand are in their slots, phase by phase;
it holds in every run, whatever fails. When the commit block is written, the whole image is there.

## Capacity

The image is there, but the scan reads its shape from the descriptor, and one descriptor names at
most 254 blocks. Nothing in the path from a handle to the ring keeps a transaction below that:
`seal_if_full` allows a quarter of the ring, and a single handle may pass it by any amount.
-/

namespace Edos.Journal

open Function List Option Std

variable {P : Type*} {ringSize : ℕ}

/-- The blocks of an image, apart from some, are in their slots. -/
def Landed (ring : ℕ → List UInt8) (ringSize : ℕ) (img : TxImage) (start : ℕ)
    (missing : List ℕ) : Prop :=
  ∀ k b, k ∉ missing → img.ringBlocks[k]? = some b → ring ((start + k) % ringSize) = b

/-- What has been submitted and has completed is in the ring. -/
def RingWritten (ringSize : ℕ) (j : Journal P) : Prop :=
  ∀ img start, j.committer.target = some (img, start) →
    img.needed ≤ ringSize ∧ start + img.needed < 2 ^ 64 ∧
      Landed j.ring ringSize img start j.committer.missing

variable {ring : ℕ → List UInt8} {img : TxImage} {n seq start : ℕ} {j j' : Journal P}
  {scan : JournalScan}

theorem Landed.holds
    (h : Landed ring ringSize img start []) :
    Holds (ringReader ring) ringSize start img.ringBlocks :=
  fun k b hk ↦ by rw [readRingBlock_ringReader, h k b not_mem_nil hk]

/-- Writing a block of the image adds it to those that have landed. -/
theorem Landed.writeSlot {k : ℕ} {missing : List ℕ} (h : Landed ring ringSize img start missing)
    (hfit : img.needed ≤ ringSize) {rest : List ℕ} (hrest : ∀ i ∈ missing, i ≠ k → i ∈ rest) :
    Landed (Journal.writeSlot ringSize ring img start k) ringSize img start rest := by
  intro i b hi hb
  obtain ⟨hilen, -⟩ := List.getElem?_eq_some_iff.mp hb
  rw [TxImage.length_ringBlocks] at hilen
  rw [Journal.writeSlot]
  cases hk : img.ringBlocks[k]? with
  | none =>
    refine h i b (fun hmem ↦ hi (hrest i hmem ?_)) hb
    rintro rfl
    rw [hb] at hk
    cases hk
  | some c =>
    obtain ⟨hklen, -⟩ := List.getElem?_eq_some_iff.mp hk
    rw [TxImage.length_ringBlocks] at hklen
    by_cases hik : i = k
    · subst hik
      rw [hb] at hk
      rw [← some.inj hk]
      exact update_self _ _ _
    · -- Two slots of one image are less than a turn apart.
      have hne : (start + i) % ringSize ≠ (start + k) % ringSize := by
        rcases lt_or_gt_of_ne hik with hlt | hlt
        · obtain ⟨d, rfl⟩ := Nat.exists_eq_add_of_lt hlt
          rw [show start + (i + d + 1) = start + i + (d + 1) by omega]
          exact (add_mod_ne_mod (by omega) (by omega)).symm
        · obtain ⟨d, rfl⟩ := Nat.exists_eq_add_of_lt hlt
          rw [show start + (k + d + 1) = start + k + (d + 1) by omega]
          exact add_mod_ne_mod (by omega) (by omega)
      dsimp only
      rw [update_of_ne hne]
      exact h i b (fun hmem ↦ hi (hrest i hmem hik)) hb

theorem ringWritten_of_target_none (h : j.committer.target = none) :
    RingWritten ringSize j := fun img start ht ↦ by rw [h] at ht; cases ht

theorem ringWritten_of_eq (h : RingWritten ringSize j) (hring : j'.ring = j.ring)
    (hc : j'.committer = j.committer) : RingWritten ringSize j' := by
  rw [RingWritten, hring, hc]
  exact h

variable {a : Action P}

/-- **Step.** -/
theorem RingWritten.step (hinv : RingWritten ringSize j)
    (h : Takes ringSize j a j') : RingWritten ringSize j' := by
  cases h with
  | merge | sweep | advancerReads | advancerWrites => exact ringWritten_of_eq hinv rfl rfl
  | sealIfFull _ hseal =>
    rcases sealActive_eq_some hseal with ⟨-, rfl⟩ | ⟨-, rfl⟩
    · exact hinv
    · exact ringWritten_of_eq hinv rfl rfl
  | popNone | pop | commitEmpty | capture | giveUp | checkpoint | checkpointFails | drainFails
  | record | readAdvancing | readPublishing => exact ringWritten_of_target_none rfl
  | sealActive | checkpointSweep | writeAdvancing | writePublishing =>
    refine ringWritten_of_target_none ?_
    split_ifs <;> rfl
  | fits hc hfit hlt =>
    rintro img start ht
    obtain ⟨rfl, rfl⟩ := Prod.mk.inj (some.inj ht)
    refine ⟨hfit.trans (Nat.sub_le _ _), hlt, fun k b hk hb ↦ absurd ?_ hk⟩
    obtain ⟨hklen, -⟩ := List.getElem?_eq_some_iff.mp hb
    rw [TxImage.length_ringBlocks] at hklen
    rw [Committer.missing, mem_cons, mem_range]
    omega
  | ringWrite hc hk =>
    rintro img start ht
    obtain ⟨rfl, rfl⟩ := Prod.mk.inj (some.inj ht)
    obtain ⟨hfit, hlt, hlanded⟩ := hinv _ _ (by rw [hc]; rfl)
    refine ⟨hfit, hlt, hlanded.writeSlot hfit fun i hi hik ↦ ?_⟩
    rw [hc] at hi
    rw [Committer.missing, mem_cons] at hi ⊢
    exact hi.imp_right (mem_erase_of_ne hik).mpr
  | drained hc =>
    rintro img start ht
    obtain ⟨rfl, rfl⟩ := Prod.mk.inj (some.inj ht)
    have hw := hinv _ _ (by rw [hc]; rfl)
    rwa [hc] at hw
  | flushed ok hc =>
    cases ok with
    | false => exact ringWritten_of_target_none rfl
    | true =>
      rintro img start ht
      obtain ⟨rfl, rfl⟩ := Prod.mk.inj (some.inj ht)
      have hw := hinv _ _ (by rw [hc]; rfl)
      rwa [hc] at hw
  | @commitWritten img₀ start₀ landed ok hc hok =>
    cases ok with
    | false => exact ringWritten_of_target_none rfl
    | true =>
      obtain rfl := hok rfl
      rintro img start ht
      obtain ⟨rfl, rfl⟩ := Prod.mk.inj (some.inj ht)
      obtain ⟨hfit, hlt, hlanded⟩ := hinv _ _ (by rw [hc]; rfl)
      rw [hc] at hlanded
      refine ⟨hfit, hlt, hlanded.writeSlot hfit fun i hi hik ↦ ?_⟩
      exact absurd (mem_singleton.mp hi) hik

variable {j₀ : Journal P}

/-- **Run.** -/
theorem ringWritten_of_reaches {C : Journal P → Action P → Prop} (h₀ : j₀.committer = .idle)
    (h : Reaches (step ringSize) C j₀ j) : RingWritten ringSize j :=
  h.invariant (ringWritten_of_target_none (by rw [h₀]; rfl))
    fun _ _ _ hinv _ hs ↦ hinv.step (takes_of_step hs)

/-! ## Commits that nothing interrupts -/

variable (ringSize) in
/-- Blocks that have been submitted can land, all of them. -/
theorem reaches_landed (todo : List ℕ) :
    ∀ {j : Journal P}, j.committer = .writing img start todo →
      ∃ ring, Reaches (step ringSize) (fun _ _ ↦ True) j
        { j with ring := ring, committer := .writing img start [] } := by
  induction todo with
  | nil =>
    intro j hc
    refine ⟨j.ring, ?_⟩
    rw [← hc]
    exact .refl
  | cons k todo ih =>
    intro j hc
    have hstep : step ringSize j (.ringWrite k)
        = some { j with
            ring := writeSlot ringSize j.ring img start k
            committer := .writing img start todo } := by
      rw [step, hc]
      simp
    obtain ⟨ring, h⟩ := ih (j := { j with
      ring := writeSlot ringSize j.ring img start k, committer := .writing img start todo }) rfl
    exact ⟨ring, (Reaches.refl.tail trivial hstep).trans h⟩

theorem reaches_committed {todo : List ℕ} (h₀ : Reaches (step ringSize) (fun _ _ ↦ True) j₀ j)
    (hc : j.committer = .writing img start todo) :
    ∃ ring, Reaches (step ringSize) (fun _ _ ↦ True) j₀
      { j with ring := ring, committer := .committed img start } := by
  obtain ⟨ring, h⟩ := reaches_landed ringSize todo hc
  refine ⟨writeSlot ringSize ring img start (img.needed - 1), h₀.trans ?_⟩
  have hdrained := h.tail (a := .drained true) trivial rfl
  have hflushed := hdrained.tail (a := .flushed true) trivial rfl
  exact hflushed.tail (a := .commitWritten true true) trivial rfl

variable (ringSize) in
/-- A transaction merged into a fresh journal can be committed on its own. -/
theorem reaches_committed_of_merge {tx : Transaction P} (blocks : ExtTreeMap UInt64 P)
    (revokes : ExtTreeSet UInt64) (ring : ℕ → List UInt8) (content : P → Page)
    (htx : (Transaction.new 1 (UInt64.ofNat 1)).merge blocks revokes = tx)
    (hempty : tx.isEmpty = false) (hfit : (tx.capture content).needed ≤ ringSize)
    (hlt : (tx.capture content).needed < 2 ^ 64) :
    ∃ j : Journal P, Reaches (step ringSize) (fun _ _ ↦ True) (mounted 1 0 ring 1 0) j ∧
      j.committer = .committed (tx.capture content) 0 := by
  subst htx
  have hmerge : Reaches (step ringSize) (fun _ _ ↦ True) (mounted 1 0 ring 1 0 : Journal P) _ :=
    Reaches.refl.tail (a := .merge blocks revokes) trivial rfl
  have hseal := hmerge.tail (a := .sealActive) trivial (by
    dsimp only [step, mounted, JournalState.new, Journal.sealActive, JournalState.sealActive]
    rw [if_neg (Bool.eq_false_iff.mp hempty), if_neg (Bool.eq_false_iff.mp hempty),
      if_pos (by decide)]
    rfl)
  have hpop := hseal.tail (a := .pop) trivial rfl
  have hcapture := hpop.tail (a := .capture content) trivial (by
    dsimp only [step]
    rw [if_neg (Bool.eq_false_iff.mp hempty)])
  have hfits := hcapture.tail (a := .checkSpace) trivial (by
    dsimp only [step, Journal.checkSpace]
    rw [if_pos (by exact hfit), if_pos (by rw [zero_add]; exact hlt)])
  obtain ⟨ring', h⟩ := reaches_committed hfits rfl
  exact ⟨_, h, rfl⟩

/-! ## Capacity -/

/-- A scan that comes to the image finds it, with all the blocks it enrols. -/
def Found (ringSize : ℕ) (ring : ℕ → List UInt8) (img : TxImage) (start : ℕ) : Prop :=
  ∃ scan, scanCommitted (ringReader ring) ringSize 4096 img.seq start = .ok scan ∧
    scan.txs.head? = some img.scanned

theorem ringReader_total (ring : ℕ → List UInt8) (i : ℕ) : ∃ b, ringReader ring i = .ok b :=
  ⟨_, rfl⟩

theorem found_of_holds (hholds : Holds (ringReader ring) ringSize start img.ringBlocks)
    (hcap : img.blocks.length ≤ descriptorCapacity journalBlockSize)
    (hneeded : img.needed ≤ ringSize) (hblock : start + ringSize + 512 < 2 ^ 64)
    (hseq : img.seq + ringSize + 1 < 2 ^ 64) : Found ringSize ring img start := by
  have hpos : 0 < img.needed := Nat.succ_pos _
  have hdesc : descriptorCapacity journalBlockSize = 254 := by decide
  obtain ⟨m, hturn⟩ := scanTx_image hholds hcap (by omega) (by omega)
  have hacc : Accepts (ringReader ring) ringSize journalBlockSize (start + ringSize) start img.seq
      _ _ (start + img.needed) (img.seq + 1) :=
    .cons (by omega) hturn (by omega) (.nil (start + img.needed) (img.seq + 1))
  obtain ⟨scan, rest, hscan, htxs⟩ := exists_scanCommitted (ringReader_total ring) (by omega) hacc
    (by omega) (by omega)
  exact ⟨scan, hscan, by rw [htxs]; rfl⟩

variable {E : Type*} {read : ℕ → Except E (List UInt8)} {pos : ℕ}

/-- A scan whose first turn stops finds nothing. -/
theorem txs_eq_nil_of_stop {blockSize : ℕ} {why : ScanStop} {m : RevokeMap} (hring : 0 < ringSize)
    (hturn : scanTx read ringSize blockSize ∅ pos seq = .ok (.stop why m))
    (hscan : scanCommitted read ringSize blockSize seq pos = .ok scan) : scan.txs = [] := by
  obtain ⟨-, txs, es, pos', seq', why', hacc, -, rfl⟩ := (scanCommitted_eq_ok hring).mp hscan
  cases hacc with
  | nil => rfl
  | cons _ hturn' _ _ =>
    rw [hturn] at hturn'
    cases hturn'

/-- A scan that expects another sequence number than that of the image it starts at finds
nothing. -/
theorem txs_eq_nil_of_seq_ne (hholds : Holds read ringSize pos img.ringBlocks)
    (hring : 0 < ringSize) (hseq : img.seq < 2 ^ 64) (hne : img.seq ≠ seq)
    (hscan : scanCommitted read ringSize 4096 seq pos = .ok scan) : scan.txs = [] := by
  obtain ⟨hdesc, -⟩ := holds_cons.mp hholds
  have hnot : ∀ hdr, checkDescriptor
      (buildDescriptorBlock journalBlockSize img.seq img.txId img.entries) seq ≠ .ok hdr := by
    intro hdr hok
    obtain ⟨hparse, -, rfl⟩ := checkDescriptor_eq_ok hok
    rw [parseHeader_buildDescriptorBlock _ (by decide) hseq] at hparse
    exact hne (congrArg JournalBlockHeader.seq (some.inj hparse))
  obtain ⟨⟨why, hturn⟩, -⟩ := scanTx_stop_of_not_descriptor 4096 hdesc hnot
  exact txs_eq_nil_of_stop hring hturn hscan

theorem not_found_of_too_large (hholds : Holds (ringReader ring) ringSize start img.ringBlocks)
    (hcap : descriptorCapacity journalBlockSize < img.blocks.length)
    (hneeded : img.needed ≤ ringSize) (hring : ringSize < 2 ^ 32)
    (hblock : start + ringSize < 2 ^ 64) (hseq : img.seq < 2 ^ 64)
    (hscan : scanCommitted (ringReader ring) ringSize 4096 img.seq start = .ok scan) :
    scan.txs = [] := by
  have hle : img.blocks.length < img.needed := by rw [TxImage.needed]; omega
  obtain ⟨⟨m, hturn⟩, -⟩ := scanTx_image_too_large hholds hcap (by omega) hseq (by omega)
  exact txs_eq_nil_of_stop (by omega) hturn hscan

/-- A merge that leaves the open transaction with at most `n` blocks. -/
def MergeWithin (n : ℕ) (j : Journal P) : Action P → Prop
  | .merge blocks revokes => (j.state.active.merge blocks revokes).enrolledBlocks.size ≤ n
  | _ => True

/-- No transaction on its way to the ring has more than `n` blocks. -/
structure Within (n : ℕ) (j : Journal P) : Prop where
  active : j.state.active.enrolledBlocks.size ≤ n
  sealed : ∀ tx ∈ j.state.sealed, tx.enrolledBlocks.size ≤ n
  popped : ∀ tx, j.committer.tx = some tx → tx.enrolledBlocks.size ≤ n
  image : ∀ img, j.committer.image = some img → img.blocks.length ≤ n

/-- **Step.** -/
theorem Within.step (hinv : Within n j) (hmerge : MergeWithin n j a)
    (h : Takes ringSize j a j') : Within n j' := by
  have htx : AllTx (·.enrolledBlocks.size ≤ n) (·.enrolledBlocks.size ≤ n) j' :=
    AllTx.step ⟨hinv.active, hinv.sealed, hinv.popped⟩ (Nat.zero_le n)
      (fun _ _ ha ↦ by subst ha; exact hmerge) (fun _ _ ↦ hinv.active) h
  refine ⟨htx.active, htx.sealed, htx.held, fun img himg ↦ ?_⟩
  rcases image_step h himg with himg | ⟨content, tx, -, hc, rfl⟩
  · exact hinv.image img himg
  · rw [Transaction.length_capture_blocks]
    exact hinv.popped tx (by rw [hc]; rfl)

/-- **The capacity of a descriptor is the limit.** In every run, whatever is merged and whatever
fails in between, a transaction whose commit block has been written is found by a scan exactly when
it enrols at most 254 blocks; so in a run whose merges never leave more than 254 blocks in the open
transaction, every one is found. -/
theorem committed_found_iff {C : Journal P → Action P → Prop} {seq block headSeq headBlock : ℕ}
    {ring : ℕ → List UInt8} {j : Journal P} {img : TxImage} {start : ℕ}
    (hreach : Reaches (step ringSize) C (mounted seq block ring headSeq headBlock) j)
    (hcommitted : j.committer = .committed img start) (hring : ringSize < 2 ^ 32)
    (hblock : start + ringSize + 512 < 2 ^ 64) (hseq : img.seq + ringSize + 1 < 2 ^ 64) :
    (Found ringSize j.ring img start ↔ img.blocks.length ≤ 254) ∧
      ((∀ s a, C s a → MergeWithin 254 s a) → Found ringSize j.ring img start) := by
  obtain ⟨hneeded, hend, hlanded⟩ := ringWritten_of_reaches rfl hreach img start
    (by rw [hcommitted]; rfl)
  rw [hcommitted] at hlanded
  have hcap : descriptorCapacity journalBlockSize = 254 := by decide
  have hfound (hle : img.blocks.length ≤ 254) : Found ringSize j.ring img start :=
    found_of_holds hlanded.holds (hle.trans hcap.ge) hneeded hblock hseq
  refine ⟨⟨fun ⟨scan, hscan, hhead⟩ ↦ ?_, hfound⟩, fun hC ↦ hfound ?_⟩
  · by_contra hlt
    rw [not_found_of_too_large hlanded.holds (by omega) hneeded hring (by omega) (by omega) hscan]
      at hhead
    cases hhead
  · have hwithin : Within 254 j := hreach.invariant ⟨Nat.zero_le _, nofun, nofun, nofun⟩
      fun _ _ _ hinv hc hs ↦ hinv.step (hC _ _ hc) (takes_of_step hs)
    exact hwithin.image img (by rw [hcommitted]; rfl)

/-- In a journal of 1 MiB, a handle with one block: the commit goes through, and the scan finds
it. -/
theorem committed_found_one_block :
    ∃ (j : Journal Unit) (img : TxImage),
      Reaches (step 255) (fun _ _ ↦ True) (mounted 1 0 (fun _ ↦ []) 1 0) j ∧
        j.committer = .committed img 0 ∧ img.blocks = [(7, Page.zero)] ∧
        Found 255 j.ring img 0 := by
  obtain ⟨j, hreach, hc⟩ :=
    reaches_committed_of_merge 255 ((∅ : ExtTreeMap UInt64 Unit).insert 7 ())
    ∅ (fun _ ↦ []) (fun _ ↦ Page.zero) rfl (by decide) (by decide) (by decide)
  refine ⟨j, _, hreach, hc, rfl, ?_⟩
  exact (committed_found_iff hreach hc (by decide) (by decide) (by decide)).1.mpr (by decide)

/-- One handle that enrols 255 blocks. -/
def wideHandle : ExtTreeMap UInt64 Unit :=
  ExtTreeMap.ofList ((range 255).map fun k ↦ (UInt64.ofNat k, ()))

theorem size_wideHandle : wideHandle.size = 255 := by
  rw [wideHandle, ExtTreeMap.size_ofList, length_map, length_range]
  refine pairwise_map.mpr (pairwise_lt_range.imp_of_mem fun ha hb hlt heq ↦ ?_)
  have hnat := congrArg UInt64.toNat (LawfulEqCmp.eq_of_compare heq)
  rw [UInt64.toNat_ofNat', UInt64.toNat_ofNat'] at hnat
  rw [mem_range] at ha hb
  omega

/-- In the journal that `efs-mkfs` makes by default, a handle with 255 blocks stays below
`max_tx_blocks` and is committed without an error, and the scan finds nothing. -/
theorem committed_not_found_wide :
    ∃ (j : Journal Unit) (img : TxImage),
      Reaches (step 4095) (fun _ _ ↦ True) (mounted 1 0 (fun _ ↦ []) 1 0) j ∧
        j.committer = .committed img 0 ∧ img.seq = 1 ∧ img.blocks.length = 255 ∧
        img.blocks.length < maxTxBlocks 4095 ∧
        ∃ scan, scanCommitted (ringReader j.ring) 4095 4096 1 0 = .ok scan ∧ scan.txs = [] := by
  have hmap : ((Transaction.new 1 (UInt64.ofNat 1)).merge wideHandle ∅).enrolledBlocks
      = wideHandle := by
    refine ExtTreeMap.ext_getElem? fun b ↦ ?_
    rw [Transaction.getElem?_merge]
    exact (congrArg _ ExtTreeMap.getElem?_empty).trans or_none
  generalize htx : (Transaction.new 1 (UInt64.ofNat 1)).merge wideHandle ∅ = tx at hmap
  have hrevokes : tx.revokes = ∅ := by rw [← htx]; rfl
  have hlen : (tx.capture fun _ ↦ Page.zero).blocks.length = 255 := by
    rw [Transaction.length_capture_blocks, hmap, size_wideHandle]
  have hneeded : (tx.capture fun _ ↦ Page.zero).needed = 257 := by
    rw [TxImage.needed, hlen, TxImage.hasRevokes, Transaction.capture, hrevokes]
    rfl
  have hempty : tx.isEmpty = false := by
    rw [Transaction.isEmpty, hmap, ExtTreeMap.isEmpty_eq_size_beq_zero, size_wideHandle]
    rfl
  obtain ⟨j, hreach, hc⟩ := reaches_committed_of_merge 4095 wideHandle ∅ (fun _ ↦ [])
    (fun _ ↦ Page.zero) htx hempty (by omega) (by omega)
  have hseq : (tx.capture fun _ ↦ Page.zero).seq = 1 := by rw [← htx]; rfl
  obtain ⟨-, -, hlanded⟩ := ringWritten_of_reaches rfl hreach _ _ (by rw [hc]; rfl)
  rw [hc] at hlanded
  obtain ⟨scan, rest, hscan, -⟩ := exists_scanCommitted (ringReader_total j.ring)
    (by decide) (.nil 0 1 : Accepts _ 4095 4096 (0 + 4095) 0 1 [] [] 0 1) (by decide) (by decide)
  refine ⟨j, _, hreach, hc, hseq, hlen, by rw [hlen]; decide, scan, hscan, ?_⟩
  rw [← hseq] at hscan
  refine not_found_of_too_large hlanded.holds ?_ (by omega) (by decide) (by decide) ?_ hscan
  · rw [hlen]
    decide
  · rw [hseq]
    decide

end Edos.Journal

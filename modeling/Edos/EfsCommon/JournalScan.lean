import Edos.EfsCommon.JournalFormat
import Edos.Lib.Except
import Edos.Lib.MaxMap

/-!
# Scanning the journal ring

`scan_committed` walks the ring from the tail cursor and collects every transaction that is fully
committed, together with the revokes that veto individual blocks; `replay_write` turns one entry of
a collected transaction into the home-block write it calls for. Both the kernel's mount-time replay
and `efs-fsck` run this code.

## Shape of the model

One turn of the source's loop is `scanTx`, which ends in one of two ways: the walk stops, or a
transaction is accepted and the walk goes on behind it. The turn is cut where the source reads the
block behind the data, because that block is a revoke block or already the commit block; what
remains once the commit block is in hand is `judgeCommit`.

The revokes of a transaction are merged *before* its commit block is looked at. A `stop` therefore
carries a revoke map of its own, which need not be the one the turn started with.

Cursors are `u64` sums and the kernel is built with overflow checks, so a sum that leaves the range
ends the walk as a fault (`ScanFault.overflow`), like a failing read does.
-/

namespace Edos

open Std

/-- Why a walk produced no result: a block could not be read, or a cursor left the `u64` range. -/
inductive ScanFault (E : Type*) where
  | read (e : E)
  | overflow

section Reading

variable {E : Type*}

/-- Checked `u64` addition. -/
def u64Add (a b : ℕ) : Except (ScanFault E) ℕ :=
  if a + b < 2 ^ 64 then .ok (a + b) else .error .overflow

theorem u64Add_of_lt {a b : ℕ} (h : a + b < 2 ^ 64) :
    (u64Add a b : Except (ScanFault E) ℕ) = .ok (a + b) := if_pos h

theorem u64Add_eq_ok {a b c : ℕ} (h : (u64Add a b : Except (ScanFault E) ℕ) = .ok c) :
    c = a + b := by
  rw [u64Add] at h
  split_ifs at h
  exact (Except.ok.inj h).symm

theorem u64Add_lt {a b c : ℕ} (h : (u64Add a b : Except (ScanFault E) ℕ) = .ok c) :
    a + b < 2 ^ 64 := by
  rw [u64Add] at h
  split_ifs at h with hlt
  exact hlt

/-- Read the ring block at a cursor. Offset 0 of the region is the journal superblock, so ring
block `i` is region block `i % ringSize + 1`. -/
def readRingBlock (read : ℕ → Except E (List UInt8)) (ringSize ringIdx : ℕ) :
    Except (ScanFault E) (List UInt8) :=
  (read (ringIdx % ringSize + 1)).mapError .read

theorem readRingBlock_eq_ok {read : ℕ → Except E (List UInt8)} {ringSize pos : ℕ}
    {block : List UInt8} :
    readRingBlock read ringSize pos = .ok block ↔ read (pos % ringSize + 1) = .ok block := by
  rw [readRingBlock]
  cases read (pos % ringSize + 1) <;> simp [Except.mapError]

/-- Read the `n` data blocks behind a descriptor, and where that leaves the cursor. -/
def readDataBlocks (read : ℕ → Except E (List UInt8)) (ringSize : ℕ) :
    ℕ → ℕ → Except (ScanFault E) (List (List UInt8) × ℕ)
  | 0, ringPos => .ok ([], ringPos)
  | n + 1, ringPos => do
    let block ← readRingBlock read ringSize ringPos
    let ringPos ← u64Add ringPos 1
    let (blocks, ringPos) ← readDataBlocks read ringSize n ringPos
    return (block :: blocks, ringPos)

end Reading

/-! ## Results -/

/-- One committed transaction found in the ring. The data blocks are still escaped where the
descriptor says so. -/
structure ScannedTx where
  seq : ℕ
  entries : List DescriptorEntry
  dataBlocks : List (List UInt8)
  deriving DecidableEq

/-- Why the walk ended. -/
inductive ScanStop where
  | degenerateRing
  | notJournalBlock
  | notDescriptor (kind : UInt8)
  | sequenceBreak (expected found : ℕ)
  | partialTx (seq : ℕ)
  | commitCrcMismatch (seq : ℕ) (found expected : UInt32)
  | ringBound (expected : ℕ)
  deriving DecidableEq

/-- `fs_block` to the highest sequence number whose journal copy is revoked. -/
abbrev RevokeMap := ExtTreeMap UInt64 ℕ

/-- Everything a replayer needs. -/
structure JournalScan where
  txs : List ScannedTx
  revokes : RevokeMap
  nextSeq : ℕ
  nextBlock : ℕ
  ringBlocks : ℕ
  stop : ScanStop

/-- How one turn of the walk ends. -/
inductive ScanStep where
  | stop (why : ScanStop) (revokes : RevokeMap)
  | accept (tx : ScannedTx) (revokes : RevokeMap) (ringPos : ℕ) (hasRevoke : Bool)

/-! ## The walk -/

/-- Merge the entries of a revoke block, keeping the highest sequence number of each block. -/
def addRevokes (revokes : RevokeMap) (entries : List RevokeEntry) : RevokeMap :=
  entries.foldl (fun m r ↦ insertMax m r.fsBlock r.seq) revokes

/-- Whether a block is the revoke block of transaction `seq`. -/
def isRevokeOf (block : List UInt8) (seq : ℕ) : Bool :=
  match parseHeader block with
  | some nh => nh.kind == JournalBlockKind.revoke.toByte && nh.seq == seq
  | none => false

/-- Whether a block is the commit block of the transaction a descriptor opened. -/
def isCommitOf (block : List UInt8) (desc : JournalBlockHeader) : Bool :=
  match parseHeader block with
  | some ch =>
    ch.kind == JournalBlockKind.commit.toByte && ch.seq == desc.seq && ch.txId == desc.txId
  | none => false

/-- Whether a block is the descriptor the walk expects next; if not, that is where it stops. -/
def checkDescriptor (block : List UInt8) (expectedSeq : ℕ) : Except ScanStop JournalBlockHeader :=
  match parseHeader block with
  | none => .error .notJournalBlock
  | some hdr =>
    if hdr.kind ≠ JournalBlockKind.descriptor.toByte then .error (.notDescriptor hdr.kind)
    else if hdr.seq ≠ expectedSeq then .error (.sequenceBreak expectedSeq hdr.seq)
    else .ok hdr

section Walk

variable {E : Type*} (read : ℕ → Except E (List UInt8)) (ringSize blockSize : ℕ)

/-- The end of a turn, once the commit block is in hand. -/
def judgeCommit (desc : JournalBlockHeader) (entries : List DescriptorEntry)
    (dataBlocks : List (List UInt8)) (revokes : RevokeMap) (ringPos : ℕ) (hasRevoke : Bool)
    (commitBlock : List UInt8) : Except (ScanFault E) ScanStep :=
  if isCommitOf commitBlock desc then
    if commitPayloadCrc commitBlock = commitBlockChecksum dataBlocks.flatten then do
      let ringPos ← u64Add ringPos 1
      return .accept ⟨desc.seq, entries, dataBlocks⟩ revokes ringPos hasRevoke
    else
      return .stop (.commitCrcMismatch desc.seq (commitPayloadCrc commitBlock)
        (commitBlockChecksum dataBlocks.flatten)) revokes
  else
    return .stop (.partialTx desc.seq) revokes

/-- A turn from the block behind the data on: an optional revoke block, then the commit block. -/
def scanCommit (desc : JournalBlockHeader) (entries : List DescriptorEntry)
    (dataBlocks : List (List UInt8)) (revokes : RevokeMap) (ringPos : ℕ) :
    Except (ScanFault E) ScanStep := do
  let nextBlock ← readRingBlock read ringSize ringPos
  if isRevokeOf nextBlock desc.seq then
    -- The revokes take effect here, whatever the commit block turns out to be.
    let revokes := addRevokes revokes (parseRevokeEntries nextBlock blockSize)
    let ringPos ← u64Add ringPos 1
    let commitBlock ← readRingBlock read ringSize ringPos
    judgeCommit desc entries dataBlocks revokes ringPos true commitBlock
  else
    judgeCommit desc entries dataBlocks revokes ringPos false nextBlock

/-- One turn of the loop of `scan_committed`. -/
def scanTx (revokes : RevokeMap) (ringPos expectedSeq : ℕ) : Except (ScanFault E) ScanStep := do
  let block ← readRingBlock read ringSize ringPos
  match checkDescriptor block expectedSeq with
  | .error why => return .stop why revokes
  | .ok hdr =>
    let entries := parseDescriptorEntries block blockSize
    let ringPos ← u64Add ringPos 1
    let (dataBlocks, ringPos) ← readDataBlocks read ringSize entries.length ringPos
    scanCommit read ringSize blockSize hdr entries dataBlocks revokes ringPos

/-- The loop of `scan_committed`, with the cursor `bound` the source recomputes as
`tail_block + ring_size` on every turn. An accepted transaction moves the cursor by at least two
blocks, so a fuel of the ring's size runs out only past the bound, where the source stops too. -/
def scanLoop (bound : ℕ) : ℕ → JournalScan → ℕ → ℕ → Except (ScanFault E) JournalScan
  | 0, scan, _, expectedSeq => .ok { scan with stop := .ringBound expectedSeq }
  | fuel + 1, scan, ringPos, expectedSeq =>
    if bound ≤ ringPos then .ok { scan with stop := .ringBound expectedSeq }
    else do
      match ← scanTx read ringSize blockSize scan.revokes ringPos expectedSeq with
      | .stop why revokes => return { scan with stop := why, revokes := revokes }
      | .accept tx revokes ringPos hasRevoke =>
        let expectedSeq ← u64Add expectedSeq 1
        scanLoop bound fuel
          { scan with
            txs := scan.txs ++ [tx]
            revokes := revokes
            nextSeq := expectedSeq
            nextBlock := ringPos
            ringBlocks := scan.ringBlocks + (1 + tx.entries.length + hasRevoke.toNat + 1) }
          ringPos expectedSeq

/-- Walk the ring from the tail and collect every fully committed transaction. -/
def scanCommitted (tailSeq tailBlock : ℕ) : Except (ScanFault E) JournalScan :=
  let scan : JournalScan := ⟨[], ∅, tailSeq, tailBlock, 0, .degenerateRing⟩
  if ringSize = 0 then .ok scan
  else do
    let bound ← u64Add tailBlock ringSize
    scanLoop read ringSize blockSize bound ringSize scan tailBlock tailSeq

end Walk

/-- The home-block write that entry `index` of `tx` calls for, or nothing when a transaction at or
after it revoked the block. -/
def replayWrite (tx : ScannedTx) (index : ℕ) (revokes : RevokeMap) :
    Option (UInt64 × List UInt8) := do
  let entry ← tx.entries[index]?
  if (revokes[entry.fsBlock]?.any fun revokeSeq ↦ tx.seq ≤ revokeSeq) then none
  else
    let data ← tx.dataBlocks[index]?
    if entry.flags &&& descFlagEscaped ≠ 0 ∧ 4 ≤ data.length then
      return (entry.fsBlock, patch data 0 (leBytes 4 journalBlockMagic.toNat))
    else
      return (entry.fsBlock, data)

/-! ## What one turn does

A turn reads a run of consecutive ring blocks and nothing else, and apart from the revoke map it
carries along it does not depend on the turns before it. -/

theorem addRevokes_append (m : RevokeMap) (es es' : List RevokeEntry) :
    addRevokes m (es ++ es') = addRevokes (addRevokes m es) es' := List.foldl_append

/-- The stream of key/value pairs a list of revoke entries stands for. -/
def revokePairs (es : List RevokeEntry) : List (UInt64 × ℕ) := es.map fun r ↦ (r.fsBlock, r.seq)

/-- The revoke map is the maximum, block by block, of the entries merged into it. -/
theorem isMaxOf_addRevokes
    (es : List RevokeEntry) : IsMaxOf (addRevokes ∅ es) (revokePairs es) := by
  have h : IsMaxOf ((revokePairs es).foldl (fun m e ↦ insertMax m e.1 e.2) (∅ : RevokeMap))
      ([] ++ revokePairs es) := isMaxOf_nil.foldl _
  rwa [revokePairs, List.foldl_map] at h

section Turn

variable {E : Type*} {read read' : ℕ → Except E (List UInt8)} {ringSize blockSize : ℕ}

/-- Two readers agree on the ring blocks from cursor `lo` up to cursor `hi`. -/
def AgreeOn (read read' : ℕ → Except E (List UInt8)) (ringSize lo hi : ℕ) : Prop :=
  ∀ p, lo ≤ p → p < hi → read (p % ringSize + 1) = read' (p % ringSize + 1)

theorem AgreeOn.mono {lo hi lo' hi' : ℕ} (h : AgreeOn read read' ringSize lo hi) (hlo : lo ≤ lo')
    (hhi : hi' ≤ hi) : AgreeOn read read' ringSize lo' hi' :=
  fun p hp hp' ↦ h p (hlo.trans hp) (hp'.trans_le hhi)

theorem AgreeOn.readRingBlock {lo hi p : ℕ} (h : AgreeOn read read' ringSize lo hi) (hlo : lo ≤ p)
    (hhi : p < hi) : Edos.readRingBlock read ringSize p = Edos.readRingBlock read' ringSize p := by
  rw [Edos.readRingBlock, Edos.readRingBlock, h p hlo hhi]

/-- The ring holds `blocks` from cursor `pos` on, wrapping around at its end. -/
def Holds (read : ℕ → Except E (List UInt8)) (ringSize pos : ℕ) (blocks : List (List UInt8)) :
    Prop :=
  ∀ k b, blocks[k]? = some b → readRingBlock read ringSize (pos + k) = .ok b

theorem holds_nil (pos : ℕ) : Holds read ringSize pos [] := fun k b h ↦ by simp at h

theorem holds_cons {pos : ℕ} {b : List UInt8} {bs : List (List UInt8)} :
    Holds read ringSize pos (b :: bs) ↔
      readRingBlock read ringSize pos = .ok b ∧ Holds read ringSize (pos + 1) bs := by
  constructor
  · intro h
    refine ⟨h 0 b rfl, fun k c hk ↦ ?_⟩
    rw [add_assoc, add_comm 1]
    exact h (k + 1) c hk
  · rintro ⟨hb, hbs⟩ (_ | k) c hk
    · cases hk
      exact hb
    · rw [← add_assoc, add_right_comm]
      exact hbs k c hk

theorem readDataBlocks_eq_ok {n : ℕ} : ∀ {pos pos' : ℕ} {blocks : List (List UInt8)},
    readDataBlocks read ringSize n pos = .ok (blocks, pos') ↔
      Holds read ringSize pos blocks ∧ blocks.length = n ∧ pos' = pos + n ∧
        (0 < n → pos' < 2 ^ 64) := by
  induction n with
  | zero =>
    intro pos pos' blocks
    rw [readDataBlocks, Except.ok.injEq, Prod.mk.injEq, List.length_eq_zero_iff]
    constructor
    · rintro ⟨rfl, rfl⟩
      exact ⟨holds_nil pos, rfl, rfl, fun h ↦ absurd h (lt_irrefl 0)⟩
    · rintro ⟨-, rfl, rfl, -⟩
      exact ⟨rfl, rfl⟩
  | succ n ih =>
    intro pos pos' blocks
    constructor
    · intro h
      obtain ⟨block, hblock, h⟩ := bind_eq_ok.mp h
      obtain ⟨mid, hmid, h⟩ := bind_eq_ok.mp h
      obtain ⟨⟨rest, last⟩, hrest, h⟩ := bind_eq_ok.mp h
      cases h
      have hlt := u64Add_lt hmid
      obtain rfl := u64Add_eq_ok hmid
      obtain ⟨hholds, rfl, rfl, hrange⟩ := ih.mp hrest
      exact ⟨holds_cons.mpr ⟨hblock, hholds⟩, rfl, by omega, by omega⟩
    · rintro ⟨hholds, hlen, rfl, hrange⟩
      obtain ⟨block, rest, rfl⟩ := List.exists_cons_of_length_eq_add_one hlen
      obtain ⟨hblock, hrest⟩ := holds_cons.mp hholds
      have hlast := hrange n.succ_pos
      exact bind_eq_ok.mpr ⟨block, hblock, bind_eq_ok.mpr ⟨_, u64Add_of_lt (by omega),
        bind_eq_ok.mpr ⟨(rest, pos + (n + 1)), ih.mpr
          ⟨hrest, Nat.succ.inj hlen, by omega, fun _ ↦ hlast⟩, rfl⟩⟩⟩

theorem readDataBlocks_congr {n : ℕ} : ∀ {pos : ℕ}, AgreeOn read read' ringSize pos (pos + n) →
    readDataBlocks read ringSize n pos = readDataBlocks read' ringSize n pos := by
  induction n with
  | zero => intro pos _; rfl
  | succ n ih =>
    intro pos h
    rw [readDataBlocks, readDataBlocks, h.readRingBlock le_rfl (by omega)]
    refine bind_congr_ok fun block _ ↦ bind_congr_ok fun mid hmid ↦ ?_
    rw [u64Add_eq_ok hmid, ih (h.mono (by omega) (by omega))]

/-- The same end of a turn, with another revoke map. -/
def ScanStep.setRevokes (m : RevokeMap) : ScanStep → ScanStep
  | .stop why _ => .stop why m
  | .accept tx _ ringPos hasRevoke => .accept tx m ringPos hasRevoke

variable {pos pos' seq : ℕ} {m m' : RevokeMap} {hasRevoke : Bool} {tx : ScannedTx}

theorem checkDescriptor_eq_ok {block : List UInt8} {hdr : JournalBlockHeader}
    (h : checkDescriptor block seq = .ok hdr) :
    parseHeader block = some hdr ∧ hdr.kind = JournalBlockKind.descriptor.toByte ∧
      hdr.seq = seq := by
  rw [checkDescriptor] at h
  split at h
  · exact absurd h (by simp)
  · rename_i hdr' hparse
    split_ifs at h with hkind hseq
    cases h
    exact ⟨hparse, not_not.mp hkind, not_not.mp hseq⟩

/-- The revokes a turn at `ringPos` merges on its way to the commit block, committed or not: those
of the revoke block behind the data of the descriptor it expects there. -/
def foundRevokes (read : ℕ → Except E (List UInt8)) (ringSize blockSize ringPos expectedSeq : ℕ) :
    List RevokeEntry :=
  match readRingBlock read ringSize ringPos with
  | .error _ => []
  | .ok block =>
    match checkDescriptor block expectedSeq with
    | .error _ => []
    | .ok hdr =>
      match readRingBlock read ringSize
        (ringPos + 1 + (parseDescriptorEntries block blockSize).length) with
      | .error _ => []
      | .ok next => if isRevokeOf next hdr.seq then parseRevokeEntries next blockSize else []

theorem judgeCommit_setRevokes (desc : JournalBlockHeader) (entries : List DescriptorEntry)
    (dataBlocks : List (List UInt8)) (m m' : RevokeMap) (pos : ℕ) (hasRevoke : Bool)
    (commitBlock : List UInt8) :
    (judgeCommit desc entries dataBlocks m pos hasRevoke commitBlock : Except (ScanFault E) _)
      = (judgeCommit desc entries dataBlocks m' pos hasRevoke commitBlock).map
          (ScanStep.setRevokes m) := by
  rw [judgeCommit, judgeCommit]
  split_ifs
  · rw [u64Add]
    split_ifs <;> rfl
  · rfl
  · rfl

/-- **A turn and its revoke map.** Everything a turn decides is independent of the map it carries,
and the map it leaves behind is that map with the revokes found on the way. -/
theorem scanTx_setRevokes (m : RevokeMap) (pos seq : ℕ) :
    scanTx read ringSize blockSize m pos seq
      = (scanTx read ringSize blockSize ∅ pos seq).map
          (ScanStep.setRevokes (addRevokes m (foundRevokes read ringSize blockSize pos seq))) := by
  rw [scanTx, scanTx, foundRevokes]
  cases hblock : readRingBlock read ringSize pos with
  | error e => rfl
  | ok block =>
    simp only [bind, Except.bind]
    cases hdesc : checkDescriptor block seq with
    | error why => rfl
    | ok hdr =>
      cases hmid : (u64Add pos 1 : Except (ScanFault E) ℕ) with
      | error e => rfl
      | ok mid =>
        simp only
        cases hdata : readDataBlocks read ringSize
            (parseDescriptorEntries block blockSize).length mid with
        | error e => rfl
        | ok data =>
          obtain ⟨blocks, last⟩ := data
          have hlast := (readDataBlocks_eq_ok.mp hdata).2.2.1
          rw [u64Add_eq_ok hmid] at hlast
          simp only [← hlast]
          rw [scanCommit, scanCommit]
          cases hnext : readRingBlock read ringSize last with
          | error e => rfl
          | ok next =>
            simp only [bind, Except.bind]
            by_cases hrev : isRevokeOf next hdr.seq = true
            · rw [if_pos hrev, if_pos hrev, if_pos hrev]
              cases (u64Add last 1 : Except (ScanFault E) ℕ) with
              | error e => rfl
              | ok pos' =>
                simp only
                cases readRingBlock read ringSize pos' with
                | error e => rfl
                | ok commit => exact judgeCommit_setRevokes _ _ _ _ _ _ _ _
            · rw [if_neg hrev, if_neg hrev, if_neg hrev]
              exact judgeCommit_setRevokes _ _ _ _ _ _ _ _

theorem judgeCommit_eq_accept {desc : JournalBlockHeader} {entries : List DescriptorEntry}
    {blocks : List (List UInt8)} {b : Bool} {commit : List UInt8} :
    judgeCommit desc entries blocks m pos b commit
        = (.ok (.accept tx m' pos' hasRevoke) : Except (ScanFault E) _) ↔
      isCommitOf commit desc = true ∧
        commitPayloadCrc commit = commitBlockChecksum blocks.flatten ∧ pos + 1 < 2 ^ 64 ∧
        tx = ⟨desc.seq, entries, blocks⟩ ∧ m' = m ∧ pos' = pos + 1 ∧ hasRevoke = b := by
  rw [judgeCommit, u64Add]
  split_ifs with hcommit hcrc hlt
  · simp [-Nat.reducePow, hcommit, hcrc, hlt, bind, Except.bind, pure, Except.pure, eq_comm]
  · simp [-Nat.reducePow, hlt, bind, Except.bind]
  · simp [hcrc, pure, Except.pure]
  · simp [hcommit, pure, Except.pure]

/-- **The accepting turn**, block by block: the expected descriptor, a data block for each of its
entries, perhaps a revoke block, and a commit block whose checksum covers the data. -/
theorem scanTx_eq_accept :
    scanTx read ringSize blockSize m pos seq = .ok (.accept tx m' pos' hasRevoke) ↔
      ∃ block hdr next commit,
        readRingBlock read ringSize pos = .ok block ∧ checkDescriptor block seq = .ok hdr ∧
        tx.seq = hdr.seq ∧ tx.entries = parseDescriptorEntries block blockSize ∧
        pos + 1 < 2 ^ 64 ∧
        readDataBlocks read ringSize tx.entries.length (pos + 1)
          = .ok (tx.dataBlocks, pos + 1 + tx.entries.length) ∧
        readRingBlock read ringSize (pos + 1 + tx.entries.length) = .ok next ∧
        hasRevoke = isRevokeOf next hdr.seq ∧
        m' = addRevokes m (if hasRevoke then parseRevokeEntries next blockSize else []) ∧
        readRingBlock read ringSize (pos + 1 + tx.entries.length + hasRevoke.toNat) = .ok commit ∧
        isCommitOf commit hdr = true ∧
        commitPayloadCrc commit = commitBlockChecksum tx.dataBlocks.flatten ∧
        pos' = pos + 1 + tx.entries.length + hasRevoke.toNat + 1 ∧ pos' < 2 ^ 64 := by
  constructor
  · intro h
    obtain ⟨block, hblock, h⟩ := bind_eq_ok.mp h
    split at h
    · cases h
    · rename_i hdr hdesc
      obtain ⟨mid, hmid, h⟩ := bind_eq_ok.mp h
      obtain ⟨⟨blocks, last⟩, hdata, h⟩ := bind_eq_ok.mp h
      obtain ⟨-, -, hlast, -⟩ := readDataBlocks_eq_ok.mp hdata
      have hlt := u64Add_lt hmid
      obtain rfl := u64Add_eq_ok hmid
      subst hlast
      dsimp only at h
      obtain ⟨next, hnext, h⟩ := bind_eq_ok.mp h
      split_ifs at h with hrev
      · obtain ⟨last', hlast', h⟩ := bind_eq_ok.mp h
        obtain ⟨commit, hcommit, h⟩ := bind_eq_ok.mp h
        obtain rfl := u64Add_eq_ok hlast'
        obtain ⟨hc, hcrc, hend, rfl, rfl, rfl, rfl⟩ := judgeCommit_eq_accept.mp h
        exact ⟨block, hdr, next, commit, hblock, hdesc, rfl, rfl, hlt, hdata, hnext, hrev.symm, rfl,
          hcommit, hc, hcrc, rfl, hend⟩
      · obtain ⟨hc, hcrc, hend, rfl, rfl, rfl, rfl⟩ := judgeCommit_eq_accept.mp h
        exact ⟨block, hdr, next, next, hblock, hdesc, rfl, rfl, hlt, hdata, hnext,
          (Bool.eq_false_iff.mpr hrev).symm, rfl, hnext, hc, hcrc, rfl, hend⟩
  · rintro ⟨block, hdr, next, commit, hblock, hdesc, hseq, hentries, hlt, hdata, hnext, hrev, rfl,
      hcommit, hc, hcrc, rfl, hend⟩
    obtain ⟨seq', entries, blocks⟩ := tx
    subst hseq hentries
    rw [scanTx, hblock]
    simp only [bind, Except.bind, hdesc, u64Add_of_lt hlt, hdata]
    rw [scanCommit, hnext]
    simp only [bind, Except.bind]
    cases hasRevoke with
    | true =>
      rw [if_pos hrev.symm, u64Add_of_lt (by simp only [Bool.toNat_true] at hend; omega)]
      simp only [Bool.toNat_true] at hcommit hend ⊢
      rw [hcommit]
      exact judgeCommit_eq_accept.mpr ⟨hc, hcrc, hend, rfl, rfl, rfl, rfl⟩
    | false =>
      rw [if_neg (by rw [← hrev]; exact Bool.false_ne_true)]
      simp only [Bool.toNat_false, add_zero] at hcommit hend ⊢
      obtain rfl : next = commit := by
        rw [hnext] at hcommit
        exact Except.ok.inj hcommit
      exact judgeCommit_eq_accept.mpr ⟨hc, hcrc, hend, rfl, rfl, rfl, rfl⟩

section

variable (h : scanTx read ringSize blockSize m pos seq = .ok (.accept tx m' pos' hasRevoke))

include h

/-- The cursor moves past exactly the blocks of the transaction. -/
theorem scanTx_accept_pos : pos' = pos + (1 + tx.entries.length + hasRevoke.toNat + 1) := by
  obtain ⟨block, hdr, next, commit, -, -, -, -, -, -, -, -, -, -, -, -, hpos, -⟩ :=
    scanTx_eq_accept.mp h
  omega

theorem scanTx_accept_seq : tx.seq = seq := by
  obtain ⟨block, hdr, next, commit, -, hdesc, hseq, -⟩ := scanTx_eq_accept.mp h
  exact hseq.trans (checkDescriptor_eq_ok hdesc).2.2

/-- **Locality.** An accepted turn has read only the blocks it moved past, so a reader that agrees
on those accepts the same transaction. -/
theorem scanTx_accept_congr (hagree : AgreeOn read read' ringSize pos pos') :
    scanTx read' ringSize blockSize m pos seq = .ok (.accept tx m' pos' hasRevoke) := by
  obtain ⟨block, hdr, next, commit, hblock, hdesc, hseq, hentries, hlt, hdata, hnext, hrev, hm,
    hcommit, hc, hcrc, hpos, hend⟩ := scanTx_eq_accept.mp h
  refine scanTx_eq_accept.mpr ⟨block, hdr, next, commit, ?_, hdesc, hseq, hentries, hlt, ?_, ?_,
    hrev, hm, ?_, hc, hcrc, hpos, hend⟩
  · rw [← hagree.readRingBlock le_rfl (by omega), hblock]
  · rw [← readDataBlocks_congr (hagree.mono (by omega) (by omega)), hdata]
  · rw [← hagree.readRingBlock (by omega) (by omega), hnext]
  · rw [← hagree.readRingBlock (by omega) (by omega), hcommit]

theorem foundRevokes_congr (hagree : AgreeOn read read' ringSize pos pos') :
    foundRevokes read' ringSize blockSize pos seq
      = foundRevokes read ringSize blockSize pos seq := by
  obtain ⟨block, hdr, next, commit, hblock, hdesc, -, hentries, -, -, hnext, -, -, -, -, -,
    hpos, -⟩ := scanTx_eq_accept.mp h
  rw [foundRevokes, foundRevokes, ← hagree.readRingBlock le_rfl (by omega), hblock]
  simp only [hdesc, ← hentries]
  rw [← hagree.readRingBlock (by omega) (by omega)]

end

end Turn

end Edos

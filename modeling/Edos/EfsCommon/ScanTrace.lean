import Edos.EfsCommon.JournalScan

/-!
# What a scan of the ring means

`scanCommitted` is a loop with an accumulator. Its meaning is a chain of accepted turns followed by
a place where the walk stops: `Accepts` is the chain, `StopsAt` the end, and `scanCommitted_eq_ok`
says that the scan computes exactly these. Everything later that is said about recovery goes
through this theorem and never through the loop.

## Torn transactions

The chain of accepted turns reads only the blocks of the accepted transactions, so two rings that
agree on those have the same chain. The revoke map is not determined by the chain alone: the turn
that stops the walk has merged the revokes of the transaction it then rejects (`tornRevokes`).
-/

namespace Edos

open List

section Trace

variable {E : Type*} (read : ℕ → Except E (List UInt8)) (ringSize blockSize bound : ℕ)

/-- The walk accepts the transactions `txs` one after the other, merging the revokes `es`, on its
way from one cursor and sequence number to another. -/
inductive Accepts : ℕ → ℕ → List ScannedTx → List RevokeEntry → ℕ → ℕ → Prop
  | nil (pos seq : ℕ) : Accepts pos seq [] [] pos seq
  | cons {pos seq mid pos' seq' : ℕ} {tx : ScannedTx} {m : RevokeMap} {hasRevoke : Bool}
      {txs : List ScannedTx} {es : List RevokeEntry} :
      pos < bound →
      scanTx read ringSize blockSize ∅ pos seq = .ok (.accept tx m mid hasRevoke) →
      seq + 1 < 2 ^ 64 →
      Accepts mid (seq + 1) txs es pos' seq' →
      Accepts pos seq (tx :: txs) (foundRevokes read ringSize blockSize pos seq ++ es) pos' seq'

/-- The walk ends at this cursor: the ring has been walked once around, or the turn stops. -/
def StopsAt (pos seq : ℕ) (why : ScanStop) : Prop :=
  (bound ≤ pos ∧ why = .ringBound seq) ∨
    (pos < bound ∧ ∃ m, scanTx read ringSize blockSize ∅ pos seq = .ok (.stop why m))

/-- The revokes of the transaction at which the walk stops. They belong to no transaction the scan
returns. -/
def tornRevokes (pos seq : ℕ) : List RevokeEntry :=
  if bound ≤ pos then [] else foundRevokes read ringSize blockSize pos seq

end Trace

section Meaning

variable {E : Type*} {read read' : ℕ → Except E (List UInt8)} {ringSize blockSize bound : ℕ}
  {m : RevokeMap} {pos pos' seq seq' tailBlock tailSeq : ℕ} {why : ScanStop} {txs : List ScannedTx}
  {es : List RevokeEntry} {scan : JournalScan} {P : List UInt8 → Prop}

theorem scanTx_stop_iff {m' : RevokeMap} :
    scanTx read ringSize blockSize m pos seq = .ok (.stop why m') ↔
      (∃ m₀, scanTx read ringSize blockSize ∅ pos seq = .ok (.stop why m₀)) ∧
        m' = addRevokes m (foundRevokes read ringSize blockSize pos seq) := by
  rw [scanTx_setRevokes m]
  cases scanTx read ringSize blockSize ∅ pos seq with
  | error e => simp [Except.map]
  | ok turn => cases turn <;> simp [Except.map, ScanStep.setRevokes, eq_comm]

theorem scanTx_accept_iff {m' : RevokeMap} {tx : ScannedTx} {hasRevoke : Bool} :
    scanTx read ringSize blockSize m pos seq = .ok (.accept tx m' pos' hasRevoke) ↔
      (∃ m₀, scanTx read ringSize blockSize ∅ pos seq = .ok (.accept tx m₀ pos' hasRevoke)) ∧
        m' = addRevokes m (foundRevokes read ringSize blockSize pos seq) := by
  rw [scanTx_setRevokes m]
  cases scanTx read ringSize blockSize ∅ pos seq with
  | error e => simp [Except.map]
  | ok turn =>
    cases turn with
    | stop why m₀ => simp [Except.map, ScanStep.setRevokes]
    | accept tx₀ m₀ mid₀ hasRevoke₀ =>
      simp only [Except.map, ScanStep.setRevokes, Except.ok.injEq, ScanStep.accept.injEq,
        exists_and_left, exists_and_right, exists_eq', true_and]
      tauto

theorem Accepts.pos_le
    (h : Accepts read ringSize blockSize bound pos seq txs es pos' seq') : pos ≤ pos' := by
  induction h with
  | nil => exact le_rfl
  | cons _ hturn _ _ ih =>
    have hmid := scanTx_accept_pos hturn
    omega

/-- **Locality of the chain.** A reader that agrees on the blocks the chain has moved past has the
same chain. -/
theorem Accepts.congr (h : Accepts read ringSize blockSize bound pos seq txs es pos' seq')
    (hagree : AgreeOn read read' ringSize pos pos') :
    Accepts read' ringSize blockSize bound pos seq txs es pos' seq' := by
  induction h with
  | nil pos seq => exact .nil pos seq
  | cons hpos hturn hseq htail ih =>
    have hmid := scanTx_accept_pos hturn
    have hhead := hagree.mono le_rfl htail.pos_le
    rw [← foundRevokes_congr hturn hhead]
    exact .cons hpos (scanTx_accept_congr hturn hhead) hseq (ih (hagree.mono (by omega) le_rfl))

theorem Accepts.unique {seq₁ seq₂ : ℕ} {txs₁ txs₂ : List ScannedTx} {es₁ es₂ : List RevokeEntry}
    (h₁ : Accepts read ringSize blockSize bound pos seq txs₁ es₁ pos' seq₁)
    (h₂ : Accepts read ringSize blockSize bound pos seq txs₂ es₂ pos' seq₂) :
    txs₁ = txs₂ ∧ es₁ = es₂ ∧ seq₁ = seq₂ := by
  induction h₁ generalizing txs₂ es₂ seq₂ with
  | nil pos seq =>
    cases h₂ with
    | nil => exact ⟨rfl, rfl, rfl⟩
    | cons _ hturn _ htail =>
      have := htail.pos_le
      have := scanTx_accept_pos hturn
      omega
  | cons _ hturn _ htail ih =>
    cases h₂ with
    | nil =>
      have := htail.pos_le
      have := scanTx_accept_pos hturn
      omega
    | cons _ hturn' _ htail' =>
      rw [hturn] at hturn'
      cases hturn'
      obtain ⟨rfl, rfl, rfl⟩ := ih htail'
      exact ⟨rfl, rfl, rfl⟩

/-- Where the walk stops, the loop returns its accumulator with the torn revokes merged in. -/
theorem scanLoop_of_stopsAt {fuel : ℕ} {txs₀ : List ScannedTx} {n : ℕ} {why₀ : ScanStop}
    (hfuel : bound ≤ pos + fuel) (hstop : StopsAt read ringSize blockSize bound pos seq why) :
    scanLoop read ringSize blockSize bound fuel ⟨txs₀, m, seq, pos, n, why₀⟩ pos seq
      = .ok ⟨txs₀, addRevokes m (tornRevokes read ringSize blockSize bound pos seq), seq, pos, n,
          why⟩ := by
  rcases hstop with ⟨hle, rfl⟩ | ⟨hlt, m₀, hturn⟩
  · rw [tornRevokes, if_pos hle]
    cases fuel with
    | zero => rfl
    | succ fuel => rw [scanLoop, if_pos hle]; rfl
  · obtain ⟨fuel, rfl⟩ : ∃ k, fuel = k + 1 := ⟨fuel - 1, by omega⟩
    rw [tornRevokes, if_neg (Nat.not_le.mpr hlt), scanLoop, if_neg (Nat.not_le.mpr hlt),
      scanTx_stop_iff.mpr ⟨⟨m₀, hturn⟩, rfl⟩]
    rfl

theorem scanLoop_of_accepts (h : Accepts read ringSize blockSize bound pos seq txs es pos' seq')
    (hstop : StopsAt read ringSize blockSize bound pos' seq' why) :
    ∀ {fuel : ℕ} {txs₀ : List ScannedTx} {m : RevokeMap} {n : ℕ} {why₀ : ScanStop},
      bound ≤ pos + fuel →
      scanLoop read ringSize blockSize bound fuel ⟨txs₀, m, seq, pos, n, why₀⟩ pos seq
        = .ok ⟨txs₀ ++ txs,
            addRevokes m (es ++ tornRevokes read ringSize blockSize bound pos' seq'), seq', pos',
            n + (pos' - pos), why⟩ := by
  induction h with
  | nil pos seq =>
    intro fuel txs₀ m n why₀ hfuel
    rw [scanLoop_of_stopsAt hfuel hstop, append_nil, nil_append, Nat.sub_self, add_zero]
  | @cons pos seq mid pos' seq' tx m₀ hasRevoke txs es hlt hturn hseq htail ih =>
    intro fuel txs₀ m n why₀ hfuel
    obtain ⟨fuel, rfl⟩ : ∃ k, fuel = k + 1 := ⟨fuel - 1, by omega⟩
    have hmid := scanTx_accept_pos hturn
    have hle := htail.pos_le
    rw [scanLoop, if_neg (Nat.not_le.mpr hlt), scanTx_accept_iff.mpr ⟨⟨_, hturn⟩, rfl⟩]
    simp only [bind, Except.bind, u64Add_of_lt hseq]
    have hblocks : n + (1 + tx.entries.length + hasRevoke.toNat + 1) + (pos' - mid)
        = n + (pos' - pos) := by omega
    rw [ih hstop (by omega), append_assoc, append_assoc,
      addRevokes_append m (foundRevokes read ringSize blockSize pos seq), hblocks]
    rfl

theorem accepts_of_scanLoop {fuel : ℕ} : ∀ {txs₀ : List ScannedTx} {m : RevokeMap} {pos seq n : ℕ}
    {why₀ : ScanStop} {scan : JournalScan}, bound ≤ pos + fuel →
    scanLoop read ringSize blockSize bound fuel ⟨txs₀, m, seq, pos, n, why₀⟩ pos seq = .ok scan →
    ∃ txs es pos' seq' why, Accepts read ringSize blockSize bound pos seq txs es pos' seq' ∧
      StopsAt read ringSize blockSize bound pos' seq' why := by
  induction fuel with
  | zero =>
    intro txs₀ m pos seq n why₀ scan hfuel _
    exact ⟨[], [], pos, seq, _, .nil pos seq, .inl ⟨hfuel, rfl⟩⟩
  | succ fuel ih =>
    intro txs₀ m pos seq n why₀ scan hfuel h
    rw [scanLoop] at h
    split_ifs at h with hle
    · exact ⟨[], [], pos, seq, _, .nil pos seq, .inl ⟨hle, rfl⟩⟩
    · obtain ⟨turn, hturn, h⟩ := bind_eq_ok.mp h
      cases turn with
      | stop why m' =>
        exact ⟨[], [], pos, seq, why, .nil pos seq,
          .inr ⟨Nat.not_le.mp hle, (scanTx_stop_iff.mp hturn).1⟩⟩
      | accept tx m' mid hasRevoke =>
        obtain ⟨next, hnext, h⟩ := bind_eq_ok.mp h
        obtain ⟨⟨m₀, hturn₀⟩, -⟩ := scanTx_accept_iff.mp hturn
        have hseq : seq + 1 < 2 ^ 64 := u64Add_lt hnext
        obtain rfl := u64Add_eq_ok hnext
        obtain ⟨txs, es, pos', seq', why, hacc, hstop⟩ :=
          ih (by have := scanTx_accept_pos hturn; omega) h
        exact ⟨_, _, pos', seq', why, .cons (Nat.not_le.mp hle) hturn₀ hseq hacc, hstop⟩

/-- **The meaning of the scan.** -/
theorem scanCommitted_eq_ok (hring : 0 < ringSize) :
    scanCommitted read ringSize blockSize tailSeq tailBlock = .ok scan ↔
      tailBlock + ringSize < 2 ^ 64 ∧ ∃ txs es pos' seq' why,
        Accepts read ringSize blockSize (tailBlock + ringSize) tailBlock tailSeq txs es pos' seq' ∧
        StopsAt read ringSize blockSize (tailBlock + ringSize) pos' seq' why ∧
        scan = ⟨txs,
          addRevokes ∅ (es ++ tornRevokes read ringSize blockSize (tailBlock + ringSize) pos' seq'),
          seq', pos', pos' - tailBlock, why⟩ := by
  have hloop (hbound : tailBlock + ringSize < 2 ^ 64) :
      scanCommitted read ringSize blockSize tailSeq tailBlock
        = scanLoop read ringSize blockSize (tailBlock + ringSize) ringSize
            ⟨[], ∅, tailSeq, tailBlock, 0, .degenerateRing⟩ tailBlock tailSeq := by
    rw [scanCommitted, if_neg hring.ne', u64Add_of_lt hbound]
    rfl
  constructor
  · intro h
    have hbound : tailBlock + ringSize < 2 ^ 64 := by
      rw [scanCommitted, if_neg hring.ne'] at h
      obtain ⟨bound, hbound, -⟩ := bind_eq_ok.mp h
      exact u64Add_lt hbound
    rw [hloop hbound] at h
    obtain ⟨txs, es, pos', seq', why, hacc, hstop⟩ := accepts_of_scanLoop le_rfl h
    rw [scanLoop_of_accepts hacc hstop le_rfl, zero_add] at h
    exact ⟨hbound, txs, es, pos', seq', why, hacc, hstop, (Except.ok.inj h).symm⟩
  · rintro ⟨hbound, txs, es, pos', seq', why, hacc, hstop, rfl⟩
    rw [hloop hbound, scanLoop_of_accepts hacc hstop le_rfl, zero_add]
    rfl

/-! ## When a scan succeeds

A scan fails only where a block cannot be read or where a cursor leaves the range of a `u64`. A
descriptor claims at most `descriptorCapacity` blocks, so away from the top of the range a scan of a
readable ring always has a result. -/

theorem exists_judgeCommit (desc : JournalBlockHeader) (entries : List DescriptorEntry)
    (dataBlocks : List (List UInt8)) (m : RevokeMap) (hasRevoke : Bool) (commit : List UInt8)
    (hlt : pos + 1 < 2 ^ 64) :
    ∃ turn : ScanStep,
      judgeCommit desc entries dataBlocks m pos hasRevoke commit
        = (.ok turn : Except (ScanFault E) _) := by
  rw [judgeCommit, u64Add_of_lt hlt]
  split_ifs
  · exact ⟨_, rfl⟩
  · exact ⟨_, rfl⟩
  · exact ⟨_, rfl⟩

variable (ringSize) in
theorem exists_scanTx (hread : ∀ i, ∃ b, read i = .ok b) (seq : ℕ)
    (hlt : pos + descriptorCapacity blockSize + 3 < 2 ^ 64) :
    ∃ turn, scanTx read ringSize blockSize ∅ pos seq = .ok turn := by
  choose slot hslot using hread
  have hblocks (p : ℕ) : readRingBlock read ringSize p = .ok (slot (p % ringSize + 1)) :=
    readRingBlock_eq_ok.mpr (hslot _)
  have hlen := length_parseDescriptorEntries_le (slot (pos % ringSize + 1)) blockSize
  rw [scanTx, hblocks]
  simp only [bind, Except.bind]
  cases checkDescriptor (slot (pos % ringSize + 1)) seq with
  | error why => exact ⟨_, rfl⟩
  | ok hdr =>
    generalize parseDescriptorEntries (slot (pos % ringSize + 1)) blockSize = es at *
    have hdata : readDataBlocks read ringSize es.length (pos + 1)
        = .ok ((range es.length).map fun k ↦ slot ((pos + 1 + k) % ringSize + 1),
            pos + 1 + es.length) := by
      refine readDataBlocks_eq_ok.mpr ⟨fun k b hk ↦ ?_, by simp, rfl, fun _ ↦ by omega⟩
      obtain ⟨hlt, rfl⟩ := List.getElem?_eq_some_iff.mp hk
      simpa using hblocks (pos + 1 + k)
    simp only [u64Add_of_lt (show pos + 1 < 2 ^ 64 by omega), hdata]
    rw [scanCommit, hblocks]
    simp only [bind, Except.bind]
    split_ifs
    · rw [u64Add_of_lt (by omega)]
      simp only [hblocks]
      exact exists_judgeCommit _ _ _ _ _ _ (by omega)
    · exact exists_judgeCommit _ _ _ _ _ _ (by omega)

variable (ringSize) in
/-- From any cursor the walk comes to an end. -/
theorem exists_stopsAt (hread : ∀ i, ∃ b, read i = .ok b)
    (hbound : bound + descriptorCapacity blockSize + 3 < 2 ^ 64) (n : ℕ) :
    ∀ pos seq, bound ≤ pos + n → seq + n < 2 ^ 64 →
      ∃ txs es pos' seq' why, Accepts read ringSize blockSize bound pos seq txs es pos' seq' ∧
        StopsAt read ringSize blockSize bound pos' seq' why := by
  induction n with
  | zero =>
    intro pos seq hle _
    exact ⟨[], [], pos, seq, _, .nil pos seq, .inl ⟨hle, rfl⟩⟩
  | succ n ih =>
    intro pos seq hle hseq
    by_cases hpos : bound ≤ pos
    · exact ⟨[], [], pos, seq, _, .nil pos seq, .inl ⟨hpos, rfl⟩⟩
    obtain ⟨turn, hturn⟩ := exists_scanTx ringSize hread seq
      (show pos + descriptorCapacity blockSize + 3 < 2 ^ 64 by omega)
    cases turn with
    | stop why m => exact ⟨[], [], pos, seq, why, .nil pos seq, .inr ⟨by omega, m, hturn⟩⟩
    | accept tx m mid hasRevoke =>
      have hmid := scanTx_accept_pos hturn
      obtain ⟨txs, es, pos', seq', why, hacc, hstop⟩ :=
        ih mid (seq + 1) (by omega) (by omega)
      exact ⟨_, _, pos', seq', why, .cons (by omega) hturn (by omega) hacc, hstop⟩

theorem Accepts.trans {mid seq₁ : ℕ} {txs' : List ScannedTx} {es' : List RevokeEntry}
    (h : Accepts read ringSize blockSize bound pos seq txs es mid seq₁)
    (h' : Accepts read ringSize blockSize bound mid seq₁ txs' es' pos' seq') :
    Accepts read ringSize blockSize bound pos seq (txs ++ txs') (es ++ es') pos' seq' := by
  induction h with
  | nil => exact h'
  | cons hpos hturn hseq _ ih =>
    rw [cons_append, append_assoc]
    exact .cons hpos hturn hseq (ih h')

/-- **A scan that starts with a known chain** runs on to some end, and returns that chain first. -/
theorem exists_scanCommitted (hread : ∀ i, ∃ b, read i = .ok b) (hring : 0 < ringSize)
    (hacc : Accepts read ringSize blockSize (tailBlock + ringSize) tailBlock tailSeq txs es pos seq)
    (hblock : tailBlock + ringSize + descriptorCapacity blockSize + 3 < 2 ^ 64)
    (hseq : seq + ringSize < 2 ^ 64) :
    ∃ scan rest, scanCommitted read ringSize blockSize tailSeq tailBlock = .ok scan ∧
      scan.txs = txs ++ rest := by
  obtain ⟨rest, es', pos', seq', why, hrest, hstop⟩ := exists_stopsAt ringSize hread hblock ringSize
    pos seq (by have := hacc.pos_le; omega) hseq
  exact ⟨_, rest, (scanCommitted_eq_ok hring).mpr
    ⟨by omega, _, _, _, _, why, hacc.trans hrest, hstop, rfl⟩, rfl⟩

/-! ## What a scan depends on -/

/-- A scan reads only the blocks of the ring. -/
theorem scanCommitted_congr (h : ∀ i, i < ringSize → read (i + 1) = read' (i + 1))
    (tailSeq tailBlock : ℕ) :
    scanCommitted read ringSize blockSize tailSeq tailBlock
      = scanCommitted read' ringSize blockSize tailSeq tailBlock := by
  rcases Nat.eq_zero_or_pos ringSize with rfl | hring
  · rfl
  have hagree (lo hi : ℕ) : AgreeOn read read' ringSize lo hi :=
    fun p _ _ ↦ h _ (Nat.mod_lt p hring)
  have hblock (pos : ℕ) : readRingBlock read ringSize pos = readRingBlock read' ringSize pos :=
    (hagree pos (pos + 1)).readRingBlock le_rfl (Nat.lt_succ_self pos)
  have hturn (m : RevokeMap) (pos seq : ℕ) : scanTx read ringSize blockSize m pos seq
      = scanTx read' ringSize blockSize m pos seq := by
    simp only [scanTx, scanCommit, hblock, readDataBlocks_congr (hagree _ _)]
  have hloop (bound fuel : ℕ) : ∀ scan pos seq,
      scanLoop read ringSize blockSize bound fuel scan pos seq
        = scanLoop read' ringSize blockSize bound fuel scan pos seq := by
    induction fuel with
    | zero => intro scan pos seq; rfl
    | succ fuel ih =>
      intro scan pos seq
      simp only [scanLoop, hturn, ih]
  simp only [scanCommitted, hloop]

theorem Accepts.dataBlocks (hP : ∀ i b, read i = .ok b → P b)
    (h : Accepts read ringSize blockSize bound pos seq txs es pos' seq') :
    ∀ tx ∈ txs, ∀ b ∈ tx.dataBlocks, P b := by
  induction h with
  | nil => intro tx htx; cases htx
  | cons _ hturn _ _ ih =>
    intro tx htx
    rcases mem_cons.mp htx with rfl | htx
    · obtain ⟨block, hdr, next, commit, -, -, -, -, -, hdata, -⟩ := scanTx_eq_accept.mp hturn
      intro b hb
      obtain ⟨k, hk⟩ := mem_iff_getElem?.mp hb
      exact hP _ _ (readRingBlock_eq_ok.mp ((readDataBlocks_eq_ok.mp hdata).1 k b hk))
    · exact ih tx htx

/-- The data blocks of a scan are blocks the reader returned. -/
theorem scanCommitted_dataBlocks (hP : ∀ i b, read i = .ok b → P b)
    (hscan : scanCommitted read ringSize blockSize tailSeq tailBlock = .ok scan) :
    ∀ tx ∈ scan.txs, ∀ b ∈ tx.dataBlocks, P b := by
  rcases Nat.eq_zero_or_pos ringSize with rfl | hring
  · cases hscan
    intro tx htx
    cases htx
  · obtain ⟨-, txs, es, pos', seq', why, hacc, -, rfl⟩ := (scanCommitted_eq_ok hring).mp hscan
    exact hacc.dataBlocks hP

theorem scanCommitted_next_of_empty
    (hscan : scanCommitted read ringSize blockSize tailSeq tailBlock = .ok scan)
    (hempty : scan.txs = []) : scan.nextSeq = tailSeq ∧ scan.nextBlock = tailBlock := by
  rcases Nat.eq_zero_or_pos ringSize with rfl | hring
  · cases hscan
    exact ⟨rfl, rfl⟩
  · obtain ⟨-, txs, es, pos', seq', why, hacc, -, rfl⟩ := (scanCommitted_eq_ok hring).mp hscan
    obtain rfl : txs = [] := hempty
    cases hacc
    exact ⟨rfl, rfl⟩

end Meaning

end Edos

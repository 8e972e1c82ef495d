import Edos.Journal.Tracking

/-!
# The write-ahead rule

A metadata block must not reach its home location before the transaction that dirtied it has
committed. The one place that enforces this is the gate of a writeback pass: it reads the block's
tracker entry and holds the page back if the entry is above `committed_seq`.

## What the gate cannot see

A page is dirty, and listed as dirty, from the moment it is written; the tracker learns of it when
the handle is dropped. A pass that comes in between finds no entry, or one of an earlier
transaction, and writes the page home with the open handle's write in it. The same happens when the
page is written again after the pass has read the entry. And `committed_seq` only says that some
transaction at least as new has been committed: one that was popped and lost to an error is below
it.

`WriteAheadSafe` rules these out, and under it the rule holds: all writes that a pass brings home
belong to committed transactions, and so do all writes that are at home.
-/

namespace Edos

open Function List Option

/-- The page that a pass has read the tracker entry for and has not written yet. -/
def Flush.aim : Flush → Option ℕ
  | .read id _ | .batched id _ => some id
  | _ => none

namespace System

variable {s s' : System} {ringSize : ℕ} {a : Action}

/-- A step that respects the write-ahead rule: a pass reads the tracker entry of a block only when
the handles with writes that are not at home are done with the block, the block is not written until
the pass is through, and no transaction is lost after it has been popped. -/
def WriteAheadSafe (s : System) (a : Action) : Prop :=
  CacheSafe s a ∧ match a with
    | .writePage _ b _ => ∀ f ∈ s.flushes, ∀ id p, f.aim = some id →
        s.cache.pages[id]? = some p → p.block ≠ b
    | .flushRead n => ∀ id p, s.flushes[n]? = some (.found id) → s.cache.pages[id]? = some p →
        ∀ k w, s.cache.home p.block ≤ k → (s.cache.writes p.block)[k]? = some w →
          ∃ h q, s.handles[w.handle]? = some h ∧ h.Settled p.block q
    | .journal a => s.journal.KeepsPopped a
    | _ => True

/-- The handle that made the write is done with the block, and its transaction is committed. -/
def CommittedWrite (s : System) (b : UInt64) (w : BlockWrite) : Prop :=
  ∃ h q, s.handles[w.handle]? = some h ∧ h.Settled b q ∧ s.journal.Recorded q

variable {b : UInt64} {w : BlockWrite}

theorem CommittedWrite.mono (h : CommittedWrite s b w) (hord : s.journal.InOrder)
    (hstep : Takes s ringSize a s') : CommittedWrite s' b w := by
  obtain ⟨x, q, hx, hs, hrec⟩ := h
  obtain ⟨x', hx', hev⟩ := hstep.handles hx
  exact ⟨x', q, hx', hs.mono hev, hrec.mono (hstep.advances hord)⟩

/-- What a pass relies on: from the tracker entry on, that every write of the block is committed or
below the entry; past the gate, that all are committed. -/
def FlushInv (s : System) : Flush → Prop
  | .read id seq => ∃ p, s.cache.pages[id]? = some p ∧
      ∀ {k : ℕ} {w : BlockWrite}, (s.cache.writes p.block)[k]? = some w →
        ∃ (h : Handle) (q : ℕ), s.handles[w.handle]? = some h ∧ h.Settled p.block q ∧
          (s.journal.Recorded q ∨ ∃ q', seq = some q' ∧ q ≤ q')
  | .batched id seq => (∀ q, seq = some q → q ≤ s.journal.state.committedSeq) ∧
      ∃ p, s.cache.pages[id]? = some p ∧
        ∀ {k : ℕ} {w : BlockWrite}, (s.cache.writes p.block)[k]? = some w →
          CommittedWrite s p.block w
  | .written _ seq => ∀ q, seq = some q → q ≤ s.journal.state.committedSeq
  | _ => True

variable {k : ℕ}

/-- The home location changes when a pass writes a page past the gate. -/
theorem Takes.home (h : Takes s ringSize a s') (hcached : Cached a) (hk : k < s'.cache.home b) :
    k < s.cache.home b ∨ ∃ (n id : ℕ) (seq : Option ℕ) (p : CachedBlockPage) (landed ok : Bool),
      a = .flushWrite n landed ok ∧ s.flushes[n]? = some (.batched id seq) ∧
        s.cache.pages[id]? = some p ∧ p.block = b := by
  cases h with
  | writePage b' data =>
    left
    rw [BlockPageCache.writePage] at hk
    dsimp only at hk
    split at hk <;> exact hk
  | writeDetached | writeThrough | noteThrough => exact hcached.elim
  | attach hc =>
    obtain ⟨id, p, -, rfl⟩ := BlockPageCache.attach_eq_some hc
    exact .inl hk
  | evict hc =>
    obtain ⟨id, -, -, rfl⟩ := BlockPageCache.evict_eq_some hc
    exact .inl hk
  | @flushWrite n id seq p landed ok hn hp =>
    by_cases hb : p.block = b
    · exact .inr ⟨n, id, seq, p, landed, ok, rfl, hn, hp, hb⟩
    · cases landed with
      | false => exact .inl hk
      | true =>
        change k < update s.cache.home p.block p.version b at hk
        rw [update_of_ne (Ne.symm hb)] at hk
        exact .inl hk
  | flushClean =>
    dsimp only at hk
    split_ifs at hk <;> exact .inl hk
  | _ => exact .inl hk

/-- The invariant behind the write-ahead rule, from a mount that ended at the given sequence
number. -/
structure WriteAheadInv (seq : ℕ) (s : System) : Prop where
  handles : ListedInv s
  order : s.journal.InOrder
  accounted : s.journal.Accounted seq
  enrolled : Enrolled s
  active : seq ≤ s.journal.state.active.seq
  merged : ∀ {i q : ℕ} {h : Handle} {todo : List (UInt64 × ℕ)}, s.handles[i]? = some h →
    h.phase = .merged q todo → seq ≤ q
  home : ∀ {b k w}, (s.cache.writes b)[k]? = some w → k < s.cache.home b → CommittedWrite s b w
  covered : Covered (fun _ _ q ↦ s.journal.Recorded q) s
  flushes : ∀ f ∈ s.flushes, FlushInv s f

namespace WriteAheadInv

variable {seq : ℕ}

theorem accounted_step (hinv : WriteAheadInv seq s) (hsafe : WriteAheadSafe s a)
    (hstep : Takes s ringSize a s') : s'.journal.Accounted seq := by
  rcases hstep.journal_step with heq | ⟨a', hj, hin, -⟩
  · rw [heq]
    exact hinv.accounted
  · refine hinv.accounted.step hinv.order ?_ hj
    cases a' with
    | merge | capture | sweep | checkpointSweep => trivial
    | _ =>
      obtain rfl := hin rfl
      exact hsafe.2

theorem home_step (hinv : WriteAheadInv seq s) (hsafe : WriteAheadSafe s a)
    (hstep : Takes s ringSize a s') (hk : (s'.cache.writes b)[k]? = some w)
    (hlt : k < s'.cache.home b) : CommittedWrite s' b w := by
  have hold : k < s.cache.home b → (s.cache.writes b)[k]? = some w := by
    intro hlt
    refine (hstep.writes hsafe.1.cached hk).resolve_right ?_
    rintro ⟨_, _, _, -, -, rfl, -⟩
    exact absurd hlt (Nat.not_lt.mpr (hinv.handles.cache.home b))
  rcases hstep.home hsafe.1.cached hlt with hlt | ⟨n, id, seq', p, landed, ok, rfl, hn, hp, rfl⟩
  · exact (hinv.home (hold hlt) hlt).mono hinv.order hstep
  · obtain ⟨-, p', hp', hall⟩ := hinv.flushes _ (mem_of_getElem? hn)
    obtain rfl := some.inj (hp.symm.trans hp')
    refine (hall ((hstep.writes hsafe.1.cached hk).resolve_right ?_)).mono hinv.order hstep
    rintro ⟨_, _, _, ha, -⟩
    cases ha

theorem covered_step (hinv : WriteAheadInv seq s) (hsafe : WriteAheadSafe s a)
    (hstep : Takes s ringSize a s') : Covered (fun _ _ q ↦ s'.journal.Recorded q) s' := by
  have hadv := hstep.advances hinv.order
  refine hinv.covered.step hinv.handles hsafe.1 hstep (fun hrec ↦ hrec.mono hadv) ?_ ?_
  · intro b k w h q todo hk hi hphase hlt
    obtain ⟨h', q', hi', ⟨todo', hphase', -⟩, hrec⟩ := hinv.home hk hlt
    obtain rfl := some.inj (hi.symm.trans hi')
    rw [hphase] at hphase'
    obtain ⟨rfl, -⟩ := Phase.merged.inj hphase'
    exact hrec.mono hadv
  · intro n id q' p k w h q _ hn _ _ hi hs hle
    obtain ⟨todo, hphase⟩ := hs.merged
    have hq' : q' ≤ s.journal.state.committedSeq :=
      hinv.flushes _ (mem_of_getElem? hn) q' rfl
    exact (hinv.accounted.recorded hinv.order (hinv.merged hi hphase) (hle.trans hq')).mono hadv

variable {f : Flush} {id : ℕ} {p : CachedBlockPage}

/-- A block that a pass is at work on is not written. -/
theorem writes_of_aim (hsafe : WriteAheadSafe s a) (hstep : Takes s ringSize a s')
    (hf : f ∈ s.flushes) (haim : f.aim = some id) (hp : s.cache.pages[id]? = some p)
    (hk : (s'.cache.writes p.block)[k]? = some w) : (s.cache.writes p.block)[k]? = some w := by
  refine (hstep.writes hsafe.1.cached hk).resolve_right ?_
  rintro ⟨i, data, h, rfl, -⟩
  exact hsafe.2 f hf id p haim hp rfl

section

variable (hinv : WriteAheadInv seq s)

include hinv

theorem flushInv_mono (hsafe : WriteAheadSafe s a) (hstep : Takes s ringSize a s')
    (hf : f ∈ s.flushes) : FlushInv s' f := by
  have hold := hinv.flushes f hf
  have hadv := hstep.advances hinv.order
  have hg := (hstep.cache hsafe.1.cached).grows hinv.handles.cache
  cases f with
  | read id seq =>
    obtain ⟨p, hp, hall⟩ := hold
    obtain ⟨p', hp', hb, -⟩ := hg.pages hp
    refine ⟨p', hp', fun {k w} hk ↦ ?_⟩
    rw [hb] at hk ⊢
    obtain ⟨h, q, hi, hs, hq⟩ := hall (writes_of_aim hsafe hstep hf rfl hp hk)
    obtain ⟨h', hi', hev⟩ := hstep.handles hi
    exact ⟨h', q, hi', hs.mono hev, hq.imp_left fun hrec ↦ hrec.mono hadv⟩
  | batched id seq =>
    obtain ⟨hgate, p, hp, hall⟩ := hold
    obtain ⟨p', hp', hb, -⟩ := hg.pages hp
    refine ⟨fun q hq ↦ (hgate q hq).trans hadv.committed, p', hp', fun {k w} hk ↦ ?_⟩
    rw [hb] at hk ⊢
    exact (hall (writes_of_aim hsafe hstep hf rfl hp hk)).mono hinv.order hstep
  | written id seq => exact fun q hq ↦ (hold q hq).trans hadv.committed
  | _ => trivial

/-- At the gate, an entry that is not above `committed_seq` stands for committed writes only. -/
theorem flushInv_batched {entry : Option ℕ} (hread : FlushInv s (.read id entry))
    (hgate : ∀ q, entry = some q → q ≤ s.journal.state.committedSeq) :
    FlushInv s (.batched id entry) := by
  obtain ⟨p, hp, hall⟩ := hread
  refine ⟨hgate, p, hp, fun {k w} hk ↦ ?_⟩
  obtain ⟨h, q, hi, hs, hrec | ⟨q', hq', hle⟩⟩ := hall hk
  · exact ⟨h, q, hi, hs, hrec⟩
  · obtain ⟨todo, hphase⟩ := hs.merged
    exact ⟨h, q, hi, hs, hinv.accounted.recorded hinv.order (hinv.merged hi hphase)
      (hle.trans (hgate q' hq'))⟩

/-- A tracker entry read when all handles are done with the block covers what is not committed. -/
theorem flushInv_read
    (hp : s.cache.pages[id]? = some p)
    (hdone : ∀ k w, s.cache.home p.block ≤ k → (s.cache.writes p.block)[k]? = some w →
      ∃ h q, s.handles[w.handle]? = some h ∧ h.Settled p.block q) :
    FlushInv s (.read id s.tracker[p.block]?) := by
  refine ⟨p, hp, fun {k w} hk ↦ ?_⟩
  rcases lt_or_ge k (s.cache.home p.block) with hlt | hge
  · obtain ⟨h, q, hi, hs, hrec⟩ := hinv.home hk hlt
    exact ⟨h, q, hi, hs, .inl hrec⟩
  · obtain ⟨h, q, hi, hs⟩ := hdone k w hge hk
    exact ⟨h, q, hi, hs, hinv.covered hk hi hs⟩

theorem flushes_step (hsafe : WriteAheadSafe s a)
    (hstep : Takes s ringSize a s') : ∀ f ∈ s'.flushes, FlushInv s' f := by
  intro f hf
  rcases hstep.flushes hf with hf | hnew
  · exact hinv.flushInv_mono hsafe hstep hf
  cases f with
  | read id entry =>
    obtain ⟨n, p, rfl, hn, hp, rfl⟩ := hnew
    cases hstep
    exact hinv.flushInv_read hp fun k w ↦ hsafe.2 _ _ hn hp k w
  | batched id entry =>
    obtain ⟨hread, hjournal, hcache, hhandles, hgate⟩ := hnew
    have hbatched := hinv.flushInv_batched (hinv.flushes _ hread) hgate
    simp only [FlushInv, CommittedWrite, hjournal, hcache, hhandles] at hbatched ⊢
    exact hbatched
  | written id entry =>
    obtain ⟨p, hbatched, -, -, -, hjournal⟩ := hnew
    rw [FlushInv, hjournal]
    exact (hinv.flushes _ hbatched).1
  | _ => trivial

/-- **Step.** -/
theorem step (hsafe : WriteAheadSafe s a)
    (hstep : Takes s ringSize a s') : WriteAheadInv seq s' where
  handles := hinv.handles.step hsafe.1 hstep
  order := hstep.inOrder hinv.order
  accounted := hinv.accounted_step hsafe hstep
  enrolled := hinv.enrolled.step hinv.handles.toHandlesInv hinv.order hstep
  active := hinv.active.trans (hstep.advances hinv.order).active
  merged hi hphase := by
    rcases hstep.merged hi hphase with ⟨h₀, todo₀, hi₀, hphase₀, -⟩ | ⟨h₀, -, -, -, rfl, -⟩
    · exact hinv.merged hi₀ hphase₀
    · exact hinv.active
  home := hinv.home_step hsafe hstep
  covered := hinv.covered_step hsafe hstep
  flushes := hinv.flushes_step hsafe hstep

end

end WriteAheadInv

theorem writeAheadInv_mounted {seq : ℕ} (hseq : 0 < seq) (block : ℕ) (ring : ℕ → List UInt8)
    (headSeq headBlock : ℕ) (initial : UInt64 → Page) :
    WriteAheadInv seq (mounted seq block ring headSeq headBlock initial) where
  handles := listedInv_mounted ..
  order := Journal.inOrder_mounted hseq ..
  accounted := Journal.accounted_mounted ..
  enrolled _ _ _ _ _ _ h := nomatch h
  active := Nat.le_refl seq
  merged h := nomatch h
  home h := nomatch h
  covered _ _ _ _ _ h := nomatch h
  flushes _ h := nomatch h

/-- The handle that made the write was merged into a transaction that has the block and is committed
to the ring. -/
def Journalled (s : System) (b : UInt64) (w : BlockWrite) : Prop :=
  ∃ (h : Handle) (q : ℕ) (todo : List (UInt64 × ℕ)) (img : TxImage) (page : Page),
    s.handles[w.handle]? = some h ∧ h.phase = .merged q todo ∧ img ∈ s.journal.history ∧
      img.seq = q ∧ (b, page) ∈ img.blocks

theorem WriteAheadInv.journalled {seq : ℕ} (hinv : WriteAheadInv seq s)
    (hk : (s.cache.writes b)[k]? = some w) (hw : CommittedWrite s b w) : Journalled s b w := by
  obtain ⟨h, q, hi, hs, img, himg, hq⟩ := hw
  obtain ⟨todo, hphase⟩ := hs.merged
  obtain ⟨h', hi', id, hid, -⟩ := hinv.handles.wrote hk
  obtain rfl := some.inj (hi.symm.trans hi')
  obtain ⟨page, hpage⟩ := (hinv.enrolled hi hphase hid).history img himg hq
  exact ⟨h, q, todo, img, page, hi, hphase, himg, hq, hpage⟩

/-- The write-ahead rule: all writes in a page that a writeback pass is about to bring home belong
to committed transactions, and so do all writes at home. -/
structure WriteAhead (s : System) : Prop where
  flushing : ∀ {n id : ℕ} {entry : Option ℕ} {p : CachedBlockPage},
    s.flushes[n]? = some (.batched id entry) → s.cache.pages[id]? = some p → p.dirty = true →
      ∀ {k w}, k < p.version → (s.cache.writes p.block)[k]? = some w → s.Journalled p.block w
  home : ∀ {b k w}, k < s.cache.home b → (s.cache.writes b)[k]? = some w → s.Journalled b w

/-- **Write-ahead.** It holds in every state of a run whose steps respect it, from a mount at any
sequence number but 0. -/
theorem writeAhead_of_reaches {seq block headSeq headBlock : ℕ} {ring : ℕ → List UInt8}
    {initial : UInt64 → Page} (hseq : 0 < seq)
    (h : Reaches (fun s ↦ s.step ringSize) WriteAheadSafe
      (mounted seq block ring headSeq headBlock initial) s) : WriteAhead s := by
  have hinv : WriteAheadInv seq s := h.invariant (writeAheadInv_mounted hseq ..)
    fun _ _ _ hinv hsafe hstep ↦ hinv.step hsafe (takes_of_step hstep)
  refine ⟨fun {n id entry p} hn hp _ {k w} hlt hk ↦ ?_, fun hlt hk ↦
    hinv.journalled hk (hinv.home hk hlt)⟩
  obtain ⟨-, p', hp', hall⟩ := hinv.flushes _ (mem_of_getElem? hn)
  obtain rfl := some.inj (hp.symm.trans hp')
  exact hinv.journalled hk (hall hk)

/-- A handle writes block 5 and is dropped, its transaction is committed, and a writeback pass comes
to the point where it writes the page home. -/
theorem writeAhead_one_commit :
    ∃ s : System, Reaches (fun s ↦ s.step 16) WriteAheadSafe
        (mounted 1 0 (fun _ ↦ []) 1 0 fun _ ↦ Page.zero) s ∧
      s.flushes = [.batched 0 (some 1)] ∧ s.cache.isDirty 0 = true ∧ WriteAhead s := by
  have h : Reaches (fun s : System ↦ s.step 16) WriteAheadSafe
    (mounted 1 0 (fun _ ↦ []) 1 0 fun _ ↦ Page.zero) _ := .refl
  have h := h.tail (a := .begin) (by exact ⟨trivial, trivial⟩) rfl
  have h := h.tail (a := .writePage 0 5 Page.zero) (by exact ⟨trivial, fun _ h ↦ nomatch h⟩) rfl
  have h := h.play [.publish 0, .drop 0]
    (fun _ _ h ↦ by fin_cases h <;> exact ⟨trivial, trivial⟩) rfl
  have h := h.tail (a := .track 0) (by exact ⟨fun _ _ b _ _ _ _ _ q hq ↦ (nomatch hq), trivial⟩) rfl
  have h := h.play [.journal .sealActive, .journal .pop, .copyPage 5, .capture]
    (fun _ _ h ↦ by fin_cases h <;> exact ⟨trivial, trivial⟩) rfl
  have h := h.tail (a := .journal .checkSpace) (by exact ⟨trivial, trivial⟩)
    (step_checkSpace (.fits rfl (by decide) (by decide)))
  have h := h.play [.journal (.ringWrite 0), .journal (.ringWrite 1)]
    (fun _ _ h ↦ by fin_cases h <;> exact ⟨trivial, trivial⟩) rfl
  have h := h.tail (a := .journal (.drained true)) (by exact ⟨trivial, rfl⟩) rfl
  have h := h.tail (a := .journal (.flushed true)) (by exact ⟨trivial, rfl⟩) rfl
  have h := h.tail (a := .journal (.commitWritten true true)) (by exact ⟨trivial, rfl⟩) rfl
  have h := h.play [.journal .record, .flushStart 5, .flushLookup 0]
    (fun _ _ h ↦ by fin_cases h <;> exact ⟨trivial, trivial⟩) rfl
  have h := h.tail (a := .flushRead 0) (by
    refine ⟨trivial, fun id p hn hp k w _ hk ↦ ?_⟩
    cases hn
    cases hp
    cases k <;> cases hk
    exact ⟨_, 1, rfl, [], rfl, nofun⟩) rfl
  have h := h.tail (a := .flushGate 0 true) (by exact ⟨trivial, trivial⟩) rfl
  exact ⟨_, h, rfl, rfl, writeAhead_of_reaches (by decide) h⟩

/-- **A page goes home with an open handle's write.** A handle writes block 5 and stays open; a
forced writeback pass finds the block listed as dirty and no tracker entry, and writes it. -/
theorem writeBack_of_open_handle :
    ∃ s : System, Reaches (fun s ↦ s.step 16) (fun _ _ ↦ True)
        (mounted 1 0 (fun _ ↦ []) 1 0 fun _ ↦ Page.zero) s ∧
      s.cache.home 5 = 1 ∧ (s.cache.writes 5)[0]? = some ⟨0, Page.zero⟩ ∧
      s.handles[0]?.map Handle.phase = some .active ∧ s.journal.history = [] ∧ ¬WriteAhead s := by
  have h : Reaches (fun s : System ↦ s.step 16) (fun _ _ ↦ True)
    (mounted 1 0 (fun _ ↦ []) 1 0 fun _ ↦ Page.zero) _ := .refl
  have h := h.play [.begin, .writePage 0 5 Page.zero, .publish 0, .flushStart 5, .flushLookup 0,
    .flushRead 0, .flushGate 0 true, .flushWrite 0 true true] (fun _ _ _ ↦ trivial) rfl
  refine ⟨_, h, rfl, rfl, rfl, rfl, fun hwa ↦ ?_⟩
  obtain ⟨_, _, _, img, _, -, -, himg, -⟩ := hwa.home (b := 5) (k := 0) (by decide) rfl
  exact absurd himg not_mem_nil

end System

end Edos

import Edos.Journal.Copies

/-!
# What is in a transaction's copies

A transaction should reach the ring with the updates of the handles that were merged into it or
before, and with no others. A handle's updates are in the pages from the moment it writes them,
whether or not it is ever merged, and the committer copies the pages when it gets to them. So an
update gets into the copy of a transaction it does not belong to when

* a handle that is still open has already written a block of the open transaction when this is
  sealed, or a handle has written it and was aborted, which discards the enrolment and not the
  write; or
* a block of a sealed transaction is written before it has been copied.

On the other hand an update is missing if the transaction holds another page of the block than the
one it went into: an enrolled page that is clean may leave the cache, and the last handle to be
merged may have enrolled the old one.

`AtomicSafe` rules this out. The copy of a page is one step here, although it is made without the
page's lock; since it only matters for pages that are written while they are copied, `AtomicSafe`
rules that out too.
-/

namespace Edos.System

open List Std

variable {s s' : System} {ringSize : ℕ} {a : Action}

/-- The handle that made the write is merged into the given transaction or an earlier one. -/
def MergedUpTo (s : System) (q : ℕ) (w : BlockWrite) : Prop :=
  ∃ (h : Handle) (q' : ℕ) (todo : List (UInt64 × ℕ)), s.handles[w.handle]? = some h ∧
    h.phase = .merged q' todo ∧ q' ≤ q

/-- The open transaction may be sealed: the page it holds for a block has the block's last write,
and all writes of the block are by handles that have been merged. -/
def SealSafe (s : System) : Prop :=
  ∀ (b : UInt64) (id : ℕ) (p : CachedBlockPage),
    s.journal.state.active.enrolledBlocks[b]? = some id → s.cache.pages[id]? = some p →
      p.version = (s.cache.writes b).length ∧ ∀ w ∈ s.cache.writes b,
        ∃ h q todo, s.handles[w.handle]? = some h ∧ h.phase = .merged q todo

/-- A step that keeps updates out of transactions they do not belong to: no block of a transaction
that is sealed and not yet on its way to the ring is written, and the open transaction is sealed
only when its pages have just the updates that have been merged. -/
def AtomicSafe (s : System) (a : Action) : Prop :=
  Cached a ∧ match a with
    | .writePage _ b _ => ∀ tx, tx ∈ s.journal.state.sealed ∨ s.journal.committer.tx = some tx →
        b ∉ tx.enrolledBlocks
    | .journal .sealActive | .journal .sealIfFull => SealSafe s
    | _ => True

/-- The version has the updates that are merged up to the given transaction, and no others. -/
def Exactly (s : System) (q : ℕ) (b : UInt64) (v : ℕ) : Prop :=
  v ≤ (s.cache.writes b).length ∧
    ∀ k w, (s.cache.writes b)[k]? = some w → (k < v ↔ MergedUpTo s q w)

/-- The pages that a sealed transaction holds are as they were when it was sealed. -/
def Frozen (s : System) (tx : Transaction ℕ) : Prop :=
  ∀ (b : UInt64) (id : ℕ) (p : CachedBlockPage), tx.enrolledBlocks[b]? = some id →
    s.cache.pages[id]? = some p →
      p.version = (s.cache.writes b).length ∧ Exactly s tx.seq b p.version

/-- A handle that is merged in a step goes into the open transaction. -/
theorem Takes.mergedUpTo_iff (hstep : Takes s ringSize a s') {q : ℕ}
    (hq : q < s.journal.state.active.seq) (w : BlockWrite) :
    MergedUpTo s' q w ↔ MergedUpTo s q w := by
  constructor
  · rintro ⟨h, q', todo, hi, hphase, hle⟩
    rcases hstep.merged hi hphase with ⟨h₀, todo₀, hi₀, hphase₀, -⟩ | ⟨h₀, -, -, -, rfl, -⟩
    · exact ⟨h₀, q', todo₀, hi₀, hphase₀, hle⟩
    · exact absurd hle (Nat.not_le.mpr hq)
  · rintro ⟨h, q', todo, hi, hphase, hle⟩
    obtain ⟨h', hi', hev⟩ := hstep.handles hi
    obtain ⟨todo', hphase', -⟩ := hev q' todo hphase
    exact ⟨h', q', todo', hi', hphase', hle⟩

theorem Exactly.mono {q : ℕ} {b : UInt64} {v : ℕ} (h : Exactly s q b v) (hinv : HandlesInv s)
    (hq : q < s.journal.state.active.seq) (hcached : Cached a) (hstep : Takes s ringSize a s') :
    Exactly s' q b v := by
  obtain ⟨hle, hiff⟩ := h
  have hg := (hstep.cache hcached).grows hinv.cache
  refine ⟨hle.trans (hg.writes b).length_le, fun k w hk ↦ ?_⟩
  rw [hstep.mergedUpTo_iff hq]
  rcases hstep.writes hcached hk with hk | ⟨i, data, hd, rfl, rfl, rfl, hi, hready⟩
  · exact hiff k w hk
  · -- a new write is behind all copies, and its handle is open
    refine ⟨fun hlt ↦ absurd hle (Nat.not_le.mpr hlt), ?_⟩
    rintro ⟨h, q', todo, hi', hphase, -⟩
    obtain rfl := Option.some.inj (hi.symm.trans hi')
    exact absurd ((Handle.of_ready hready).1.symm.trans hphase) nofun

/-- The invariant behind the atomicity of copies. -/
structure AtomicInv (s : System) : Prop where
  handles : HandlesInv s
  order : s.journal.InOrder
  merged : ∀ ⦃i q : ℕ⦄ ⦃h : Handle⦄ ⦃todo : List (UInt64 × ℕ)⦄, s.handles[i]? = some h →
    h.phase = .merged q todo → q ≤ s.journal.state.active.seq
  frozen : s.journal.AllTx (fun _ ↦ True) (Frozen s)
  copies : CopiesInv (fun q b v ↦ q < s.journal.state.active.seq ∧ Exactly s q b v) s

namespace AtomicInv

/-- The blocks of a transaction that is sealed are not written. -/
theorem frozen_mono (hinv : AtomicInv s) (hsafe : AtomicSafe s a) (hstep : Takes s ringSize a s')
    {tx : Transaction ℕ} (htx : tx ∈ s.journal.state.sealed ∨ s.journal.committer.tx = some tx) :
    Frozen s' tx := by
  have hg := (hstep.cache hsafe.1).grows hinv.handles.cache
  have hinv' := hinv.handles.step hsafe.1 hstep
  intro b id p' hid hp'
  have hpages := htx.elim (hinv.copies.pages.sealed tx) (hinv.copies.pages.held tx)
  have hfrozen := htx.elim (hinv.frozen.sealed tx) (hinv.frozen.held tx)
  obtain ⟨p, hp, rfl⟩ := hpages b id hid
  obtain ⟨hversion, hexact⟩ := hfrozen p.block id p hid hp
  have hwrites : (s'.cache.writes p.block).length = (s.cache.writes p.block).length := by
    refine Nat.le_antisymm (Nat.le_of_not_lt fun hlt ↦ ?_) (hg.writes _).length_le
    rcases hstep.writes hsafe.1 (getElem?_eq_getElem hlt) with hk | ⟨i, data, hd, rfl, -⟩
    · exact absurd (List.getElem?_eq_some_iff.mp hk).1 (Nat.lt_irrefl _)
    · exact hsafe.2 tx htx (ExtTreeMap.isSome_getElem?_iff_mem.mp (by rw [hid]; rfl))
  obtain ⟨p'', hp'', hb, hle⟩ := hg.pages hp
  obtain rfl := Option.some.inj (hp'.symm.trans hp'')
  have hversion' : p'.version = p.version := by
    refine Nat.le_antisymm ?_ hle
    rw [hversion, ← hwrites, ← hb]
    exact hinv'.cache.version_le hp'
  have hq : tx.seq < s.journal.state.active.seq := by
    refine (hinv.order.waiting_lt ?_).2
    rcases htx with htx | htx
    · exact mem_append_right _ (mem_map_of_mem htx)
    · exact mem_append_left _ (by rw [Journal.inFlight_of_tx htx]; exact mem_cons_self)
  rw [hversion', hwrites]
  exact ⟨hversion, hexact.mono hinv.handles hq hsafe.1 hstep⟩

/-- What is sealed has the updates that have been merged. -/
theorem frozen_sealed (hinv : AtomicInv s) (hseal : SealSafe s) (hcache : s'.cache = s.cache)
    (hhandles : s'.handles = s.handles) : Frozen s' s.journal.state.active := by
  intro b id p hid hp
  rw [hcache] at hp ⊢
  obtain ⟨hversion, hall⟩ := hseal b id p hid hp
  refine ⟨hversion, by rw [hcache, hversion], fun k w hk ↦ ?_⟩
  rw [hcache] at hk
  rw [hversion, MergedUpTo, hhandles]
  refine ⟨fun _ ↦ ?_, fun _ ↦ (List.getElem?_eq_some_iff.mp hk).1⟩
  obtain ⟨h, q, todo, hi, hphase⟩ := hall w (mem_of_getElem? hk)
  exact ⟨h, q, todo, hi, hphase, hinv.merged hi hphase⟩

theorem frozen_step (hinv : AtomicInv s) (hsafe : AtomicSafe s a) (hstep : Takes s ringSize a s') :
    s'.journal.AllTx (fun _ ↦ True) (Frozen s') := by
  have hold : s.journal.AllTx (fun _ ↦ True) (Frozen s') :=
    ⟨trivial, fun tx htx ↦ hinv.frozen_mono hsafe hstep (.inl htx),
      fun tx htx ↦ hinv.frozen_mono hsafe hstep (.inr htx)⟩
  rcases hstep.journal_step with heq | ⟨a', hj, hin, -⟩
  · rw [heq]
    exact hold
  refine hold.step trivial (fun _ _ _ ↦ trivial) (fun ha' _ ↦ ?_) hj
  rcases ha' with rfl | rfl
  · obtain rfl := hin rfl
    cases hstep
    exact hinv.frozen_sealed hsafe.2 rfl rfl
  · obtain rfl := hin rfl
    cases hstep
    exact hinv.frozen_sealed hsafe.2 rfl rfl

/-- **Step.** -/
theorem step (hinv : AtomicInv s) (hsafe : AtomicSafe s a) (hstep : Takes s ringSize a s') :
    AtomicInv s' where
  handles := hinv.handles.step hsafe.1 hstep
  order := hstep.inOrder hinv.order
  merged _ _ _ _ hi hphase := by
    have hadv := (hstep.advances hinv.order).active
    rcases hstep.merged hi hphase with ⟨h₀, todo₀, hi₀, hphase₀, -⟩ | ⟨h₀, -, -, -, rfl, -⟩
    · exact (hinv.merged hi₀ hphase₀).trans hadv
    · exact hadv
  frozen := hinv.frozen_step hsafe hstep
  copies := by
    have hadv := (hstep.advances hinv.order).active
    refine hinv.copies.step hinv.handles hinv.order hsafe.1 hstep (fun h ↦ h.2.1)
      (fun ⟨hq, h⟩ ↦ ⟨hq.trans_le hadv, h.mono hinv.handles hq hsafe.1 hstep⟩) ?_
    rintro tx b id p - hc hid hp -
    have htx : s.journal.committer.tx = some tx := by
      rw [hc]
      rfl
    refine ⟨(hinv.order.waiting_lt (mem_append_left _ ?_)).2,
      (hinv.frozen.held tx htx b id p hid hp).2⟩
    rw [Journal.inFlight_of_tx htx]
    exact mem_cons_self

end AtomicInv

theorem atomicInv_mounted {seq : ℕ} (hseq : 0 < seq) (block : ℕ) (ring : ℕ → List UInt8)
    (headSeq headBlock : ℕ) (initial : UInt64 → Page) :
    AtomicInv (mounted seq block ring headSeq headBlock initial) where
  handles := (listedInv_mounted ..).toHandlesInv
  order := Journal.inOrder_mounted hseq ..
  merged _ _ _ _ h := nomatch h
  frozen := ⟨trivial, fun _ h ↦ (nomatch h), fun _ h ↦ (nomatch h)⟩
  copies := copiesInv_mounted ..

/-- **Atomicity of copies.** In a run whose steps are safe, from a mount at any sequence number but
0, whatever a transaction's image has for a block, on its way to the ring or in it, is a version of
the block with exactly the updates of handles merged into the transaction or before. -/
theorem exactly_of_reaches {seq block headSeq headBlock : ℕ} {ring : ℕ → List UInt8}
    {initial : UInt64 → Page} (hseq : 0 < seq)
    (h : Reaches (fun s ↦ s.step ringSize) AtomicSafe
      (mounted seq block ring headSeq headBlock initial) s) {img : TxImage}
    (himg : s.journal.committer.image = some img ∨ img ∈ s.journal.history)
    {b : UInt64} {page : Page} (hb : (b, page) ∈ img.blocks) :
    ∃ v, page = s.cache.content b v ∧ Exactly s img.seq b v := by
  have hinv : AtomicInv s := h.invariant (atomicInv_mounted hseq ..)
    fun _ _ _ hinv hsafe hstep ↦ hinv.step hsafe (takes_of_step hstep)
  obtain ⟨v, hv, hpage⟩ := hinv.copies.images himg b page hb
  exact ⟨v, hpage, (hinv.copies.copies hv).2⟩

/-- A handle writes block 5 and is dropped, and its transaction is sealed, copied and committed. -/
theorem exactly_one_commit :
    ∃ (s : System) (img : TxImage) (page : Page), Reaches (fun s ↦ s.step 16) AtomicSafe
        (mounted 1 0 (fun _ ↦ []) 1 0 fun _ ↦ Page.zero) s ∧
      s.journal.history = [img] ∧ img.blocks = [(5, page)] ∧
      ∃ v, page = s.cache.content 5 v ∧ Exactly s img.seq 5 v := by
  have h : Reaches (fun s : System ↦ s.step 16) AtomicSafe
    (mounted 1 0 (fun _ ↦ []) 1 0 fun _ ↦ Page.zero) _ := .refl
  have h := h.tail (a := .begin) (by exact ⟨trivial, trivial⟩) rfl
  have h := h.tail (a := .writePage 0 5 Page.zero)
    (by exact ⟨trivial, fun tx htx ↦ htx.elim (fun h ↦ nomatch h) fun h ↦ nomatch h⟩) rfl
  have h := h.play [.publish 0, .drop 0, .track 0]
    (fun _ _ h ↦ by fin_cases h <;> exact ⟨trivial, trivial⟩) rfl
  have h := h.tail (a := .journal .sealActive) (by
    refine ⟨trivial, fun b id p hid hp ↦ ?_⟩
    change ((∅ : ExtTreeMap UInt64 ℕ).insert 5 0)[b]? = some id at hid
    rw [ExtTreeMap.getElem?_insert] at hid
    split_ifs at hid with hb
    · obtain rfl := LawfulEqCmp.eq_of_compare hb
      cases hid
      cases hp
      refine ⟨rfl, fun w hw ↦ ?_⟩
      cases mem_singleton.mp hw
      exact ⟨_, 1, [], rfl, rfl⟩
    · exact absurd (ExtTreeMap.getElem?_empty.symm.trans hid) nofun) rfl
  have h := h.play [.journal .pop, .copyPage 5, .capture]
    (fun _ _ h ↦ by fin_cases h <;> exact ⟨trivial, trivial⟩) rfl
  have h := h.tail (a := .journal .checkSpace) (by exact ⟨trivial, trivial⟩)
    (step_checkSpace (.fits rfl (by decide) (by decide)))
  have h := h.play [.journal (.ringWrite 0), .journal (.ringWrite 1), .journal (.drained true),
    .journal (.flushed true), .journal (.commitWritten true true), .journal .record]
    (fun _ _ h ↦ by fin_cases h <;> exact ⟨trivial, trivial⟩) rfl
  exact ⟨_, _, _, h, rfl, rfl, exactly_of_reaches (by decide) h (.inr mem_cons_self) mem_cons_self⟩

/-- **An open handle's write gets into the ring.** Transaction 1 is sealed with block 5 in it;
before the committer copies the page, a second handle writes the block and stays open. The copy is
the second handle's write. -/
theorem copies_open_write :
    ∃ (s : System) (img : TxImage) (page : Page), Reaches (fun s ↦ s.step 16) (fun _ _ ↦ True)
        (mounted 1 0 (fun _ ↦ []) 1 0 fun _ ↦ Page.zero) s ∧
      s.journal.history = [img] ∧ img.seq = 1 ∧ img.blocks = [(5, page)] ∧
      page.bytes = replicate 4096 7 ∧ s.cache.writes 5 = [⟨0, Page.zero⟩, ⟨1, page⟩] ∧
      s.handles[1]?.map Handle.phase = some .active ∧
      ¬∃ v, page = s.cache.content 5 v ∧ Exactly s img.seq 5 v := by
  have h : Reaches (fun s : System ↦ s.step 16) (fun _ _ ↦ True)
    (mounted 1 0 (fun _ ↦ []) 1 0 fun _ ↦ Page.zero) _ := .refl
  have h := h.play [.begin, .writePage 0 5 Page.zero, .publish 0, .drop 0, .track 0, .begin,
    .journal .sealActive, .journal .pop,
    .writePage 1 5 ⟨replicate 4096 7, length_replicate⟩, .copyPage 5, .capture]
    (fun _ _ _ ↦ trivial) rfl
  have h := h.tail (a := .journal .checkSpace) trivial
    (step_checkSpace (.fits rfl (by decide) (by decide)))
  have h := h.play [.journal (.ringWrite 0), .journal (.ringWrite 1), .journal (.drained true),
    .journal (.flushed true), .journal (.commitWritten true true), .journal .record]
    (fun _ _ _ ↦ trivial) rfl
  refine ⟨_, _, _, h, rfl, rfl, rfl, rfl, rfl, rfl, ?_⟩
  rintro ⟨v, hpage, -, hiff⟩
  have hpos : 0 < v := (hiff 0 _ rfl).mpr ⟨_, 1, [], rfl, rfl, Nat.le_refl 1⟩
  have hle : v ≤ 1 := by
    refine Nat.le_of_not_lt fun hlt ↦ ?_
    obtain ⟨hd, q, todo, hi, hphase, -⟩ := (hiff 1 _ rfl).mp hlt
    cases hi
    cases hphase
  obtain rfl : v = 1 := Nat.le_antisymm hle hpos
  have hhead : some (7 : UInt8) = some 0 := congrArg (fun page : Page ↦ page.bytes.head?) hpage
  exact absurd hhead (by decide)

end Edos.System

import Edos.Journal.Copies

/-!
# Retiring committed transactions

A committed transaction may be taken off the ring once nothing of it is needed for recovery: each
block it journalled is at home in a version at least as new as its copy, or a later transaction that
is still in the ring has the block too. `advance_tail` decides this by the tracker: it retires what
is below the least entry.

## Where the tracker is not enough

There is one entry per block, that of the last transaction that enrolled it. When a block of a
committed transaction is enrolled again before it has been brought home, the entry moves on to the
open transaction, and nothing holds the committed one back although its copy is the only one in the
ring (`retires_reenrolled`). Besides, a handle enters its blocks some time after it has been merged,
so that a bound read in between does not see them; and the copy of a page may have writes that its
transaction does not account for.

`RetireSafe` rules these out, on top of the races of `CacheSafe`. Under it, a retired transaction is
not needed.
-/

namespace Edos.System

open Function List Std

variable {s s' : System} {ringSize : ℕ} {a : Action}

/-- A step after which retired transactions are not needed: a copied page has only writes that were
merged with its transaction or before, the bound is read when only handles of the open transaction
are yet to be tracked, and no block of a committed transaction older than every entry of the tracker
is tracked under a transaction that has not been committed. -/
def RetireSafe (s : System) (a : Action) : Prop :=
  CacheSafe s a ∧ match a with
    | .copyPage b => ∀ tx id p, s.journal.committer = .popped tx →
        tx.enrolledBlocks[b]? = some id → s.cache.pages[id]? = some p →
        ∀ k w, k < p.version → (s.cache.writes b)[k]? = some w →
          ∃ h q todo, s.handles[w.handle]? = some h ∧ h.phase = .merged q todo ∧ q ≤ tx.seq
    | .readBound _ => ∀ h ∈ s.handles, ∀ q todo, h.phase = .merged q todo → todo ≠ [] →
        q = s.journal.state.active.seq
    | .sweep _ _ => ∀ e ∈ s.journal.state.committedPending,
        (∀ (b : UInt64) (q : ℕ), s.tracker[b]? = some q → e.1 < q) →
        ∀ img ∈ s.journal.history, img.seq = e.1 → ∀ b page, (b, page) ∈ img.blocks →
        ∀ q, s.tracker[b]? = some q → s.journal.Recorded q
    | _ => True

/-- Everything in this version of the block was merged by the given transaction. -/
def MergedBy (s : System) (q : ℕ) (b : UInt64) (v : ℕ) : Prop :=
  v ≤ (s.cache.writes b).length ∧ ∀ k w, k < v → (s.cache.writes b)[k]? = some w →
    ∃ h q' todo, s.handles[w.handle]? = some h ∧ h.phase = .merged q' todo ∧ q' ≤ q

/-- What a writeback pass may report: past the gate its entry is committed, and once it has written
the page, what was merged up to the entry is at home. -/
def Reported (s : System) : Flush → Prop
  | .batched _ entry => ∀ q, entry = some q → q ≤ s.journal.state.committedSeq
  | .written id entry => ∀ q, entry = some q → q ≤ s.journal.state.committedSeq ∧
      ∃ p, s.cache.pages[id]? = some p ∧ ∀ {k q' : ℕ} {w : BlockWrite} {h : Handle}
        {todo : List (UInt64 × ℕ)}, (s.cache.writes p.block)[k]? = some w →
        s.handles[w.handle]? = some h → h.phase = .merged q' todo → q' ≤ q →
          k < s.cache.home p.block
  | _ => True

/-- What a bound stands for, from the time it is read. -/
def Bounds (s : System) : Sweeper → Prop
  | .committed c => c ≤ s.journal.state.committedSeq
  | .bounded m => m ≤ s.journal.state.active.seq ∧
    (∀ (b : UInt64) (q : ℕ), s.tracker[b]? = some q → m ≤ q) ∧
      ∀ {i q : ℕ} {h : Handle} {todo : List (UInt64 × ℕ)}, s.handles[i]? = some h →
        h.phase = .merged q todo → todo ≠ [] → m ≤ q
  | _ => True

/-- The invariant behind retiring. -/
structure RetireInv (s : System) : Prop where
  handles : ListedInv s
  order : s.journal.InOrder
  pending : ∀ e ∈ s.journal.state.committedPending, s.journal.Recorded e.1
  enrolled : Enrolled s
  tracked : ∀ ⦃b q⦄, s.tracker[b]? = some q → s.journal.Enrols q b ∧ s.journal.Retained q
  untracked : ∀ ⦃i q : ℕ⦄ ⦃h : Handle⦄ ⦃todo : List (UInt64 × ℕ)⦄, s.handles[i]? = some h →
    h.phase = .merged q todo → todo ≠ [] → s.journal.Retained q
  covered : Covered (fun b k _ ↦ k < s.cache.home b) s
  flushes : ∀ f ∈ s.flushes, Reported s f
  sweepers : ∀ w ∈ s.sweepers, Bounds s w
  copies : CopiesInv (MergedBy s) s

variable {q : ℕ} {b : UInt64}

namespace RetireInv

theorem pending_step (hinv : RetireInv s) (hstep : Takes s ringSize a s') :
    ∀ e ∈ s'.journal.state.committedPending, s'.journal.Recorded e.1 := by
  rcases hstep.journal_step with heq | ⟨a', hj, -⟩
  · rw [heq]
    exact hinv.pending
  · exact Journal.pending_recorded_step hinv.pending hj

/-- A transaction at or above every bound in use is not retired by a step. -/
theorem retained_step (hstep : Takes s ringSize a s') (h : s.journal.Retained q)
    (hmin : ∀ n min : ℕ, s.sweepers[n]? = some (.bounded min) → min ≤ q) :
    s'.journal.Retained q := by
  rcases hstep.journal_step with heq | ⟨a', hj, -, hsweep, -⟩
  · rw [heq]
    exact h
  · refine h.step hj fun min hmin' ↦ ?_
    obtain ⟨n, own, -, hn⟩ := hsweep min hmin'
    exact hmin n min hn

theorem tracked_step (hinv : RetireInv s) (hstep : Takes s ringSize a s')
    (hb : s'.tracker[b]? = some q) : s'.journal.Enrols q b ∧ s'.journal.Retained q := by
  rcases hstep.tracker hb with hb | ⟨i, h, id, todo, -, hi, hphase⟩
  · obtain ⟨he, hr⟩ := hinv.tracked hb
    refine ⟨hstep.enrols hinv.order he, retained_step hstep hr fun n min hn ↦ ?_⟩
    exact (hinv.sweepers _ (mem_of_getElem? hn)).2.1 b q hb
  · have htarget := (hinv.handles.each_getElem hi).todo hphase mem_cons_self
    refine ⟨hstep.enrols hinv.order (hinv.enrolled hi hphase htarget),
      retained_step hstep (hinv.untracked hi hphase nofun) fun n min hn ↦ ?_⟩
    exact (hinv.sweepers _ (mem_of_getElem? hn)).2.2 hi hphase nofun

variable {todo : List (UInt64 × ℕ)}

theorem ne_nil_of_merged {i : ℕ} {todo' : List (UInt64 × ℕ)}
    (htodo : todo' = todo ∨ ∃ e, a = .track i ∧ todo = e :: todo') (hne : todo' ≠ []) :
    todo ≠ [] := by
  rcases htodo with rfl | ⟨e, -, rfl⟩
  · exact hne
  · exact nofun

section

variable (hinv : RetireInv s)

include hinv

theorem untracked_step (hstep : Takes s ringSize a s') {i : ℕ} {h : Handle}
    (hi : s'.handles[i]? = some h) (hphase : h.phase = .merged q todo)
    (hne : todo ≠ []) : s'.journal.Retained q := by
  rcases hstep.merged hi hphase with
    ⟨h₀, todo₀, hi₀, hphase₀, htodo, -⟩ | ⟨h₀, -, -, -, rfl, -, -, -, hjournal⟩
  · have hne₀ := ne_nil_of_merged htodo hne
    refine retained_step hstep (hinv.untracked hi₀ hphase₀ hne₀) fun n min hn ↦ ?_
    exact (hinv.sweepers _ (mem_of_getElem? hn)).2.2 hi₀ hphase₀ hne₀
  · -- nothing in the history has the number of the open transaction
    rintro ⟨img, himg, hq⟩
    rw [hjournal] at himg
    exact absurd hq (hinv.order.history_lt himg).ne

theorem covered_step (hsafe : RetireSafe s a) (hstep : Takes s ringSize a s') :
    Covered (fun b k _ ↦ k < s'.cache.home b) s' := by
  have hg := (hstep.cache hsafe.1.cached).grows hinv.handles.cache
  refine hinv.covered.step hinv.handles hsafe.1 hstep (fun hlt ↦ hlt.trans_le (hg.home _))
    (fun _ _ _ hlt ↦ hlt.trans_le (hg.home _)) ?_
  intro n id q' p k w h q _ hn hp hk hi hs hle
  obtain ⟨todo, hphase⟩ := hs.merged
  obtain ⟨-, p', hp', hhome⟩ := hinv.flushes _ (mem_of_getElem? hn) q' rfl
  obtain rfl := Option.some.inj (hp.symm.trans hp')
  exact (hhome hk hi hphase hle).trans_le (hg.home _)

/-- What a pass has brought home stays there, and a handle merged later is above its entry. -/
theorem reported_mono (hsafe : RetireSafe s a) (hstep : Takes s ringSize a s') {f : Flush}
    (hf : f ∈ s.flushes) : Reported s' f := by
  have hold := hinv.flushes f hf
  have hadv := hstep.advances hinv.order
  have hg := (hstep.cache hsafe.1.cached).grows hinv.handles.cache
  cases f with
  | batched id entry => exact fun q hq ↦ (hold q hq).trans hadv.committed
  | written id entry =>
    intro q hq
    obtain ⟨hle, p, hp, hhome⟩ := hold q hq
    obtain ⟨p', hp', hb, -⟩ := hg.pages hp
    refine ⟨hle.trans hadv.committed, p', hp', fun {k q' w h todo} hk hi hphase hq' ↦ ?_⟩
    rw [hb] at hk ⊢
    rcases hstep.merged hi hphase with ⟨h₀, todo₀, hi₀, hphase₀, -⟩ | ⟨-, -, -, -, rfl, -⟩
    · rcases hstep.writes hsafe.1.cached hk with hk | ⟨i, data, hd, rfl, rfl, -, hd₀, hready⟩
      · exact (hhome hk hi₀ hphase₀ hq').trans_le (hg.home _)
      · obtain rfl := Option.some.inj (hi₀.symm.trans hd₀)
        exact absurd ((Handle.of_ready hready).1.symm.trans hphase₀) nofun
    · exact absurd hinv.order.lt_active (Nat.not_lt.mpr (hq'.trans hle))
  | _ => trivial

theorem flushes_step (hsafe : RetireSafe s a) (hstep : Takes s ringSize a s') :
    ∀ f ∈ s'.flushes, Reported s' f := by
  intro f hf
  rcases hstep.flushes hf with hf | hnew
  · exact hinv.reported_mono hsafe hstep hf
  cases f with
  | batched id entry =>
    obtain ⟨-, hjournal, -, -, hgate⟩ := hnew
    rwa [Reported, hjournal]
  | written id entry =>
    obtain ⟨p, hbatched, hp, hdirty, hcache, hjournal⟩ := hnew
    rw [Reported, hjournal, hcache]
    refine fun q hq ↦ ⟨hinv.flushes _ hbatched q hq, _, getElem?_set_self hp, ?_⟩
    -- a dirty page has the last write of its block
    intro k q' w h todo hk _ _ _
    change k < update s.cache.home p.block p.version p.block
    rw [update_self, (hinv.handles.cache.dirty hp hdirty).2]
    exact (List.getElem?_eq_some_iff.mp hk).1
  | _ => trivial

/-- The bound that `advance_tail` reads, when no handle is yet to be tracked but those of the open
transaction. -/
theorem bounds_bound {c : ℕ} (hc : c ≤ s.journal.state.committedSeq)
    (hopen : ∀ h ∈ s.handles, ∀ q todo, h.phase = .merged q todo → todo ≠ [] →
      q = s.journal.state.active.seq) : Bounds s (.bounded (s.bound c)) := by
  have hle : s.bound c ≤ s.journal.state.active.seq ∧
      ∀ (b : UInt64) (q : ℕ), s.tracker[b]? = some q → s.bound c ≤ q := by
    have hmem {b : UInt64} {q : ℕ} (hb : s.tracker[b]? = some q) :
        q ∈ s.tracker.toList.map Prod.snd :=
      mem_map.mpr ⟨(b, q), ExtTreeMap.mem_toList_iff_getElem?_eq_some.mpr hb, rfl⟩
    rw [bound]
    cases hmin : (s.tracker.toList.map Prod.snd).min? with
    | none =>
      rw [min?_eq_none_iff] at hmin
      refine ⟨(min_le_left _ _).trans (Nat.succ_le_of_lt (hc.trans_lt hinv.order.lt_active)), ?_⟩
      intro b q hb
      exact absurd (hmin ▸ hmem hb) not_mem_nil
    | some m =>
      obtain ⟨hm, hall⟩ := min?_eq_some_iff.mp hmin
      obtain ⟨⟨b, _⟩, hb, rfl⟩ := mem_map.mp hm
      refine ⟨(hinv.tracked (ExtTreeMap.mem_toList_iff_getElem?_eq_some.mp hb)).1.le, ?_⟩
      exact fun b q hb ↦ hall q (hmem hb)
  refine ⟨hle.1, hle.2, fun hi hphase hne ↦ ?_⟩
  rw [hopen _ (mem_of_getElem? hi) _ _ hphase hne]
  exact hle.1

theorem sweepers_step (hsafe : RetireSafe s a) (hstep : Takes s ringSize a s') :
    ∀ w ∈ s'.sweepers, Bounds s' w := by
  have hadv := hstep.advances hinv.order
  intro w hw
  rcases hstep.sweepers hw with hold | hnew
  · have hold := hinv.sweepers w hold
    cases w with
    | committed c => exact Nat.le_trans hold hadv.committed
    | bounded m =>
      obtain ⟨hactive, htracked, huntracked⟩ := hold
      refine ⟨hactive.trans hadv.active, fun b q hb ↦ ?_, fun {i q h todo} hi hphase hne ↦ ?_⟩
      · rcases hstep.tracker hb with hb | ⟨i, h, id, todo, -, hi, hphase⟩
        · exact htracked b q hb
        · exact huntracked hi hphase nofun
      · rcases hstep.merged hi hphase with ⟨h₀, todo₀, hi₀, hphase₀, htodo, -⟩ |
          ⟨-, -, -, -, rfl, -⟩
        · exact huntracked hi₀ hphase₀ (ne_nil_of_merged htodo hne)
        · exact hactive
    | _ => trivial
  · cases w with
    | committed c =>
      obtain rfl : c = s.journal.state.committedSeq := hnew
      exact hadv.committed
    | bounded m =>
      obtain ⟨n, c, rfl, hc, rfl⟩ := hnew
      have hbound := hinv.bounds_bound (hinv.sweepers _ hc) hsafe.2
      cases hstep
      exact hbound
    | _ => trivial

end

end RetireInv

theorem MergedBy.mono {v : ℕ} (h : MergedBy s q b v) (hinv : HandlesInv s) (hcached : Cached a)
    (hstep : Takes s ringSize a s') : MergedBy s' q b v := by
  obtain ⟨hle, hall⟩ := h
  have hg := (hstep.cache hcached).grows hinv.cache
  refine ⟨hle.trans (hg.writes b).length_le, fun k w hlt hk ↦ ?_⟩
  rw [hg.getElem?_writes (hlt.trans_le hle)] at hk
  obtain ⟨h, q', todo, hi, hphase, hq'⟩ := hall k w hlt hk
  obtain ⟨h', hi', hev⟩ := hstep.handles hi
  obtain ⟨todo', hphase', -⟩ := hev q' todo hphase
  exact ⟨h', q', todo', hi', hphase', hq'⟩

namespace RetireInv

/-- **Step.** -/
theorem step (hinv : RetireInv s) (hsafe : RetireSafe s a) (hstep : Takes s ringSize a s') :
    RetireInv s' where
  handles := hinv.handles.step hsafe.1 hstep
  order := hstep.inOrder hinv.order
  pending := hinv.pending_step hstep
  enrolled := hinv.enrolled.step hinv.handles.toHandlesInv hinv.order hstep
  tracked _ _ := hinv.tracked_step hstep
  untracked _ _ _ _ := hinv.untracked_step hstep
  covered := hinv.covered_step hsafe hstep
  flushes := hinv.flushes_step hsafe hstep
  sweepers := hinv.sweepers_step hsafe hstep
  copies := by
    refine hinv.copies.step hinv.handles.toHandlesInv hinv.order hsafe.1.cached hstep (fun h ↦ h.1)
      (fun h ↦ h.mono hinv.handles.toHandlesInv hsafe.1.cached hstep) ?_
    rintro tx _ id p rfl hc hid hp rfl
    exact ⟨hinv.handles.cache.version_le hp, hsafe.2 tx id p hc hid hp⟩

end RetireInv

theorem retireInv_mounted {seq : ℕ} (hseq : 0 < seq) (block : ℕ) (ring : ℕ → List UInt8)
    (headSeq headBlock : ℕ) (initial : UInt64 → Page) :
    RetireInv (mounted seq block ring headSeq headBlock initial) where
  handles := listedInv_mounted ..
  order := Journal.inOrder_mounted hseq ..
  pending _ h := nomatch h
  enrolled _ _ _ _ _ _ h := nomatch h
  tracked _ _ h := absurd (ExtTreeMap.getElem?_empty.symm.trans h) nofun
  untracked _ _ _ _ h := nomatch h
  covered _ _ _ _ _ h := nomatch h
  flushes _ h := nomatch h
  sweepers _ h := nomatch h
  copies := copiesInv_mounted ..

/-- The given version of the block, as copied by a transaction, is not needed for recovery: the home
location is at least as new, or a later committed transaction that has not been retired has the
block. -/
def NotNeeded (s : System) (q : ℕ) (b : UInt64) (v : ℕ) : Prop :=
  v ≤ s.cache.home b ∨ ∃ (q' n : ℕ) (img : TxImage) (page : Page), q < q' ∧
    (q', n) ∈ s.journal.state.committedPending ∧ img ∈ s.journal.history ∧ img.seq = q' ∧
    (b, page) ∈ img.blocks

/-- A block that is not tracked, and that only handles at work on newer transactions are yet to
track, is at home. -/
theorem RetireInv.le_home (hinv : RetireInv s) {min v : ℕ} (hbounds : Bounds s (.bounded min))
    (hq : q < min) (hv : MergedBy s q b v) (hb : s.tracker[b]? = none) : v ≤ s.cache.home b := by
  refine Nat.le_of_not_lt fun hlt ↦ ?_
  have hk := getElem?_eq_getElem (hlt.trans_le hv.1)
  obtain ⟨h, q', todo, hi, hphase, hle⟩ := hv.2 _ _ hlt hk
  have htodo : todo = [] := by
    by_contra hne
    exact absurd (hbounds.2.2 hi hphase hne) (Nat.not_le.mpr (hle.trans_lt hq))
  subst htodo
  rcases hinv.covered hk hi ⟨[], hphase, nofun⟩ with hhome | ⟨q'', hq'', -⟩
  · exact lt_irrefl _ hhome
  · rw [hb] at hq''
    cases hq''

/-- **Retiring.** In a run whose steps are safe, from a mount at any sequence number but 0, a
committed transaction that a step retires is not needed: its image is in the ring's history, and
none of the copies in it is. -/
theorem notNeeded_of_retired {seq block headSeq headBlock : ℕ} {ring : ℕ → List UInt8}
    {initial : UInt64 → Page} (hseq : 0 < seq)
    (h : Reaches (fun s ↦ s.step ringSize) RetireSafe
      (mounted seq block ring headSeq headBlock initial) s)
    (hsafe : RetireSafe s a) (hstep : s.step ringSize a = some s') {q n : ℕ}
    (hmem : (q, n) ∈ s.journal.state.committedPending)
    (hgone : (q, n) ∉ s'.journal.state.committedPending) :
    (∃ img ∈ s.journal.history, img.seq = q) ∧ ∀ img ∈ s.journal.history, img.seq = q →
      ∀ b page, (b, page) ∈ img.blocks →
        ∃ v, s.copies q b = some v ∧ page = s.cache.content b v ∧ NotNeeded s' q b v := by
  have hinv : RetireInv s := h.invariant (retireInv_mounted hseq ..)
    fun _ _ _ hinv hsafe hstep ↦ hinv.step hsafe (takes_of_step hstep)
  have hstep := takes_of_step hstep
  refine ⟨hinv.pending _ hmem, ?_⟩
  rintro img himg rfl b page hb
  obtain ⟨v, hv, hpage⟩ := hinv.copies.images (.inr himg) b page hb
  refine ⟨v, hv, hpage, ?_⟩
  -- only a sweep retires
  obtain ⟨min, n', own, rfl, hn', hpending, hhistory⟩ := hstep.retires hmem hgone
  have hbounds := hinv.sweepers _ (mem_of_getElem? hn')
  obtain ⟨-, hkeep⟩ := Journal.sweep_pending s.journal.state min
  have hlt : img.seq < min := (hkeep _ hmem).resolve_left (hpending ▸ hgone)
  cases htracked : s.tracker[b]? with
  | none =>
    have hg := (hstep.cache hsafe.1.cached).grows hinv.handles.cache
    exact .inl ((hinv.le_home hbounds hlt (hinv.copies.copies hv) htracked).trans (hg.home b))
  | some q' =>
    obtain ⟨henrols, hretained⟩ := hinv.tracked htracked
    have hmin : min ≤ q' := hbounds.2.1 b q' htracked
    have hrec : s.journal.Recorded q' := hsafe.2 _ hmem
      (fun b' q'' hb' ↦ hlt.trans_le (hbounds.2.1 b' q'' hb')) img himg rfl b page hb q' htracked
    obtain ⟨m, hm⟩ := hretained hrec
    obtain ⟨img', himg', hq'⟩ := hrec
    obtain ⟨page', hpage'⟩ := henrols.history img' himg' hq'
    refine .inr ⟨q', m, img', page', hlt.trans_le hmin, ?_, hhistory ▸ himg', hq', hpage'⟩
    rw [hpending]
    exact (hkeep _ hm).resolve_right (Nat.not_lt.mpr hmin)

/-- A transaction with block 5 is committed, writeback brings the block home and reports it, and the
next `advance_tail` retires the transaction. -/
theorem notNeeded_one_commit :
    ∃ s s' : System, Reaches (fun s ↦ s.step 16) RetireSafe
        (mounted 1 0 (fun _ ↦ []) 1 0 fun _ ↦ Page.zero) s ∧ RetireSafe s (.sweep 0 false) ∧
      s.step 16 (.sweep 0 false) = some s' ∧ s.journal.state.committedPending = [(1, 3)] ∧
      s'.journal.state.committedPending = [] ∧ (∃ img ∈ s.journal.history, img.seq = 1) ∧
      ∀ img ∈ s.journal.history, img.seq = 1 → ∀ b page, (b, page) ∈ img.blocks →
        ∃ v, s.copies 1 b = some v ∧ page = s.cache.content b v ∧ NotNeeded s' 1 b v := by
  have h : Reaches (fun s : System ↦ s.step 16) RetireSafe
    (mounted 1 0 (fun _ ↦ []) 1 0 fun _ ↦ Page.zero) _ := .refl
  have h := h.play [.begin, .writePage 0 5 Page.zero, .publish 0, .drop 0]
    (fun _ _ h ↦ by fin_cases h <;> exact ⟨trivial, trivial⟩) rfl
  have h := h.tail (a := .track 0) (by exact ⟨fun _ _ b _ _ _ _ _ q hq ↦ (nomatch hq), trivial⟩) rfl
  have h := h.play [.journal .sealActive, .journal .pop]
    (fun _ _ h ↦ by fin_cases h <;> exact ⟨trivial, trivial⟩) rfl
  have h := h.tail (a := .copyPage 5) (by
    refine ⟨trivial, fun tx id p hc _ _ k w _ hk ↦ ?_⟩
    cases hc
    cases k <;> cases hk
    exact ⟨_, 1, [], rfl, rfl, Nat.le_refl 1⟩) rfl
  have h := h.tail (a := .capture) (by exact ⟨trivial, trivial⟩) rfl
  have h := h.tail (a := .journal .checkSpace) (by exact ⟨trivial, trivial⟩)
    (step_checkSpace (.fits rfl (by decide) (by decide)))
  have h := h.play [.journal (.ringWrite 0), .journal (.ringWrite 1), .journal (.drained true),
    .journal (.flushed true), .journal (.commitWritten true true), .journal .record, .flushStart 5,
    .flushLookup 0, .flushRead 0, .flushGate 0 true, .flushWrite 0 true true, .flushNote 0,
    .advanceStart] (fun _ _ h ↦ by fin_cases h <;> exact ⟨trivial, trivial⟩) rfl
  have h := h.tail (a := .prune 0) (by
    refine ⟨fun atHome hn b hb ↦ ?_, trivial⟩
    cases hn
    cases hb) rfl
  have h := h.tail (a := .readCommitted 0) (by exact ⟨trivial, trivial⟩) rfl
  have h := h.tail (a := .readBound 0) (by
    refine ⟨trivial, fun hd hmem q todo hphase hne ↦ ?_⟩
    have hd₀ : hd = _ := mem_singleton.mp hmem
    have hdone : hd.phase = .merged 1 [] := by
      rw [hd₀]
      rfl
    rw [hdone] at hphase
    exact absurd (Phase.merged.inj hphase).2.symm hne) rfl
  -- the report has left the tracker empty
  have hsweep : ∀ {s : System}, s.tracker = ∅ → RetireSafe s (.sweep 0 false) := by
    refine fun hempty ↦ ⟨trivial, fun _ _ _ _ _ _ b _ _ q hq ↦ ?_⟩
    rw [hempty] at hq
    exact absurd (ExtTreeMap.getElem?_empty.symm.trans hq) nofun
  exact ⟨_, _, h, hsweep rfl, rfl, rfl, rfl,
    notNeeded_of_retired (n := 3) (by decide) h (hsweep rfl)
    rfl (by decide) (by decide)⟩

/-- **A transaction is retired that is still needed.** Block 5 is committed in transaction 1 and not
brought home; a second handle writes it and is dropped, and its entry in the open transaction 2
takes the place of the first. The next `advance_tail` retires transaction 1, and the only copy of
the block that is left is the one at the mount. -/
theorem retires_reenrolled :
    ∃ s s' : System, Reaches (fun s ↦ s.step 16) (fun _ _ ↦ True)
        (mounted 1 0 (fun _ ↦ []) 1 0 fun _ ↦ Page.zero) s ∧
      s.step 16 (.sweep 0 false) = some s' ∧ s.journal.state.committedPending = [(1, 3)] ∧
      s'.journal.state.committedPending = [] ∧ s.copies 1 5 = some 1 ∧ s'.cache.home 5 = 0 ∧
      s.tracker[(5 : UInt64)]? = some 2 ∧ ¬NotNeeded s' 1 5 1 := by
  have h : Reaches (fun s : System ↦ s.step 16) (fun _ _ ↦ True)
    (mounted 1 0 (fun _ ↦ []) 1 0 fun _ ↦ Page.zero) _ := .refl
  have h := h.play [.begin, .writePage 0 5 Page.zero, .publish 0, .drop 0, .track 0,
    .journal .sealActive, .journal .pop, .copyPage 5, .capture] (fun _ _ _ ↦ trivial) rfl
  have h := h.tail (a := .journal .checkSpace) trivial
    (step_checkSpace (.fits rfl (by decide) (by decide)))
  have h := h.play [.journal (.ringWrite 0), .journal (.ringWrite 1), .journal (.drained true),
    .journal (.flushed true), .journal (.commitWritten true true), .journal .record, .begin,
    .writePage 1 5 Page.zero, .publish 1, .drop 1, .track 1, .advanceStart, .query 0, .prune 0,
    .readCommitted 0, .readBound 0] (fun _ _ _ ↦ trivial) rfl
  refine ⟨_, _, h, rfl, rfl, rfl, rfl, rfl, rfl, ?_⟩
  rintro (hhome | ⟨q', n, img, page, -, hpending, -⟩)
  · exact absurd hhome (by decide)
  · exact absurd hpending not_mem_nil

end Edos.System

import Edos.Journal.Tracking

/-!
# The copies in the ring

A commit does not take the contents of its blocks when the transaction is sealed, but later and page
by page, from the pages that the cache and all open handles go on using. `CopiesInv` connects the
three places where such a copy is: with the committer while it is copying, in the image of the
transaction, and in the history of the ring. It says that a property of the copies (of the version
of a block that went into a transaction) passes from one to the next, whatever the property is; what
has to be shown of it is that it holds when a page is copied, and that no step destroys it.
-/

namespace Edos.System

open Function Option Std

variable {s s' : System} {ringSize : ℕ} {a : Action}

/-- The page of every enrolled block is one of its pages. -/
def PagesOf (c : BlockPageCache) (tx : Transaction ℕ) : Prop :=
  ∀ b id, tx.enrolledBlocks[b]? = some id →
    ∃ p : CachedBlockPage, c.pages[id]? = some p ∧ p.block = b

theorem PagesOf.mono {c c' : BlockPageCache} {tx : Transaction ℕ} (h : PagesOf c tx)
    (hg : c.Grows c') : PagesOf c' tx := by
  intro b id hid
  obtain ⟨p, hp, rfl⟩ := h b id hid
  obtain ⟨p', hp', hb, -⟩ := hg.pages hp
  exact ⟨p', hp', hb⟩

theorem Takes.pagesOf (hstep : Takes s ringSize a s')
    (h : s.journal.AllTx (PagesOf s.cache) (PagesOf s.cache)) (hinv : HandlesInv s)
    (hcached : Cached a) : s'.journal.AllTx (PagesOf s'.cache) (PagesOf s'.cache) := by
  have hg := (hstep.cache hcached).grows hinv.cache
  have hold : s.journal.AllTx (PagesOf s'.cache) (PagesOf s'.cache) :=
    ⟨h.active.mono hg, fun tx htx ↦ (h.sealed tx htx).mono hg, fun tx htx ↦ (h.held tx htx).mono hg⟩
  rcases hstep.journal_step with heq | ⟨a', hj, -, -, hmerge⟩
  · rw [heq]
    exact hold
  refine hold.step (fun b id hid ↦ ?_) (fun blocks revokes ha' b id hid ↦ ?_)
    (fun _ _ ↦ hold.active) hj
  · exact absurd (ExtTreeMap.getElem?_empty.symm.trans hid) nofun
  · obtain ⟨i, hd, hi, hready, rfl⟩ := hmerge blocks revokes ha'
    rw [Transaction.getElem?_merge] at hid
    rcases or_eq_some_iff.mp hid with hid | ⟨-, hid⟩
    · refine ((hinv.each_getElem hi).mono hg).target ?_
      rwa [Handle.target_of_idle (Handle.of_ready hready).2]
    · exact hold.active b id hid

/-- Every copy of a block for a transaction has the property, and the images of transactions are
made of such copies. -/
structure CopiesInv (M : ℕ → UInt64 → ℕ → Prop) (s : System) : Prop where
  pages : s.journal.AllTx (PagesOf s.cache) (PagesOf s.cache)
  copied : ∀ ⦃tx b v⦄, s.journal.committer = .popped tx → s.copied b = some v → M tx.seq b v
  copies : ∀ ⦃q b v⦄, s.copies q b = some v → M q b v
  images : ∀ ⦃img⦄, s.journal.committer.image = some img ∨ img ∈ s.journal.history →
    ∀ b page, (b, page) ∈ img.blocks → ∃ v, s.copies img.seq b = some v ∧ page = s.cache.content b v

namespace CopiesInv

variable {M M' : ℕ → UInt64 → ℕ → Prop}

/-- The copies of a transaction that has an image are not made again. -/
theorem copies_of_image (hord : s.journal.InOrder) (hstep : Takes s ringSize a s') {img : TxImage}
    (himg : s.journal.committer.image = some img ∨ img ∈ s.journal.history) :
    s'.copies img.seq = s.copies img.seq := by
  cases hstep with
  | @capture tx j hc =>
    refine update_of_ne ?_ _ _
    rcases himg with himg | himg
    · rw [hc] at himg
      cases himg
    · refine ((hord.history img himg).trans_lt (hord.waiting_lt ?_).1).ne
      rw [Journal.waiting, hc]
      exact List.mem_cons_self
  | _ => rfl

theorem images_step (h : CopiesInv M s) (hinv : HandlesInv s) (hord : s.journal.InOrder)
    (hcached : Cached a) (hstep : Takes s ringSize a s')
    (hle : ∀ {q b v}, M q b v → v ≤ (s.cache.writes b).length) {img : TxImage}
    (himg : s'.journal.committer.image = some img ∨ img ∈ s'.journal.history) (b : UInt64)
    (page : Page) (hb : (b, page) ∈ img.blocks) :
    ∃ v, s'.copies img.seq b = some v ∧ page = s'.cache.content b v := by
  have hg := (hstep.cache hcached).grows hinv.cache
  rcases hstep.image himg with himg | ⟨tx, hc, hall, rfl, hcopies, hcache⟩
  · obtain ⟨v, hv, hpage⟩ := h.images himg b page hb
    refine ⟨v, by rw [copies_of_image hord hstep himg, hv], ?_⟩
    rw [hpage, hg.content (hle (h.copies hv))]
  · obtain ⟨id, hid, rfl⟩ := Transaction.mem_capture_blocks.mp hb
    obtain ⟨p, hp, rfl⟩ := h.pages.held tx (by rw [hc]; rfl) b id hid
    obtain ⟨v, hv⟩ := isSome_iff_exists.mp (hall p.block
      (ExtTreeMap.isSome_getElem?_iff_mem.mp (by rw [hid]; rfl)))
    refine ⟨v, ?_, ?_⟩
    · rw [hcopies, Transaction.capture_seq, update_self, hv]
    · rw [copyOf, hp, hcache]
      dsimp only
      rw [hv]
      rfl

/-- **Step.** -/
theorem step (h : CopiesInv M s) (hinv : HandlesInv s) (hord : s.journal.InOrder)
    (hcached : Cached a) (hstep : Takes s ringSize a s')
    (hle : ∀ {q b v}, M q b v → v ≤ (s.cache.writes b).length)
    (hmono : ∀ {q b v}, M q b v → M' q b v)
    (hcopy : ∀ {tx b id p}, a = .copyPage b → s.journal.committer = .popped tx →
      tx.enrolledBlocks[b]? = some id → s.cache.pages[id]? = some p → p.block = b →
      M tx.seq b p.version) : CopiesInv M' s' where
  pages := hstep.pagesOf h.pages hinv hcached
  copied tx b v hc hb := by
    refine hmono ?_
    rcases hstep.copied hc hb with ⟨hc, hb⟩ | ⟨id, p, ha, hc, hid, hp, rfl⟩
    · exact h.copied hc hb
    · obtain ⟨p', hp', hblock⟩ := h.pages.held tx (by rw [hc]; rfl) b id hid
      obtain rfl := some.inj (hp.symm.trans hp')
      exact hcopy ha hc hid hp hblock
  copies q b v hb := by
    refine hmono ?_
    rcases hstep.copies hb with hb | ⟨tx, hc, rfl, hcopied⟩
    · exact h.copies hb
    · exact h.copied hc hcopied
  images _ := h.images_step hinv hord hcached hstep hle

end CopiesInv

theorem copiesInv_mounted (M : ℕ → UInt64 → ℕ → Prop) (seq block : ℕ) (ring : ℕ → List UInt8)
    (headSeq headBlock : ℕ) (initial : UInt64 → Page) :
    CopiesInv M (mounted seq block ring headSeq headBlock initial) where
  pages := by
    refine ⟨fun b id h ↦ ?_, fun _ h ↦ (nomatch h), fun _ h ↦ (nomatch h)⟩
    exact absurd (ExtTreeMap.getElem?_empty.symm.trans h) nofun
  copied _ _ _ h := nomatch h
  copies _ _ _ h := nomatch h
  images _ h := h.elim (fun h ↦ nomatch h) fun h ↦ nomatch h

end Edos.System

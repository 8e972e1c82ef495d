import Edos.Journal.System

/-!
# Open handles and the checkpoint tracker

The tracker keeps, for a block, the number of the last transaction that enrolled it. An entry is
made when a handle that has been merged finds the block's page dirty, and it goes away when
writeback reports that the page has been written, or when `advance_tail` finds that the block is not
listed as dirty. What an entry stands for is stated about the single writes of a block: once the
handle that made a write is done with the block (`Handle.Settled`), the write is out of the
tracker's hands for some reason `R`, or the block has an entry at least as new as the handle's
transaction (`Covered`). For the write-ahead rule the reason is that the transaction is committed,
for retiring transactions it is that the write is at home.

## When it holds

`CacheSafe` lists the races that would break this. A detached page is written through without regard
to the tracker. Two handles merged into successive transactions may update the tracker in the other
order, and the later update lowers the entry. Both `prune_checkpointed` and a writeback pass look at
the cache and act on what they saw later, when the block may have been written again.
-/

namespace Edos

open Function List Option Std

variable {id k : ℕ}

namespace BlockPageCache

variable {c c' : BlockPageCache}

/-- The given write of the block is in this page of it, or at home. -/
def Covers (c : BlockPageCache) (b : UInt64) (id k : ℕ) : Prop :=
  ∃ p, c.pages[id]? = some p ∧ p.block = b ∧ (k < p.version ∨ k < c.home b)

theorem Covers.mono {b : UInt64} (h : c.Covers b id k) (hg : Grows c c') : c'.Covers b id k := by
  obtain ⟨p, hp, rfl, hk⟩ := h
  obtain ⟨p', hp', hb, hle⟩ := hg.pages hp
  exact ⟨p', hp', hb, hk.imp (fun h ↦ h.trans_le hle) fun h ↦ h.trans_le (hg.home _)⟩

/-- A cached page has every write of its block that is not at home. -/
theorem Inv.covers_lru (h : c.Inv) {b : UInt64} (hid : c.lru b = some id)
    (hk : k < (c.writes b).length) : c.Covers b id k := by
  obtain ⟨p, hp, rfl⟩ := h.lru hid
  refine ⟨p, hp, rfl, ?_⟩
  cases hd : p.dirty with
  | true => exact .inl (hk.trans_eq (h.dirty hp hd).2.symm)
  | false =>
    refine .inr (hk.trans_eq (h.home_eq fun id' p' hid' hp' ↦ ?_).symm)
    obtain rfl := some.inj (hid.symm.trans hid')
    obtain rfl := some.inj (hp.symm.trans hp')
    exact hd

/-- Nothing dirty is cached for the block. -/
def AtRest (c : BlockPageCache) (b : UInt64) : Prop :=
  ∀ id, c.lru b = some id → c.isDirty id = false

theorem Inv.home_of_atRest (h : c.Inv) {b : UInt64} (hrest : c.AtRest b) :
    c.home b = (c.writes b).length :=
  h.home_eq fun id _ hid hp ↦ (isDirty_of hp).symm.trans (hrest id hid)

theorem Inv.writePage_page (h : c.Inv) (b : UInt64) (w : BlockWrite) :
    (c.writePage b w).1.pages[(c.writePage b w).2]? = some ⟨b, (c.writes b).length + 1, true⟩ := by
  rw [writePage]
  split
  · obtain ⟨p, hp, -⟩ := h.lru ‹_›
    exact getElem?_set_self hp
  · exact getElem?_concat_length

end BlockPageCache

namespace Handle

variable {h : Handle} {c c' : BlockPageCache}

/-- The page in which the handle has the block, once what it is writing is enrolled. -/
def target (h : Handle) (b : UInt64) : Option ℕ :=
  match h.writing with
  | .cached b' id => if b' = b then some id else h.tx.stagedBlocks[b]?
  | _ => h.tx.stagedBlocks[b]?

theorem target_of_idle (hw : h.writing = .none) (b : UInt64) :
    h.target b = h.tx.stagedBlocks[b]? := by
  rw [target, hw]

theorem target_write (hw : h.writing = .none) (b b' : UInt64) (id : ℕ) :
    { h with writing := .cached b id }.target b' = if b = b' then some id else h.target b' := by
  rw [target_of_idle hw]
  rfl

theorem target_enroll (hw : h.writing = .none) (b b' : UInt64) (id : ℕ) :
    { h with tx := h.tx.enrollBlock b id }.target b' = if b = b' then some id else h.target b' := by
  rw [target_of_idle hw, target, hw]
  dsimp only [TxHandle.enrollBlock]
  rw [ExtTreeMap.getElem?_insert]
  simp only [LawfulEqCmp.compare_eq_iff_eq]

variable {b : UInt64} {h' : Handle}

theorem target_publish (hw : h.writing = .cached b id) (b' : UInt64) :
    { h with tx := h.tx.enrollBlock b id, writing := .none }.target b' = h.target b' := by
  rw [target_of_idle rfl, target, hw]
  dsimp only [TxHandle.enrollBlock]
  rw [ExtTreeMap.getElem?_insert]
  simp only [LawfulEqCmp.compare_eq_iff_eq]

/-- The handle is merged into the given transaction, and done with the block. -/
def Settled (h : Handle) (b : UInt64) (q : ℕ) : Prop :=
  ∃ todo, h.phase = .merged q todo ∧ ∀ id, (b, id) ∉ todo

theorem Settled.mono {q : ℕ} (hs : h.Settled b q) (hev : h.Evolves h') : h'.Settled b q := by
  obtain ⟨todo, hphase, hb⟩ := hs
  obtain ⟨todo', hphase', hsub⟩ := hev q todo hphase
  exact ⟨todo', hphase', fun id hmem ↦ hb id (hsub hmem)⟩

theorem Settled.merged {q : ℕ} (hs : h.Settled b q) :
    ∃ todo, h.phase = .merged q todo := hs.imp fun _ h ↦ h.1

/-- A dropped handle is not writing, and it knows the pages of its blocks. -/
structure Inv (c : BlockPageCache) (h : Handle) : Prop where
  writing : h.phase ≠ .active → h.writing = .none
  target : ∀ {b id}, h.target b = some id → ∃ p, c.pages[id]? = some p ∧ p.block = b
  todo : ∀ {q todo b id}, h.phase = .merged q todo → (b, id) ∈ todo → h.target b = some id

theorem Inv.mono (hinv : h.Inv c) (hg : BlockPageCache.Grows c c') : h.Inv c' where
  writing := hinv.writing
  target ht := by
    obtain ⟨p, hp, rfl⟩ := hinv.target ht
    obtain ⟨p', hp', hb, -⟩ := hg.pages hp
    exact ⟨p', hp', hb⟩
  todo := hinv.todo

theorem Inv.retarget (hinv : h.Inv c) (hphase : h'.phase = .active)
    (htarget : ∀ b', h'.target b' = if b = b' then some id else h.target b')
    (hpage : ∃ p, c.pages[id]? = some p ∧ p.block = b) : h'.Inv c where
  writing hne := absurd hphase hne
  target {b' id'} ht := by
    rw [htarget] at ht
    split_ifs at ht with hb
    · obtain rfl := some.inj ht
      exact hb ▸ hpage
    · exact hinv.target ht
  todo hm := by
    rw [hphase] at hm
    cases hm

theorem Inv.of_target (hinv : h.Inv c) (htarget : ∀ b, h'.target b = h.target b)
    (hwriting : h'.phase ≠ .active → h'.writing = .none)
    (htodo : ∀ {q todo b id}, h'.phase = .merged q todo → (b, id) ∈ todo → h.target b = some id) :
    h'.Inv c where
  writing := hwriting
  target ht := hinv.target ((htarget _).symm.trans ht)
  todo hm hb := (htarget _).trans (htodo hm hb)

end Handle

namespace System

variable {s s' : System} {ringSize : ℕ} {a : Action}

/-- A step that does not run into one of the races around the tracker. -/
def CacheSafe (s : System) : Action → Prop
  | .writeDetached _ _ _ | .writeThrough _ _ _ | .noteThrough _ => False
  | .flushForget k => ∀ b, s.flushes[k]? = some (.absent b) → s.cache.AtRest b
  | .flushClean k => ∀ id p, s.flushes[k]? = some (.noted id) → s.cache.pages[id]? = some p →
      p.dirty = false → s.cache.AtRest p.block
  | .track i => ∀ h q b id todo, s.handles[i]? = some h → h.phase = .merged q ((b, id) :: todo) →
      s.cache.isDirty id = true → ∀ q', s.tracker[b]? = some q' → q' ≤ q
  | .prune k => ∀ atHome, s.sweepers[k]? = some (.querying [] atHome) →
      ∀ b ∈ atHome, b ∈ s.tracker → s.cache.dirty b = false
  | _ => True

theorem CacheSafe.cached (h : CacheSafe s a) : Cached a := by
  cases a with
  | writeDetached | writeThrough | noteThrough => exact h.elim
  | _ => trivial

/-! ## Writes and the handles that made them -/

/-- Every write is in the page that its handle has for the block, or at home. -/
structure HandlesInv (s : System) : Prop where
  cache : s.cache.Inv
  each : ∀ h ∈ s.handles, h.Inv s.cache
  wrote : ∀ {b k w}, (s.cache.writes b)[k]? = some w → ∃ h, s.handles[w.handle]? = some h ∧
    ∃ id, h.target b = some id ∧ s.cache.Covers b id k

/-- And if the block is not listed as dirty, the write is at home or still to be listed by its
handle. -/
structure ListedInv (s : System) : Prop extends HandlesInv s where
  listed : ∀ {b k w}, s.cache.dirty b = false → (s.cache.writes b)[k]? = some w →
    k < s.cache.home b ∨ ∃ h id, s.handles[w.handle]? = some h ∧ h.writing = .cached b id

variable {w : BlockWrite}

namespace HandlesInv

variable {i : ℕ} {c : BlockPageCache}

section

variable (hinv : HandlesInv s)

include hinv

theorem each_getElem {h : Handle} (hi : s.handles[i]? = some h) :
    h.Inv s.cache := hinv.each h (mem_of_getElem? hi)

theorem each_mono (hg : s.cache.Grows c) :
    ∀ h ∈ s.handles, h.Inv c := fun h hmem ↦ (hinv.each h hmem).mono hg

theorem each_set (hg : s.cache.Grows c) {h' : Handle}
    (hnew : h'.Inv c) : ∀ h ∈ s.handles.set i h', h.Inv c := by
  intro h hmem
  rcases mem_or_eq_of_mem_set hmem with hmem | rfl
  · exact hinv.each_mono hg h hmem
  · exact hnew

theorem each_step (hcached : Cached a) (hstep : Takes s ringSize a s') :
    ∀ h ∈ s'.handles, h.Inv s'.cache := by
  have hg := (hstep.cache hcached).grows hinv.cache
  cases hstep with
  | begin =>
    rw [forall_mem_append, forall_mem_singleton]
    refine ⟨hinv.each, fun hne ↦ absurd rfl hne, fun ht ↦ ?_, nofun⟩
    exact absurd (ExtTreeMap.getElem?_empty.symm.trans ht) nofun
  | writePage b data hi hready =>
    obtain ⟨hphase, hw⟩ := Handle.of_ready hready
    exact hinv.each_set hg (((hinv.each_getElem hi).mono hg).retarget hphase
      (Handle.target_write hw b · _) ⟨_, hinv.cache.writePage_page b _, rfl⟩)
  | publish hi hw =>
    have hold := hinv.each_getElem hi
    refine hinv.each_set hg ((hold.mono hg).of_target (Handle.target_publish hw) (fun _ ↦ rfl) ?_)
    exact fun hm hb ↦ hold.todo hm hb
  | writeDetached | writeThrough | noteThrough => exact hcached.elim
  | enrollRead hi hready hlru =>
    obtain ⟨hphase, hw⟩ := Handle.of_ready hready
    exact hinv.each_set hg ((hinv.each_getElem hi).retarget hphase (Handle.target_enroll hw _ · _)
      (hinv.cache.lru hlru))
  | enrollDetached hi hready hlru =>
    obtain ⟨hphase, hw⟩ := Handle.of_ready hready
    exact hinv.each_set hg (((hinv.each_getElem hi).mono hg).retarget hphase
      (Handle.target_enroll hw _ · _) ⟨_, getElem?_concat_length, rfl⟩)
  | enrollRevoke b hi hready | abort hi hready =>
    have hold := hinv.each_getElem hi
    exact hinv.each_set hg (hold.of_target (fun _ ↦ rfl) hold.writing hold.todo)
  | discard hi hready =>
    obtain ⟨hphase, hw⟩ := Handle.of_ready hready
    exact hinv.each_set hg ((hinv.each_getElem hi).of_target (fun _ ↦ rfl) (fun _ ↦ hw) nofun)
  | drop hi hready =>
    obtain ⟨hphase, hw⟩ := Handle.of_ready hready
    refine hinv.each_set hg ((hinv.each_getElem hi).of_target (fun _ ↦ rfl) (fun _ ↦ hw) ?_)
    intro q todo b id hm hb
    cases hm
    rw [Handle.target_of_idle hw]
    exact ExtTreeMap.mem_toList_iff_getElem?_eq_some.mp hb
  | track hi hphase =>
    have hold := hinv.each_getElem hi
    refine hinv.each_set hg (hold.of_target (fun _ ↦ rfl) (fun _ ↦ hold.writing ?_) ?_)
    · rw [hphase]
      exact nofun
    · intro q todo b id hm hb
      cases hm
      exact hold.todo hphase (mem_cons_of_mem _ hb)
  | _ => exact hinv.each_mono hg

/-- A handle that gets another page for a block has the block's writes there too. -/
theorem wrote_set (hg : s.cache.Grows c) {h h' : Handle} (hi : s.handles[i]? = some h)
    (htarget : ∀ {b k id}, k < (s.cache.writes b).length → h.target b = some id →
      c.Covers b id k → ∃ id', h'.target b = some id' ∧ c.Covers b id' k)
    {b : UInt64} (hk : (s.cache.writes b)[k]? = some w) :
    ∃ x, (s.handles.set i h')[w.handle]? = some x ∧
      ∃ id, x.target b = some id ∧ c.Covers b id k := by
  obtain ⟨x, hx, id, hid, hcov⟩ := hinv.wrote hk
  by_cases heq : w.handle = i
  · rw [heq] at hx ⊢
    obtain rfl := some.inj (hi.symm.trans hx)
    obtain ⟨hlt, -⟩ := List.getElem?_eq_some_iff.mp hk
    exact ⟨h', getElem?_set_self hi, htarget hlt hid (hcov.mono hg)⟩
  · exact ⟨x, by rw [getElem?_set_ne (Ne.symm heq), hx], id, hid, hcov.mono hg⟩

theorem wrote_step (hcached : Cached a) (hstep : Takes s ringSize a s') {b : UInt64}
    (hk : (s'.cache.writes b)[k]? = some w) :
    ∃ h, s'.handles[w.handle]? = some h ∧
      ∃ id, h.target b = some id ∧ s'.cache.Covers b id k := by
  have hg := (hstep.cache hcached).grows hinv.cache
  have hold := hstep.writes hcached hk
  -- the page that a write goes into has all writes of the block
  have hpage (b : UInt64) (w : BlockWrite) {k : ℕ} (hlt : k < (s.cache.writes b).length + 1) :
      (s.cache.writePage b w).1.Covers b (s.cache.writePage b w).2 k :=
    ⟨_, hinv.cache.writePage_page b w, rfl, .inl hlt⟩
  have hsame (hhandles : s'.handles = s.handles) (hk : (s.cache.writes b)[k]? = some w) :
      ∃ h, s'.handles[w.handle]? = some h ∧
        ∃ id, h.target b = some id ∧ s'.cache.Covers b id k := by
    obtain ⟨x, hx, id, hid, hcov⟩ := hinv.wrote hk
    exact ⟨x, by rw [hhandles, hx], id, hid, hcov.mono hg⟩
  cases hstep with
  | begin =>
    obtain ⟨x, hx, id, hid, hcov⟩ := hinv.wrote hk
    exact ⟨x, getElem?_concat hx, id, hid, hcov⟩
  | writePage b' data hi hready =>
    obtain ⟨hphase, hw⟩ := Handle.of_ready hready
    rcases hold with hk | ⟨i, data', hd, ha, rfl, rfl, -, -⟩
    · refine hinv.wrote_set hg hi (fun {b'' k id} hlt hid hcov ↦ ?_) hk
      rw [Handle.target_write hw]
      split_ifs with hb
      · subst hb
        exact ⟨_, rfl, hpage _ _ (hlt.trans (Nat.lt_succ_self _))⟩
      · exact ⟨id, hid, hcov⟩
    · cases ha
      refine ⟨_, getElem?_set_self hi, _, ?_, hpage _ _ (Nat.lt_succ_self _)⟩
      rw [Handle.target_write hw, if_pos rfl]
  | publish hi hw =>
    refine hinv.wrote_set hg hi (fun {b'' k id} hlt hid hcov ↦ ⟨id, ?_, hcov⟩) hk
    rw [Handle.target_publish hw, hid]
  | writeDetached | writeThrough | noteThrough => exact hcached.elim
  | enrollRead hi hready hlru =>
    obtain ⟨hphase, hw⟩ := Handle.of_ready hready
    refine hinv.wrote_set hg hi (fun {b'' k id} hlt hid hcov ↦ ?_) hk
    rw [Handle.target_enroll hw]
    split_ifs with hb
    · subst hb
      exact ⟨_, rfl, hinv.cache.covers_lru hlru hlt⟩
    · exact ⟨id, hid, hcov⟩
  | enrollDetached hi hready hlru =>
    obtain ⟨hphase, hw⟩ := Handle.of_ready hready
    refine hinv.wrote_set hg hi (fun {b'' k id} hlt hid hcov ↦ ?_) hk
    rw [Handle.target_enroll hw]
    split_ifs with hb
    · subst hb
      refine ⟨_, rfl, _, getElem?_concat_length, rfl, .inr ?_⟩
      exact hlt.trans_eq (hinv.cache.home_eq fun _ _ hid' ↦ nomatch hlru.symm.trans hid').symm
    · exact ⟨id, hid, hcov⟩
  | enrollRevoke _ hi | abort hi | discard hi | drop hi | track hi =>
    refine hinv.wrote_set hg hi ?_ hk
    exact fun _ hid hcov ↦ ⟨_, hid, hcov⟩
  | _ =>
    refine hsame rfl (hold.resolve_right ?_)
    rintro ⟨_, _, _, ha, -⟩
    cases ha

/-- **Step.** -/
theorem step (hcached : Cached a) (hstep : Takes s ringSize a s') :
    HandlesInv s' where
  cache := hinv.cache.changes (hstep.cache hcached)
  each := hinv.each_step hcached hstep
  wrote := hinv.wrote_step hcached hstep

end

end HandlesInv

namespace ListedInv

/-- Handles other than the one that acts go on with what they are writing. -/
theorem listed_set {c c' : BlockPageCache} (hg : c.Grows c') {l : List Handle} {i : ℕ}
    {h h' : Handle} (hi : l[i]? = some h) {b : UInt64}
    (hw : ∀ id, h.writing = .cached b id → h'.writing = .cached b id)
    (hlisted : k < c.home b ∨ ∃ x id, l[w.handle]? = some x ∧ x.writing = .cached b id) :
    k < c'.home b ∨ ∃ x id, (l.set i h')[w.handle]? = some x ∧ x.writing = .cached b id := by
  refine hlisted.imp (fun hk ↦ hk.trans_le (hg.home b)) fun ⟨x, id, hx, hxw⟩ ↦ ?_
  by_cases heq : w.handle = i
  · rw [heq] at hx ⊢
    obtain rfl := some.inj (hi.symm.trans hx)
    exact ⟨h', id, getElem?_set_self hi, hw id hxw⟩
  · exact ⟨x, id, by rw [getElem?_set_ne (Ne.symm heq), hx], hxw⟩

theorem listed_step (hinv : ListedInv s) (hsafe : CacheSafe s a) (hstep : Takes s ringSize a s')
    {b : UInt64} (hb : s'.cache.dirty b = false) (hk : (s'.cache.writes b)[k]? = some w) :
    k < s'.cache.home b ∨ ∃ h id, s'.handles[w.handle]? = some h ∧ h.writing = .cached b id := by
  have hg := (hstep.cache hsafe.cached).grows hinv.cache
  have hold := hstep.writes hsafe.cached hk
  -- a block that has just been unlisted is at home
  have hunlist {b' : UInt64} (hrest : s.cache.AtRest b')
      (hb : update s.cache.dirty b' false b = false)
      (hk : (s.cache.writes b)[k]? = some w) :
      k < s.cache.home b ∨ ∃ h id, s.handles[w.handle]? = some h ∧ h.writing = .cached b id := by
    by_cases heq : b = b'
    · subst heq
      obtain ⟨hlt, -⟩ := List.getElem?_eq_some_iff.mp hk
      exact .inl (hlt.trans_eq (hinv.cache.home_of_atRest hrest).symm)
    · rw [update_of_ne heq] at hb
      exact hinv.listed hb hk
  cases hstep with
  | begin =>
    refine (hinv.listed hb hk).imp_right fun ⟨x, id, hx, hw⟩ ↦ ⟨x, id, getElem?_concat hx, hw⟩
  | writePage b' data hi hready =>
    obtain ⟨hphase, hw⟩ := Handle.of_ready hready
    have hdirty : s.cache.dirty b = false := by
      rw [← hb, BlockPageCache.writePage]
      split <;> rfl
    rcases hold with hk | ⟨i, data', hd, ha, rfl, rfl, -, -⟩
    · refine listed_set hg hi (fun id hw' ↦ ?_) (hinv.listed hdirty hk)
      rw [hw] at hw'
      cases hw'
    · cases ha
      exact .inr ⟨_, _, getElem?_set_self hi, rfl⟩
  | @publish i id h b' hi hw =>
    change update s.cache.dirty b' true b = false at hb
    by_cases heq : b = b'
    · rw [heq, update_self] at hb
      cases hb
    · rw [update_of_ne heq] at hb
      refine listed_set hg hi (fun id hw' ↦ ?_) (hinv.listed hb hk)
      rw [hw] at hw'
      exact absurd (Writing.cached.inj hw').1.symm heq
  | writeDetached | writeThrough | noteThrough => exact hsafe.elim
  | enrollRead hi hready | enrollDetached hi hready | enrollRevoke _ hi hready | abort hi hready
  | discard hi hready | drop hi hready | track hi =>
    refine listed_set hg hi ?_ (hinv.listed hb hk)
    exact fun _ hw ↦ hw
  | attach hc =>
    obtain ⟨id, p, -, rfl⟩ := BlockPageCache.attach_eq_some hc
    exact hinv.listed hb hk
  | evict hc =>
    obtain ⟨id, -, -, rfl⟩ := BlockPageCache.evict_eq_some hc
    exact hinv.listed hb hk
  | flushForget hf => exact hunlist (hsafe _ hf) hb hk
  | flushWrite =>
    exact (hinv.listed hb hk).imp_left fun hlt ↦ hlt.trans_le (hg.home b)
  | @flushClean _ id p hf hp =>
    split_ifs at hb hk ⊢ with hd
    · exact hinv.listed hb hk
    · exact hunlist (hsafe _ _ hf hp (Bool.eq_false_iff.mpr hd)) hb hk
  | _ => exact hinv.listed hb hk

/-- **Step.** -/
theorem step (hinv : ListedInv s) (hsafe : CacheSafe s a) (hstep : Takes s ringSize a s') :
    ListedInv s' where
  toHandlesInv := hinv.toHandlesInv.step hsafe.cached hstep
  listed := hinv.listed_step hsafe hstep

end ListedInv

theorem listedInv_mounted (seq block : ℕ) (ring : ℕ → List UInt8) (headSeq headBlock : ℕ)
    (initial : UInt64 → Page) :
    ListedInv (mounted seq block ring headSeq headBlock initial) where
  cache := BlockPageCache.inv_mounted initial
  each _ h := nomatch h
  wrote h := nomatch h
  listed _ h := nomatch h

/-! ## The transaction of a handle -/

theorem Takes.inOrder (h : Takes s ringSize a s') (hord : s.journal.InOrder) :
    s'.journal.InOrder := by
  rcases h.journal_step with heq | ⟨a', hj, -⟩
  · rw [heq]
    exact hord
  · exact hord.step hj

theorem Takes.advances (h : Takes s ringSize a s') (hord : s.journal.InOrder) :
    s.journal.Advances s'.journal := by
  rcases h.journal_step with heq | ⟨a', hj, -⟩
  · rw [heq]
    exact .refl _
  · exact hord.advances hj

variable {q : ℕ} {b : UInt64}

theorem Takes.enrols (h : Takes s ringSize a s') (hord : s.journal.InOrder)
    (he : s.journal.Enrols q b) : s'.journal.Enrols q b := by
  rcases h.journal_step with heq | ⟨a', hj, -⟩
  · rw [heq]
    exact he
  · exact he.step hord hj

/-- A merged handle's blocks are enrolled in its transaction. -/
def Enrolled (s : System) : Prop :=
  ∀ ⦃i q id : ℕ⦄ ⦃h : Handle⦄ ⦃todo : List (UInt64 × ℕ)⦄ ⦃b : UInt64⦄, s.handles[i]? = some h →
    h.phase = .merged q todo → h.target b = some id → s.journal.Enrols q b

/-- **Step.** -/
theorem Enrolled.step (henr : Enrolled s) (hinv : HandlesInv s) (hord : s.journal.InOrder)
    (hstep : Takes s ringSize a s') : Enrolled s' := by
  intro i q id h' todo' b hi hphase htarget
  rcases hstep.merged hi hphase with
    ⟨h, todo, hi₀, hphase₀, -, hkeep⟩ | ⟨h, -, hi₀, hready, rfl, -, htx, hw', hjournal⟩
  · have hw := (hinv.each_getElem hi₀).writing (by rw [hphase₀]; exact nofun)
    obtain ⟨htx, hw'⟩ := hkeep hw
    have hold : h.target b = some id := by
      rwa [Handle.target_of_idle hw, ← htx, ← Handle.target_of_idle hw']
    exact hstep.enrols hord (henr hi₀ hphase₀ hold)
  · rw [Handle.target_of_idle hw', htx] at htarget
    rw [hjournal]
    exact .of_merge hord _ (ExtTreeMap.isSome_getElem?_iff_mem.mp (by rw [htarget]; rfl))

/-! ## What an entry covers -/

/-- A handle is done with a block because it was before, because this step has tracked the block's
page, or because it is merged by this step and does not have the block. -/
theorem Takes.settled (h : Takes s ringSize a s') {i : ℕ} {hd' : Handle}
    (hi : s'.handles[i]? = some hd') (hs : hd'.Settled b q) :
    (∃ hd, s.handles[i]? = some hd ∧ hd.Settled b q) ∨
      (∃ hd id todo, a = .track i ∧ s.handles[i]? = some hd ∧
        hd.phase = .merged q ((b, id) :: todo)) ∨
      ∃ hd, a = .drop i ∧ s.handles[i]? = some hd ∧ hd.ready = true ∧
        ∀ id, (b, id) ∉ hd.tx.stagedBlocks.toList := by
  obtain ⟨todo', hphase', hb⟩ := hs
  rcases h.merged hi hphase' with
    ⟨hd, todo, hi₀, hphase, rfl | ⟨⟨b', id⟩, rfl, rfl⟩, -⟩ | ⟨hd, ha, hi₀, hready, -, rfl, -⟩
  · exact .inl ⟨hd, hi₀, _, hphase, hb⟩
  · by_cases heq : b = b'
    · subst heq
      exact .inr (.inl ⟨hd, id, todo', rfl, hi₀, hphase⟩)
    · refine .inl ⟨hd, hi₀, _, hphase, fun id' hmem ↦ ?_⟩
      rcases mem_cons.mp hmem with hmem | hmem
      · exact heq (Prod.mk.inj hmem).1
      · exact hb id' hmem
  · exact .inr (.inr ⟨hd, ha, hi₀, hready, hb⟩)

theorem Takes.tracker_track {i : ℕ} {h : Handle} {todo : List (UInt64 × ℕ)}
    (hstep : Takes s ringSize (.track i) s') (hi : s.handles[i]? = some h)
    (hphase : h.phase = .merged q ((b, id) :: todo)) :
    s'.tracker = if s.cache.isDirty id then s.tracker.insert b q else s.tracker := by
  cases hstep with
  | track hi' hphase' =>
    obtain rfl := some.inj (hi.symm.trans hi')
    rw [hphase] at hphase'
    cases hphase'
    rfl

/-- An entry stays or is raised, unless writeback reports it or the block is found not to be listed.
-/
theorem Takes.tracker_kept (h : Takes s ringSize a s') (hsafe : CacheSafe s a)
    (hb : s.tracker[b]? = some q) :
    (∃ q', s'.tracker[b]? = some q' ∧ q ≤ q') ∨
      (∃ k id p, a = .flushNote k ∧ s.flushes[k]? = some (.written id (some q)) ∧
        s.cache.pages[id]? = some p ∧ p.block = b) ∨
      s.cache.dirty b = false := by
  cases h with
  | noteThrough => exact hsafe.elim
  | @track i q₁ id hd b₁ todo hi hphase =>
    split_ifs with hdirty
    · rw [ExtTreeMap.getElem?_insert]
      split_ifs with heq
      · obtain rfl := LawfulEqCmp.eq_of_compare heq
        exact .inl ⟨q₁, rfl, hsafe hd q₁ b₁ id todo hi hphase hdirty q hb⟩
      · exact .inl ⟨q, hb, Nat.le_refl _⟩
    · exact .inl ⟨q, hb, Nat.le_refl _⟩
  | @flushNote k id seq p hk hp =>
    cases seq with
    | none => exact .inl ⟨q, hb, Nat.le_refl _⟩
    | some q₁ =>
      change (∃ q', (s.noteCheckpointed p.block q₁)[b]? = some q' ∧ q ≤ q') ∨ _
      rw [noteCheckpointed]
      split_ifs with hq₁
      · by_cases heq : p.block = b
        · subst heq
          obtain rfl := some.inj (hq₁.symm.trans hb)
          exact .inr (.inl ⟨k, id, p, rfl, hk, hp, rfl⟩)
        · rw [ExtTreeMap.getElem?_erase, if_neg (mt LawfulEqCmp.eq_of_compare heq)]
          exact .inl ⟨q, hb, Nat.le_refl _⟩
      · exact .inl ⟨q, hb, Nat.le_refl _⟩
  | @prune k atHome hk =>
    by_cases hmem : b ∈ atHome
    · refine .inr (.inr (hsafe atHome hk b hmem ?_))
      exact ExtTreeMap.isSome_getElem?_iff_mem.mp (by rw [hb]; rfl)
    · exact .inl ⟨q, getElem?_eraseAll.mpr ⟨hb, hmem⟩, Nat.le_refl _⟩
  | _ => exact .inl ⟨q, hb, Nat.le_refl _⟩

/-- Once its handle is done with the block, a write is out of the tracker's hands or the block has
an entry at least as new. -/
def Covered (R : UInt64 → ℕ → ℕ → Prop) (s : System) : Prop :=
  ∀ ⦃b k w h q⦄, (s.cache.writes b)[k]? = some w → s.handles[w.handle]? = some h → h.Settled b q →
    R b k q ∨ ∃ q', s.tracker[b]? = some q' ∧ q ≤ q'

/-- **Step.** What is at home must be out of the tracker's hands, and so must be what writeback
reports. -/
theorem Covered.step {R R' : UInt64 → ℕ → ℕ → Prop} (hcov : Covered R s) (hinv : ListedInv s)
    (hsafe : CacheSafe s a) (hstep : Takes s ringSize a s') (hmono : ∀ {b k q}, R b k q → R' b k q)
    (hhome : ∀ {b k w h q todo}, (s.cache.writes b)[k]? = some w → s.handles[w.handle]? = some h →
      h.phase = .merged q todo → k < s.cache.home b → R' b k q)
    (hnote : ∀ {n id q' p k w h q}, a = .flushNote n →
      s.flushes[n]? = some (.written id (some q')) → s.cache.pages[id]? = some p →
      (s.cache.writes p.block)[k]? = some w → s.handles[w.handle]? = some h →
      h.Settled p.block q → q ≤ q' → R' p.block k q) : Covered R' s' := by
  intro b k w h' q hk hi hs
  rcases hstep.writes hsafe.cached hk with hk | ⟨i, data, hd, rfl, rfl, -, hi₀, hready⟩
  · rcases hstep.settled hi hs with ⟨h, hi, hs⟩ | ⟨h, id, todo, rfl, hi, hphase⟩ |
      ⟨h, -, hi, hready, hnot⟩
    · obtain ⟨todo, hphase⟩ := hs.merged
      rcases hcov hk hi hs with hR | ⟨q', hq', hle⟩
      · exact .inl (hmono hR)
      rcases hstep.tracker_kept hsafe hq' with ⟨q'', hq'', hle'⟩ | ⟨n, id, p, ha, hn, hp, rfl⟩ | hb
      · exact .inr ⟨q'', hq'', hle.trans hle'⟩
      · exact .inl (hnote ha hn hp hk hi hs hle)
      · refine .inl (hhome hk hi hphase ((hinv.listed hb hk).resolve_right ?_))
        rintro ⟨x, id, hx, hw⟩
        obtain rfl := some.inj (hi.symm.trans hx)
        rw [(hinv.each_getElem hi).writing (by rw [hphase]; exact nofun)] at hw
        cases hw
    · rw [hstep.tracker_track hi hphase]
      split_ifs with hdirty
      · exact .inr ⟨q, ExtTreeMap.getElem?_insert_self, Nat.le_refl _⟩
      · -- a clean page has nothing that is not at home
        obtain ⟨x, hx, id', hid', p, hp, rfl, hlt⟩ := hinv.wrote hk
        obtain rfl := some.inj (hi.symm.trans hx)
        rw [(hinv.each_getElem hi).todo hphase mem_cons_self] at hid'
        cases hid'
        rw [BlockPageCache.isDirty_of hp, Bool.not_eq_true] at hdirty
        refine .inl (hhome hk hi hphase ?_)
        exact hlt.elim (fun hlt ↦ hlt.trans_le (hinv.cache.clean hp hdirty)) fun hlt ↦ hlt
    · obtain ⟨x, hx, id, hid, -⟩ := hinv.wrote hk
      obtain rfl := some.inj (hi.symm.trans hx)
      rw [Handle.target_of_idle (Handle.of_ready hready).2] at hid
      exact absurd (ExtTreeMap.mem_toList_iff_getElem?_eq_some.mpr hid) (hnot id)
  · -- the handle that has just written is open
    rcases hstep.settled hi hs with ⟨h, hi, hs⟩ | ⟨_, _, _, ha, -⟩ | ⟨_, ha, -⟩
    · obtain rfl := some.inj (hi₀.symm.trans hi)
      obtain ⟨todo, hphase, -⟩ := hs
      rw [(Handle.of_ready hready).1] at hphase
      cases hphase
    · cases ha
    · cases ha

/-! ## The checkpoint gate -/

/-- A drop enters a block after every drop that merged it into an earlier transaction and before
every one that merged it into a later one, and if the page is clean the block has no entry. -/
def TracksInTurn (s : System) : Action → Prop
  | .track i => ∀ h q b id todo, s.handles[i]? = some h → h.phase = .merged q ((b, id) :: todo) →
      (s.cache.isDirty id = false → s.tracker[b]? = none) ∧
      ∀ (j : ℕ) (h' : Handle) (q' : ℕ), s.handles[j]? = some h' → b ∈ h'.tx.stagedBlocks →
        h'.Settled b q' → q' ≤ q
  | _ => True

/-- No entry is older than a transaction into which a drop has merged the block and tracked it. A
handle that has been merged is not writing. -/
structure GateInv (s : System) : Prop where
  idle : ∀ {i : ℕ} {h : Handle} {q todo}, s.handles[i]? = some h → h.phase = .merged q todo →
    h.writing = .none
  raised : ∀ {i : ℕ} {h : Handle} {b q q'}, s.handles[i]? = some h → b ∈ h.tx.stagedBlocks →
    h.Settled b q → s.tracker[b]? = some q' → q ≤ q'

/-- **Step.** -/
theorem GateInv.step (hinv : GateInv s) (hturn : TracksInTurn s a) (hstep : Takes s ringSize a s') :
    GateInv s' := by
  refine ⟨fun hi hphase ↦ ?_, fun {i h' b q q'} hi hmem hs hq' ↦ ?_⟩
  · rcases hstep.merged hi hphase with ⟨_, _, hi₀, hphase₀, -, hkeep⟩ | ⟨_, -, -, -, -, -, -, hw, -⟩
    · exact (hkeep (hinv.idle hi₀ hphase₀)).2
    · exact hw
  have hold {h : Handle} (hi₀ : s.handles[i]? = some h) : b ∈ h.tx.stagedBlocks := by
    obtain ⟨_, hphase, -⟩ := hs
    rcases hstep.merged hi hphase with ⟨_, _, hi₁, hphase₁, -, hkeep⟩ | ⟨_, -, hi₁, -, -, -, htx, -⟩
    · obtain rfl := some.inj (hi₀.symm.trans hi₁)
      rwa [← (hkeep (hinv.idle hi₁ hphase₁)).1]
    · obtain rfl := some.inj (hi₀.symm.trans hi₁)
      rwa [← htx]
  rcases hstep.settled hi hs with ⟨h, hi₀, hs₀⟩ | ⟨h, id, todo, rfl, hi₀, hphase⟩ |
    ⟨h, -, hi₀, -, hnot⟩
  · rcases hstep.tracker hq' with hq' | ⟨_, _, _, _, rfl, hj, hphase⟩
    · exact hinv.raised hi₀ (hold hi₀) hs₀ hq'
    · exact (hturn _ _ _ _ _ hj hphase).2 i h q hi₀ (hold hi₀) hs₀
  · rw [hstep.tracker_track hi₀ hphase] at hq'
    split_ifs at hq' with hdirty
    · rw [ExtTreeMap.getElem?_insert_self] at hq'
      exact (some.inj hq').le
    · rw [(hturn _ _ _ _ _ hi₀ hphase).1 (Bool.eq_false_of_not_eq_true hdirty)] at hq'
      cases hq'
  · obtain ⟨id, hid⟩ := isSome_iff_exists.mp (ExtTreeMap.isSome_getElem?_iff_mem.mpr (hold hi₀))
    exact absurd (ExtTreeMap.mem_toList_iff_getElem?_eq_some.mpr hid) (hnot id)

/-- **The checkpoint gate is monotone**, in every run whose drops take their turns: an entry is at
least the number of every transaction into which a drop has merged the block and tracked it, so an
entry that is committed stands for committed transactions. -/
theorem gate_monotone {seq block headSeq headBlock i q q' : ℕ} {ring : ℕ → List UInt8}
    {initial : UInt64 → Page} {h : Handle}
    (hreach : Reaches (fun s ↦ s.step ringSize) TracksInTurn
      (mounted seq block ring headSeq headBlock initial) s)
    (hi : s.handles[i]? = some h) (hmem : b ∈ h.tx.stagedBlocks) (hs : h.Settled b q)
    (hq' : s.tracker[b]? = some q') :
    q ≤ q' ∧ (q' ≤ s.journal.state.committedSeq → q ≤ s.journal.state.committedSeq) := by
  have hinv : GateInv s := hreach.invariant ⟨nofun, nofun⟩
    fun _ _ _ hinv hturn hstep ↦ hinv.step hturn (takes_of_step hstep)
  have hle := hinv.raised hi hmem hs hq'
  exact ⟨hle, hle.trans⟩

/-- Two handles write block 5, and the first is merged and tracked before its transaction is sealed.
-/
theorem gate_monotone_two_drops :
    ∃ s : System, Reaches (fun s ↦ s.step 16) TracksInTurn
        (mounted 1 0 (fun _ ↦ []) 1 0 fun _ ↦ Page.zero) s ∧
      s.tracker[(5 : UInt64)]? = some 2 ∧ 1 ≤ 2 := by
  have h : Reaches (fun s : System ↦ s.step 16) TracksInTurn
    (mounted 1 0 (fun _ ↦ []) 1 0 fun _ ↦ Page.zero) _ := .refl
  have h := h.play [.begin, .begin, .writePage 0 5 Page.zero, .publish 0, .writePage 1 5 Page.zero,
    .publish 1, .drop 0] (fun _ _ h ↦ by fin_cases h <;> trivial) rfl
  have h := h.tail (a := .track 0) (by
    rintro _ q b id todo ⟨⟩ ⟨⟩
    refine ⟨nofun, fun j h' q' hj _ ⟨_, hphase, _⟩ ↦ ?_⟩
    rcases j with _ | _ | _ <;> cases hj <;> cases hphase
    exact Nat.le_refl _) rfl
  have h := h.play [.journal .sealActive, .drop 1] (fun _ _ h ↦ by fin_cases h <;> trivial) rfl
  have h := h.tail (a := .track 1) (by
    rintro _ q b id todo ⟨⟩ ⟨⟩
    refine ⟨nofun, fun j h' q' hj _ ⟨_, hphase, _⟩ ↦ ?_⟩
    rcases j with _ | _ | _ <;> cases hj <;> cases hphase
    · exact Nat.le_succ _
    · exact Nat.le_refl _) rfl
  exact ⟨_, h, rfl, (gate_monotone (i := 0) (b := 5) h rfl (by decide) ⟨[], rfl, nofun⟩ rfl).1⟩

/-- **An older drop updates the tracker last.** Two handles write block 5. One is merged, its
transaction is sealed, the other is merged into the next one; the second enters its number, and then
the first. -/
theorem older_drop_lowers_gate :
    ∃ (s : System) (h : Handle), Reaches (fun s ↦ s.step 16) (fun _ _ ↦ True)
        (mounted 1 0 (fun _ ↦ []) 1 0 fun _ ↦ Page.zero) s ∧
      s.handles[1]? = some h ∧ (5 : UInt64) ∈ h.tx.stagedBlocks ∧ h.Settled 5 2 ∧
      s.tracker[(5 : UInt64)]? = some 1 := by
  have h : Reaches (fun s : System ↦ s.step 16) (fun _ _ ↦ True)
    (mounted 1 0 (fun _ ↦ []) 1 0 fun _ ↦ Page.zero) _ := .refl
  have h := h.play [.begin, .begin, .writePage 0 5 Page.zero, .publish 0, .writePage 1 5 Page.zero,
    .publish 1, .drop 0, .journal .sealActive, .drop 1, .track 1, .track 0]
      (fun _ _ _ ↦ trivial) rfl
  exact ⟨_, _, h, rfl, by decide, ⟨[], rfl, nofun⟩, rfl⟩

end System

end Edos

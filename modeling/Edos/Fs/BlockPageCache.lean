import Edos.Journal.CommitImage

/-!
# The block page cache

Metadata is written in memory first. The cache keeps a page per block, marks it dirty when it is
written, and lists the block as dirty; writeback later copies the page to the block's home location.

## Contents by number

`write_page` replaces a whole page, so what is in a page, at home, or in a copy of either always
comes from one write. The cache logs the writes of each block in order, and contents are given by
the number of writes up to and including the one they come from: version 0 is what the disk held at
the mount. Contents are newer when their version is larger. The code keeps no such log.

## Pages and blocks

A page outlives its place in the cache, since transactions hold on to it; so pages are objects of
their own, named by their place in `pages`, and `lru` says which of them, if any, is the cached page
of a block. A block that is not in the cache may be read from disk by several threads, and only one
of the pages they fill is put in the cache. When the cache has no room, a page stays *detached*: it
is not in `lru`, and writeback does not see it.

Pins and the order of eviction are left out: any clean page may be evicted at any time.
-/

namespace Edos

open Function List Option

section Lookup

variable {α : Type*} {l : List α} {i j : ℕ} {a x : α}

theorem getElem?_set_cases (h : (l.set i a)[j]? = some x) :
    (j = i ∧ x = a) ∨ (j ≠ i ∧ l[j]? = some x) := by
  rw [getElem?_set] at h
  split_ifs at h with hij hlt
  · exact .inl ⟨hij.symm, (some.inj h).symm⟩
  · exact .inr ⟨Ne.symm hij, h⟩

theorem getElem?_concat_cases (h : (l ++ [a])[j]? = some x) :
    l[j]? = some x ∨ (j = l.length ∧ x = a) := by
  rcases lt_trichotomy j l.length with hlt | rfl | hgt
  · rw [getElem?_append_left hlt] at h
    exact .inl h
  · rw [getElem?_concat_length] at h
    exact .inr ⟨rfl, (some.inj h).symm⟩
  · rw [getElem?_eq_none (by rw [length_append]; exact hgt)] at h
    cases h

theorem getElem?_concat (h : l[j]? = some x) : (l ++ [a])[j]? = some x := by
  obtain ⟨hlt, -⟩ := List.getElem?_eq_some_iff.mp h
  rw [getElem?_append_left hlt, h]

theorem getElem?_set_self (h : l[i]? = some x) : (l.set i a)[i]? = some a := by
  obtain ⟨hlt, -⟩ := List.getElem?_eq_some_iff.mp h
  exact List.getElem?_set_self hlt

end Lookup

/-- A page of a block: where its contents come from, and whether they are newer than home. -/
structure CachedBlockPage where
  block : UInt64
  version : ℕ
  dirty : Bool

/-- A write of a whole block, by an open handle. -/
structure BlockWrite where
  handle : ℕ
  data : Page

/-- The cache and the device behind it. -/
structure BlockPageCache where
  /-- All pages ever allocated. -/
  pages : List CachedBlockPage
  lru : UInt64 → Option ℕ
  /-- The blocks listed as dirty, in whatever shard. -/
  dirty : UInt64 → Bool
  /-- Pages filled from disk by a thread that has not yet tried to put them in the cache. -/
  loading : List ℕ
  /-- The version at the home location. -/
  home : UInt64 → ℕ
  /-- What the disk held at the mount. -/
  initial : UInt64 → Page
  writes : UInt64 → List BlockWrite

namespace BlockPageCache

/-- An empty cache in front of the given disk. -/
def mounted (initial : UInt64 → Page) : BlockPageCache where
  pages := []
  lru := fun _ ↦ none
  dirty := fun _ ↦ false
  loading := []
  home := fun _ ↦ 0
  initial := initial
  writes := fun _ ↦ []

/-- The contents that a version stands for. -/
def content (c : BlockPageCache) (b : UInt64) : ℕ → Page
  | 0 => c.initial b
  | k + 1 => ((c.writes b)[k]?.map BlockWrite.data).getD (c.initial b)

def log (c : BlockPageCache) (b : UInt64) (w : BlockWrite) : BlockPageCache :=
  { c with writes := update c.writes b (c.writes b ++ [w]) }

/-- `write_page` up to the release of the page's lock, when the page is in the cache or there is
room for it: the cache after it, and the page. -/
def writePage (c : BlockPageCache) (b : UInt64) (w : BlockWrite) : BlockPageCache × ℕ :=
  let page : CachedBlockPage := ⟨b, (c.writes b).length + 1, true⟩
  match c.lru b with
  | some id => ({ c.log b w with pages := c.pages.set id page }, id)
  | none =>
    ({ c.log b w with
        pages := c.pages ++ [page]
        lru := update c.lru b (some c.pages.length) }, c.pages.length)

/-- `write_page` when the cache has no room: the page is detached, and not marked. -/
def writeDetached (c : BlockPageCache) (b : UInt64) (w : BlockWrite) : BlockPageCache :=
  { c.log b w with pages := c.pages ++ [⟨b, (c.writes b).length + 1, false⟩] }

/-- `publish_write` for a cached page. -/
def list (c : BlockPageCache) (b : UInt64) : BlockPageCache :=
  { c with dirty := update c.dirty b true }

def unlist (c : BlockPageCache) (b : UInt64) : BlockPageCache :=
  { c with dirty := update c.dirty b false }

/-- Read a block from disk into a new page. -/
def fill (c : BlockPageCache) (b : UInt64) : BlockPageCache :=
  { c with pages := c.pages ++ [⟨b, c.home b, false⟩] }

/-- `insert_or_resolve_race`: a filled page is put in the cache unless its block has one. -/
def attach (c : BlockPageCache) (i : ℕ) : Option BlockPageCache :=
  match c.loading[i]? with
  | some id =>
    match c.pages[id]? with
    | some p => some { c with
        loading := c.loading.eraseIdx i
        lru := if (c.lru p.block).isNone then update c.lru p.block (some id) else c.lru }
    | none => none
  | none => none

/-- Whether a page is marked dirty. -/
def isDirty (c : BlockPageCache) (id : ℕ) : Bool := c.pages[id]?.any CachedBlockPage.dirty

/-- Make room: a page that is not dirty leaves the cache. -/
def evict (c : BlockPageCache) (b : UInt64) : Option BlockPageCache :=
  match c.lru b with
  | some id => if c.isDirty id then none else some { c with lru := update c.lru b none }
  | none => none

/-- The device write of a page. A command that succeeded has reached the disk and the page is marked
clean; one that failed may have reached it. -/
def writeBack (c : BlockPageCache) (id : ℕ) (p : CachedBlockPage) (landed ok : Bool) :
    BlockPageCache :=
  { c with
    home := if landed then update c.home p.block p.version else c.home
    pages := if ok then c.pages.set id { p with dirty := false } else c.pages }

/-! ## What a run without detached writes does to the cache -/

/-- The ways in which the cache changes. -/
inductive Changes (c : BlockPageCache) : BlockPageCache → Prop
  | refl : Changes c c
  | writePage (b : UInt64) (w : BlockWrite) : Changes c (c.writePage b w).1
  | list (b : UInt64) : Changes c (c.list b)
  | unlist (b : UInt64) : Changes c (c.unlist b)
  | fill (b : UInt64) : Changes c (c.fill b)
  | load (b : UInt64) :
      Changes c { c.fill b with loading := c.loading ++ [c.pages.length] }
  | attach {i : ℕ} {c' : BlockPageCache} (h : c.attach i = some c') : Changes c c'
  | evict {b : UInt64} {c' : BlockPageCache} (h : c.evict b = some c') : Changes c c'
  | writeBack {id : ℕ} {p : CachedBlockPage} {landed ok : Bool} (hp : c.pages[id]? = some p)
      (hdirty : p.dirty = true) (hok : ok = true → landed = true) :
      Changes c (c.writeBack id p landed ok)

/-- The cached page of a block is one of its pages. A dirty page is cached and has the block's last
write; a clean one has nothing that is not at home. So the last write of a block is at home, or in a
dirty page that is cached. -/
structure Inv (c : BlockPageCache) : Prop where
  lru : ∀ {b id}, c.lru b = some id → ∃ p, c.pages[id]? = some p ∧ p.block = b
  dirty : ∀ {id : ℕ} {p : CachedBlockPage}, c.pages[id]? = some p → p.dirty = true →
    c.lru p.block = some id ∧ p.version = (c.writes p.block).length
  clean : ∀ {id : ℕ} {p : CachedBlockPage}, c.pages[id]? = some p → p.dirty = false →
    p.version ≤ c.home p.block
  home : ∀ b, c.home b ≤ (c.writes b).length
  current : ∀ b, c.home b = (c.writes b).length ∨
    ∃ id p, c.lru b = some id ∧ c.pages[id]? = some p ∧ p.dirty = true

/-- Nothing gets older. -/
structure Grows (c c' : BlockPageCache) : Prop where
  pages : ∀ {id : ℕ} {p : CachedBlockPage}, c.pages[id]? = some p →
    ∃ p', c'.pages[id]? = some p' ∧ p'.block = p.block ∧ p.version ≤ p'.version
  home : ∀ b, c.home b ≤ c'.home b
  writes : ∀ b, c.writes b <+: c'.writes b
  initial : c'.initial = c.initial

theorem inv_mounted (initial : UInt64 → Page) : (mounted initial).Inv where
  lru h := nomatch h
  dirty h := nomatch h
  clean h := nomatch h
  home _ := le_refl 0
  current _ := .inl rfl

variable {c c' : BlockPageCache} {b : UInt64} {id : ℕ} {p : CachedBlockPage}

theorem writes_log_of_ne {b' : UInt64} (h : b' ≠ b) (w : BlockWrite) :
    (c.log b w).writes b' = c.writes b' := update_of_ne h _ _

theorem writes_log_self (c : BlockPageCache) (b : UInt64) (w : BlockWrite) :
    (c.log b w).writes b = c.writes b ++ [w] := update_self _ _ _

theorem prefix_writes_log (c : BlockPageCache) (b : UInt64) (w : BlockWrite) (b' : UInt64) :
    c.writes b' <+: (c.log b w).writes b' := by
  by_cases hb : b' = b
  · rw [hb, writes_log_self]
    exact prefix_append _ _
  · exact (writes_log_of_ne hb w).symm ▸ prefix_rfl

theorem Inv.version_le (h : c.Inv) (hp : c.pages[id]? = some p) :
    p.version ≤ (c.writes p.block).length := by
  cases hd : p.dirty with
  | true => exact (h.dirty hp hd).2.le
  | false => exact (h.clean hp hd).trans (h.home _)

/-- A block with no cached page, or with a clean one, is at home. -/
theorem Inv.home_eq (h : c.Inv)
    (hclean : ∀ id p, c.lru b = some id → c.pages[id]? = some p → p.dirty = false) :
    c.home b = (c.writes b).length := by
  rcases h.current b with hb | ⟨id, p, hid, hp, hd⟩
  · exact hb
  · rw [hclean id p hid hp] at hd
    cases hd

theorem Inv.fill (h : c.Inv) (b : UInt64) : (c.fill b).Inv where
  lru hb := by
    obtain ⟨p, hp, hpb⟩ := h.lru hb
    exact ⟨p, getElem?_concat hp, hpb⟩
  dirty hp hd := by
    rcases getElem?_concat_cases hp with hp | ⟨-, rfl⟩
    · exact h.dirty hp hd
    · cases hd
  clean hp hd := by
    rcases getElem?_concat_cases hp with hp | ⟨-, rfl⟩
    · exact h.clean hp hd
    · exact le_refl _
  home := h.home
  current b := (h.current b).imp_right fun ⟨id, p, hid, hp, hd⟩ ↦
    ⟨id, p, hid, getElem?_concat hp, hd⟩

theorem exists_page_set {x q : CachedBlockPage} {id' : ℕ} (hp : c.pages[id]? = some p)
    (hblock : x.block = p.block) (hle : p.version ≤ x.version) (hq : c.pages[id']? = some q) :
    ∃ q', (c.pages.set id x)[id']? = some q' ∧ q'.block = q.block ∧ q.version ≤ q'.version := by
  by_cases hid : id' = id
  · subst hid
    obtain rfl := some.inj (hp.symm.trans hq)
    exact ⟨x, getElem?_set_self hp, hblock, hle⟩
  · exact ⟨q, by rw [getElem?_set_ne (Ne.symm hid), hq], rfl, le_refl _⟩

/-- A write in place: the cached page of the block becomes its newest. -/
theorem Inv.overwrite (h : c.Inv) (hid : c.lru b = some id) (w : BlockWrite) :
    Inv { c.log b w with pages := c.pages.set id ⟨b, (c.writes b).length + 1, true⟩ } := by
  obtain ⟨p₀, hp₀, hb₀⟩ := h.lru hid
  have hversion : p₀.version ≤ (c.writes b).length + 1 :=
    (hb₀ ▸ h.version_le hp₀).trans (Nat.le_succ _)
  -- another block's cached page is another page
  have hother {b' : UInt64} {id' : ℕ} (hb : b' ≠ b) (hid' : c.lru b' = some id') : id' ≠ id := by
    rintro rfl
    obtain ⟨p, hp, hpb⟩ := h.lru hid'
    rw [hp₀] at hp
    obtain rfl := some.inj hp
    exact hb (hpb.symm.trans hb₀)
  refine ⟨fun {b' id'} hb' ↦ ?_, fun {id' p} hp hd ↦ ?_, fun {id' p} hp hd ↦ ?_, fun b' ↦ ?_,
    fun b' ↦ ?_⟩
  · obtain ⟨p, hp, rfl⟩ := h.lru hb'
    obtain ⟨q, hq, hqb, -⟩ := exists_page_set (x := ⟨b, _, true⟩) hp₀ hb₀.symm hversion hp
    exact ⟨q, hq, hqb⟩
  · rcases getElem?_set_cases hp with ⟨rfl, rfl⟩ | ⟨hne, hp⟩
    · exact ⟨hid, by rw [writes_log_self, length_append]; rfl⟩
    · obtain ⟨hlru, hversion⟩ := h.dirty hp hd
      have hb : p.block ≠ b := fun hb ↦ hne (some.inj (hlru.symm.trans (hb ▸ hid)))
      exact ⟨hlru, by rw [hversion, writes_log_of_ne hb]⟩
  · rcases getElem?_set_cases hp with ⟨-, rfl⟩ | ⟨-, hp⟩
    · cases hd
    · exact h.clean hp hd
  · exact (h.home b').trans (c.prefix_writes_log b w b').length_le
  · by_cases hb : b' = b
    · subst hb
      exact .inr ⟨id, _, hid, getElem?_set_self hp₀, rfl⟩
    · refine (h.current b').imp (fun hhome ↦ ?_) fun ⟨id', p, hid', hp, hd⟩ ↦ ?_
      · rw [writes_log_of_ne hb]
        exact hhome
      · exact ⟨id', p, hid', by rw [getElem?_set_ne (hother hb hid').symm, hp], hd⟩

/-- A page is put in the cache if its block has none there. -/
theorem Inv.put (h : c.Inv) (hp : c.pages[id]? = some p) (hnone : c.lru p.block = none) :
    Inv { c with lru := update c.lru p.block (some id) } := by
  refine ⟨fun {b' id'} hb' ↦ ?_, fun {id' q} hq hd ↦ ?_, h.clean, h.home, fun b' ↦ ?_⟩
  · change update c.lru _ _ b' = _ at hb'
    by_cases hb : b' = p.block
    · rw [hb, update_self] at hb'
      obtain rfl := some.inj hb'
      exact ⟨p, hp, hb.symm⟩
    · rw [update_of_ne hb] at hb'
      exact h.lru hb'
  · obtain ⟨hlru, hversion⟩ := h.dirty hq hd
    have hb : q.block ≠ p.block := fun hb ↦ nomatch (hb ▸ hlru).symm.trans hnone
    exact ⟨(update_of_ne hb _ _).trans hlru, hversion⟩
  · refine (h.current b').imp_right fun ⟨id', q, hid', hq, hd⟩ ↦ ?_
    have hb : b' ≠ p.block := fun hb ↦ nomatch (hb ▸ hid').symm.trans hnone
    exact ⟨id', q, (update_of_ne hb _ _).trans hid', hq, hd⟩

/-- A new page is one that is filled, put in the cache and written. -/
theorem Inv.insert (h : c.Inv) (hid : c.lru b = none) (w : BlockWrite) :
    Inv { c.log b w with
      pages := c.pages ++ [⟨b, (c.writes b).length + 1, true⟩]
      lru := update c.lru b (some c.pages.length) } := by
  have hput := (h.fill b).put (p := ⟨b, c.home b, false⟩) getElem?_concat_length hid
  have hwritten := hput.overwrite (update_self ..) w
  dsimp only [BlockPageCache.fill] at hwritten
  rwa [set_append_right _ _ le_rfl, Nat.sub_self, set_cons_zero] at hwritten

theorem isDirty_of (hp : c.pages[id]? = some p) : c.isDirty id = p.dirty := by
  rw [isDirty, hp]
  rfl

theorem attach_eq_some {i : ℕ} (h : c.attach i = some c') :
    ∃ id p, c.pages[id]? = some p ∧ c' = { c with
        loading := c.loading.eraseIdx i
        lru := if (c.lru p.block).isNone then update c.lru p.block (some id) else c.lru } := by
  rw [attach] at h
  split at h
  · split at h
    · cases h
      exact ⟨_, _, ‹_›, rfl⟩
    · cases h
  · cases h

theorem evict_eq_some (h : c.evict b = some c') :
    ∃ id, c.lru b = some id ∧ c.isDirty id = false ∧
      c' = { c with lru := update c.lru b none } := by
  rw [evict] at h
  split at h
  · split_ifs at h with hd
    cases h
    exact ⟨_, ‹_›, Bool.eq_false_iff.mpr hd, rfl⟩
  · cases h

theorem Inv.attach (h : c.Inv) {i : ℕ} (hattach : c.attach i = some c') : c'.Inv := by
  obtain ⟨id, p, hp, rfl⟩ := attach_eq_some hattach
  cases hnone : c.lru p.block with
  | some _ => exact ⟨h.lru, h.dirty, h.clean, h.home, h.current⟩
  | none =>
    have hput := h.put hp hnone
    exact ⟨hput.lru, hput.dirty, hput.clean, hput.home, hput.current⟩

theorem Inv.evict (h : c.Inv) (hevict : c.evict b = some c') : c'.Inv := by
  obtain ⟨id, hid, hclean, rfl⟩ := evict_eq_some hevict
  have hne {b' : UInt64} {id' : ℕ} {p : CachedBlockPage} (hid' : c.lru b' = some id')
      (hp : c.pages[id']? = some p) (hd : p.dirty = true) : b' ≠ b := by
    rintro rfl
    obtain rfl := some.inj (hid.symm.trans hid')
    rw [isDirty_of hp, hd] at hclean
    cases hclean
  refine ⟨fun {b' id'} hb' ↦ ?_, fun {id' p} hp hd ↦ ?_, h.clean, h.home, fun b' ↦ ?_⟩
  · change update c.lru _ _ b' = _ at hb'
    by_cases hb : b' = b
    · rw [hb, update_self] at hb'
      cases hb'
    · rw [update_of_ne hb] at hb'
      exact h.lru hb'
  · obtain ⟨hlru, hversion⟩ := h.dirty hp hd
    exact ⟨(update_of_ne (hne hlru hp hd) _ _).trans hlru, hversion⟩
  · exact (h.current b').imp_right fun ⟨id', p, hid', hp, hd⟩ ↦
      ⟨id', p, (update_of_ne (hne hid' hp hd) _ _).trans hid', hp, hd⟩

/-- A dirty page has the block's last write, so bringing it home brings the block up to date. -/
theorem Inv.land (h : c.Inv) (hp : c.pages[id]? = some p)
    (hdirty : p.dirty = true) : Inv { c with home := update c.home p.block p.version } := by
  have hversion := (h.dirty hp hdirty).2
  have hle (b : UInt64) : c.home b ≤ update c.home p.block p.version b := by
    by_cases hb : b = p.block
    · rw [hb, update_self, hversion]
      exact h.home _
    · rw [update_of_ne hb]
  refine ⟨h.lru, h.dirty, fun hq hd ↦ (h.clean hq hd).trans (hle _), fun b ↦ ?_, fun b ↦ ?_⟩
  · change update c.home p.block p.version b ≤ _
    by_cases hb : b = p.block
    · rw [hb, update_self, hversion]
    · rw [update_of_ne hb]
      exact h.home b
  · change update c.home p.block p.version b = _ ∨ _
    by_cases hb : b = p.block
    · rw [hb, update_self]
      exact .inl hversion
    · rw [update_of_ne hb]
      exact h.current b

/-- A page that is up to date at home may be marked clean. -/
theorem Inv.markClean (h : c.Inv) (hp : c.pages[id]? = some p)
    (hhome : c.home p.block = (c.writes p.block).length) :
    Inv { c with pages := c.pages.set id { p with dirty := false } } := by
  refine ⟨fun {b' id'} hb' ↦ ?_, fun {id' q} hq hd ↦ ?_, fun {id' q} hq hd ↦ ?_, h.home,
    fun b' ↦ ?_⟩
  · obtain ⟨q, hq, rfl⟩ := h.lru hb'
    obtain ⟨q', hq', hqb, -⟩ := exists_page_set (x := { p with dirty := false }) hp rfl le_rfl hq
    exact ⟨q', hq', hqb⟩
  · rcases getElem?_set_cases hq with ⟨-, rfl⟩ | ⟨-, hq⟩
    · cases hd
    · exact h.dirty hq hd
  · rcases getElem?_set_cases hq with ⟨-, rfl⟩ | ⟨-, hq⟩
    · exact (h.version_le hp).trans hhome.ge
    · exact h.clean hq hd
  · by_cases hb : b' = p.block
    · rw [hb]
      exact .inl hhome
    · refine (h.current b').imp_right fun ⟨id', q, hid', hq, hd⟩ ↦ ⟨id', q, hid', ?_, hd⟩
      have hid : id' ≠ id := by
        rintro rfl
        obtain ⟨q, hq', hqb⟩ := h.lru hid'
        obtain rfl := some.inj (hp.symm.trans hq')
        exact hb hqb.symm
      rw [getElem?_set_ne (Ne.symm hid), hq]

theorem Inv.writeBack (h : c.Inv) {landed ok : Bool} (hp : c.pages[id]? = some p)
    (hdirty : p.dirty = true) (hok : ok = true → landed = true) :
    (c.writeBack id p landed ok).Inv := by
  cases ok with
  | true =>
    obtain rfl := hok rfl
    refine (h.land hp hdirty).markClean hp ?_
    exact (update_self _ _ _).trans (h.dirty hp hdirty).2
  | false =>
    cases landed with
    | true => exact h.land hp hdirty
    | false => exact h

/-- **Step.** -/
theorem Inv.changes (h : c.Inv) (hstep : Changes c c') : c'.Inv := by
  cases hstep with
  | refl => exact h
  | writePage b w =>
    rw [BlockPageCache.writePage]
    split
    · exact h.overwrite ‹_› w
    · exact h.insert ‹_› w
  | list | unlist => exact ⟨h.lru, h.dirty, h.clean, h.home, h.current⟩
  | fill b => exact h.fill b
  | load b =>
    have hfill := h.fill b
    exact ⟨hfill.lru, hfill.dirty, hfill.clean, hfill.home, hfill.current⟩
  | attach hattach => exact h.attach hattach
  | evict hevict => exact h.evict hevict
  | writeBack hp hdirty hok => exact h.writeBack hp hdirty hok

/-! ## Nothing gets older -/

theorem Grows.refl (c : BlockPageCache) : Grows c c where
  pages hp := ⟨_, hp, rfl, le_refl _⟩
  home _ := le_refl _
  writes _ := prefix_rfl
  initial := rfl

theorem Grows.getElem?_writes (h : Grows c c') {k : ℕ} (hk : k < (c.writes b).length) :
    (c'.writes b)[k]? = (c.writes b)[k]? := by
  obtain ⟨t, ht⟩ := h.writes b
  rw [← ht, getElem?_append_left hk]

theorem Grows.content (h : Grows c c') {v : ℕ} (hv : v ≤ (c.writes b).length) :
    c'.content b v = c.content b v := by
  cases v with
  | zero => exact congrFun h.initial b
  | succ k => rw [BlockPageCache.content, BlockPageCache.content, h.getElem?_writes hv, h.initial]

theorem Grows.append {pages : List CachedBlockPage} (hpages : c'.pages = c.pages ++ pages)
    (hhome : c'.home = c.home) (hwrites : ∀ b, c.writes b <+: c'.writes b)
    (hinitial : c'.initial = c.initial) : Grows c c' where
  pages {id p} hp := by
    obtain ⟨hlt, -⟩ := List.getElem?_eq_some_iff.mp hp
    exact ⟨p, by rw [hpages, getElem?_append_left hlt, hp], rfl, le_refl _⟩
  home b := by rw [hhome]
  writes := hwrites
  initial := hinitial

/-- **Step.** -/
theorem Changes.grows (h : c.Inv) (hstep : Changes c c') : Grows c c' := by
  cases hstep with
  | refl => exact .refl c
  | writePage b w =>
    rw [BlockPageCache.writePage]
    split
    · rename_i id hid
      obtain ⟨p, hp, rfl⟩ := h.lru hid
      exact ⟨exists_page_set hp rfl ((h.version_le hp).trans (Nat.le_succ _)), fun _ ↦ le_refl _,
        c.prefix_writes_log p.block w, rfl⟩
    · exact .append rfl rfl (c.prefix_writes_log b w) rfl
  | list | unlist => exact ⟨(Grows.refl c).pages, (Grows.refl c).home, (Grows.refl c).writes, rfl⟩
  | fill | load => exact .append rfl rfl (fun _ ↦ prefix_rfl) rfl
  | attach hattach =>
    obtain ⟨id, p, -, rfl⟩ := attach_eq_some hattach
    exact ⟨(Grows.refl c).pages, (Grows.refl c).home, (Grows.refl c).writes, rfl⟩
  | evict hevict =>
    obtain ⟨id, -, -, rfl⟩ := evict_eq_some hevict
    exact ⟨(Grows.refl c).pages, (Grows.refl c).home, (Grows.refl c).writes, rfl⟩
  | @writeBack id p landed ok hp hdirty hok =>
    refine ⟨fun {id' q} hq ↦ ?_, fun b ↦ ?_, fun _ ↦ prefix_rfl, rfl⟩
    · cases ok with
      | false => exact ⟨q, hq, rfl, le_refl _⟩
      | true => exact exists_page_set hp rfl le_rfl hq
    · cases landed with
      | false => exact le_refl _
      | true =>
        change _ ≤ update c.home p.block p.version b
        by_cases hb : b = p.block
        · rw [hb, update_self, (h.dirty hp hdirty).2]
          exact h.home _
        · rw [update_of_ne hb]

end BlockPageCache

end Edos

import Edos.Fs.BlockPageCache
import Edos.Journal.Sequence

/-!
# Handles, writeback and the journal together

The journal of `Machine` is told which blocks a handle merges, what is in the pages when they are
copied, and below which transaction everything is at home. Here these come from where they come from
in the kernel: file system operations write blocks through the cache inside an open handle,
writeback brings dirty pages home, and `advance_tail` reads its bound from the checkpoint tracker.

## Threads

Any number of handles are open at once, any number of writeback passes and of calls of
`advance_tail` are under way, and there is one committer. As in `Machine`, a step is one critical
section, one device operation, or one access to shared state outside of any lock; a run is any
interleaving.

* `write_block` copies the data into the page under the page's lock, then lists the block as dirty
  (or, for a detached page, writes it through to its home location), then enrols the page.
* A handle's drop merges under the journal's `state` lock, and afterwards, under another lock,
  enters its dirty pages in the tracker, one at a time here.
* A writeback pass takes a listed block, looks up its page, reads the block's tracker entry, reads
  `committed_seq`, writes the page, reports the checkpoint, and unlists the block.
* `advance_tail` prunes the tracker (snapshot the keys, ask the cache about each, remove), reads
  `committed_seq`, reads the least entry of the tracker, and sweeps.
* The committer copies the pages of a popped transaction one at a time, with no lock.
-/

namespace Edos

open Function List Option Std

/-- What a handle is in the middle of writing: a block and the page it went into. -/
inductive Writing where
  | none
  | cached (b : UInt64) (id : ℕ)
  /-- The page is detached and has to be written through. -/
  | detached (b : UInt64) (id : ℕ)
  /-- The detached page is at home; the checkpoint is to be reported. -/
  | landed (b : UInt64) (id : ℕ)

/-- The life of a handle. -/
inductive Phase where
  | active
  /-- Merged into the transaction with this number; the given pages are still to be tracked. -/
  | merged (seq : ℕ) (todo : List (UInt64 × ℕ))
  /-- Dropped with nothing merged. -/
  | discarded

/-- A handle and the thread that has it. -/
structure Handle where
  tx : TxHandle ℕ
  writing : Writing
  phase : Phase

namespace Handle

def new : Handle := ⟨.new, .none, .active⟩

/-- Whether the handle's thread may start its next operation. -/
def ready (h : Handle) : Bool :=
  match h.phase, h.writing with
  | .active, .none => true
  | _, _ => false

theorem of_ready {h : Handle} (hready : h.ready = true) :
    h.phase = .active ∧ h.writing = .none := by
  rw [ready] at hready
  split at hready
  · exact ⟨‹_›, ‹_›⟩
  · cases hready

/-- A merged handle stays merged, and has ever fewer pages to track. -/
def Evolves (h h' : Handle) : Prop :=
  ∀ q todo, h.phase = .merged q todo → ∃ todo', h'.phase = .merged q todo' ∧ todo' ⊆ todo

theorem Evolves.of_phase {h h' : Handle} (hphase : h'.phase = h.phase) : h.Evolves h' :=
  fun _ todo hm ↦ ⟨todo, hphase.trans hm, List.Subset.refl _⟩

theorem Evolves.of_ready {h : Handle} (hready : h.ready = true) (h' : Handle) : h.Evolves h' := by
  intro q todo hm
  rw [(Handle.of_ready hready).1] at hm
  cases hm

end Handle

/-- A writeback pass at work on a block. -/
inductive Flush where
  /-- In the pass's snapshot of the dirty list. -/
  | queued (b : UInt64)
  /-- There was no page in the cache. -/
  | absent (b : UInt64)
  | found (id : ℕ)
  /-- The block's tracker entry is read. -/
  | read (id : ℕ) (seq : Option ℕ)
  /-- Past the gate. -/
  | batched (id : ℕ) (seq : Option ℕ)
  | written (id : ℕ) (seq : Option ℕ)
  | noted (id : ℕ)

/-- A thread in `advance_tail`, up to its sweep. -/
inductive Sweeper where
  /-- `prune_checkpointed`: the keys to ask about, and those found at home. -/
  | querying (todo atHome : List UInt64)
  | pruned
  | committed (seq : ℕ)
  | bounded (min : ℕ)

/-- The journal, the cache, and every thread that works on them. -/
structure System where
  journal : Journal ℕ
  /-- `checkpoint_tracker`. -/
  tracker : ExtTreeMap UInt64 ℕ
  cache : BlockPageCache
  handles : List Handle
  flushes : List Flush
  sweepers : List Sweeper
  /-- The copies that the committer has made so far of the pages of the transaction at hand. -/
  copied : UInt64 → Option ℕ
  /-- The copies that went into each transaction. The code does not keep this. -/
  copies : ℕ → UInt64 → Option ℕ

namespace System

def mounted (seq block : ℕ) (ring : ℕ → List UInt8) (headSeq headBlock : ℕ)
    (initial : UInt64 → Page) : System where
  journal := .mounted seq block ring headSeq headBlock
  tracker := ∅
  cache := .mounted initial
  handles := []
  flushes := []
  sweepers := []
  copied := fun _ ↦ none
  copies := fun _ _ ↦ none

/-- What can happen. Handles, writeback passes and sweepers are named by their place. -/
inductive Action where
  | begin
  /-- `write_block`, up to the release of the page's lock. -/
  | writePage (i : ℕ) (b : UInt64) (data : Page)
  /-- The rest of `write_block`: the block is listed and the page enrolled. -/
  | publish (i : ℕ)
  /-- `write_block` when the cache has no room. -/
  | writeDetached (i : ℕ) (b : UInt64) (data : Page)
  | writeThrough (i : ℕ) (landed ok : Bool)
  | noteThrough (i : ℕ)
  /-- A page is read and enrolled as it is. -/
  | enrollRead (i : ℕ) (b : UInt64)
  | enrollDetached (i : ℕ) (b : UInt64)
  | enrollRevoke (i : ℕ) (b : UInt64)
  | abort (i : ℕ)
  | drop (i : ℕ)
  /-- The drop goes on: the next page is tracked. -/
  | track (i : ℕ)
  | load (b : UInt64)
  | attach (k : ℕ)
  | evict (b : UInt64)
  | flushStart (b : UInt64)
  | flushLookup (k : ℕ)
  | flushForget (k : ℕ)
  | flushRead (k : ℕ)
  /-- The gate; `due` says that the pass is forced or the page has been dirty for long enough. -/
  | flushGate (k : ℕ) (due : Bool)
  | flushWrite (k : ℕ) (landed ok : Bool)
  | flushNote (k : ℕ)
  | flushClean (k : ℕ)
  | advanceStart
  | query (k : ℕ)
  | prune (k : ℕ)
  | readCommitted (k : ℕ)
  | readBound (k : ℕ)
  /-- The sweep; `own` says that this is the committer's `checkpoint_and_advance`. -/
  | sweep (k : ℕ) (own : Bool)
  | copyPage (b : UInt64)
  | capture
  /-- Any other step of the journal. -/
  | journal (a : Journal.Action ℕ)

variable (s : System)

/-- The bound that `advance_tail` sweeps with. -/
def bound (committed : ℕ) : ℕ :=
  ((s.tracker.toList.map Prod.snd).min?).getD (min (committed + 1) (2 ^ 64 - 1))

/-- The contents of the copies made so far, by page. -/
def copyOf (id : ℕ) : Page :=
  match s.cache.pages[id]? with
  | some p => s.cache.content p.block ((s.copied p.block).getD 0)
  | none => Page.zero

/-- `note_checkpointed`. -/
def noteCheckpointed (b : UInt64) (seq : ℕ) : ExtTreeMap UInt64 ℕ :=
  if s.tracker[b]? = some seq then s.tracker.erase b else s.tracker

variable (ringSize : ℕ)

/-- What the thread of an open handle does. -/
def stepHandle (i : ℕ) (h : Handle) : Action → Option System
  | .writePage _ b data =>
    if h.ready then
      let (c, id) := s.cache.writePage b ⟨i, data⟩
      some { s with
        cache := c
        handles := s.handles.set i { h with writing := .cached b id } }
    else none
  | .publish _ =>
    match h.writing with
    | .cached b id => some { s with
        cache := s.cache.list b
        handles := s.handles.set i { h with tx := h.tx.enrollBlock b id, writing := .none } }
    | _ => none
  | .writeDetached _ b data =>
    if h.ready && (s.cache.lru b).isNone then
      some { s with
        cache := s.cache.writeDetached b ⟨i, data⟩
        handles := s.handles.set i { h with writing := .detached b s.cache.pages.length } }
    else none
  | .writeThrough _ landed ok =>
    match h.writing with
    | .detached b id =>
      match s.cache.pages[id]? with
      | some p =>
        if ok && !landed then none
        else some { s with
          cache.home :=
            if landed then update s.cache.home b p.version else s.cache.home
          handles := s.handles.set i { h with writing := if ok then .landed b id else .none } }
      | none => none
    | _ => none
  | .noteThrough _ =>
    -- looks the entry up and reports it as checkpointed, whatever it is
    match h.writing with
    | .landed b id => some { s with
        tracker := s.tracker.erase b
        handles := s.handles.set i { h with tx := h.tx.enrollBlock b id, writing := .none } }
    | _ => none
  | .enrollRead _ b =>
    if h.ready then
      match s.cache.lru b with
      | some id => some { s with
          handles := s.handles.set i { h with tx := h.tx.enrollBlock b id } }
      | none => none
    else none
  | .enrollDetached _ b =>
    if h.ready && (s.cache.lru b).isNone then
      some { s with
        cache := s.cache.fill b
        handles := s.handles.set i { h with tx := h.tx.enrollBlock b s.cache.pages.length } }
    else none
  | .enrollRevoke _ b =>
    if h.ready then
      some { s with handles := s.handles.set i { h with tx := h.tx.enrollRevoke b } }
    else none
  | .abort _ =>
    if h.ready then some { s with handles := s.handles.set i { h with tx := h.tx.abort } }
    else none
  | .drop _ =>
    if h.ready then
      if h.tx.aborted || (h.tx.stagedBlocks.isEmpty && h.tx.stagedRevokes.isEmpty) then
        some { s with handles := s.handles.set i { h with phase := .discarded } }
      else
        (s.journal.step ringSize (.merge h.tx.stagedBlocks h.tx.stagedRevokes)).map fun j ↦
          { s with
            journal := j
            handles := s.handles.set i
              { h with phase := .merged s.journal.state.active.seq h.tx.stagedBlocks.toList } }
    else none
  | .track _ =>
    match h.phase with
    | .merged seq ((b, id) :: todo) => some { s with
        tracker := if s.cache.isDirty id then s.tracker.insert b seq else s.tracker
        handles := s.handles.set i { h with phase := .merged seq todo } }
    | _ => none
  | _ => none

/-- What a writeback pass does with a block. -/
def stepFlush (k : ℕ) (f : Flush) : Action → Option System
  | .flushLookup _ =>
    match f with
    | .queued b => some { s with
        flushes := s.flushes.set k ((s.cache.lru b).elim (.absent b) .found) }
    | _ => none
  | .flushForget _ =>
    match f with
    | .absent b => some { s with cache := s.cache.unlist b, flushes := s.flushes.eraseIdx k }
    | _ => none
  | .flushRead _ =>
    match f with
    | .found id => (s.cache.pages[id]?).map fun p ↦
        { s with flushes := s.flushes.set k (.read id s.tracker[p.block]?) }
    | _ => none
  | .flushGate _ due =>
    match f with
    | .read id seq => some { s with
        flushes :=
          if seq.all (· ≤ s.journal.state.committedSeq) && due then
            s.flushes.set k (.batched id seq)
          else s.flushes.eraseIdx k }
    | _ => none
  | .flushWrite _ landed ok =>
    match f with
    | .batched id seq =>
      match s.cache.pages[id]? with
      | some p =>
        if !p.dirty then some { s with flushes := s.flushes.eraseIdx k }
        else if ok && !landed then none
        else some { s with
          cache := s.cache.writeBack id p landed ok
          flushes :=
            if ok then s.flushes.set k (.written id seq) else s.flushes.eraseIdx k }
      | none => none
    | _ => none
  | .flushNote _ =>
    match f with
    | .written id seq => (s.cache.pages[id]?).map fun p ↦
        { s with
          tracker := seq.elim s.tracker (s.noteCheckpointed p.block)
          flushes := s.flushes.set k (.noted id) }
    | _ => none
  | .flushClean _ =>
    match f with
    | .noted id => (s.cache.pages[id]?).map fun p ↦
        { s with
          cache := if p.dirty then s.cache else s.cache.unlist p.block
          flushes := s.flushes.eraseIdx k }
    | _ => none
  | _ => none

/-- What a thread in `advance_tail` does, up to the sweep. -/
def stepSweeper (k : ℕ) (w : Sweeper) : Action → Option System
  | .query _ =>
    match w with
    | .querying (b :: todo) atHome => some { s with
        sweepers := s.sweepers.set k
          (.querying todo (if s.cache.dirty b then atHome else atHome ++ [b])) }
    | _ => none
  | .prune _ =>
    match w with
    | .querying [] atHome => some { s with
        tracker := atHome.foldl (fun t b ↦ t.erase b) s.tracker
        sweepers := s.sweepers.set k .pruned }
    | _ => none
  | .readCommitted _ =>
    match w with
    | .pruned => some { s with
        sweepers := s.sweepers.set k (.committed s.journal.state.committedSeq) }
    | _ => none
  | .readBound _ =>
    match w with
    | .committed seq => some { s with sweepers := s.sweepers.set k (.bounded (s.bound seq)) }
    | _ => none
  | .sweep _ own =>
    match w with
    | .bounded min =>
      (s.journal.step ringSize (if own then .checkpointSweep min else .sweep min)).map fun j ↦
        { s with journal := j, sweepers := s.sweepers.eraseIdx k }
    | _ => none
  | _ => none

/-- The steps of the journal that need nothing from outside. -/
def internal : Journal.Action ℕ → Bool
  | .merge _ _ | .capture _ | .sweep _ | .checkpointSweep _ => false
  | _ => true

/-- Such a step. The copies of the last transaction are gone when the committer takes the next. -/
def stepJournal (a : Journal.Action ℕ) : Option System :=
  if internal a then
    (s.journal.step ringSize a).map fun j ↦
      { s with
        journal := j
        copied := match a with
          | .pop => fun _ ↦ none
          | _ => s.copied }
  else none

/-- One step of the system. -/
def step : Action → Option System
  | .begin => some { s with handles := s.handles ++ [.new] }
  | a@(.writePage i _ _) | a@(.publish i) | a@(.writeDetached i _ _) | a@(.writeThrough i _ _)
  | a@(.noteThrough i) | a@(.enrollRead i _) | a@(.enrollDetached i _) | a@(.enrollRevoke i _)
  | a@(.abort i) | a@(.drop i) | a@(.track i) =>
    s.handles[i]?.bind fun h ↦ s.stepHandle ringSize i h a
  | .load b => some { s with
      cache := { s.cache.fill b with loading := s.cache.loading ++ [s.cache.pages.length] } }
  | .attach k => (s.cache.attach k).map fun c ↦ { s with cache := c }
  | .evict b => (s.cache.evict b).map fun c ↦ { s with cache := c }
  | .flushStart b =>
    if s.cache.dirty b then some { s with flushes := s.flushes ++ [.queued b] } else none
  | a@(.flushLookup k) | a@(.flushForget k) | a@(.flushRead k) | a@(.flushGate k _)
  | a@(.flushWrite k _ _) | a@(.flushNote k) | a@(.flushClean k) =>
    s.flushes[k]?.bind fun f ↦ s.stepFlush k f a
  | .advanceStart => some { s with sweepers := s.sweepers ++ [.querying s.tracker.keys []] }
  | a@(.query k) | a@(.prune k) | a@(.readCommitted k) | a@(.readBound k) | a@(.sweep k _) =>
    s.sweepers[k]?.bind fun w ↦ s.stepSweeper ringSize k w a
  | .copyPage b =>
    match s.journal.committer with
    | .popped tx => (tx.enrolledBlocks[b]?.bind fun id ↦ s.cache.pages[id]?).map fun p ↦
        { s with copied := update s.copied b (some p.version) }
    | _ => none
  | .capture =>
    match s.journal.committer with
    | .popped tx =>
      if tx.enrolledBlocks.keys.all fun b ↦ (s.copied b).isSome then
        (s.journal.step ringSize (.capture s.copyOf)).map fun j ↦
          { s with journal := j, copies := update s.copies tx.seq s.copied }
      else none
    | _ => none
  | .journal a => s.stepJournal ringSize a

/-! ## What a step can do -/

/-- The steps of the system, case by case. -/
inductive Takes : Action → System → Prop
  | begin : Takes .begin { s with handles := s.handles ++ [.new] }
  | writePage {i : ℕ} {h : Handle} (b : UInt64) (data : Page) (hi : s.handles[i]? = some h)
      (hready : h.ready = true) :
      Takes (.writePage i b data) { s with
        cache := (s.cache.writePage b ⟨i, data⟩).1
        handles := s.handles.set i
          { h with writing := .cached b (s.cache.writePage b ⟨i, data⟩).2 } }
  | publish {i id : ℕ} {h : Handle} {b : UInt64} (hi : s.handles[i]? = some h)
      (hw : h.writing = .cached b id) :
      Takes (.publish i) { s with
        cache := s.cache.list b
        handles := s.handles.set i { h with tx := h.tx.enrollBlock b id, writing := .none } }
  | writeDetached {i : ℕ} {h : Handle} {b : UInt64} (data : Page) (hi : s.handles[i]? = some h)
      (hready : h.ready = true) (hlru : s.cache.lru b = none) :
      Takes (.writeDetached i b data) { s with
        cache := s.cache.writeDetached b ⟨i, data⟩
        handles := s.handles.set i { h with writing := .detached b s.cache.pages.length } }
  | writeThrough {i id : ℕ} {h : Handle} {b : UInt64} {p : CachedBlockPage} {landed ok : Bool}
      (hi : s.handles[i]? = some h) (hw : h.writing = .detached b id)
      (hp : s.cache.pages[id]? = some p) (hok : ok = true → landed = true) :
      Takes (.writeThrough i landed ok) { s with
        cache.home := if landed then update s.cache.home b p.version else s.cache.home
        handles := s.handles.set i { h with writing := if ok then .landed b id else .none } }
  | noteThrough {i id : ℕ} {h : Handle} {b : UInt64} (hi : s.handles[i]? = some h)
      (hw : h.writing = .landed b id) :
      Takes (.noteThrough i) { s with
        tracker := s.tracker.erase b
        handles := s.handles.set i { h with tx := h.tx.enrollBlock b id, writing := .none } }
  | enrollRead {i id : ℕ} {h : Handle} {b : UInt64} (hi : s.handles[i]? = some h)
      (hready : h.ready = true) (hlru : s.cache.lru b = some id) :
      Takes (.enrollRead i b) { s with
        handles := s.handles.set i { h with tx := h.tx.enrollBlock b id } }
  | enrollDetached {i : ℕ} {h : Handle} {b : UInt64} (hi : s.handles[i]? = some h)
      (hready : h.ready = true) (hlru : s.cache.lru b = none) :
      Takes (.enrollDetached i b) { s with
        cache := s.cache.fill b
        handles := s.handles.set i { h with tx := h.tx.enrollBlock b s.cache.pages.length } }
  | enrollRevoke {i : ℕ} {h : Handle} (b : UInt64) (hi : s.handles[i]? = some h)
      (hready : h.ready = true) :
      Takes (.enrollRevoke i b) { s with
        handles := s.handles.set i { h with tx := h.tx.enrollRevoke b } }
  | abort {i : ℕ} {h : Handle} (hi : s.handles[i]? = some h) (hready : h.ready = true) :
      Takes (.abort i) { s with handles := s.handles.set i { h with tx := h.tx.abort } }
  | discard {i : ℕ} {h : Handle} (hi : s.handles[i]? = some h) (hready : h.ready = true)
      (hskip : (h.tx.aborted || (h.tx.stagedBlocks.isEmpty && h.tx.stagedRevokes.isEmpty)) = true) :
      Takes (.drop i) { s with handles := s.handles.set i { h with phase := .discarded } }
  | drop {i : ℕ} {h : Handle} (hi : s.handles[i]? = some h) (hready : h.ready = true)
      (hskip : (h.tx.aborted ||
        (h.tx.stagedBlocks.isEmpty && h.tx.stagedRevokes.isEmpty)) = false) :
      Takes (.drop i) { s with
        journal.state.active :=
          s.journal.state.active.merge h.tx.stagedBlocks h.tx.stagedRevokes
        handles := s.handles.set i
          { h with phase := .merged s.journal.state.active.seq h.tx.stagedBlocks.toList } }
  | track {i seq id : ℕ} {h : Handle} {b : UInt64} {todo : List (UInt64 × ℕ)}
      (hi : s.handles[i]? = some h) (hphase : h.phase = .merged seq ((b, id) :: todo)) :
      Takes (.track i) { s with
        tracker := if s.cache.isDirty id then s.tracker.insert b seq else s.tracker
        handles := s.handles.set i { h with phase := .merged seq todo } }
  | load (b : UInt64) : Takes (.load b) { s with
      cache := { s.cache.fill b with loading := s.cache.loading ++ [s.cache.pages.length] } }
  | attach {k : ℕ} {c : BlockPageCache} (hc : s.cache.attach k = some c) :
      Takes (.attach k) { s with cache := c }
  | evict {b : UInt64} {c : BlockPageCache} (hc : s.cache.evict b = some c) :
      Takes (.evict b) { s with cache := c }
  | flushStart {b : UInt64} (hb : s.cache.dirty b = true) :
      Takes (.flushStart b) { s with flushes := s.flushes ++ [.queued b] }
  | flushLookup {k : ℕ} {b : UInt64} (hk : s.flushes[k]? = some (.queued b)) :
      Takes (.flushLookup k) { s with
        flushes := s.flushes.set k ((s.cache.lru b).elim (.absent b) .found) }
  | flushForget {k : ℕ} {b : UInt64} (hk : s.flushes[k]? = some (.absent b)) :
      Takes (.flushForget k) { s with
        cache := s.cache.unlist b, flushes := s.flushes.eraseIdx k }
  | flushRead {k id : ℕ} {p : CachedBlockPage} (hk : s.flushes[k]? = some (.found id))
      (hp : s.cache.pages[id]? = some p) :
      Takes (.flushRead k) { s with flushes := s.flushes.set k (.read id s.tracker[p.block]?) }
  | flushSkip {k id : ℕ} {seq : Option ℕ} {due : Bool} (hk : s.flushes[k]? = some (.read id seq))
      (hskip : ¬(seq.all (· ≤ s.journal.state.committedSeq) && due) = true) :
      Takes (.flushGate k due) { s with flushes := s.flushes.eraseIdx k }
  | flushGate {k id : ℕ} {seq : Option ℕ} (hk : s.flushes[k]? = some (.read id seq))
      (hgate : ∀ q, seq = some q → q ≤ s.journal.state.committedSeq) :
      Takes (.flushGate k true) { s with flushes := s.flushes.set k (.batched id seq) }
  | flushDrop {k id : ℕ} {seq : Option ℕ} {p : CachedBlockPage} {landed ok : Bool}
      (hk : s.flushes[k]? = some (.batched id seq)) (hp : s.cache.pages[id]? = some p)
      (hclean : p.dirty = false) :
      Takes (.flushWrite k landed ok) { s with flushes := s.flushes.eraseIdx k }
  | flushWrite {k id : ℕ} {seq : Option ℕ} {p : CachedBlockPage} {landed ok : Bool}
      (hk : s.flushes[k]? = some (.batched id seq)) (hp : s.cache.pages[id]? = some p)
      (hdirty : p.dirty = true) (hok : ok = true → landed = true) :
      Takes (.flushWrite k landed ok) { s with
        cache := s.cache.writeBack id p landed ok
        flushes := if ok then s.flushes.set k (.written id seq) else s.flushes.eraseIdx k }
  | flushNote {k id : ℕ} {seq : Option ℕ} {p : CachedBlockPage}
      (hk : s.flushes[k]? = some (.written id seq)) (hp : s.cache.pages[id]? = some p) :
      Takes (.flushNote k) { s with
        tracker := seq.elim s.tracker (s.noteCheckpointed p.block)
        flushes := s.flushes.set k (.noted id) }
  | flushClean {k id : ℕ} {p : CachedBlockPage} (hk : s.flushes[k]? = some (.noted id))
      (hp : s.cache.pages[id]? = some p) :
      Takes (.flushClean k) { s with
        cache := if p.dirty then s.cache else s.cache.unlist p.block
        flushes := s.flushes.eraseIdx k }
  | advanceStart :
      Takes .advanceStart { s with sweepers := s.sweepers ++ [.querying s.tracker.keys []] }
  | query {k : ℕ} {b : UInt64} {todo atHome : List UInt64}
      (hk : s.sweepers[k]? = some (.querying (b :: todo) atHome)) :
      Takes (.query k) { s with
        sweepers := s.sweepers.set k
          (.querying todo (if s.cache.dirty b then atHome else atHome ++ [b])) }
  | prune {k : ℕ} {atHome : List UInt64} (hk : s.sweepers[k]? = some (.querying [] atHome)) :
      Takes (.prune k) { s with
        tracker := atHome.foldl (fun t b ↦ t.erase b) s.tracker
        sweepers := s.sweepers.set k .pruned }
  | readCommitted {k : ℕ} (hk : s.sweepers[k]? = some .pruned) :
      Takes (.readCommitted k) { s with
        sweepers := s.sweepers.set k (.committed s.journal.state.committedSeq) }
  | readBound {k seq : ℕ} (hk : s.sweepers[k]? = some (.committed seq)) :
      Takes (.readBound k) { s with sweepers := s.sweepers.set k (.bounded (s.bound seq)) }
  | sweep {k min : ℕ} {own : Bool} {j : Journal ℕ} (hk : s.sweepers[k]? = some (.bounded min))
      (hj : s.journal.Takes ringSize (if own then .checkpointSweep min else .sweep min) j) :
      Takes (.sweep k own) { s with journal := j, sweepers := s.sweepers.eraseIdx k }
  | copyPage {tx : Transaction ℕ} {b : UInt64} {id : ℕ} {p : CachedBlockPage}
      (hc : s.journal.committer = .popped tx) (hb : tx.enrolledBlocks[b]? = some id)
      (hp : s.cache.pages[id]? = some p) :
      Takes (.copyPage b) { s with copied := update s.copied b (some p.version) }
  | capture {tx : Transaction ℕ} {j : Journal ℕ} (hc : s.journal.committer = .popped tx)
      (hall : ∀ b ∈ tx.enrolledBlocks, (s.copied b).isSome)
      (hj : s.journal.Takes ringSize (.capture s.copyOf) j) :
      Takes .capture { s with
        journal := j, copies := update s.copies tx.seq s.copied }
  | pop {j : Journal ℕ} (hj : s.journal.Takes ringSize .pop j) :
      Takes (.journal .pop) { s with journal := j, copied := fun _ ↦ none }
  | journal {a : Journal.Action ℕ} {j : Journal ℕ} (hin : internal a = true) (hpop : a ≠ .pop)
      (hj : s.journal.Takes ringSize a j) : Takes (.journal a) { s with journal := j }

variable {s} {s' : System} {ringSize : ℕ} {a : Action}

/-- **Inversion.** -/
theorem takes_of_step (h : s.step ringSize a = some s') : Takes s ringSize a s' := by
  cases a with
    -- the handle, the flush or the sweeper that an action names is looked up first
    try (rw [step, bind_eq_some_iff] at h; obtain ⟨x, hx, h⟩ := h; try rw [stepHandle] at h)
  | begin => cases h; exact .begin
  | writePage i b data =>
    split_ifs at h with hr
    cases h
    exact .writePage b data hx hr
  | publish i =>
    split at h
    · cases h
      exact .publish hx ‹_›
    · cases h
  | writeDetached i b data =>
    split_ifs at h with hr
    cases h
    rw [Bool.and_eq_true, isNone_iff_eq_none] at hr
    exact .writeDetached data hx hr.1 hr.2
  | writeThrough i landed ok =>
    split at h
    · split at h
      · obtain ⟨hok, rfl⟩ := Journal.eq_of_completed h
        exact .writeThrough hx ‹_› ‹_› hok
      · cases h
    · cases h
  | noteThrough i =>
    split at h
    · cases h
      exact .noteThrough hx ‹_›
    · cases h
  | enrollRead i b =>
    split_ifs at h with hr
    split at h
    · cases h
      exact .enrollRead hx hr ‹_›
    · cases h
  | enrollDetached i b =>
    split_ifs at h with hr
    cases h
    rw [Bool.and_eq_true, isNone_iff_eq_none] at hr
    exact .enrollDetached hx hr.1 hr.2
  | enrollRevoke i b =>
    split_ifs at h with hr
    cases h
    exact .enrollRevoke b hx hr
  | abort i =>
    split_ifs at h with hr
    cases h
    exact .abort hx hr
  | drop i =>
    split_ifs at h with hr hskip
    · cases h
      exact .discard hx hr hskip
    · cases h
      exact .drop hx hr (Bool.eq_false_iff.mpr hskip)
  | track i =>
    split at h
    · cases h
      exact .track hx ‹_›
    · cases h
  | load b => cases h; exact .load b
  | attach k =>
    obtain ⟨c, hc, rfl⟩ := map_eq_some_iff.mp h
    exact .attach hc
  | evict b =>
    obtain ⟨c, hc, rfl⟩ := map_eq_some_iff.mp h
    exact .evict hc
  | flushStart b =>
    rw [step] at h
    split_ifs at h with hb
    cases h
    exact .flushStart hb
  | flushLookup k =>
    cases x <;> cases h
    exact .flushLookup hx
  | flushForget k =>
    cases x <;> cases h
    exact .flushForget hx
  | flushRead k =>
    cases x with
    | found id =>
      obtain ⟨p, hp, rfl⟩ := map_eq_some_iff.mp h
      exact .flushRead hx hp
    | _ => cases h
  | flushGate k due =>
    cases x with
    | read id seq =>
      cases h
      split_ifs with hgate
      · rw [Bool.and_eq_true] at hgate
        obtain ⟨hgate, rfl⟩ := hgate
        exact .flushGate hx fun q hq ↦ by simpa [hq] using hgate
      · exact .flushSkip hx hgate
    | _ => cases h
  | flushWrite k landed ok =>
    cases x with
    | batched id seq =>
      dsimp only [stepFlush] at h
      split at h
      · rename_i p hp
        cases hd : p.dirty with
        | false =>
          rw [hd, if_pos (by decide)] at h
          cases h
          exact .flushDrop hx hp hd
        | true =>
          rw [hd, if_neg (by decide)] at h
          obtain ⟨hok, rfl⟩ := Journal.eq_of_completed h
          exact .flushWrite hx hp hd hok
      · cases h
    | _ => cases h
  | flushNote k =>
    cases x with
    | written id seq =>
      obtain ⟨p, hp, rfl⟩ := map_eq_some_iff.mp h
      exact .flushNote hx hp
    | _ => cases h
  | flushClean k =>
    cases x with
    | noted id =>
      obtain ⟨p, hp, rfl⟩ := map_eq_some_iff.mp h
      exact .flushClean hx hp
    | _ => cases h
  | advanceStart => cases h; exact .advanceStart
  | query k =>
    cases x with
    | querying todo atHome =>
      cases todo <;> cases h
      exact .query hx
    | _ => cases h
  | prune k =>
    cases x with
    | querying todo atHome =>
      cases todo <;> cases h
      exact .prune hx
    | _ => cases h
  | readCommitted k =>
    cases x <;> cases h
    exact .readCommitted hx
  | readBound k =>
    cases x <;> cases h
    exact .readBound hx
  | sweep k own =>
    cases x with
    | bounded min =>
      obtain ⟨j, hj, rfl⟩ := map_eq_some_iff.mp h
      exact .sweep hx (Journal.takes_of_step hj)
    | _ => cases h
  | copyPage b =>
    rw [step] at h
    split at h
    · obtain ⟨p, hp, rfl⟩ := map_eq_some_iff.mp h
      obtain ⟨id, hid, hp⟩ := bind_eq_some_iff.mp hp
      exact .copyPage ‹_› hid hp
    · cases h
  | capture =>
    rw [step] at h
    split at h
    · split_ifs at h with hall
      obtain ⟨j, hj, rfl⟩ := map_eq_some_iff.mp h
      refine .capture ‹_› (fun b hb ↦ ?_) (Journal.takes_of_step hj)
      exact List.all_eq_true.mp hall b (ExtTreeMap.mem_keys.mpr hb)
    · cases h
  | journal a =>
    change (if internal a then _ else none) = some s' at h
    split_ifs at h with hin
    obtain ⟨j, hj, rfl⟩ := map_eq_some_iff.mp h
    have hj := Journal.takes_of_step hj
    cases a with
    | pop => exact .pop hj
    | _ => exact .journal hin (by simp) hj

theorem step_checkSpace {j : Journal ℕ} (hj : s.journal.Takes ringSize .checkSpace j) :
    s.step ringSize (.journal .checkSpace) = some { s with journal := j } := by
  simp only [step, stepJournal, Journal.step_checkSpace hj, map_some]
  rfl

/-! ## The parts of a step

A step of the system is a step of the journal or leaves it alone, it is a change of the cache, it
touches at most one handle, and so on. Invariants are about one or two of the parts. -/

/-- The write goes through a cached page. -/
def Cached : Action → Prop
  | .writeDetached _ _ _ | .writeThrough _ _ _ | .noteThrough _ => False
  | _ => True

theorem Takes.cache (h : Takes s ringSize a s') (hcached : Cached a) :
    s.cache.Changes s'.cache := by
  cases h with
  | writePage b data => exact .writePage _ _
  | publish => exact .list _
  | writeDetached | writeThrough | noteThrough => exact hcached.elim
  | enrollDetached => exact .fill _
  | load b => exact .load b
  | attach hc => exact .attach hc
  | evict hc => exact .evict hc
  | flushForget => exact .unlist _
  | flushWrite _ hp hdirty hok => exact .writeBack hp hdirty hok
  | flushClean =>
    split_ifs
    · exact .refl
    · exact .unlist _
  | _ => exact .refl

theorem Takes.journal_step (h : Takes s ringSize a s') :
    s'.journal = s.journal ∨ ∃ a', s.journal.Takes ringSize a' s'.journal ∧
      (internal a' = true → a = .journal a') ∧
      (∀ min, a' = .sweep min ∨ a' = .checkpointSweep min →
        ∃ k own, a = .sweep k own ∧ s.sweepers[k]? = some (.bounded min)) ∧
      ∀ blocks revokes, a' = .merge blocks revokes →
        ∃ (i : ℕ) (h : Handle), s.handles[i]? = some h ∧ h.ready = true ∧
          h.tx.stagedBlocks = blocks := by
  cases h with
  | drop hi hready =>
    refine .inr ⟨_, .merge _ _, nofun, by simp, fun blocks revokes heq ↦ ⟨_, _, hi, hready, ?_⟩⟩
    exact (Journal.Action.merge.inj heq).1
  | @sweep k min own j hk hj =>
    refine .inr ⟨_, hj, ?_, fun min' hmin ↦ ⟨k, own, rfl, ?_⟩, ?_⟩
    · cases own <;> exact nofun
    · cases own <;> simp_all
    · cases own <;> exact nofun
  | capture _ _ hj => exact .inr ⟨_, hj, nofun, by simp, nofun⟩
  | pop hj => exact .inr ⟨_, hj, fun _ ↦ rfl, by simp, nofun⟩
  | @journal a j hin hpop hj =>
    refine .inr ⟨_, hj, fun _ ↦ rfl, ?_, ?_⟩
    · rintro min (rfl | rfl) <;> cases hin
    · rintro blocks revokes rfl
      cases hin
  | _ => exact .inl rfl

variable {b : UInt64} {i q : ℕ}

theorem getElem?_eraseAll {bs : List UInt64} {t : ExtTreeMap UInt64 ℕ} :
    (bs.foldl (fun t b ↦ t.erase b) t)[b]? = some q ↔ t[b]? = some q ∧ b ∉ bs := by
  induction bs generalizing t with
  | nil => simp
  | cons b' bs ih =>
    rw [foldl_cons, ih, ExtTreeMap.getElem?_erase, mem_cons, not_or]
    by_cases heq : b = b'
    · simp [heq]
    · have hne : ¬compare b' b = .eq := fun h ↦ heq (LawfulEqCmp.eq_of_compare h).symm
      simp [heq, hne]

/-- The tracker gains an entry only when a handle tracks a dirty page. -/
theorem Takes.tracker (h : Takes s ringSize a s') (hb : s'.tracker[b]? = some q) :
    s.tracker[b]? = some q ∨ ∃ i hd id todo, a = .track i ∧ s.handles[i]? = some hd ∧
      hd.phase = .merged q ((b, id) :: todo) := by
  cases h with
  | noteThrough =>
    rw [ExtTreeMap.getElem?_erase] at hb
    split_ifs at hb
    exact .inl hb
  | track hi hphase =>
    split_ifs at hb
    · rw [ExtTreeMap.getElem?_insert] at hb
      split_ifs at hb with heq
      · obtain rfl := LawfulEqCmp.eq_of_compare heq
        obtain rfl := some.inj hb
        exact .inr ⟨_, _, _, _, rfl, hi, hphase⟩
      · exact .inl hb
    · exact .inl hb
  | @flushNote k id seq p =>
    cases seq with
    | none => exact .inl hb
    | some q' =>
      change (s.noteCheckpointed p.block q')[b]? = _ at hb
      rw [noteCheckpointed] at hb
      split_ifs at hb
      · rw [ExtTreeMap.getElem?_erase] at hb
        split_ifs at hb
        exact .inl hb
      · exact .inl hb
  | @prune k atHome =>
    exact .inl (getElem?_eraseAll.mp hb).1
  | _ => exact .inl hb

theorem exists_handle_of_set {l : List Handle} {i₀ : ℕ} {h h' hd : Handle} (h₀ : l[i₀]? = some h)
    (hev : h.Evolves h') (hi : l[i]? = some hd) :
    ∃ hd', (l.set i₀ h')[i]? = some hd' ∧ hd.Evolves hd' := by
  by_cases hne : i = i₀
  · subst hne
    obtain rfl := some.inj (h₀.symm.trans hi)
    exact ⟨h', getElem?_set_self h₀, hev⟩
  · exact ⟨hd, by rw [getElem?_set_ne (Ne.symm hne), hi], .of_phase rfl⟩

theorem Takes.handles (h : Takes s ringSize a s') {hd : Handle}
    (hi : s.handles[i]? = some hd) : ∃ hd', s'.handles[i]? = some hd' ∧ hd.Evolves hd' := by
  cases h with
  | begin => exact ⟨hd, getElem?_concat hi, .of_phase rfl⟩
  | writePage _ _ h₀ hready | writeDetached _ h₀ hready | enrollRead h₀ hready
  | enrollDetached h₀ hready | enrollRevoke _ h₀ hready | abort h₀ hready | discard h₀ hready
  | drop h₀ hready => exact exists_handle_of_set h₀ (.of_ready hready _) hi
  | publish h₀ | writeThrough h₀ | noteThrough h₀ =>
    exact exists_handle_of_set h₀ (.of_phase rfl) hi
  | track h₀ hphase =>
    refine exists_handle_of_set h₀ (fun q todo hm ↦ ?_) hi
    rw [hphase] at hm
    cases hm
    exact ⟨_, rfl, subset_cons_self _ _⟩
  | _ => exact ⟨hd, hi, .of_phase rfl⟩

/-- A merged handle was merged before, or is merged by this step. -/
theorem Takes.merged (h : Takes s ringSize a s') {hd' : Handle} {todo' : List (UInt64 × ℕ)}
    (hi : s'.handles[i]? = some hd') (hphase : hd'.phase = .merged q todo') :
    (∃ hd todo, s.handles[i]? = some hd ∧ hd.phase = .merged q todo ∧
        (todo' = todo ∨ ∃ e, a = .track i ∧ todo = e :: todo') ∧
        (hd.writing = .none → hd'.tx = hd.tx ∧ hd'.writing = .none)) ∨
      ∃ hd, a = .drop i ∧ s.handles[i]? = some hd ∧ hd.ready = true ∧
        q = s.journal.state.active.seq ∧ todo' = hd.tx.stagedBlocks.toList ∧
        hd'.tx = hd.tx ∧ hd'.writing = .none ∧
        s'.journal = { s.journal with state.active :=
          s.journal.state.active.merge hd.tx.stagedBlocks hd.tx.stagedRevokes } := by
  have hsame {l : List Handle} (hl : l[i]? = some hd') : ∃ hd todo, l[i]? = some hd ∧
      hd.phase = .merged q todo ∧ (todo' = todo ∨ ∃ e, a = .track i ∧ todo = e :: todo') ∧
      (hd.writing = .none → hd'.tx = hd.tx ∧ hd'.writing = .none) :=
    ⟨hd', todo', hl, hphase, .inl rfl, fun hw ↦ ⟨rfl, hw⟩⟩
  cases h with
  | begin =>
    rcases getElem?_concat_cases hi with hi | ⟨-, rfl⟩
    · exact .inl (hsame hi)
    · cases hphase
  | writePage _ _ h₀ hready | writeDetached _ h₀ hready | enrollRead h₀ hready
  | enrollDetached h₀ hready | enrollRevoke _ h₀ hready | abort h₀ hready =>
    rcases getElem?_set_cases hi with ⟨-, rfl⟩ | ⟨-, hi⟩
    · exact absurd ((Handle.of_ready hready).1.symm.trans hphase) nofun
    · exact .inl (hsame hi)
  | discard h₀ hready =>
    rcases getElem?_set_cases hi with ⟨-, rfl⟩ | ⟨-, hi⟩
    · cases hphase
    · exact .inl (hsame hi)
  | drop h₀ hready =>
    rcases getElem?_set_cases hi with ⟨rfl, rfl⟩ | ⟨-, hi⟩
    · cases hphase
      exact .inr ⟨_, rfl, h₀, hready, rfl, rfl, rfl, (Handle.of_ready hready).2, rfl⟩
    · exact .inl (hsame hi)
  | publish h₀ hw | writeThrough h₀ hw | noteThrough h₀ hw =>
    rcases getElem?_set_cases hi with ⟨rfl, rfl⟩ | ⟨-, hi⟩
    · refine .inl ⟨_, _, h₀, hphase, .inl rfl, fun hnone ↦ ?_⟩
      rw [hnone] at hw
      cases hw
    · exact .inl (hsame hi)
  | track h₀ hphase₀ =>
    rcases getElem?_set_cases hi with ⟨rfl, rfl⟩ | ⟨-, hi⟩
    · cases hphase
      exact .inl ⟨_, _, h₀, hphase₀, .inr ⟨_, rfl, rfl⟩, fun hw ↦ ⟨rfl, hw⟩⟩
    · exact .inl (hsame hi)
  | _ => exact .inl (hsame hi)

/-- How a pass comes to hold what it holds, unless it did before. -/
def Entered (s s' : System) (a : Action) : Flush → Prop
  | .read id entry => ∃ (n : ℕ) (p : CachedBlockPage), a = .flushRead n ∧
      s.flushes[n]? = some (.found id) ∧ s.cache.pages[id]? = some p ∧ entry = s.tracker[p.block]?
  | .batched id entry => .read id entry ∈ s.flushes ∧ s'.journal = s.journal ∧ s'.cache = s.cache ∧
      s'.handles = s.handles ∧ ∀ q, entry = some q → q ≤ s.journal.state.committedSeq
  | .written id entry => ∃ p : CachedBlockPage, .batched id entry ∈ s.flushes ∧
      s.cache.pages[id]? = some p ∧ p.dirty = true ∧ s'.cache = s.cache.writeBack id p true true ∧
      s'.journal = s.journal
  | _ => True

theorem Takes.flushes (h : Takes s ringSize a s') {f : Flush} (hf : f ∈ s'.flushes) :
    f ∈ s.flushes ∨ Entered s s' a f := by
  have hset {n : ℕ} {f' : Flush} (hf : f ∈ s.flushes.set n f') (hnew : Entered s s' a f') :
      f ∈ s.flushes ∨ Entered s s' a f := by
    rcases mem_or_eq_of_mem_set hf with hf | rfl
    · exact .inl hf
    · exact .inr hnew
  cases h with
  | flushStart =>
    rcases mem_append.mp hf with hf | hf
    · exact .inl hf
    · rw [mem_singleton.mp hf]
      exact .inr trivial
  | @flushLookup n b hn =>
    refine hset hf ?_
    cases s.cache.lru b <;> trivial
  | flushForget | flushSkip | flushDrop | flushClean => exact .inl (mem_of_mem_eraseIdx hf)
  | flushRead hn hp => exact hset hf ⟨_, _, rfl, hn, hp, rfl⟩
  | flushGate hn hgate => exact hset hf ⟨mem_of_getElem? hn, rfl, rfl, rfl, hgate⟩
  | @flushWrite n id entry p landed ok hn hp hdirty hok =>
    cases ok with
    | false => exact .inl (mem_of_mem_eraseIdx hf)
    | true =>
      obtain rfl := hok rfl
      exact hset hf ⟨p, mem_of_getElem? hn, hp, hdirty, rfl, rfl⟩
  | flushNote => exact hset hf trivial
  | _ => exact .inl hf

/-- The same for a thread in `advance_tail`. -/
def Computed (s : System) (a : Action) : Sweeper → Prop
  | .committed c => c = s.journal.state.committedSeq
  | .bounded m => ∃ n c, a = .readBound n ∧ .committed c ∈ s.sweepers ∧ m = s.bound c
  | _ => True

section

variable (h : Takes s ringSize a s')

include h

theorem Takes.sweepers {w : Sweeper} (hw : w ∈ s'.sweepers) : w ∈ s.sweepers ∨ Computed s a w := by
  have hset {n : ℕ} {w' : Sweeper} (hw : w ∈ s.sweepers.set n w') (hnew : Computed s a w') :
      w ∈ s.sweepers ∨ Computed s a w := by
    rcases mem_or_eq_of_mem_set hw with hw | rfl
    · exact .inl hw
    · exact .inr hnew
  cases h with
  | advanceStart =>
    rcases mem_append.mp hw with hw | hw
    · exact .inl hw
    · rw [mem_singleton.mp hw]
      exact .inr trivial
  | query | prune => exact hset hw trivial
  | readCommitted => exact hset hw rfl
  | readBound hk => exact hset hw ⟨_, _, rfl, mem_of_getElem? hk, rfl⟩
  | sweep => exact .inl (mem_of_mem_eraseIdx hw)
  | _ => exact .inl hw

/-- What the committer has copied, it had copied before, or it copies in this step. -/
theorem Takes.copied {tx : Transaction ℕ} {v : ℕ} (hc : s'.journal.committer = .popped tx)
    (hb : s'.copied b = some v) :
    (s.journal.committer = .popped tx ∧ s.copied b = some v) ∨
      ∃ (id : ℕ) (p : CachedBlockPage), a = .copyPage b ∧ s.journal.committer = .popped tx ∧
        tx.enrolledBlocks[b]? = some id ∧ s.cache.pages[id]? = some p ∧ v = p.version := by
  have hold (ha : a ≠ .journal .pop) : s.journal.committer = .popped tx := by
    rcases h.journal_step with heq | ⟨a', hj, hin, -⟩
    · rw [← heq, hc]
    · refine (Journal.popped_step hj hc).resolve_left ?_
      rintro rfl
      exact ha (hin rfl)
  cases h with
  | @copyPage tx' b' id p hc' hb' hp =>
    dsimp only at hc hb
    obtain rfl := Committer.popped.inj (hc'.symm.trans hc)
    by_cases heq : b = b'
    · subst heq
      rw [update_self] at hb
      exact .inr ⟨id, p, rfl, hc', hb', hp, (some.inj hb).symm⟩
    · rw [update_of_ne heq] at hb
      exact .inl ⟨hc', hb⟩
  | pop => cases hb
  | journal _ hpop => exact .inl ⟨hold fun ha ↦ hpop (Action.journal.inj ha), hb⟩
  | _ => exact .inl ⟨hold nofun, hb⟩

/-- The copies of a transaction are those that the committer had made when it captured it. -/
theorem Takes.copies {v : ℕ} (hb : s'.copies q b = some v) :
    s.copies q b = some v ∨
      ∃ tx, s.journal.committer = .popped tx ∧ q = tx.seq ∧ s.copied b = some v := by
  cases h with
  | @capture tx j hc =>
    dsimp only at hb
    by_cases heq : q = tx.seq
    · subst heq
      rw [update_self] at hb
      exact .inr ⟨tx, hc, rfl, hb⟩
    · rw [update_of_ne heq] at hb
      exact .inl hb
  | _ => exact .inl hb

/-- An image is made of the copies when the committer captures a transaction. -/
theorem Takes.image {img : TxImage}
    (himg : s'.journal.committer.image = some img ∨ img ∈ s'.journal.history) :
    (s.journal.committer.image = some img ∨ img ∈ s.journal.history) ∨
      ∃ tx, s.journal.committer = .popped tx ∧ (∀ b ∈ tx.enrolledBlocks, (s.copied b).isSome) ∧
        img = tx.capture s.copyOf ∧ s'.copies = update s.copies tx.seq s.copied ∧
        s'.cache = s.cache := by
  cases h with
  | drop => exact .inl himg
  | @sweep k min own j hk hj =>
    refine .inl ((Journal.images_step hj himg).resolve_right ?_)
    rintro ⟨content, tx, ha, -⟩
    cases own <;> cases ha
  | @capture tx j hc hall hj =>
    refine (Journal.images_step hj himg).imp_right ?_
    rintro ⟨content, tx', ha, hc', rfl⟩
    obtain rfl := Journal.Action.capture.inj ha
    obtain rfl := Committer.popped.inj (hc.symm.trans hc')
    exact ⟨tx, hc, hall, rfl, rfl, rfl⟩
  | pop hj =>
    refine .inl ((Journal.images_step hj himg).resolve_right ?_)
    rintro ⟨content, tx, ha, -⟩
    cases ha
  | journal hin _ hj =>
    refine .inl ((Journal.images_step hj himg).resolve_right ?_)
    rintro ⟨content, tx, rfl, -⟩
    cases hin
  | _ => exact .inl himg

/-- A transaction is retired by a sweep. -/
theorem Takes.retires {e : ℕ × ℕ} (hmem : e ∈ s.journal.state.committedPending)
    (hgone : e ∉ s'.journal.state.committedPending) :
    ∃ min n own, a = .sweep n own ∧ s.sweepers[n]? = some (.bounded min) ∧
      s'.journal.state.committedPending = (s.journal.state.sweep min).1.committedPending ∧
      s'.journal.history = s.journal.history := by
  rcases h.journal_step with heq | ⟨a', hj, -, hsweep, -⟩
  · rw [heq] at hgone
    exact absurd hmem hgone
  rcases Journal.pending_step hj with ⟨-, hp⟩ | ⟨img, -, hp⟩ | ⟨min, ha', hh, hp⟩
  · rw [hp] at hgone
    exact absurd hmem hgone
  · rw [hp] at hgone
    exact absurd (mem_append_left _ hmem) hgone
  · obtain ⟨n, own, ha, hn⟩ := hsweep min ha'
    exact ⟨min, n, own, ha, hn, hp, hh⟩

theorem Takes.writes (hcached : Cached a) {k : ℕ} {w : BlockWrite}
    (hk : (s'.cache.writes b)[k]? = some w) :
    (s.cache.writes b)[k]? = some w ∨
      ∃ i data hd, a = .writePage i b data ∧ w = ⟨i, data⟩ ∧ k = (s.cache.writes b).length ∧
        s.handles[i]? = some hd ∧ hd.ready = true := by
  cases h with
  | @writePage i hd b' data hi hready =>
    have hk : ((s.cache.log b' ⟨i, data⟩).writes b)[k]? = some w := by
      rw [← hk, BlockPageCache.writePage]
      split <;> rfl
    by_cases hb : b = b'
    · subst hb
      rw [BlockPageCache.writes_log_self] at hk
      rcases getElem?_concat_cases hk with hk | ⟨rfl, rfl⟩
      · exact .inl hk
      · exact .inr ⟨i, data, hd, rfl, rfl, rfl, hi, hready⟩
    · rw [BlockPageCache.writes_log_of_ne hb] at hk
      exact .inl hk
  | writeDetached | writeThrough | noteThrough => exact hcached.elim
  | attach hc =>
    obtain ⟨id, p, -, rfl⟩ := BlockPageCache.attach_eq_some hc
    exact .inl hk
  | evict hc =>
    obtain ⟨id, -, -, rfl⟩ := BlockPageCache.evict_eq_some hc
    exact .inl hk
  | flushClean =>
    split_ifs at hk <;> exact .inl hk
  | _ => exact .inl hk

end

end System

end Edos

import Edos.Lib.Transition
import Edos.Memory.Cow

/-!
# A fork is a snapshot

What `clone_user_page_tables_cow` leaves behind is described once for the case that there is a child
and once for the case that the frames ran out. After that the two address spaces are one state,
`Twins`, on which writes are played in any order: a write to a page that is writable goes through,
any other one has to be admitted by `handle_cow_fault`.

A frame is owned by the two spaces alone when its count is the number of leaves that map it
(`Owned`). Such frames stay owned, and a leaf that is writable is the only one of its frame. That is
what keeps the writes of one space from the other.
-/

namespace Edos.Memory

open FrameAllocator Function List Option

/-- What the allocator and a tree must agree on before a fork: no leaf maps a free frame, and a free
frame has no references. -/
structure Sound (fa : FrameAllocator) (t : Node 4) : Prop where
  busy : ∀ f ∈ leafFrames 3 t, fa.isFree f = false
  unowned : ∀ f, fa.isFree f = true → fa.refcount f = 0

/-! ## What the fork leaves behind -/

variable {fa' : FrameAllocator} {ts : List ℕ}

section Fork

variable {vmas : VmaSet} {t : Node 4} {fa : FrameAllocator} {r : Cloned}

/-- The pages that parent and child go on sharing. -/
def specialPage (vmas : VmaSet) (page : ℕ) : Bool := isSpecialMapping vmas (page * pageSize)

theorem Took.returnable {fa : FrameAllocator} {ls : List ℕ} (h : Took fa ts ls fa')
    (hls : ∀ f ∈ ls, fa.isFree f = false) : Returnable fa' ts ls where
  nodup := h.nodup
  managed f hf := h.range.managed.mpr (managed_of_isFree (h.free f hf))
  owned f hf := by rw [h.refcount f (managed_of_isFree (h.free f hf)), if_pos hf]
  apart f hf hmem := h.not_mem (hls f hmem) hf
  counted f hf := by
    rw [h.refcount f (h.range.managed.mp hf)]
    split_ifs with hts
    · have hnot : f ∉ ls := fun hmem ↦ h.not_mem (hls f hmem) hts
      rw [count_eq_zero_of_not_mem hnot]
      exact Nat.zero_le 1
    · exact Nat.le_add_left _ _

theorem Took.gave {fa fa'' : FrameAllocator} {ls : List ℕ} (h : Took fa ts ls fa')
    (h' : Gave fa' ts ls fa'') (hunowned : ∀ f, fa.isFree f = true → fa.refcount f = 0) :
    fa''.refcount = fa.refcount ∧ fa''.isFree = fa.isFree := by
  constructor
  · funext f
    by_cases hman : fa.Managed f
    · rw [h'.refcount, h.refcount f hman]
      split_ifs with hts
      · rw [hunowned f (h.free f hts), count_eq_one_of_mem h.nodup hts]
        omega
      · rw [count_eq_zero_of_not_mem hts]
        omega
    · rw [refcount_of_not_managed hman, refcount_of_not_managed fun hf ↦ hman ?_]
      exact (h.range.trans h'.range).managed.mp hf
  · funext f
    rw [h'.isFree, h.isFree]
    by_cases hts : f ∈ ts
    · simp [hts, h.free f hts]
    · simp [hts]

/-- **The undo of a fork** succeeds and gives back what the walk has taken. -/
theorem exists_undo {n root : ℕ} {fa : FrameAllocator} {c : Node (n + 1)}
    (h : Took fa (root :: tableFrames n c) (leafFrames n c) fa')
    (hleaves : ∀ f ∈ leafFrames n c, fa.isFree f = false) :
    ∃ fa₁ fa₂, freeChildUserHalf n c fa' = some fa₁ ∧ fa₁.deallocateFrame root = some fa₂ ∧
      Gave fa' (root :: tableFrames n c) (leafFrames n c) fa₂ := by
  have hperm := perm_append_singleton root (tableFrames n c)
  have hreturn : Returnable fa' (tableFrames n c ++ [root]) (leafFrames n c ++ []) := by
    rw [append_nil]
    exact (h.returnable hleaves).perm hperm.symm
  obtain ⟨fa₁, hfree, hgave⟩ := freeChildUserHalf_spec hreturn.left
  have hrest := hreturn.rest hgave
  obtain ⟨fa₂, hlast, hgave'⟩ := Gave.exists_deallocate
    (hrest.managed root (mem_singleton_self root))
    (hrest.owned root (mem_singleton_self root))
  have hall := (hgave.trans hgave').perm hperm
  rw [append_nil] at hall
  exact ⟨fa₁, fa₂, hfree, hlast, hall⟩

variable {ok : Bool}

theorem walk_spec {root : ℕ} {fa₁ fa₂ : FrameAllocator} {parent child : Node 4}
    (hsound : Sound fa t) (halloc : fa.allocateFrame = some (root, fa₁))
    (hwalk : cloneUserHalf (specialPage vmas) 3 0 t fa₁ = some (ok, parent, child, fa₂)) :
    CloneRel (specialPage vmas) ok 3 0 t parent child ∧
      Took fa (root :: tableFrames 3 child) (leafFrames 3 child) fa₂ ∧
      ∀ f ∈ leafFrames 3 child, fa.isFree f = false := by
  have hroot := Took.of_allocate halloc
  obtain ⟨hrel, htook⟩ := cloneUserHalf_spec 3 hwalk
  have hleaves (f : ℕ) (hf : f ∈ leafFrames 3 child) : fa.isFree f = false :=
    hsound.busy f (hrel.leafFrames_subset hf)
  have hboth := hroot.trans (htook fun f hf ↦ hroot.busy (hsound.busy f hf)) hleaves
  rw [singleton_append, nil_append] at hboth
  exact ⟨hrel, hboth, hleaves⟩

/-- A fork that ran to its end, or one that gave back what it had taken. -/
theorem cloneUserPageTablesCow_cases (hsound : Sound fa t)
    (h : cloneUserPageTablesCow vmas t fa = some r) :
    (∃ root child, r.child = some (root, child) ∧
        CloneRel (specialPage vmas) true 3 0 t r.parent child ∧
        Took fa (root :: tableFrames 3 child) (leafFrames 3 child) r.frames) ∨
      (r.child = none ∧ r.frames.refcount = fa.refcount ∧ r.frames.isFree = fa.isFree ∧
        (r.parent = t ∨ ∃ child, CloneRel (specialPage vmas) false 3 0 t r.parent child)) := by
  rw [cloneUserPageTablesCow] at h
  split at h
  · cases h
    exact .inr ⟨rfl, rfl, rfl, .inl rfl⟩
  rename_i root fa₁ halloc
  obtain ⟨⟨ok, parent, child, fa₂⟩, hwalk, h⟩ := bind_eq_some_iff.mp h
  obtain ⟨hrel, htook, hleaves⟩ := walk_spec hsound halloc hwalk
  dsimp only at h
  cases ok with
  | true =>
    cases h
    exact .inl ⟨root, child, rfl, hrel, htook⟩
  | false =>
    rw [if_neg Bool.false_ne_true] at h
    obtain ⟨fa₃, hfree, h⟩ := bind_eq_some_iff.mp h
    obtain ⟨fa₄, hlast, rfl⟩ := map_eq_some_iff.mp h
    obtain ⟨fa₃', fa₄', hfree', hlast', hgave⟩ := exists_undo htook hleaves
    cases hfree.symm.trans hfree'
    cases hlast.symm.trans hlast'
    obtain ⟨hrc, hbits⟩ := htook.gave hgave hsound.unowned
    exact .inr ⟨rfl, hrc, hbits, .inr ⟨child, hrel⟩⟩

/-- Every page of the user half is where it was, in the parent whatever the outcome. -/
theorem CloneRel.frame_eq {special : ℕ → Bool} {t' c : Node 4} (h : CloneRel special ok 3 0 t t' c)
    (p : ℕ) : (Memory.translate 3 t' p).map Prod.fst = (Memory.translate 3 t p).map Prod.fst := by
  rcases h.translate p with ⟨heq, -, -⟩ | ⟨heq, -⟩
  · rw [heq]
  · rw [heq, Option.map_map]
    rfl

/-- A walk that came to its end: both trees have the marked leaves. -/
theorem CloneRel.translate_user {special : ℕ → Bool} {t' c : Node 4}
    (h : CloneRel special true 3 0 t t' c) {p : ℕ} (hp : p < userPages) :
    Memory.translate 3 t' p = (Memory.translate 3 t p).map (markLeaf special p) ∧
      Memory.translate 3 c p = Memory.translate 3 t' p := by
  rcases h.translate p with ⟨heq, hc, hnone⟩ | ⟨heq, hc⟩
  · rw [heq, hc, hnone rfl hp]
    exact ⟨rfl, rfl⟩
  · rw [pageIn_root hp] at heq
    exact ⟨heq, hc⟩

end Fork

/-! ## Two address spaces -/

/-- The two sides of a fork. -/
inductive Side
  | parent
  | child
  deriving DecidableEq, Repr

/-- The other side. -/
def Side.other : Side → Side
  | parent => child
  | child => parent

/-- Parent and child after a fork, with the frames and what they hold. -/
structure Twins where
  tree : Side → Node 4
  frames : FrameAllocator
  contents : Contents

/-- A write of one side to a page: the mappings of the process at that time, and what the write does
to the page. -/
structure WriteReq where
  side : Side
  vmas : VmaSet
  page : ℕ
  change : List UInt8 → List UInt8

namespace Twins

/-- A write to a present page of the user half: it goes through if the page is writable, otherwise
it is left to `handle_cow_fault`. Writes through the mappings that the two share are not played. -/
def write (special : ℕ → Bool) (s : Twins) (r : WriteReq) : Option Twins :=
  if userPages ≤ r.page then none
  else
    match translate 3 (s.tree r.side) r.page with
    | none => none
    | some (frame, flags) =>
      if flags.writable then
        if special r.page then none
        else
          some { s with contents := update s.contents frame (r.change (s.contents frame)) }
      else
        (handleCowFault r.vmas (s.tree r.side) s.frames s.contents (r.page * pageSize)).bind fun o ↦
          if o.resolved then
            (translate 3 o.table r.page).map fun e ↦
              ⟨update s.tree r.side o.table, o.frames,
                update o.contents e.1 (r.change (o.contents e.1))⟩
          else none

/-- What a side reads at a page. -/
def sees (s : Twins) (side : Side) (page : ℕ) : Option (List UInt8) :=
  (translate 3 (s.tree side) page).map fun e ↦ s.contents e.1

/-- The number of leaves that map a frame. -/
def leaves (s : Twins) (f : ℕ) : ℕ :=
  (leafFrames 3 (s.tree .parent)).count f + (leafFrames 3 (s.tree .child)).count f

/-- A frame whose references are the leaves of the two spaces. -/
def Owned (s : Twins) (f : ℕ) : Prop := s.frames.Managed f ∧ s.frames.refcount f = s.leaves f

/-- What holds after every write. `Q` are the pages whose frames belong to the two spaces alone. -/
structure Inv (special : ℕ → Bool) (Q : ℕ → Prop) (s : Twins) : Prop where
  busy : ∀ x, ∀ f ∈ leafFrames 3 (s.tree x), s.frames.isFree f = false
  alone : ∀ x, ∀ p < userPages, special p = false → ∀ f flags,
    translate 3 (s.tree x) p = some (f, flags) → flags.writable = true → s.Owned f → s.leaves f = 1
  owned : ∀ x, ∀ q < userPages, Q q → ∀ e, translate 3 (s.tree x) q = some e → s.Owned e.1

variable {special : ℕ → Bool} {Q : ℕ → Prop} {s s' : Twins} {r : WriteReq}

theorem leaves_eq (s : Twins) (x : Side) (f : ℕ) :
    s.leaves f = (leafFrames 3 (s.tree x)).count f + (leafFrames 3 (s.tree x.other)).count f := by
  cases x with
  | parent => rfl
  | child => exact add_comm _ _

theorem other_ne (x : Side) : x.other ≠ x := by
  cases x <;> exact fun h ↦ (nomatch h)

theorem eq_or_eq_other (x y : Side) : y = x ∨ y = x.other := by
  cases x <;> cases y <;> simp [Side.other]

/-- What a write does: a page of the side gets a frame `g`, which is then written. It is the frame
that was there, and nothing else maps it if the two spaces own it, or one that was free. -/
structure Wrote (s : Twins) (x : Side) (p : ℕ) (s' : Twins) (frame g : ℕ) : Prop where
  user : p < userPages
  before : ∃ flags, translate 3 (s.tree x) p = some (frame, flags)
  after : ∃ flags, translate 3 (s'.tree x) p = some (g, flags)
  other : s'.tree x.other = s.tree x.other
  else_same : ∀ q < userPages, q ≠ p → translate 3 (s'.tree x) q = translate 3 (s.tree x) q
  count : ∀ f, (leafFrames 3 (s'.tree x)).count f + (if f = frame then 1 else 0) =
    (leafFrames 3 (s.tree x)).count f + if f = g then 1 else 0
  contents : ∀ f, f ≠ g → s'.contents f = s.contents f
  frames : (g = frame ∧ s'.frames = s.frames ∧ (s.Owned frame → s.leaves frame = 1)) ∨
    (s.frames.isFree g = true ∧ 1 < s.frames.refcount frame ∧ s.frames.SameRange s'.frames ∧
      s'.frames.isFree = update s.frames.isFree g false ∧ s'.frames.refcount g = 1 ∧
      (s.frames.Managed frame → s'.frames.refcount frame = s.frames.refcount frame - 1) ∧
      ∀ f, f ≠ g → f ≠ frame → s'.frames.refcount f = s.frames.refcount f)

variable {flags : PageFlags}

theorem one_le_leaves {x : Side} {p f : ℕ} (h : translate 3 (s.tree x) p = some (f, flags))
    (hp : p < userPages) : 1 ≤ s.leaves f := by
  have : 0 < (leafFrames 3 (s.tree x)).count f := count_pos_iff.mpr (mem_leafFrames h hp)
  rw [s.leaves_eq x]
  omega

theorem ne_of_busy {f g : ℕ} (hf : s.frames.isFree f = false) (hg : s.frames.isFree g = true) :
    f ≠ g := by
  rintro rfl
  rw [hg] at hf
  cases hf

theorem exists_wrote (hinv : s.Inv special Q) (h : s.write special r = some s') :
    ∃ frame g, Wrote s r.side r.page s' frame g := by
  rw [write] at h
  have hp : r.page < userPages := Nat.lt_of_not_le fun hpage ↦ by
    rw [if_pos hpage] at h
    cases h
  rw [if_neg (not_le.mpr hp)] at h
  split at h
  · cases h
  rename_i frame flags hleaf
  have hsome : (translate 3 (s.tree r.side) r.page).isSome = true := by rw [hleaf]; rfl
  split_ifs at h with hwritable hspecial
  · cases h
    refine ⟨frame, frame, hp, ⟨flags, hleaf⟩, ⟨flags, hleaf⟩, rfl, fun _ _ _ ↦ rfl, fun _ ↦ rfl,
      fun f hf ↦ update_of_ne hf _ _, .inl ⟨rfl, rfl, fun howned ↦ ?_⟩⟩
    exact hinv.alone r.side r.page hp (Bool.eq_false_of_not_eq_true hspecial) frame flags hleaf
      hwritable howned
  · obtain ⟨o, hfault, h⟩ := bind_eq_some_iff.mp h
    split_ifs at h with hres
    obtain ⟨e, hafter, rfl⟩ := map_eq_some_iff.mp h
    obtain ⟨frame', flags', hleaf', hcase⟩ := handleCowFault_resolved hfault hres
    have hdiv : r.page * pageSize / pageSize = r.page := Nat.mul_div_cancel _ (by decide)
    rw [hdiv] at hleaf' hcase
    cases hleaf.symm.trans hleaf'
    -- the page now has the frame `g`, and nothing else has changed in the tree
    have key {g : ℕ} (htable : o.table =
        setLeaf 3 (s.tree r.side) r.page (some (g, flags.uncowed))) : e = (g, flags.uncowed) ∧
        (∀ q < userPages, q ≠ r.page → translate 3 o.table q = translate 3 (s.tree r.side) q) ∧
        ∀ f, (leafFrames 3 o.table).count f + (if f = frame then 1 else 0) =
          (leafFrames 3 (s.tree r.side)).count f + if f = g then 1 else 0 := by
      refine ⟨?_, fun q hq hne ↦ ?_, fun f ↦ ?_⟩
      · rw [htable, translate_setLeaf _ hsome, if_pos (SamePath.refl 3 _)] at hafter
        exact (some.inj hafter).symm
      · rw [htable, translate_setLeaf _ hsome, if_neg fun h ↦ hne ((samePath_iff hq hp).mp h)]
      · have := count_leafFrames_setLeaf (some (g, flags.uncowed)) hsome hp f
        rwa [hleaf, leafCount_some, leafCount_some, ← htable] at this
    have hother (t : Node 4) : update s.tree r.side t r.side.other = s.tree r.side.other :=
      update_of_ne (other_ne r.side) _ _
    have hside := update_self r.side o.table s.tree
    rcases hcase with ⟨hrc, rfl⟩ | ⟨g, fa₁, fa₂, hrc, halloc, hdec, rfl⟩
    · obtain ⟨rfl, hsame, hcount⟩ := key rfl
      rw [← hside] at hafter hsame hcount
      refine ⟨frame, frame, hp, ⟨flags, hleaf⟩, ⟨_, hafter⟩, hother _, hsame, hcount,
        fun f hf ↦ update_of_ne hf _ _, .inl ⟨rfl, rfl, fun howned ↦ ?_⟩⟩
      have := one_le_leaves hleaf hp
      have := howned.2
      omega
    · obtain ⟨rfl, hsame, hcount⟩ := key rfl
      obtain ⟨hman, hfree, hrange, hbits, hcounts⟩ := allocateFrame_spec halloc
      obtain ⟨hrange', hbits', hcounts'⟩ := decRefcount_spec hdec
      have hne := ne_of_busy (hinv.busy r.side frame (mem_leafFrames hleaf hp)) hfree
      rw [← hside] at hafter hsame hcount
      refine ⟨frame, g, hp, ⟨flags, hleaf⟩, ⟨_, hafter⟩, hother _, hsame, hcount, fun f hf ↦ ?_,
        .inr ⟨hfree, hrc, hrange.trans hrange', hbits'.trans hbits, ?_, fun hm ↦ ?_,
          fun f hg hf ↦ ?_⟩⟩
      · dsimp only
        rw [update_of_ne hf, update_of_ne hf]
      · rw [hcounts']
        split_ifs
        · rw [update_of_ne hne.symm, hcounts, update_self]
        · rw [hcounts, update_self]
      · rw [hcounts', if_pos (hrange.managed.mpr hm), update_self, hcounts, update_of_ne hne]
      · rw [hcounts']
        split_ifs
        · rw [update_of_ne hf, hcounts, update_of_ne hg]
        · rw [hcounts, update_of_ne hg]

namespace Wrote

variable {x : Side} {p frame g f : ℕ}

theorem leaves (h : Wrote s x p s' frame g) (f : ℕ) :
    s'.leaves f + (if f = frame then 1 else 0) = s.leaves f + if f = g then 1 else 0 := by
  have := h.count f
  rw [s'.leaves_eq x, s.leaves_eq x, h.other]
  omega

variable {y : Side} {q : ℕ}

/-- A leaf that was there before, at another page or on the other side. -/
theorem leaf_cases (h : Wrote s x p s' frame g) (hq : q < userPages) {e : ℕ × PageFlags}
    (he : translate 3 (s'.tree y) q = some e) :
    e.1 = g ∧ y = x ∧ q = p ∨ translate 3 (s.tree y) q = some e := by
  rcases eq_or_eq_other x y with rfl | rfl
  · by_cases hqp : q = p
    · obtain ⟨flags, hafter⟩ := h.after
      subst hqp
      cases hafter.symm.trans he
      exact .inl ⟨rfl, rfl, rfl⟩
    · rw [h.else_same q hq hqp] at he
      exact .inr he
  · rw [h.other] at he
    exact .inr he

theorem leaves_of_isFree (hinv : s.Inv special Q) (hg : s.frames.isFree g = true) :
    s.leaves g = 0 := by
  have hnot (y : Side) : (leafFrames 3 (s.tree y)).count g = 0 :=
    count_eq_zero_of_not_mem fun hmem ↦ ne_of_busy (hinv.busy y g hmem) hg rfl
  rw [Twins.leaves, hnot, hnot]

theorem owned_new (h : Wrote s x p s' frame g) (hinv : s.Inv special Q)
    (hown : g = frame → s.Owned frame) : s'.Owned g := by
  have hleaves := h.leaves g
  rcases h.frames with ⟨rfl, heq, -⟩ | ⟨hfree, hrc, hrange, hbits, hone, -, -⟩
  · obtain ⟨hman, hcount⟩ := hown rfl
    rw [Owned, heq]
    exact ⟨hman, by omega⟩
  · refine ⟨hrange.managed.mpr (managed_of_isFree hfree), ?_⟩
    have hzero := leaves_of_isFree hinv hfree
    have hne : g ≠ frame := by
      rintro rfl
      obtain ⟨flags, hbefore⟩ := h.before
      have := one_le_leaves hbefore h.user
      omega
    rw [if_neg hne, if_pos rfl] at hleaves
    omega

theorem owned_old (h : Wrote s x p s' frame g) (hinv : s.Inv special Q) (hq : q < userPages)
    (he : translate 3 (s.tree y) q = some (f, flags)) : s'.Owned f ↔ s.Owned f := by
  have hleaves := h.leaves f
  have hbusy := hinv.busy y f (mem_leafFrames he hq)
  obtain ⟨flags', hbefore⟩ := h.before
  rcases h.frames with ⟨rfl, heq, -⟩ | ⟨hfree, hrc, hrange, -, -, hdec, hsame⟩
  · rw [Owned, Owned, heq, show s'.leaves f = s.leaves f by omega]
  · rw [Owned, Owned, hrange.managed]
    refine and_congr_right fun hman ↦ ?_
    rw [if_neg (ne_of_busy hbusy hfree)] at hleaves
    by_cases hf : f = frame
    · subst hf
      rw [if_pos rfl] at hleaves
      rw [hdec hman]
      omega
    · rw [if_neg hf] at hleaves
      rw [hsame f (ne_of_busy hbusy hfree) hf, show s'.leaves f = s.leaves f by omega]

/-- **One write** keeps the invariant. -/
theorem inv (h : Wrote s x p s' frame g) (hinv : s.Inv special Q) : s'.Inv special Q where
  busy y f hf := by
    have hold : f ∈ leafFrames 3 (s.tree y) ∨ f = g := by
      rcases eq_or_eq_other x y with rfl | rfl
      · by_cases hfg : f = g
        · exact .inr hfg
        · have hcount := h.count f
          have hpos := count_pos_iff.mpr hf
          rw [if_neg hfg] at hcount
          exact .inl (count_pos_iff.mp (by omega))
      · rw [h.other] at hf
        exact .inl hf
    obtain ⟨flags, hbefore⟩ := h.before
    rcases h.frames with ⟨rfl, heq, -⟩ | ⟨hfree, -, -, hbits, -, -, -⟩
    · rw [heq]
      rcases hold with hold | rfl
      · exact hinv.busy y f hold
      · exact hinv.busy x f (mem_leafFrames hbefore h.user)
    · rw [hbits]
      rcases hold with hold | rfl
      · have hbusy := hinv.busy y f hold
        rw [update_of_ne (ne_of_busy hbusy hfree)]
        exact hbusy
      · exact update_self ..
  alone y q hq hspecial f flags he hwritable howned := by
    have hleaves := h.leaves f
    rcases h.leaf_cases hq he with ⟨hfg, rfl, rfl⟩ | he
    · obtain rfl : f = g := hfg
      rcases h.frames with ⟨rfl, heq, halone⟩ | ⟨hfree, hrc, -, -, -, -, -⟩
      · obtain ⟨hman, hcount⟩ := howned
        rw [heq] at hman hcount
        have := halone ⟨hman, by omega⟩
        omega
      · have hzero := leaves_of_isFree hinv hfree
        rw [if_pos rfl] at hleaves
        have := one_le_leaves he hq
        omega
    · have howned := (h.owned_old hinv hq he).mp howned
      have hone := hinv.alone y q hq hspecial f flags he hwritable howned
      rcases h.frames with ⟨rfl, -, -⟩ | ⟨hfree, hrc, -, -, -, -, -⟩
      · omega
      · have hne : f ≠ frame := by
          rintro rfl
          have := howned.2
          omega
        rw [if_neg hne, if_neg (ne_of_busy (hinv.busy y f (mem_leafFrames he hq)) hfree)] at hleaves
        omega
  owned y q hq hQ e he := by
    rcases h.leaf_cases hq he with ⟨heq, rfl, rfl⟩ | he
    · rw [heq]
      refine h.owned_new hinv fun _ ↦ ?_
      obtain ⟨flags, hbefore⟩ := h.before
      exact hinv.owned y q hq hQ _ hbefore
    · exact (h.owned_old hinv hq he).mpr (hinv.owned y q hq hQ e he)

/-- **The other side** reads what it read. -/
theorem sees_other (h : Wrote s x p s' frame g) (hinv : s.Inv special Q) (hq : q < userPages)
    (hQ : Q q) : s'.sees x.other q = s.sees x.other q := by
  rw [sees, sees, h.other]
  cases he : translate 3 (s.tree x.other) q with
  | none => rfl
  | some e =>
    obtain ⟨f, flags⟩ := e
    refine congrArg some (h.contents f ?_)
    have hmem := mem_leafFrames he hq
    rcases h.frames with ⟨rfl, -, halone⟩ | ⟨hfree, -⟩
    · rintro rfl
      -- a frame that both sides map has two leaves
      have htwo := halone (hinv.owned x.other q hq hQ _ he)
      obtain ⟨flags', hbefore⟩ := h.before
      have hmem' := count_pos_iff.mpr (mem_leafFrames hbefore h.user)
      have hpos := count_pos_iff.mpr hmem
      rw [s.leaves_eq x] at htwo
      dsimp only at hmem' hpos
      omega
    · exact ne_of_busy (hinv.busy x.other f hmem) hfree

end Wrote

/-- The two spaces right after a fork. -/
def forked (parent child : Node 4) (frames : FrameAllocator) (contents : Contents) : Twins where
  tree
    | .parent => parent
    | .child => child
  frames := frames
  contents := contents

/-- The pages of an address space whose frames no one else owns. -/
def OwnPage (fa : FrameAllocator) (t : Node 4) (q : ℕ) : Prop :=
  ∀ e, translate 3 t q = some e → fa.Managed e.1 ∧ fa.refcount e.1 = (leafFrames 3 t).count e.1

theorem inv_forked {fa : FrameAllocator} {t t' c : Node 4} (hsound : Sound fa t)
    (hrel : CloneRel special true 3 0 t t' c) (htook : Took fa ts (leafFrames 3 c) fa')
    (mem : Contents) : (forked t' c fa' mem).Inv special (OwnPage fa t) := by
  have htree (x : Side) : leafFrames 3 ((forked t' c fa' mem).tree x) = leafFrames 3 t := by
    cases x with
    | parent => exact hrel.leafFrames_eq
    | child => exact hrel.leafFrames_child
  have hleaf (x : Side) {p : ℕ} (hp : p < userPages) :
      translate 3 ((forked t' c fa' mem).tree x) p =
        (translate 3 t p).map (markLeaf special p) := by
    obtain ⟨hparent, hchild⟩ := hrel.translate_user hp
    cases x with
    | parent => exact hparent
    | child => exact hchild.trans hparent
  refine ⟨fun x f hf ↦ ?_, fun x p hp hspecial f flags he hwritable _ ↦ ?_, fun x q hq hQ e he ↦ ?_⟩
  · rw [htree] at hf
    exact htook.busy (hsound.busy f hf)
  · rw [hleaf x hp] at he
    obtain ⟨e, -, he⟩ := map_eq_some_iff.mp he
    rw [markLeaf, hspecial] at he
    cases he
    cases hwritable
  · rw [hleaf x hq] at he
    obtain ⟨e₀, he₀, rfl⟩ := map_eq_some_iff.mp he
    obtain ⟨hman, hcount⟩ := hQ e₀ he₀
    have hmem := mem_leafFrames he₀ hq
    refine ⟨htook.range.managed.mpr hman, ?_⟩
    rw [leaves, htree, htree]
    change fa'.refcount e₀.1 = _
    rw [htook.refcount _ hman, if_neg (htook.not_mem (hsound.busy _ hmem)),
      hcount, hrel.leafFrames_child]
    rfl

end Twins

/-! ## The snapshot -/

/-- **A fork is a snapshot.** With a child: both map the pages of the user half to the frames the
parent had; every frame that the allocator manages has one more reference for each leaf of the
parent that maps it; outside the mappings that stay shared every leaf is read-only and marked, in
both; and in every run of writes of the two, a write of one side leaves what the other reads, at
every page whose frame was the parent's alone. Without a child: counts and free frames are as
before, and every page of the parent is where it was. -/
theorem fork_snapshot (vmas : VmaSet) (parent : Node 4) (fa : FrameAllocator) (r : Cloned)
    (hsound : Sound fa parent) (h : cloneUserPageTablesCow vmas parent fa = some r) :
    (∀ root child, r.child = some (root, child) →
      (∀ p < userPages,
        (translate 3 r.parent p).map Prod.fst = (translate 3 parent p).map Prod.fst ∧
          (translate 3 child p).map Prod.fst = (translate 3 parent p).map Prod.fst) ∧
      (∀ f ∈ leafFrames 3 parent, fa.Managed f →
        r.frames.refcount f = fa.refcount f + (leafFrames 3 parent).count f) ∧
      (∀ p < userPages, specialPage vmas p = false → ∀ f flags,
        translate 3 parent p = some (f, flags) →
          translate 3 r.parent p = some (f, flags.cowed) ∧
            translate 3 child p = some (f, flags.cowed)) ∧
      ∀ (mem : Contents) (s s' : Twins) (w : WriteReq),
        Reaches (Twins.write (specialPage vmas)) (fun _ _ ↦ True)
          (Twins.forked r.parent child r.frames mem) s →
        s.write (specialPage vmas) w = some s' → ∀ q < userPages, Twins.OwnPage fa parent q →
          s'.sees w.side.other q = s.sees w.side.other q) ∧
    (r.child = none → r.frames.refcount = fa.refcount ∧ r.frames.isFree = fa.isFree ∧
      ∀ p < userPages,
        (translate 3 r.parent p).map Prod.fst = (translate 3 parent p).map Prod.fst) := by
  rcases cloneUserPageTablesCow_cases hsound h with ⟨root, child, hchild, hrel, htook⟩ |
    ⟨hchild, hcounts, hbits, hparent⟩
  · refine ⟨fun root' child' heq ↦ ?_, fun hnone ↦ by rw [hchild] at hnone; cases hnone⟩
    cases hchild.symm.trans heq
    refine ⟨fun p hp ↦ ⟨hrel.frame_eq p, ?_⟩, fun f hf hman ↦ ?_,
      fun p hp hspecial f flags he ↦ ?_, fun mem s s' w hreach hwrite q hq hown ↦ ?_⟩
    · rw [(hrel.translate_user hp).2, hrel.frame_eq p]
    · rw [htook.refcount f hman, if_neg (htook.not_mem (hsound.busy f hf)), hrel.leafFrames_child]
    · obtain ⟨hp', hc'⟩ := hrel.translate_user hp
      rw [hc', hp', he, map_some, markLeaf, hspecial]
      exact ⟨rfl, rfl⟩
    · have hinv : s.Inv (specialPage vmas) (Twins.OwnPage fa parent) := by
        refine hreach.invariant (Twins.inv_forked hsound hrel htook mem) fun s w s' hinv _ hs ↦ ?_
        obtain ⟨frame, g, hwrote⟩ := Twins.exists_wrote hinv hs
        exact hwrote.inv hinv
      obtain ⟨frame, g, hwrote⟩ := Twins.exists_wrote hinv hwrite
      exact hwrote.sees_other hinv hq hown
  · refine ⟨fun root child heq ↦ (by cases hchild.symm.trans heq), fun _ ↦
      ⟨hcounts, hbits, fun p _ ↦ ?_⟩⟩
    rcases hparent with hparent | ⟨child, hrel⟩
    · rw [hparent]
    · exact hrel.frame_eq p

/-! ### A page of memory and a page of a device -/

/-- A tree that maps page `0`, with its tables in the frames `2`, `3` and `4`. -/
def onePage (e : ℕ × PageFlags) : Node 4 :=
  (emptyTable 3).set 0 (some (2, (emptyTable 2).set 0 (some (3, (emptyTable 1).set 0 (some (4,
    (emptyTable 0).set 0 (some e)))))))

/-- Sixteen frames, of which `1` to `4` are taken. -/
def sixteenFrames : FrameAllocator where
  bitmap := [30, 0]
  refcounts := [0, 1, 1, 1, 1] ++ replicate 11 0
  startFrame := 0
  frameCount := 16
  nextFreeHint := 0
  frameCount_le_bitmap := by decide
  frameCount_le_refcounts := by decide

def writableLeaf : PageFlags := ⟨true, true, true, false, false⟩

/-- One mapping of one page, which may be written. -/
def onePageVmas (backing : VmaBacking) : VmaSet :=
  VmaSet.new.insertValidated
    ⟨0, pageSize, ⟨true, true, false⟩, ⟨true, false, false, false⟩, backing⟩

theorem sound_onePage {f : ℕ} (hleaves : leafFrames 3 (onePage (f, writableLeaf)) = [f])
    (hbusy : sixteenFrames.isFree f = false) : Sound sixteenFrames (onePage (f, writableLeaf)) where
  busy g hg := by
    rw [hleaves] at hg
    rwa [mem_singleton.mp hg]
  unowned g hg := by
    obtain ⟨i, hi⟩ := managed_iff.mp (managed_of_isFree hg)
    have hlt : g < 16 := by
      obtain ⟨rfl, hlt⟩ := frameToIndex_eq_some.mp hi
      exact (zero_add i).symm ▸ hlt
    have hall : ∀ g < 16, sixteenFrames.isFree g = true → sixteenFrames.refcount g = 0 := by decide
    exact hall g hlt hg

/-- A page of memory is mapped by both after the fork. The child writes to it, and the parent reads
what it read before. -/
theorem fork_snapshot_onePage :
    ∃ r root child s', cloneUserPageTablesCow (onePageVmas .anonymous) (onePage (1, writableLeaf))
        sixteenFrames = some r ∧ r.child = some (root, child) ∧ r.frames.refcount 1 = 2 ∧
      translate 3 child 0 = some (1, writableLeaf.cowed) ∧
      (Twins.forked r.parent child r.frames fun _ ↦ [0]).write
        (specialPage (onePageVmas .anonymous))
        ⟨.child, onePageVmas .anonymous, 0, fun _ ↦ [7]⟩ = some s' ∧
      s'.sees .child 0 = some [7] ∧
      s'.sees .parent 0 = (Twins.forked r.parent child r.frames fun _ ↦ [0]).sees .parent 0 := by
  have hsound : Sound sixteenFrames (onePage (1, writableLeaf)) :=
    sound_onePage (by decide +kernel) (by decide)
  have hrun : ((cloneUserPageTablesCow (onePageVmas .anonymous) (onePage (1, writableLeaf))
      sixteenFrames).bind fun r ↦ r.child.bind fun c ↦
        (Twins.forked r.parent c.2 r.frames fun _ ↦ [0]).write
          (specialPage (onePageVmas .anonymous))
          ⟨.child, onePageVmas .anonymous, 0, fun _ ↦ [7]⟩).map (·.sees .child 0) =
        some (some [7]) := by decide +kernel
  obtain ⟨s', hrun, hsees⟩ := map_eq_some_iff.mp hrun
  obtain ⟨r, hr, hrun⟩ := bind_eq_some_iff.mp hrun
  obtain ⟨⟨root, child⟩, hchild, hwrite⟩ := bind_eq_some_iff.mp hrun
  obtain ⟨-, hcounts, hleaf, hwrites⟩ :=
    (fork_snapshot (onePageVmas .anonymous) (onePage (1, writableLeaf)) sixteenFrames r hsound hr).1
      root child hchild
  have hmem : 1 ∈ leafFrames 3 (onePage (1, writableLeaf)) := by decide +kernel
  have hcount : (leafFrames 3 (onePage (1, writableLeaf))).count 1 = 1 := by decide +kernel
  have hown : Twins.OwnPage sixteenFrames (onePage (1, writableLeaf)) 0 := fun e he ↦ by
    have : translate 3 (onePage (1, writableLeaf)) 0 = some (1, writableLeaf) := by decide
    cases this.symm.trans he
    rw [hcount]
    decide
  refine ⟨r, root, child, s', hr, hchild, ?_, (hleaf 0 (by decide) (by decide) _ _ (by decide)).2,
    hwrite, hsees, hwrites _ _ s' _ .refl hwrite 0 (by decide) hown⟩
  rw [hcounts 1 hmem (by decide), hcount]
  decide

/-- A page of a device lies in no frame of the allocator: after the fork two trees map it, and it
has no references, as before. -/
theorem fork_counts_no_device_page :
    ∃ r f, cloneUserPageTablesCow (onePageVmas (.physical (100 * pageSize)))
      (onePage (100, writableLeaf))
        sixteenFrames = some r ∧
      Sound sixteenFrames (onePage (100, writableLeaf)) ∧ r.child.isSome = true ∧
      f ∈ leafFrames 3 (onePage (100, writableLeaf)) ∧
      r.frames.refcount f ≠
        sixteenFrames.refcount f + (leafFrames 3 (onePage (100, writableLeaf))).count f := by
  have hrun : (cloneUserPageTablesCow (onePageVmas (.physical (100 * pageSize)))
      (onePage (100, writableLeaf))
      sixteenFrames).map (fun r ↦ (r.child.isSome, r.frames.refcount 100)) = some (true, 0) := by
    decide +kernel
  obtain ⟨r, hr, heq⟩ := map_eq_some_iff.mp hrun
  obtain ⟨hsome, hcount⟩ := Prod.mk.inj heq
  refine ⟨r, 100, hr, sound_onePage (by decide +kernel) (by decide), hsome, by decide +kernel, ?_⟩
  rw [hcount]
  decide +kernel

end Edos.Memory

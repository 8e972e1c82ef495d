import Edos.Memory.PageTable

/-!
# Copy on write

`fork` gives the child a tree of its own that maps the same frames. Every leaf is made read-only and
marked in both trees, except where both must see each other's writes, and every leaf of the child is
one more reference to its frame. The first write to a marked page copies the frame, or takes it over
when it has no other owner.

The clone is a walk of four levels that allocates a table wherever the parent has one, and can run
out of frames at each of them; then what was built is walked again and given back. The same function
serves every level but the last.

What the walk takes from the frame allocator is said by `Took`, what the way back gives it by
`Gave`.
-/

namespace Edos.Memory

open Function List Option

/-- `is_special_mapping`: what parent and child go on sharing. -/
def isSpecialMapping (vmas : VmaSet) (virt : ℕ) : Bool :=
  match vmas.find virt with
  | some vma =>
    match vma.backing with
    | .sharedMemory _ => true
    | .physical _ => true
    | .fileBacked _ _ shared _ _ => shared
    | _ => false
  | none => false

/-- The flags of a leaf after the walk: not writable, and marked. -/
def PageFlags.cowed (flags : PageFlags) : PageFlags := { flags with writable := false, cow := true }

section Clone

-- which pages, by their number, are copied unchanged
variable (special : ℕ → Bool)

/-- The innermost loop of `clone_user_half`: parent, child, and the allocator with the new
references. A count that overflows stops the kernel. -/
def cloneLeaves (base : ℕ) :
    List (Fin 512) → Node 1 → Node 1 → FrameAllocator → Option (Node 1 × Node 1 × FrameAllocator)
  | [], parent, child, fa => some (parent, child, fa)
  | i :: is, parent, child, fa =>
    match parent.get i with
    | none => cloneLeaves base is parent child fa
    | some (frame, flags) =>
      (fa.incRefcount frame).bind fun fa ↦
        if special (base * 512 + i) then
          cloneLeaves base is parent (child.set i (some (frame, flags))) fa
        else
          let entry := some (frame, PageFlags.cowed flags)
          cloneLeaves base is (parent.set i entry) (child.set i entry) fa

/-- A loop of `clone_user_half` over a table of tables, given the walk of the next table. The answer
is whether the walk came to its end. -/
def cloneTables {n : ℕ}
    (walk : ℕ → Node (n + 1) → FrameAllocator →
      Option (Bool × Node (n + 1) × Node (n + 1) × FrameAllocator)) (base : ℕ) :
    List (Fin 512) → Node (n + 2) → Node (n + 2) → FrameAllocator →
      Option (Bool × Node (n + 2) × Node (n + 2) × FrameAllocator)
  | [], parent, child, fa => some (true, parent, child, fa)
  | i :: is, parent, child, fa =>
    match parent.get i with
    | none => cloneTables walk base is parent child fa
    | some (frame, table) =>
      match fa.allocateFrame with
      | none => some (false, parent, child, fa)
      | some (newFrame, fa) =>
        (walk (base * 512 + i) table fa).bind fun (ok, table, newTable, fa) ↦
          let parent := parent.set i (some (frame, table))
          let child := child.set i (some (newFrame, newTable))
          if ok then cloneTables walk base is parent child fa else some (false, parent, child, fa)

/-- `clone_user_half`, from a table of level `n + 1` on. -/
def cloneUserHalf : (n : ℕ) → ℕ → Node (n + 1) → FrameAllocator →
    Option (Bool × Node (n + 1) × Node (n + 1) × FrameAllocator)
  | 0, base, t, fa => (cloneLeaves special base (span 0) t (emptyTable 0) fa).map fun r ↦ (true, r)
  | n + 1, base, t, fa =>
    cloneTables (cloneUserHalf n) base (span (n + 1)) t (emptyTable (n + 1)) fa

end Clone

/-- The loop of `free_child_user_half` over leaves. -/
def freeLeaves (t : Node 1) : List (Fin 512) → FrameAllocator → Option FrameAllocator
  | [], fa => some fa
  | i :: is, fa =>
    match t.get i with
    | none => freeLeaves t is fa
    | some (frame, _) => (fa.decRefcount frame).bind (freeLeaves t is)

/-- A loop of `free_child_user_half` over a table of tables: what is below a table goes first. -/
def freeTables {n : ℕ} (walk : Node (n + 1) → FrameAllocator → Option FrameAllocator)
    (t : Node (n + 2)) : List (Fin 512) → FrameAllocator → Option FrameAllocator
  | [], fa => some fa
  | i :: is, fa =>
    match t.get i with
    | none => freeTables walk t is fa
    | some (frame, table) =>
      (walk table fa).bind fun fa ↦ (fa.deallocateFrame frame).bind (freeTables walk t is)

/-- `free_child_user_half`, from a table of level `n + 1` on. -/
def freeChildUserHalf : (n : ℕ) → Node (n + 1) → FrameAllocator → Option FrameAllocator
  | 0, t => freeLeaves t (span 0)
  | n + 1, t => freeTables (freeChildUserHalf n) t (span (n + 1))

/-- What a fork leaves behind: the child's root and tree if there is one, the parent's tree, and the
frame allocator. -/
structure Cloned where
  child : Option (ℕ × Node 4)
  parent : Node 4
  frames : FrameAllocator

/-- `clone_user_page_tables_cow`. -/
def cloneUserPageTablesCow (vmas : VmaSet) (parent : Node 4) (fa : FrameAllocator) :
    Option Cloned :=
  match fa.allocateFrame with
  | none => some ⟨none, parent, fa⟩
  | some (root, fa) =>
    (cloneUserHalf (fun page ↦ isSpecialMapping vmas (page * pageSize)) 3 0 parent fa).bind
      fun (ok, parent, child, fa) ↦
        if ok then some ⟨some (root, child), parent, fa⟩
        else
          (freeChildUserHalf 3 child fa).bind fun fa ↦
            (fa.deallocateFrame root).map fun fa ↦ ⟨none, parent, fa⟩

/-- What the frames hold. -/
abbrev Contents := ℕ → List UInt8

/-- What a fault leaves behind: whether it was resolved, the tree, the frame allocator, and what the
frames hold. -/
structure CowOutcome where
  resolved : Bool
  table : Node 4
  frames : FrameAllocator
  contents : Contents

/-- The flags of a leaf that may be written again. -/
def PageFlags.uncowed (flags : PageFlags) : PageFlags :=
  { flags with writable := true, cow := false }

/-- `handle_cow_fault`. -/
def handleCowFault (vmas : VmaSet) (t : Node 4) (fa : FrameAllocator) (mem : Contents)
    (faultAddr : ℕ) : Option CowOutcome :=
  if (vmas.find faultAddr).any (·.prot.write) = false then some ⟨false, t, fa, mem⟩
  else
    match translate 3 t (faultAddr / pageSize) with
    | none => some ⟨false, t, fa, mem⟩
    | some (frame, flags) =>
      if flags.cow = false then some ⟨false, t, fa, mem⟩
      else if fa.refcount frame ≤ 1 then
        some ⟨true, setLeaf 3 t (faultAddr / pageSize) (some (frame, flags.uncowed)), fa, mem⟩
      else
        match fa.allocateFrame with
        | none => some ⟨false, t, fa, mem⟩
        | some (newFrame, fa) =>
          (fa.decRefcount frame).map fun fa ↦
            ⟨true, setLeaf 3 t (faultAddr / pageSize) (some (newFrame, flags.uncowed)), fa,
              update mem newFrame (mem frame)⟩

/-! ## The clone -/

variable {is : List (Fin 512)}

section Clone

variable {special : ℕ → Bool} {ok : Bool} {n base : ℕ} {fa' : FrameAllocator}

/-- The leaf of a page after the walk, in both trees. -/
def markLeaf (special : ℕ → Bool) (page : ℕ) (e : ℕ × PageFlags) : ℕ × PageFlags :=
  (e.1, if special page then e.2 else e.2.cowed)

/-- A table before the walk, and the tables of parent and child after it. Every leaf the walk has
met is marked in both; an entry it has not met is as it was, and absent in the child. A walk that
came to its end (`ok`) has met every entry of the user half. -/
def CloneRel (special : ℕ → Bool) (ok : Bool) :
    (n : ℕ) → ℕ → Node (n + 1) → Node (n + 1) → Node (n + 1) → Prop
  | 0, base, t, t', c => ∀ i : Fin 512,
      t'.get i = (t.get i).map (markLeaf special (base * 512 + i)) ∧ c.get i = t'.get i
  | n + 1, base, t, t', c => ∀ i : Fin 512,
      (t'.get i = t.get i ∧ c.get i = none ∧ (ok = true → i ∈ span (n + 1) → t.get i = none)) ∨
      ∃ frame table table' newFrame newTable, t.get i = some (frame, table) ∧
        t'.get i = some (frame, table') ∧ c.get i = some (newFrame, newTable) ∧
        CloneRel special ok n (base * 512 + i) table table' newTable

theorem CloneRel.mono {t t' c : Node (n + 1)} (h : CloneRel special true n base t t' c) :
    CloneRel special ok n base t t' c := by
  induction n generalizing base with
  | zero => exact h
  | succ n ih =>
    intro i
    rcases h i with ⟨h₁, h₂, h₃⟩ | ⟨frame, table, table', newFrame, newTable, h₁, h₂, h₃, h₄⟩
    · exact .inl ⟨h₁, h₂, fun _ ↦ h₃ rfl⟩
    · exact .inr ⟨frame, table, table', newFrame, newTable, h₁, h₂, h₃, ih h₄⟩

theorem CloneRel.leafFrames_subset {t t' c : Node (n + 1)} (h : CloneRel special ok n base t t' c) :
    leafFrames n c ⊆ leafFrames n t := by
  induction n generalizing base with
  | zero =>
    intro f hf
    obtain ⟨i, hi, hf⟩ := mem_flatMap.mp hf
    refine mem_flatMap.mpr ⟨i, hi, ?_⟩
    rw [(h i).2, (h i).1, Option.map_map] at hf
    exact hf
  | succ n ih =>
    intro f hf
    obtain ⟨i, hi, hf⟩ := mem_flatMap.mp hf
    refine mem_flatMap.mpr ⟨i, hi, ?_⟩
    rcases h i with ⟨-, h₂, -⟩ | ⟨frame, table, table', newFrame, newTable, h₁, h₂, h₃, h₄⟩
    · rw [h₂] at hf
      cases hf
    · rw [h₃] at hf
      rw [h₁]
      exact ih h₄ hf

theorem cloneLeaves_spec {fa : FrameAllocator} (hnodup : is.Nodup) {t t' c c' : Node 1}
    (hc : ∀ i ∈ is, c.get i = none) (h : cloneLeaves special base is t c fa = some (t', c', fa')) :
    (∀ i ∈ is, t'.get i = (t.get i).map (markLeaf special (base * 512 + i)) ∧
        c'.get i = (t.get i).map (markLeaf special (base * 512 + i))) ∧
      (∀ i, i ∉ is → t'.get i = t.get i ∧ c'.get i = c.get i) ∧
      ((∀ f ∈ is.flatMap fun i ↦ ((t.get i).map Prod.fst).toList, fa.isFree f = false) →
        Took fa [] (is.flatMap fun i ↦ ((t.get i).map Prod.fst).toList) fa') := by
  induction is generalizing t c fa with
  | nil =>
    cases h
    exact ⟨fun i hi ↦ absurd hi not_mem_nil, fun i _ ↦ ⟨rfl, rfl⟩, fun _ ↦ .refl _⟩
  | cons i is ih =>
    obtain ⟨hi, hnodup⟩ := nodup_cons.mp hnodup
    have hne {j : Fin 512} (hj : j ∈ is) : j ≠ i := fun heq ↦ hi (heq ▸ hj)
    rw [flatMap_cons]
    cases hentry : t.get i with
    | none =>
      simp only [cloneLeaves, hentry] at h
      obtain ⟨h₁, h₂, h₃⟩ := ih hnodup (fun j hj ↦ hc j (mem_cons_of_mem i hj)) h
      refine ⟨fun j hj ↦ ?_, fun j hj ↦ h₂ j fun hj' ↦ hj (mem_cons_of_mem i hj'),
        fun hbusy ↦ h₃ fun f hf ↦ hbusy f (mem_append_right _ hf)⟩
      rcases mem_cons.mp hj with rfl | hj
      · rw [(h₂ j hi).1, (h₂ j hi).2, hentry, hc j mem_cons_self]
        exact ⟨rfl, rfl⟩
      · exact h₁ j hj
    | some e =>
      obtain ⟨frame, flags⟩ := e
      simp only [cloneLeaves, hentry] at h
      obtain ⟨fa₁, hinc, h⟩ := bind_eq_some_iff.mp h
      have htook := Took.of_inc hinc
      -- both branches write the marked leaf in both trees
      have hmark : cloneLeaves special base is
          (t.set i (some (markLeaf special (base * 512 + i) (frame, flags))))
          (c.set i (some (markLeaf special (base * 512 + i) (frame, flags)))) fa₁ =
          some (t', c', fa') := by
        rw [markLeaf]
        split_ifs at h ⊢ with hs
        · rwa [Node.set_get hentry]
        · exact h
      obtain ⟨h₁, h₂, h₃⟩ := ih hnodup
        (fun j hj ↦ (Node.get_set_of_ne (hne hj)).trans (hc j (mem_cons_of_mem i hj))) hmark
      rw [flatMap_congr fun j hj ↦ by rw [Node.get_set_of_ne (hne hj)]] at h₃
      refine ⟨fun j hj ↦ ?_, fun j hj ↦ ?_, fun hbusy ↦ ?_⟩
      · by_cases heq : j = i
        · subst heq
          rw [(h₂ j hi).1, (h₂ j hi).2, Node.get_set_self, Node.get_set_self, hentry]
          exact ⟨rfl, rfl⟩
        · have hj' := (mem_cons.mp hj).resolve_left heq
          rw [(h₁ j hj').1, (h₁ j hj').2, Node.get_set_of_ne heq]
          exact ⟨rfl, rfl⟩
      · have hji : j ≠ i := fun heq ↦ hj (heq ▸ mem_cons_self)
        have hjis : j ∉ is := fun h ↦ hj (mem_cons_of_mem i h)
        rw [(h₂ j hjis).1, (h₂ j hjis).2, Node.get_set_of_ne hji, Node.get_set_of_ne hji]
        exact ⟨rfl, rfl⟩
      · have hfree (f : ℕ) (hf : f ∈ is.flatMap fun j ↦ ((t.get j).map Prod.fst).toList) :
            fa.isFree f = false := hbusy f (mem_append_right _ hf)
        exact htook.trans (h₃ fun f hf ↦ htook.busy (hfree f hf)) hfree

theorem entryLeaves_subset {e e' d : Option (ℕ × Node (n + 1))} {P : Prop}
    (h : e' = e ∧ d = none ∧ P ∨ ∃ frame table table' newFrame newTable, e = some (frame, table) ∧
      e' = some (frame, table') ∧ d = some (newFrame, newTable) ∧
      CloneRel special ok n base table table' newTable) : entryLeaves n d ⊆ entryLeaves n e := by
  rcases h with ⟨-, rfl, -⟩ | ⟨frame, table, table', newFrame, newTable, rfl, -, rfl, hrel⟩
  · exact nil_subset _
  · exact hrel.leafFrames_subset

/-- What the walk of a table does. -/
def WalkSpec (special : ℕ → Bool) (n : ℕ)
    (walk : ℕ → Node (n + 1) → FrameAllocator →
      Option (Bool × Node (n + 1) × Node (n + 1) × FrameAllocator)) : Prop :=
  ∀ {base : ℕ} {t t' c : Node (n + 1)} {fa fa' : FrameAllocator} {ok : Bool},
    walk base t fa = some (ok, t', c, fa') → CloneRel special ok n base t t' c ∧
      ((∀ f ∈ leafFrames n t, fa.isFree f = false) → Took fa (tableFrames n c) (leafFrames n c) fa')

theorem flatMap_get_eq_nil {t : Node (n + 1)} (h : ∀ i ∈ is, t.get i = none)
    {g : Option (ℕ × Node n) → List ℕ} (hg : g none = []) : is.flatMap (fun i ↦ g (t.get i)) = [] :=
  flatMap_eq_nil_iff.mpr fun i hi ↦ by rw [h i hi, hg]

theorem cloneTables_spec
    {walk : ℕ → Node (n + 1) → FrameAllocator →
      Option (Bool × Node (n + 1) × Node (n + 1) × FrameAllocator)}
    (hwalk : WalkSpec special n walk) {fa : FrameAllocator} (hnodup : is.Nodup)
    {t t' c c' : Node (n + 2)} (hc : ∀ i ∈ is, c.get i = none)
    (h : cloneTables walk base is t c fa = some (ok, t', c', fa')) :
    (∀ i ∈ is, t'.get i = t.get i ∧ c'.get i = none ∧ (ok = true → t.get i = none) ∨
      ∃ frame table table' newFrame newTable, t.get i = some (frame, table) ∧
        t'.get i = some (frame, table') ∧ c'.get i = some (newFrame, newTable) ∧
        CloneRel special ok n (base * 512 + i) table table' newTable) ∧
      (∀ i, i ∉ is → t'.get i = t.get i ∧ c'.get i = c.get i) ∧
      ((∀ f ∈ is.flatMap fun i ↦ entryLeaves n (t.get i), fa.isFree f = false) →
        Took fa (is.flatMap fun i ↦ entryTables n (c'.get i))
          (is.flatMap fun i ↦ entryLeaves n (c'.get i)) fa') := by
  induction is generalizing t c fa with
  | nil =>
    cases h
    exact ⟨fun i hi ↦ absurd hi not_mem_nil, fun i _ ↦ ⟨rfl, rfl⟩, fun _ ↦ .refl _⟩
  | cons i is ih =>
    obtain ⟨hi, hnodup⟩ := nodup_cons.mp hnodup
    have hne {j : Fin 512} (hj : j ∈ is) : j ≠ i := fun heq ↦ hi (heq ▸ hj)
    rw [flatMap_cons, flatMap_cons, flatMap_cons]
    cases hentry : t.get i with
    | none =>
      simp only [cloneTables, hentry] at h
      obtain ⟨h₁, h₂, h₃⟩ := ih hnodup (fun j hj ↦ hc j (mem_cons_of_mem i hj)) h
      have hci : c'.get i = none := (h₂ i hi).2.trans (hc i mem_cons_self)
      refine ⟨fun j hj ↦ ?_, fun j hj ↦ h₂ j fun hj' ↦ hj (mem_cons_of_mem i hj'), fun hbusy ↦ ?_⟩
      · by_cases heq : j = i
        · subst heq
          exact .inl ⟨(h₂ j hi).1, hci, fun _ ↦ hentry⟩
        · exact h₁ j ((mem_cons.mp hj).resolve_left heq)
      · rw [hci]
        exact h₃ fun f hf ↦ hbusy f (mem_append_right _ hf)
    | some e =>
      obtain ⟨frame, table⟩ := e
      cases halloc : fa.allocateFrame with
      | none =>
        simp only [cloneTables, hentry, halloc, some.injEq, Prod.mk.injEq] at h
        obtain ⟨rfl, rfl, rfl, rfl⟩ := h
        have hnone (j : Fin 512) (hj : j ∈ is) : c.get j = none := hc j (mem_cons_of_mem i hj)
        refine ⟨fun j hj ↦ .inl ⟨rfl, hc j hj, fun h ↦ (nomatch h)⟩,
          fun j _ ↦ ⟨rfl, rfl⟩, fun _ ↦ ?_⟩
        rw [flatMap_get_eq_nil hnone rfl, flatMap_get_eq_nil hnone rfl, hc i mem_cons_self]
        exact .refl fa
      | some gfa =>
        obtain ⟨newFrame, fa₁⟩ := gfa
        have htook := Took.of_allocate halloc
        simp only [cloneTables, hentry, halloc] at h
        obtain ⟨⟨ok₁, table', newTable, fa₂⟩, hrun, h⟩ := bind_eq_some_iff.mp h
        obtain ⟨hrel, htook₂⟩ := hwalk hrun
        have hfirst (hbusy : ∀ f ∈ leafFrames n table, fa.isFree f = false) :=
          htook.trans (htook₂ fun f hf ↦ htook.busy (hbusy f hf))
            fun f hf ↦ hbusy f (hrel.leafFrames_subset hf)
        split_ifs at h with hok
        · subst hok
          obtain ⟨h₁, h₂, h₃⟩ := ih hnodup
            (fun j hj ↦ (Node.get_set_of_ne (hne hj)).trans (hc j (mem_cons_of_mem i hj))) h
          have hci : c'.get i = some (newFrame, newTable) :=
            (h₂ i hi).2.trans (Node.get_set_self ..)
          have hset {j : Fin 512} (hj : j ∈ is) :
              (t.set i (some (frame, table'))).get j = t.get j :=
            Node.get_set_of_ne (hne hj)
          refine ⟨fun j hj ↦ ?_, fun j hj ↦ ?_, fun hbusy ↦ ?_⟩
          · by_cases heq : j = i
            · subst heq
              exact .inr ⟨frame, table, table', newFrame, newTable, hentry,
                (h₂ j hi).1.trans (Node.get_set_self ..), hci, hrel.mono⟩
            · have hj' := (mem_cons.mp hj).resolve_left heq
              have := h₁ j hj'
              rwa [hset hj'] at this
          · have hji : j ≠ i := fun heq ↦ hj (heq ▸ mem_cons_self)
            have hjis : j ∉ is := fun h ↦ hj (mem_cons_of_mem i h)
            rw [(h₂ j hjis).1, (h₂ j hjis).2, Node.get_set_of_ne hji, Node.get_set_of_ne hji]
            exact ⟨rfl, rfl⟩
          · have hfirst := hfirst fun f hf ↦ hbusy f (mem_append_left _ hf)
            have hrest (f : ℕ) (hf : f ∈ is.flatMap fun j ↦ entryLeaves n (t.get j)) :
                fa.isFree f = false := hbusy f (mem_append_right _ hf)
            rw [flatMap_congr fun j hj ↦ by rw [hset hj]] at h₃
            rw [hci]
            refine hfirst.trans (h₃ fun f hf ↦ hfirst.busy (hrest f hf)) fun f hf ↦ ?_
            obtain ⟨j, hj, hf⟩ := mem_flatMap.mp hf
            refine hrest f (mem_flatMap.mpr ⟨j, hj, ?_⟩)
            rw [← hset hj]
            exact entryLeaves_subset (h₁ j hj) hf
        · cases h
          obtain rfl : ok₁ = false := Bool.eq_false_of_not_eq_true hok
          have hnone (j : Fin 512) (hj : j ∈ is) :
              (c.set i (some (newFrame, newTable))).get j = none :=
            (Node.get_set_of_ne (hne hj)).trans (hc j (mem_cons_of_mem i hj))
          refine ⟨fun j hj ↦ ?_, fun j hj ↦ ?_, fun hbusy ↦ ?_⟩
          · by_cases heq : j = i
            · subst heq
              exact .inr ⟨frame, table, table', newFrame, newTable, hentry, Node.get_set_self ..,
                Node.get_set_self .., hrel⟩
            · exact .inl ⟨Node.get_set_of_ne heq, hnone j ((mem_cons.mp hj).resolve_left heq),
                fun h ↦ (nomatch h)⟩
          · have hji : j ≠ i := fun heq ↦ hj (heq ▸ mem_cons_self)
            exact ⟨Node.get_set_of_ne hji, Node.get_set_of_ne hji⟩
          · rw [flatMap_get_eq_nil hnone rfl, flatMap_get_eq_nil hnone rfl, Node.get_set_self,
              append_nil, append_nil]
            exact hfirst fun f hf ↦ hbusy f (mem_append_left _ hf)

/-- **The walk.** -/
theorem cloneUserHalf_spec (n : ℕ) : WalkSpec special n (cloneUserHalf special n) := by
  induction n with
  | zero =>
    intro base t t' c fa fa' ok h
    obtain ⟨⟨t₁, c₁, fa₁⟩, h, heq⟩ := map_eq_some_iff.mp h
    cases heq
    obtain ⟨h₁, -, h₃⟩ := cloneLeaves_spec (nodup_span 0) (fun i _ ↦ rfl) h
    have hall (i : Fin 512) : i ∈ span 0 := mem_span.mpr fun h ↦ (nomatch h)
    refine ⟨fun i ↦ ⟨(h₁ i (hall i)).1, (h₁ i (hall i)).2.trans (h₁ i (hall i)).1.symm⟩, ?_⟩
    have hleaves : leafFrames 0 c = leafFrames 0 t := by
      refine flatMap_congr fun i hi ↦ ?_
      rw [(h₁ i hi).2, Option.map_map]
      rfl
    rw [hleaves]
    exact h₃
  | succ n ih =>
    intro base t t' c fa fa' ok h
    obtain ⟨h₁, h₂, h₃⟩ := cloneTables_spec ih (nodup_span (n + 1)) (fun i _ ↦ rfl) h
    refine ⟨fun i ↦ ?_, h₃⟩
    by_cases hi : i ∈ span (n + 1)
    · exact (h₁ i hi).imp_left fun h ↦ ⟨h.1, h.2.1, fun hok _ ↦ h.2.2 hok⟩
    · exact .inl ⟨(h₂ i hi).1, (h₂ i hi).2, fun _ h ↦ absurd h hi⟩

/-- The number of a page, from the number of the table of level `n + 1` it is found in. -/
def pageIn (n base p : ℕ) : ℕ := base * 512 ^ (n + 1) + p % 512 ^ (n + 1)

theorem pageIn_succ
    (n base p : ℕ) : pageIn n (base * 512 + slot (n + 1) p) p = pageIn (n + 1) base p := by
  rw [pageIn, pageIn, slot_val, pow_succ 512 (n + 1), Nat.mod_mul, add_mul]
  ring

theorem pageIn_root {p : ℕ} (hp : p < userPages) : pageIn 3 0 p = p := by
  have hle : userPages ≤ 512 ^ (3 + 1) := by decide
  rw [pageIn, zero_mul, zero_add, Nat.mod_eq_of_lt (hp.trans_le hle)]

/-- **Leaves after the walk.** In the parent a leaf is marked or as it was; in the child it is the
marked leaf or absent; and it is marked in both if the walk came to its end. -/
theorem CloneRel.translate {t t' c : Node (n + 1)} (h : CloneRel special ok n base t t' c) (p : ℕ) :
    (translate n t' p = translate n t p ∧ translate n c p = none ∧
        (ok = true → p < userPages → translate n t p = none)) ∨
      (translate n t' p = (translate n t p).map (markLeaf special (pageIn n base p)) ∧
        translate n c p = translate n t' p) := by
  induction n generalizing base with
  | zero =>
    refine .inr ?_
    have hslot : (slot 0 p).val = p % 512 := by rw [slot_val, pow_zero, Nat.div_one]
    have := h (slot 0 p)
    rwa [hslot] at this
  | succ n ih =>
    rw [translate_succ, translate_succ, translate_succ]
    rcases h (slot (n + 1) p) with ⟨h₁, h₂, h₃⟩ |
      ⟨frame, table, table', newFrame, newTable, h₁, h₂, h₃, h₄⟩
    · refine .inl ⟨by rw [h₁], by rw [h₂]; rfl, fun hok hp ↦ ?_⟩
      rw [h₃ hok (slot_mem_span hp (n + 1))]
      rfl
    · rw [h₁, h₂, h₃, ← pageIn_succ]
      exact ih h₄

theorem CloneRel.leafFrames_eq {t t' c : Node (n + 1)} (h : CloneRel special ok n base t t' c) :
    leafFrames n t' = leafFrames n t := by
  induction n generalizing base with
  | zero =>
    refine flatMap_congr fun i _ ↦ ?_
    rw [(h i).1, Option.map_map]
    rfl
  | succ n ih =>
    rw [leafFrames_succ, leafFrames_succ]
    refine flatMap_congr fun i _ ↦ ?_
    rcases h i with ⟨h₁, -, -⟩ | ⟨frame, table, table', newFrame, newTable, h₁, h₂, -, h₄⟩
    · rw [h₁]
    · rw [h₁, h₂, entryLeaves_some, entryLeaves_some, ih h₄]

/-- A walk that came to its end has one leaf in the child for each leaf of the parent. -/
theorem CloneRel.leafFrames_child {t t' c : Node (n + 1)}
    (h : CloneRel special true n base t t' c) :
    leafFrames n c = leafFrames n t := by
  induction n generalizing base with
  | zero =>
    refine flatMap_congr fun i _ ↦ ?_
    rw [(h i).2, (h i).1, Option.map_map]
    rfl
  | succ n ih =>
    rw [leafFrames_succ, leafFrames_succ]
    refine flatMap_congr fun i hi ↦ ?_
    rcases h i with ⟨-, h₂, h₃⟩ | ⟨frame, table, table', newFrame, newTable, h₁, -, h₃, h₄⟩
    · rw [h₂, h₃ rfl hi]
    · rw [h₁, h₃, entryLeaves_some, entryLeaves_some, ih h₄]

end Clone

/-! ## The way back -/

section Free

variable {n : ℕ}

theorem freeLeaves_spec {t : Node 1} {fa : FrameAllocator}
    (h : Returnable fa [] (is.flatMap fun i ↦ ((t.get i).map Prod.fst).toList)) :
    ∃ fa', freeLeaves t is fa = some fa' ∧
      Gave fa [] (is.flatMap fun i ↦ ((t.get i).map Prod.fst).toList) fa' := by
  induction is generalizing fa with
  | nil => exact ⟨fa, rfl, .refl fa⟩
  | cons i is ih =>
    rw [flatMap_cons] at h ⊢
    cases hentry : t.get i with
    | none =>
      rw [hentry] at h
      simp only [freeLeaves, hentry]
      exact ih h
    | some e =>
      rw [hentry] at h
      have hfirst : fa.Managed e.1 → 0 < fa.refcount e.1 := fun hman ↦ by
        have := h.counted e.1 hman
        rw [count_append] at this
        simp only [map_some, toList_some, count_singleton_self] at this
        omega
      obtain ⟨fa₁, hdec, hgave⟩ := Gave.exists_dec hfirst
      have hsplit : Returnable fa ([] ++ []) ([e.1] ++ _) := h
      obtain ⟨fa₂, hrun, hgave'⟩ := ih (hsplit.rest hgave)
      refine ⟨fa₂, ?_, hgave.trans hgave'⟩
      simp only [freeLeaves, hentry, hdec, bind_some, hrun]

theorem freeTables_spec {walk : Node (n + 1) → FrameAllocator → Option FrameAllocator}
    (hwalk : ∀ {t : Node (n + 1)} {fa : FrameAllocator},
      Returnable fa (tableFrames n t) (leafFrames n t) →
        ∃ fa', walk t fa = some fa' ∧ Gave fa (tableFrames n t) (leafFrames n t) fa')
    {t : Node (n + 2)} {fa : FrameAllocator}
    (h : Returnable fa (is.flatMap fun i ↦ entryTables n (t.get i))
      (is.flatMap fun i ↦ entryLeaves n (t.get i))) :
    ∃ fa', freeTables walk t is fa = some fa' ∧
      Gave fa (is.flatMap fun i ↦ entryTables n (t.get i))
        (is.flatMap fun i ↦ entryLeaves n (t.get i)) fa' := by
  induction is generalizing fa with
  | nil => exact ⟨fa, rfl, .refl fa⟩
  | cons i is ih =>
    rw [flatMap_cons, flatMap_cons] at h ⊢
    cases hentry : t.get i with
    | none =>
      rw [hentry] at h
      simp only [freeTables, hentry]
      exact ih h
    | some e =>
      obtain ⟨frame, table⟩ := e
      rw [hentry] at h
      have hperm : (frame :: tableFrames n table).Perm (tableFrames n table ++ [frame]) :=
        (perm_append_singleton frame _).symm
      -- what is below the table, then the table
      have hboth : Returnable fa (tableFrames n table ++ [frame]) (leafFrames n table ++ []) := by
        rw [append_nil]
        exact h.left.perm hperm
      obtain ⟨fa₁, hrun₁, hgave₁⟩ := hwalk hboth.left
      have hframe := hboth.rest hgave₁
      obtain ⟨fa₂, hrun₂, hgave₂⟩ := Gave.exists_deallocate
        (hframe.managed frame (mem_singleton_self frame))
        (hframe.owned frame (mem_singleton_self frame))
      have hgave : Gave fa (frame :: tableFrames n table) (leafFrames n table) fa₂ := by
        have := (hgave₁.trans hgave₂).perm hperm.symm
        rwa [append_nil] at this
      obtain ⟨fa₃, hrun₃, hgave₃⟩ := ih (h.rest hgave)
      refine ⟨fa₃, ?_, hgave.trans hgave₃⟩
      simp only [freeTables, hentry, hrun₁, bind_some, hrun₂, hrun₃]

/-- **The way back** returns everything. -/
theorem freeChildUserHalf_spec {t : Node (n + 1)} {fa : FrameAllocator}
    (h : Returnable fa (tableFrames n t) (leafFrames n t)) :
    ∃ fa', freeChildUserHalf n t fa = some fa' ∧
      Gave fa (tableFrames n t) (leafFrames n t) fa' := by
  induction n generalizing fa with
  | zero => exact freeLeaves_spec h
  | succ n ih => exact freeTables_spec ih h

end Free

/-! ## Faults -/

/-- How a fault is resolved: the page is taken over from an owner that is alone, or copied to a
frame that was free. -/
theorem handleCowFault_resolved {vmas : VmaSet} {t : Node 4} {fa : FrameAllocator} {mem : Contents}
    {addr : ℕ} {o : CowOutcome} (h : handleCowFault vmas t fa mem addr = some o)
    (hres : o.resolved = true) :
    ∃ frame flags, translate 3 t (addr / pageSize) = some (frame, flags) ∧
      ((fa.refcount frame ≤ 1 ∧
          o = ⟨true, setLeaf 3 t (addr / pageSize) (some (frame, flags.uncowed)), fa, mem⟩) ∨
        ∃ newFrame fa₁ fa₂, 1 < fa.refcount frame ∧ fa.allocateFrame = some (newFrame, fa₁) ∧
          fa₁.decRefcount frame = some fa₂ ∧
          o = ⟨true, setLeaf 3 t (addr / pageSize) (some (newFrame, flags.uncowed)), fa₂,
            update mem newFrame (mem frame)⟩) := by
  rw [handleCowFault] at h
  split_ifs at h with hwrite
  · cases h
    cases hres
  split at h
  · cases h
    cases hres
  rename_i frame flags hentry
  split_ifs at h with hcow hrc
  · cases h
    cases hres
  · cases h
    exact ⟨frame, flags, hentry, .inl ⟨hrc, rfl⟩⟩
  split at h
  · cases h
    cases hres
  rename_i newFrame fa₁ halloc
  obtain ⟨fa₂, hdec, rfl⟩ := map_eq_some_iff.mp h
  exact ⟨frame, flags, hentry,
    .inr ⟨newFrame, fa₁, fa₂, Nat.lt_of_not_le hrc, halloc, hdec, rfl⟩⟩

end Edos.Memory

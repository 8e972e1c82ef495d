import Edos.Memory.FrameAllocator
import Edos.Memory.Vma

/-!
# Page tables

A page table is a tree of tables with 512 entries each. A node of level `0` is what a leaf entry
says about the page it maps, a node of level `n + 1` is a table: an entry is absent, or it holds a
frame and what is there, a page or the next table. The tree of a process is a node of level `4`, and
its user half are the first 256 entries of it; `span` is the entries a walk over the user half
visits.

Of the flags only those of a leaf are modelled. The entries above are always made permissive, so
that it is the leaf that decides.

What the rest of the development uses is `translate`, with one equation for every operation, and the
frames of a tree: those its leaves map (`leafFrames`) and those its tables lie in (`tableFrames`).
-/

namespace Edos.Memory

open List Option

/-- The flags of a leaf, which is `PRESENT`; `cow` is `COW_BIT`. -/
structure PageFlags where
  writable : Bool
  userAccessible : Bool
  noExecute : Bool
  cow : Bool
  writeCombining : Bool
  deriving DecidableEq, Repr

/-- What an entry leads to: a page with its flags, or a table. -/
@[reducible] def Node : ℕ → Type
  | 0 => PageFlags
  | n + 1 => Fin 512 → Option (ℕ × Node n)

/-- The entry of a table. -/
def Node.get {n : ℕ} (t : Node (n + 1)) (i : Fin 512) : Option (ℕ × Node n) := t i

/-- Write an entry of a table. -/
def Node.set {n : ℕ} (t : Node (n + 1)) (i : Fin 512) (e : Option (ℕ × Node n)) : Node (n + 1) :=
  fun j ↦ if j = i then e else t j

/-- A table with no entry. -/
def emptyTable (n : ℕ) : Node (n + 1) := fun _ ↦ none

instance neZero : NeZero 512 := ⟨by decide⟩

/-- The entry that a page selects in a table of level `n + 1`. -/
def slot (n page : ℕ) : Fin 512 := Fin.ofNat 512 (page / 512 ^ n)

/-- The number of pages of the user half. -/
def userPages : ℕ := 2 ^ 35

/-- The entries that belong to the user half: all, and half of those of the root. -/
def span (n : ℕ) : List (Fin 512) :=
  if n = 3 then (finRange 512).filter (·.val < 256) else finRange 512

/-- The frame and the flags of a page. -/
def translate : (n : ℕ) → Node (n + 1) → ℕ → Option (ℕ × PageFlags)
  | 0, t, page => t.get (slot 0 page)
  | n + 1, t, page => (t.get (slot (n + 1) page)).bind fun e ↦ translate n e.2 page

/-- Write the leaf entry of a page, if there are tables down to it. -/
def setLeaf : (n : ℕ) → Node (n + 1) → ℕ → Option (ℕ × PageFlags) → Node (n + 1)
  | 0, t, page, e => t.set (slot 0 page) e
  | n + 1, t, page, e =>
    match t.get (slot (n + 1) page) with
    | none => t
    | some (frame, sub) => t.set (slot (n + 1) page) (some (frame, setLeaf n sub page e))

/-- Map a page, with the tables it needs (`map_page_direct`, `map_to_with_table_flags`): whether it
was mapped. A page that is present is not mapped again; tables that were allocated before the frames
ran out stay. -/
def mapPage : (n : ℕ) → Node (n + 1) → ℕ → ℕ × PageFlags → FrameAllocator →
    Bool × Node (n + 1) × FrameAllocator
  | 0, t, page, e, fa =>
    match t.get (slot 0 page) with
    | some _ => (false, t, fa)
    | none => (true, t.set (slot 0 page) (some e), fa)
  | n + 1, t, page, e, fa =>
    match t.get (slot (n + 1) page) with
    | some (frame, sub) =>
      let (ok, sub, fa) := mapPage n sub page e fa
      (ok, t.set (slot (n + 1) page) (some (frame, sub)), fa)
    | none =>
      match fa.allocateFrame with
      | none => (false, t, fa)
      | some (frame, fa) =>
        let (ok, sub, fa) := mapPage n (emptyTable n) page e fa
        (ok, t.set (slot (n + 1) page) (some (frame, sub)), fa)

/-- The frames that the leaves of the user half map, one for each leaf. -/
def leafFrames : (n : ℕ) → Node (n + 1) → List ℕ
  | 0, t => (span 0).flatMap fun i ↦ ((t.get i).map Prod.fst).toList
  | n + 1, t => (span (n + 1)).flatMap fun i ↦ ((t.get i).map fun e ↦ leafFrames n e.2).getD []

/-- The frames of the tables of the user half, without that of the root. -/
def tableFrames : (n : ℕ) → Node (n + 1) → List ℕ
  | 0, _ => []
  | n + 1, t => (span (n + 1)).flatMap fun i ↦
      ((t.get i).map fun e ↦ e.1 :: tableFrames n e.2).getD []

@[simp] theorem Node.get_set {n : ℕ} (t : Node (n + 1)) (i j : Fin 512) (e : Option (ℕ × Node n)) :
    (t.set i e).get j = if j = i then e else t.get j := rfl

theorem Node.get_set_self {n : ℕ} (t : Node (n + 1)) (i : Fin 512) (e : Option (ℕ × Node n)) :
    (t.set i e).get i = e := if_pos rfl

variable {i : Fin 512}

theorem Node.get_set_of_ne {n : ℕ} {t : Node (n + 1)} {j : Fin 512} {e : Option (ℕ × Node n)}
    (h : j ≠ i) : (t.set i e).get j = t.get j := if_neg h

theorem Node.set_get {n : ℕ} {t : Node (n + 1)} {e : Option (ℕ × Node n)}
    (h : t.get i = e) : t.set i e = t := by
  funext j
  change (t.set i e).get j = t.get j
  rw [Node.get_set]
  split_ifs with hj
  · rw [hj, h]
  · rfl

theorem translate_zero (t : Node 1) (page : ℕ) : translate 0 t page = t.get (slot 0 page) := rfl

theorem translate_succ {n : ℕ} (t : Node (n + 2)) (page : ℕ) :
    translate (n + 1) t page = (t.get (slot (n + 1) page)).bind fun e ↦ translate n e.2 page := rfl

/-! ## Pages and their entries -/

variable {n : ℕ} {t : Node (n + 1)} {p q : ℕ}

/-- The entries of two pages are the same from the table of level `n + 1` on. -/
def SamePath (n p q : ℕ) : Prop := p % 512 ^ (n + 1) = q % 512 ^ (n + 1)

instance (n p q : ℕ) : Decidable (SamePath n p q) := inferInstanceAs (Decidable (_ = _))

theorem SamePath.refl (n p : ℕ) : SamePath n p p := rfl

theorem slot_val (n p : ℕ) : (slot n p).val = p / 512 ^ n % 512 := rfl

theorem slot_eq_iff : slot n p = slot n q ↔ p / 512 ^ n % 512 = q / 512 ^ n % 512 := by
  rw [Fin.ext_iff, slot_val, slot_val]

theorem samePath_zero : SamePath 0 p q ↔ slot 0 p = slot 0 q := by
  rw [slot_eq_iff, SamePath, pow_zero, Nat.div_one, Nat.div_one, zero_add, pow_one]

theorem samePath_succ :
    SamePath (n + 1) p q ↔ slot (n + 1) p = slot (n + 1) q ∧ SamePath n p q := by
  have hpos : 0 < 512 ^ (n + 1) := Nat.pow_pos (by decide)
  rw [slot_eq_iff, SamePath, SamePath, pow_succ 512 (n + 1), Nat.mod_mul, Nat.mod_mul]
  constructor
  · intro h
    have h₁ : p % 512 ^ (n + 1) = q % 512 ^ (n + 1) := by
      have := congrArg (· % 512 ^ (n + 1)) h
      simpa using this
    rw [h₁] at h
    exact ⟨Nat.eq_of_mul_eq_mul_left hpos (Nat.add_left_cancel h), h₁⟩
  · rintro ⟨h₁, h₂⟩
    rw [h₁, h₂]

theorem samePath_iff (hp : p < userPages) (hq : q < userPages) : SamePath 3 p q ↔ p = q := by
  have hle : userPages ≤ 512 ^ (3 + 1) := by decide
  rw [SamePath, Nat.mod_eq_of_lt (hp.trans_le hle), Nat.mod_eq_of_lt (hq.trans_le hle)]

theorem mem_span : i ∈ span n ↔ (n = 3 → i.val < 256) := by
  rw [span]
  split_ifs with h
  · simp [h]
  · simp [h]

theorem slot_mem_span (hp : p < userPages) (n : ℕ) : slot n p ∈ span n := by
  rw [mem_span]
  rintro rfl
  rw [slot_val]
  have : p / 512 ^ 3 < 256 := Nat.div_lt_of_lt_mul hp
  omega

theorem nodup_span (n : ℕ) : (span n).Nodup := by
  rw [span]
  split_ifs
  · exact (nodup_finRange 512).filter _
  · exact nodup_finRange 512

/-! ## Translation -/

theorem exists_entry {t : Node (n + 2)} (hp : (translate (n + 1) t p).isSome = true) :
    ∃ fs, t.get (slot (n + 1) p) = some fs ∧ (translate n fs.2 p).isSome = true := by
  obtain ⟨e, he⟩ := isSome_iff_exists.mp hp
  obtain ⟨fs, hentry, he⟩ := bind_eq_some_iff.mp he
  exact ⟨fs, hentry, isSome_iff_exists.mpr ⟨e, he⟩⟩

/-- **A leaf is written.** -/
theorem translate_setLeaf (e : Option (ℕ × PageFlags)) (hp : (translate n t p).isSome = true)
    (q : ℕ) : translate n (setLeaf n t p e) q = if SamePath n q p then e else translate n t q := by
  induction n with
  | zero =>
    simp only [setLeaf, translate_zero, samePath_zero]
    rfl
  | succ n ih =>
    obtain ⟨fs, hentry, hp⟩ := exists_entry hp
    simp only [setLeaf, hentry]
    rw [translate_succ, translate_succ, Node.get_set]
    by_cases hslot : slot (n + 1) q = slot (n + 1) p
    · rw [if_pos hslot, bind_some, ih hp]
      simp only [samePath_succ, hslot, true_and, hentry, bind_some]
    · rw [if_neg hslot, if_neg fun h ↦ hslot (samePath_succ.mp h).1]

/-! ## The frames of a tree -/

/-- The frames of the leaves behind an entry. -/
def entryLeaves (n : ℕ) (e : Option (ℕ × Node (n + 1))) : List ℕ :=
  (e.map fun e ↦ leafFrames n e.2).getD []

/-- The frame of the table behind an entry, and those below it. -/
def entryTables (n : ℕ) (e : Option (ℕ × Node (n + 1))) : List ℕ :=
  (e.map fun e ↦ e.1 :: tableFrames n e.2).getD []

theorem entryLeaves_some (e : ℕ × Node (n + 1)) : entryLeaves n (some e) = leafFrames n e.2 := rfl

theorem leafFrames_succ (t : Node (n + 2)) :
    leafFrames (n + 1) t = (span (n + 1)).flatMap fun i ↦ entryLeaves n (t.get i) := rfl

theorem count_flatMap_of_eq {ι : Type*} {l : List ι} {i : ι} (hl : l.Nodup) (hi : i ∈ l)
    {g g' : ι → List ℕ} (h : ∀ j ∈ l, j ≠ i → g' j = g j) (f : ℕ) :
    (l.flatMap g').count f + (g i).count f = (l.flatMap g).count f + (g' i).count f := by
  induction l with
  | nil => exact absurd hi not_mem_nil
  | cons j l ih =>
    obtain ⟨hj, hl⟩ := nodup_cons.mp hl
    rw [flatMap_cons, flatMap_cons, count_append, count_append]
    rcases mem_cons.mp hi with rfl | hmem
    · have hrest : l.flatMap g' = l.flatMap g := flatMap_congr fun k hk ↦
        h k (mem_cons_of_mem i hk) fun heq ↦ hj (heq ▸ hk)
      rw [hrest]
      omega
    · have := ih hl hmem fun k hk ↦ h k (mem_cons_of_mem j hk)
      rw [h j mem_cons_self fun heq ↦ hj (heq ▸ hmem)]
      omega

/-- Whether a leaf maps a frame, as a number. -/
def leafCount (f : ℕ) (e : Option (ℕ × PageFlags)) : ℕ := if e.map Prod.fst = some f then 1 else 0

theorem leafCount_some (f g : ℕ) (flags : PageFlags) :
    leafCount f (some (g, flags)) = if f = g then 1 else 0 := by
  rw [leafCount, map_some]
  simp only [some.injEq, eq_comm]

theorem count_leaf (f : ℕ) (e : Option (ℕ × PageFlags)) :
    ((e.map Prod.fst).toList).count f = leafCount f e := by
  cases e with
  | none => rfl
  | some e =>
    rw [leafCount, map_some, toList_some]
    split_ifs with h
    · rw [some.inj h, count_singleton_self]
    · exact count_eq_zero.mpr fun hmem ↦ h (congrArg some (mem_singleton.mp hmem).symm)

/-- **The frames mapped, when a leaf is written.** -/
theorem count_leafFrames_setLeaf (e : Option (ℕ × PageFlags)) (hp : (translate n t p).isSome = true)
    (huser : p < userPages) (f : ℕ) :
    (leafFrames n (setLeaf n t p e)).count f + leafCount f (translate n t p) =
      (leafFrames n t).count f + leafCount f e := by
  induction n with
  | zero =>
    rw [translate_zero, ← count_leaf, ← count_leaf]
    have hset (j : Fin 512) : Node.get (setLeaf 0 t p e) j = if j = slot 0 p then e else t.get j :=
      rfl
    have hcount : (leafFrames 0 (setLeaf 0 t p e)).count f + _ = (leafFrames 0 t).count f + _ :=
      count_flatMap_of_eq (nodup_span 0) (slot_mem_span huser 0)
        (fun j _ hj ↦ by rw [hset, if_neg hj]) f
    rwa [hset, if_pos rfl] at hcount
  | succ n ih =>
    obtain ⟨fs, hentry, hp⟩ := exists_entry hp
    have hset (j : Fin 512) : (setLeaf (n + 1) t p e).get j =
        if j = slot (n + 1) p then some (fs.1, setLeaf n fs.2 p e) else t.get j := by
      simp only [setLeaf, hentry, Node.get_set]
    have hcount : (leafFrames (n + 1) (setLeaf (n + 1) t p e)).count f + _ =
        (leafFrames (n + 1) t).count f + _ :=
      count_flatMap_of_eq (nodup_span (n + 1)) (slot_mem_span huser (n + 1))
        (fun j _ hj ↦ by rw [hset, if_neg hj]) f
    rw [hset, if_pos rfl, hentry] at hcount
    simp only [map_some, getD_some] at hcount
    have hrec := ih hp
    rw [translate_succ, hentry, bind_some]
    omega

theorem mem_leafFrames {e : ℕ × PageFlags} (h : translate n t p = some e) (huser : p < userPages) :
    e.1 ∈ leafFrames n t := by
  induction n with
  | zero =>
    refine mem_flatMap.mpr ⟨slot 0 p, slot_mem_span huser 0, ?_⟩
    rw [← translate_zero, h]
    exact mem_singleton_self _
  | succ n ih =>
    obtain ⟨fs, hentry, h⟩ := bind_eq_some_iff.mp h
    refine mem_flatMap.mpr ⟨slot (n + 1) p, slot_mem_span huser (n + 1), ?_⟩
    rw [hentry]
    exact ih h

end Edos.Memory

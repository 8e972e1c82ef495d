import Mathlib.Data.List.Induction
import Mathlib.Order.Nat

/-!
# Finite maps in the order of their keys

A finite map whose values know their key, kept as the list of its values with strictly increasing
keys. A value is entered in the place of an older one with its key (`insert`), taken out by its key
(`erase`), and looked up by the key itself (`get`) or by the greatest key up to a bound (`floor`,
`below`). Every operation is described by its members.
-/

namespace Edos

open List

/-- Values with strictly increasing keys. -/
structure OrdMap (α : Type*) (key : α → ℕ) where
  /-- The values. -/
  toList : List α
  /-- No key occurs twice, and the values stand in the order of their keys. -/
  sorted : toList.Pairwise fun a b ↦ key a < key b
  deriving DecidableEq

namespace OrdMap

variable {α : Type*} {key : α → ℕ} {m : OrdMap α key} {x y : α} {k a b : ℕ}

instance : Membership α (OrdMap α key) := ⟨fun m x ↦ x ∈ m.toList⟩

theorem mem_toList : x ∈ m.toList ↔ x ∈ m := Iff.rfl

theorem eq_of_key_eq (hx : x ∈ m) (hy : y ∈ m) (h : key x = key y) : x = y := by
  obtain ⟨i, hi, rfl⟩ := mem_iff_getElem.mp hx
  obtain ⟨j, hj, rfl⟩ := mem_iff_getElem.mp hy
  have hlt := pairwise_iff_getElem.mp m.sorted
  rcases lt_trichotomy i j with hij | rfl | hij
  · exact absurd h (hlt i j hi hj hij).ne
  · rfl
  · exact absurd h (hlt j i hj hi hij).ne'

/-- The map with no value. -/
def empty : OrdMap α key := ⟨[], List.Pairwise.nil⟩

@[simp] theorem not_mem_empty : x ∉ (empty : OrdMap α key) := not_mem_nil

/-- Enter a value, in the place of the one with its key. -/
def insert (m : OrdMap α key) (x : α) : OrdMap α key where
  toList := m.toList.filter (key · < key x) ++ x :: m.toList.filter (key x < key ·)
  sorted := by
    rw [pairwise_append, pairwise_cons]
    refine ⟨m.sorted.filter _, ⟨fun y hy ↦ ?_, m.sorted.filter _⟩, fun y hy z hz ↦ ?_⟩
    · exact of_decide_eq_true (mem_filter.mp hy).2
    · have hyx : key y < key x := of_decide_eq_true (mem_filter.mp hy).2
      rcases mem_cons.mp hz with rfl | hz
      · exact hyx
      · exact hyx.trans (of_decide_eq_true (mem_filter.mp hz).2)

@[simp] theorem mem_insert : y ∈ m.insert x ↔ y = x ∨ y ∈ m ∧ key y ≠ key x := by
  change y ∈ m.toList.filter (key · < key x) ++ x :: m.toList.filter (key x < key ·) ↔ _
  simp only [mem_append, mem_cons, mem_filter, decide_eq_true_eq, mem_toList]
  constructor
  · rintro (⟨hm, h⟩ | rfl | ⟨hm, h⟩)
    · exact .inr ⟨hm, h.ne⟩
    · exact .inl rfl
    · exact .inr ⟨hm, h.ne'⟩
  · rintro (rfl | ⟨hm, h⟩)
    · exact .inr (.inl rfl)
    · rcases lt_or_gt_of_ne h with h | h
      · exact .inl ⟨hm, h⟩
      · exact .inr (.inr ⟨hm, h⟩)

/-- Take the value of a key out. -/
def erase (m : OrdMap α key) (k : ℕ) : OrdMap α key :=
  ⟨m.toList.filter (key · ≠ k), m.sorted.filter _⟩

@[simp] theorem mem_erase : x ∈ m.erase k ↔ x ∈ m ∧ key x ≠ k := by
  change x ∈ m.toList.filter (key · ≠ k) ↔ _
  simp [mem_toList]

/-- The value of a key. -/
def get (m : OrdMap α key) (k : ℕ) : Option α := m.toList.find? (key · = k)

theorem mem_of_get (h : m.get k = some x) : x ∈ m ∧ key x = k :=
  ⟨mem_of_find?_eq_some h, by simpa using find?_some h⟩

/-! ## The greatest key up to a bound -/

/-- The last value whose key is at most `k`. -/
def floor (m : OrdMap α key) (k : ℕ) : Option α := (m.toList.filter (key · ≤ k)).getLast?

/-- The last value whose key is less than `k`. -/
def below (m : OrdMap α key) (k : ℕ) : Option α := (m.toList.filter (key · < k)).getLast?

theorem getLast?_eq_some_iff {l : List α} (hl : l.Pairwise fun a b ↦ key a < key b) :
    l.getLast? = some x ↔ x ∈ l ∧ ∀ y ∈ l, key y ≤ key x := by
  induction l using reverseRecOn with
  | nil => simp
  | append_singleton l z _ =>
    rw [getLast?_concat, Option.some.injEq]
    rw [pairwise_append] at hl
    have hlt (y : α) (hy : y ∈ l) : key y < key z := hl.2.2 y hy z (mem_singleton_self z)
    constructor
    · rintro rfl
      refine ⟨mem_append_right _ (mem_singleton_self z), fun y hy ↦ ?_⟩
      rcases mem_append.mp hy with hy | hy
      · exact (hlt y hy).le
      · rw [mem_singleton.mp hy]
    · rintro ⟨hx, hmax⟩
      rcases mem_append.mp hx with hx | hx
      · have := hlt x hx
        have := hmax z (mem_append_right _ (mem_singleton_self z))
        omega
      · exact (mem_singleton.mp hx).symm

theorem floor_eq_some :
    m.floor k = some x ↔ x ∈ m ∧ key x ≤ k ∧ ∀ y ∈ m, key y ≤ k → key y ≤ key x := by
  rw [floor, getLast?_eq_some_iff (m.sorted.filter _)]
  simp only [mem_filter, decide_eq_true_eq, mem_toList, and_imp, and_assoc]

theorem below_eq_some :
    m.below k = some x ↔ x ∈ m ∧ key x < k ∧ ∀ y ∈ m, key y < k → key y ≤ key x := by
  rw [below, getLast?_eq_some_iff (m.sorted.filter _)]
  simp only [mem_filter, decide_eq_true_eq, mem_toList, and_imp, and_assoc]

theorem floor_eq_none : m.floor k = none ↔ ∀ x ∈ m, k < key x := by
  rw [floor, getLast?_eq_none_iff, filter_eq_nil_iff]
  simp only [decide_eq_true_eq, not_le, mem_toList]

theorem below_eq_none : m.below k = none ↔ ∀ x ∈ m, k ≤ key x := by
  rw [below, getLast?_eq_none_iff, filter_eq_nil_iff]
  simp only [decide_eq_true_eq, not_lt, mem_toList]

/-! ## Ranges of keys -/

/-- The values whose keys are in `[a, b)`. -/
def between (m : OrdMap α key) (a b : ℕ) : List α :=
  m.toList.filter fun x ↦ a ≤ key x ∧ key x < b

/-- Take the values out whose keys are in `[a, b)`. -/
def eraseBetween (m : OrdMap α key) (a b : ℕ) : OrdMap α key :=
  ⟨m.toList.filter fun x ↦ ¬(a ≤ key x ∧ key x < b), m.sorted.filter _⟩

theorem mem_between : x ∈ m.between a b ↔ x ∈ m ∧ a ≤ key x ∧ key x < b := by
  simp [between, mem_toList]

theorem mem_eraseBetween : x ∈ m.eraseBetween a b ↔ x ∈ m ∧ ¬(a ≤ key x ∧ key x < b) := by
  change x ∈ m.toList.filter _ ↔ _
  rw [mem_filter, decide_eq_true_eq, mem_toList]

/-- Change every value and no key. -/
def mapValues (m : OrdMap α key) (f : α → α) (hf : ∀ x, key (f x) = key x) : OrdMap α key :=
  ⟨m.toList.map f, m.sorted.map f fun a b h ↦ by rwa [hf, hf]⟩

theorem mem_mapValues {f : α → α} {hf : ∀ x, key (f x) = key x} :
    y ∈ m.mapValues f hf ↔ ∃ x ∈ m, f x = y :=
  mem_map

end OrdMap

end Edos

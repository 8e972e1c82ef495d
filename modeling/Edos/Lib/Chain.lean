import Mathlib.Data.List.Nodup

/-!
# Chains with successors and predecessors

A chain is a list that is stored as pointers: `next` leads from each element to the one behind it,
and from the last to `nil`. `Visits` says which list a walk meets, `predecessor` is the inverse map,
with a given value before the head. An element is pushed in front (`Visits.push`,
`predecessor_push`) and taken out from any place (`Visits.unlink`, `predecessor_unlink`) by changing
the pointers next to it.
-/

namespace Edos

open Function List Option

section Chain

variable {α : Type*} {next : α → α} {nil a before x p : α} {l : List α}

/-- A walk from `a` visits the list and ends at `nil`. -/
def Visits (next : α → α) (nil : α) : α → List α → Prop
  | a, [] => a = nil
  | a, x :: xs => a = x ∧ x ≠ nil ∧ Visits next nil (next x) xs

theorem Visits.ne_nil (h : Visits next nil a l) (hx : x ∈ l) : x ≠ nil := by
  induction l generalizing a with
  | nil => exact absurd hx not_mem_nil
  | cons y ys ih =>
    rcases mem_cons.mp hx with rfl | hx
    · exact h.2.1
    · exact ih h.2.2 hx

theorem Visits.congr {next' : α → α} (h : Visits next nil a l) (heq : ∀ x ∈ l, next' x = next x) :
    Visits next' nil a l := by
  induction l generalizing a with
  | nil => exact h
  | cons x xs ih =>
    refine ⟨h.1, h.2.1, ?_⟩
    rw [heq x mem_cons_self]
    exact ih h.2.2 fun y hy ↦ heq y (mem_cons_of_mem x hy)

/-- What is behind an element is further down in the list, or the end. -/
theorem Visits.next_mem (h : Visits next nil a l)
    (hx : x ∈ l) : next x = nil ∨ next x ∈ l.tail := by
  induction l generalizing a with
  | nil => exact absurd hx not_mem_nil
  | cons y ys ih =>
    cases ys with
    | nil =>
      obtain rfl := mem_singleton.mp hx
      exact .inl h.2.2
    | cons z zs =>
      rcases mem_cons.mp hx with rfl | hx
      · exact .inr (h.2.2.1 ▸ mem_cons_self)
      · exact (ih h.2.2 hx).imp_right (mem_cons_of_mem z)

variable [DecidableEq α]

/-- What is before an element of the list. -/
def predecessor (before : α) : List α → α → Option α
  | [], _ => none
  | x :: xs, a => if a = x then some before else predecessor x xs a

theorem predecessor_eq_none_iff : predecessor before l a = none ↔ a ∉ l := by
  induction l generalizing before with
  | nil => simp [predecessor]
  | cons x xs ih =>
    rw [predecessor, mem_cons, not_or]
    split_ifs with hx
    · simp [hx]
    · simp [hx, ih]

theorem mem_of_predecessor (h : predecessor before l a = some p) : a ∈ l := by
  by_contra hnot
  rw [predecessor_eq_none_iff.mpr hnot] at h
  cases h

theorem predecessor_mem (h : predecessor before l a = some p) : p = before ∨ p ∈ l := by
  induction l generalizing before with
  | nil => cases h
  | cons x xs ih =>
    rw [predecessor] at h
    split_ifs at h with hx
    · exact .inl (some.inj h).symm
    · rcases ih h with rfl | hmem
      · exact .inr mem_cons_self
      · exact .inr (mem_cons_of_mem x hmem)

theorem eq_cons_of_predecessor (hnodup : (before :: l).Nodup)
    (h : predecessor before l x = some before) : ∃ ys, l = x :: ys := by
  cases l with
  | nil => cases h
  | cons y ys =>
    rw [predecessor] at h
    split_ifs at h with hx
    · exact ⟨ys, by rw [hx]⟩
    · rw [nodup_cons, mem_cons, not_or] at hnodup
      rcases predecessor_mem h with heq | hmem
      · exact absurd heq hnodup.1.1
      · exact absurd hmem hnodup.1.2

/-! ## Push -/

section

variable (h : Visits next nil a l)

include h

theorem Visits.push (hnil : x ≠ nil) (hx : x ∉ l) : Visits (update next x a) nil x (x :: l) := by
  refine ⟨rfl, hnil, ?_⟩
  rw [update_self]
  exact h.congr fun y hy ↦ update_of_ne (ne_of_mem_of_not_mem hy hx) _ _

theorem predecessor_push (hx : x ∉ l) (b : α) :
    predecessor nil (x :: l) b =
      if a ≠ nil ∧ b = a then some x else if b = x then some nil else predecessor nil l b := by
  cases l with
  | nil =>
    rw [if_neg fun hb ↦ hb.1 h]
    rfl
  | cons y ys =>
    obtain ⟨rfl, hnil, -⟩ := h
    have hne : a ≠ x := fun heq ↦ hx (heq ▸ mem_cons_self)
    simp only [predecessor]
    by_cases hb : b = a
    · subst hb
      simp [hnil, hne]
    · simp [hb]

/-! ## Unlink -/

theorem Visits.unlink_head (hnodup : (before :: l).Nodup)
    (hp : predecessor before l x = some before) : Visits next nil (next x) (l.erase x) := by
  obtain ⟨ys, rfl⟩ := eq_cons_of_predecessor hnodup hp
  rw [erase_cons_head]
  exact h.2.2

theorem Visits.unlink (hnodup : (before :: l).Nodup) (hp : predecessor before l x = some p)
    (hne : p ≠ before) : Visits (update next p (next x)) nil a (l.erase x) := by
  induction l generalizing a before with
  | nil => cases hp
  | cons y ys ih =>
    have hnodup' := hnodup.of_cons
    rw [predecessor] at hp
    split_ifs at hp with hx
    · exact absurd (some.inj hp).symm hne
    rw [erase_cons_tail (by simpa using Ne.symm hx)]
    refine ⟨h.1, h.2.1, ?_⟩
    by_cases hpy : p = y
    · subst hpy
      rw [update_self]
      refine (h.2.2.unlink_head hnodup' hp).congr fun z hz ↦ update_of_ne ?_ _ _
      exact ne_of_mem_of_not_mem (mem_of_mem_erase hz) (nodup_cons.mp hnodup').1
    · rw [update_of_ne (Ne.symm hpy)]
      exact ih h.2.2 hnodup' hp hpy

theorem predecessor_unlink (hnodup : (before :: l).Nodup) (hp : predecessor before l x = some p)
    (b : α) :
    predecessor before (l.erase x) b =
      if next x ≠ nil ∧ b = next x then some p
      else if b = x then none else predecessor before l b := by
  induction l generalizing a before with
  | nil => cases hp
  | cons y ys ih =>
    have hnodup' := hnodup.of_cons
    have hy := (nodup_cons.mp hnodup').1
    rw [predecessor] at hp
    split_ifs at hp with hx
    · -- `x` is the head: the one behind it becomes the head.
      subst hx
      obtain rfl := some.inj hp
      rw [erase_cons_head]
      cases ys with
      | nil =>
        rw [if_neg fun hb ↦ hb.1 h.2.2]
        simp only [predecessor]
        split_ifs <;> rfl
      | cons z zs =>
        obtain ⟨hz, hznil, -⟩ := h.2.2
        rw [hz]
        simp only [predecessor]
        by_cases hbz : b = z
        · simp [hbz, hznil]
        by_cases hbx : b = x
        · subst hbx
          simp [hbz, predecessor_eq_none_iff.mpr fun hmem ↦ hy (mem_cons_of_mem z hmem)]
        · simp [hbz, hbx]
    · have hne : next x ≠ y := by
        rcases h.2.2.next_mem (mem_of_predecessor hp) with hnil | hmem
        · rw [hnil]
          exact Ne.symm h.2.1
        · exact ne_of_mem_of_not_mem (mem_of_mem_tail hmem) hy
      rw [erase_cons_tail (by simpa using Ne.symm hx), predecessor, ih h.2.2 hnodup' hp]
      by_cases hby : b = y
      · subst hby
        simp [predecessor, Ne.symm hne, Ne.symm hx]
      · simp [predecessor, hby]

end

end Chain

end Edos

import Mathlib.Algebra.Ring.Nat
import Mathlib.Order.Interval.Finset.Nat

/-!
# Serial placement

Intervals of given lengths that are placed one behind the other: they do not overlap, and together
they are the interval from the first start to the last end.
-/

namespace Edos

open Finset (Ico)

/-- Intervals of the given lengths, one behind the other. -/
def place : ℕ → List ℕ → List (Finset ℕ)
  | _, [] => []
  | start, n :: ns => Ico start (start + n) :: place (start + n) ns

theorem disjoint_Ico {a b c d : ℕ} (h : b ≤ c) : Disjoint (Ico a b) (Ico c d) := by
  rw [Finset.disjoint_left]
  intro x hx hx'
  rw [Finset.mem_Ico] at hx hx'
  omega

theorem subset_of_mem_place {start : ℕ} {ns : List ℕ} {r : Finset ℕ} (hr : r ∈ place start ns) :
    r ⊆ Ico start (start + ns.sum) := by
  induction ns generalizing start with
  | nil => cases hr
  | cons n ns ih =>
    rw [List.sum_cons]
    rcases List.mem_cons.mp hr with rfl | hr
    · exact Finset.Ico_subset_Ico (le_refl _) (by omega)
    · exact (ih hr).trans (Finset.Ico_subset_Ico (by omega) (by omega))

theorem exists_mem_place {start b : ℕ} {ns : List ℕ} (hstart : start ≤ b)
    (hb : b < start + ns.sum) : ∃ r ∈ place start ns, b ∈ r := by
  induction ns generalizing start with
  | nil =>
    rw [List.sum_nil] at hb
    omega
  | cons n ns ih =>
    rw [List.sum_cons] at hb
    by_cases hn : b < start + n
    · exact ⟨_, List.mem_cons_self, Finset.mem_Ico.mpr ⟨hstart, hn⟩⟩
    · have hrest : b < start + n + ns.sum := by omega
      obtain ⟨r, hr, hbr⟩ := ih (not_lt.mp hn) hrest
      exact ⟨r, List.mem_cons_of_mem _ hr, hbr⟩

theorem pairwise_place (start : ℕ) (ns : List ℕ) : (place start ns).Pairwise Disjoint := by
  induction ns generalizing start with
  | nil => exact List.Pairwise.nil
  | cons n ns ih =>
    refine List.pairwise_cons.mpr ⟨fun r hr ↦ ?_, ih _⟩
    exact (disjoint_Ico (le_refl _)).mono_right (subset_of_mem_place hr)

end Edos

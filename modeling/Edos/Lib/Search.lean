import Mathlib.Data.Finset.Card
import Mathlib.Data.List.TakeWhile

/-!
# Searching a graph with a queue

Items are taken from a queue. An item whose key has been visited before is skipped; the others are
visited, and push further items. The items that a visit pushes may depend on what has been visited
so far. The result is the list of visits, each with the keys visited up to and including it.

If the keys come from a finite set, fuel for the keys there are is enough: more of it changes
nothing.
-/

namespace Edos

open List

variable {α β : Type*} [DecidableEq α] (key : β → α) (push : List α → β → List β)

/-- The visits of a search. -/
def search : ℕ → List α → List β → List (List α × β)
  | 0, _, _ => []
  | fuel + 1, visited, queue =>
    match queue.dropWhile fun q ↦ key q ∈ visited with
    | [] => []
    | q :: rest =>
      (key q :: visited, q) ::
        search fuel (key q :: visited) (rest ++ push (key q :: visited) q)

variable {key push}

/-- The keys of the visits. -/
def visitedKeys (key : β → α) (visits : List (List α × β)) : List α := visits.map fun v ↦ key v.2

variable {visited : List α} {queue : List β}

theorem mem_or_of_dropWhile {rest : List β} {q : β}
    (h : (queue.dropWhile fun q ↦ key q ∈ visited) = q :: rest) :
    key q ∉ visited ∧ ∀ x ∈ queue, key x ∈ visited ∨ x = q ∨ x ∈ rest := by
  induction queue with
  | nil => cases h
  | cons x xs ih =>
    rw [dropWhile_cons] at h
    split_ifs at h with hx
    · obtain ⟨hq, hrest⟩ := ih h
      refine ⟨hq, fun y hy ↦ ?_⟩
      rcases mem_cons.mp hy with rfl | hy
      · exact .inl (of_decide_eq_true hx)
      · exact hrest y hy
    · obtain ⟨rfl, rfl⟩ := List.cons.inj h
      exact ⟨fun hmem ↦ hx (decide_eq_true hmem), fun y hy ↦ .inr (mem_cons.mp hy)⟩

/-- The keys of a search come from a finite set. Where none is left, the queue has been visited. -/
theorem visited_of_card {domain : Finset α} (hqueue : ∀ x ∈ queue, key x ∈ domain)
    (hcard : (domain.filter (· ∉ visited)).card ≤ 0) : ∀ x ∈ queue, key x ∈ visited := by
  refine fun x hx ↦ by_contra fun hnot ↦ ?_
  have hmem : key x ∈ domain.filter (· ∉ visited) := Finset.mem_filter.mpr ⟨hqueue x hx, hnot⟩
  rw [Finset.card_eq_zero.mp (Nat.le_zero.mp hcard)] at hmem
  cases hmem

variable {fuel : ℕ}

section

variable {domain : Finset α} (hpush : ∀ visited q, ∀ x ∈ push visited q, key x ∈ domain)

include hpush

/-- **A visit leaves one key fewer.** -/
theorem visit_spec {rest : List β} {q : β} (hqueue : ∀ x ∈ queue, key x ∈ domain)
    (hfuel : (domain.filter (· ∉ visited)).card ≤ fuel + 1)
    (hdrop : (queue.dropWhile fun q ↦ key q ∈ visited) = q :: rest) :
    (∀ x ∈ rest ++ push (key q :: visited) q, key x ∈ domain) ∧
      (domain.filter (· ∉ key q :: visited)).card ≤ fuel := by
  obtain ⟨hnew, -⟩ := mem_or_of_dropWhile hdrop
  have hsub : ∀ x ∈ q :: rest, x ∈ queue :=
    fun x hx ↦ (dropWhile_sublist _).mem (hdrop ▸ hx)
  constructor
  · intro x hx
    rcases mem_append.mp hx with hx | hx
    · exact hqueue x (hsub x (mem_cons_of_mem _ hx))
    · exact hpush _ _ x hx
  · refine Nat.le_of_lt_succ (lt_of_lt_of_le (Finset.card_lt_card ?_) hfuel)
    refine Finset.ssubset_iff_of_subset (fun a ha ↦ ?_) |>.mpr
      ⟨key q, Finset.mem_filter.mpr ⟨hqueue q (hsub q mem_cons_self), hnew⟩, fun hmem ↦ ?_⟩
    · obtain ⟨ha, hnot⟩ := Finset.mem_filter.mp ha
      exact Finset.mem_filter.mpr ⟨ha, fun h ↦ hnot (mem_cons_of_mem _ h)⟩
    · exact (Finset.mem_filter.mp hmem).2 mem_cons_self

/-- **A search ends**: with fuel for the keys that are not visited yet, more fuel changes nothing.
-/
theorem search_add_fuel (hqueue : ∀ x ∈ queue, key x ∈ domain)
    (hfuel : (domain.filter (· ∉ visited)).card ≤ fuel)
    (k : ℕ) : search key push (fuel + k) visited queue = search key push fuel visited queue := by
  induction fuel generalizing visited queue with
  | zero =>
    have hnil : (queue.dropWhile fun q ↦ key q ∈ visited) = [] :=
      dropWhile_eq_nil_iff.mpr fun x hx ↦ decide_eq_true (visited_of_card hqueue hfuel x hx)
    cases k with
    | zero => rfl
    | succ k => rw [Nat.zero_add, search, search, hnil]
  | succ fuel ih =>
    rw [Nat.add_right_comm, search, search]
    cases hdrop : queue.dropWhile fun q ↦ key q ∈ visited with
    | nil => rfl
    | cons q rest =>
      obtain ⟨hqueue', hfuel'⟩ := visit_spec hpush hqueue hfuel hdrop
      exact congrArg _ (ih hqueue' hfuel')

end

/-- **No key is visited twice.** -/
theorem search_nodup :
    (visitedKeys key (search key push fuel visited queue)).Nodup ∧
      ∀ a ∈ visitedKeys key (search key push fuel visited queue), a ∉ visited := by
  induction fuel generalizing visited queue with
  | zero => exact ⟨nodup_nil, nofun⟩
  | succ fuel ih =>
    rw [search]
    cases hdrop : queue.dropWhile fun q ↦ key q ∈ visited with
    | nil => exact ⟨nodup_nil, nofun⟩
    | cons q rest =>
      obtain ⟨hnodup, hnew⟩ := @ih (key q :: visited) (rest ++ push (key q :: visited) q)
      exact ⟨nodup_cons.mpr ⟨fun h ↦ hnew _ h mem_cons_self, hnodup⟩,
        forall_mem_cons.mpr ⟨(mem_or_of_dropWhile hdrop).1,
          fun a ha h ↦ hnew a ha (mem_cons_of_mem _ h)⟩⟩

end Edos

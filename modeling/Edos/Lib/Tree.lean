import Mathlib.Data.List.Infix

/-!
# Labelled trees

A graph is given by the function `g : N → L → Option N` that follows an edge by its label. It is a
tree below a root if no node is reached on two paths; the nodes of a set that are all reached then
have exactly one path each.

`move g a n b m t` takes the edge labelled `n` out of the node `a`, and puts an edge labelled `m`
from `b` to `t` in. When the first one leads to `t`, this moves the subtree at `t`. The result is a
tree again unless `b` is in that subtree.
-/

namespace Edos

open List Option

section Tree

variable {N L : Type*}

/-- Follow a path. -/
def follow (g : N → L → Option N) : N → List L → Option N
  | x, [] => some x
  | x, l :: p => (g x l).bind fun y ↦ follow g y p

/-- No node is reached on two paths, and all nodes in `D` are reached. -/
structure TreeOn (g : N → L → Option N) (root : N) (D : N → Prop) : Prop where
  unique : ∀ {p q : List L} {x : N}, follow g root p = some x → follow g root q = some x → p = q
  reached : ∀ {x : N}, D x → ∃ p, follow g root p = some x

variable {g g' : N → L → Option N} {root x y : N} {p q : List L}

theorem follow_append (g : N → L → Option N) (x : N) (p q : List L) :
    follow g x (p ++ q) = (follow g x p).bind fun y ↦ follow g y q := by
  induction p generalizing x with
  | nil => rfl
  | cons l p ih =>
    rw [cons_append, follow, follow, bind_assoc]
    exact congrArg _ (funext fun y ↦ ih y)

theorem follow_concat (g : N → L → Option N) (x : N) (p : List L) (l : L) :
    follow g x (p ++ [l]) = (follow g x p).bind fun y ↦ g y l := by
  rw [follow_append]
  refine congrArg _ (funext fun y ↦ ?_)
  rw [follow]
  cases g y l <;> rfl

theorem follow_of_follow (h : follow g x p = some y) (q : List L) :
    follow g x (p ++ q) = follow g y q := by
  rw [follow_append, h, bind_some]

/-! ## Paths that avoid some edges -/

/-- The path follows no edge in `E`. -/
def Avoids (g : N → L → Option N) (E : N → L → Prop) (x : N) (p : List L) : Prop :=
  ∀ p₁ l p₂, p = p₁ ++ l :: p₂ → ∀ y, follow g x p₁ = some y → ¬E y l

variable {E : N → L → Prop}

/-- Two graphs that only differ in some edges agree on the paths that avoid these. -/
theorem follow_congr (hagree : ∀ x l, ¬E x l → g' x l = g x l) (h : Avoids g E x p) :
    follow g' x p = follow g x p := by
  induction p generalizing x with
  | nil => rfl
  | cons l p ih =>
    rw [follow, follow, hagree x l (h [] l p rfl x rfl)]
    cases hg : g x l with
    | none => rfl
    | some y =>
      refine ih fun p₁ l' p₂ hp z hz ↦ h (l :: p₁) l' p₂ (by rw [hp]; rfl) z ?_
      rw [follow, hg]
      exact hz

theorem not_avoids (h : ¬Avoids g E x p) :
    ∃ p₁ l p₂ y, p = p₁ ++ l :: p₂ ∧ follow g x p₁ = some y ∧ E y l := by
  by_contra hno
  exact h fun p₁ l p₂ hp y hy hE ↦ hno ⟨p₁, l, p₂, y, hp, hy, hE⟩

/-- A path that does not avoid the edges has a first one of them. -/
theorem exists_first (h : ¬Avoids g E x p) :
    ∃ p₁ l p₂ y, p = p₁ ++ l :: p₂ ∧ follow g x p₁ = some y ∧ E y l ∧ Avoids g E x p₁ := by
  obtain ⟨p₁, l, p₂, y, hp, hy, hE⟩ := not_avoids h
  induction hn : p₁.length using Nat.strong_induction_on generalizing p₁ l p₂ y with
  | _ n ih =>
    by_cases havoid : Avoids g E x p₁
    · exact ⟨p₁, l, p₂, y, hp, hy, hE, havoid⟩
    · obtain ⟨q₁, l', q₂, z, rfl, hz, hE'⟩ := not_avoids havoid
      refine ih q₁.length ?_ q₁ l' (q₂ ++ l :: p₂) z ?_ hz hE' rfl
      · rw [← hn, length_append]
        exact Nat.lt_add_of_pos_right (Nat.succ_pos _)
      · rw [hp, append_assoc, cons_append]

/-! ## Moving an edge -/

section Move

variable {D : N → Prop} {a b t : N} {n m : L} {P Q : List L}

/-- The edges that `move` changes. -/
def Moved (a : N) (n : L) (b : N) (m : L) (x : N) (l : L) : Prop :=
  (x = b ∧ l = m) ∨ (x = a ∧ l = n)

/-- What it takes to move the subtree at `t` from the edge `n` of `a` to the edge `m` of `b`: there
is nothing to be followed behind what is at the new place. -/
structure Movable (g : N → L → Option N) (root : N) (D : N → Prop) (P : List L) (a : N) (n : L)
    (Q : List L) (b : N) (m : L) (t : N) : Prop where
  tree : TreeOn g root D
  parent : follow g root P = some a
  target : g a n = some t
  newParent : follow g root Q = some b
  replaced : ∀ v, g b m = some v → v = t ∨ (¬D v ∧ ∀ l, g v l = none)

theorem not_concat_isPrefix (p : List L) (l : L) : ¬p ++ [l] <+: p := by
  intro hpre
  have hlen := hpre.length_le
  rw [length_append, length_singleton] at hlen
  omega

namespace Movable

variable (h : Movable g root D P a n Q b m t)
include h

theorem target_path : follow g root (P ++ [n]) = some t := by
  rw [follow_concat, h.parent, bind_some, h.target]

/-- A path from the root avoids the two edges if it goes neither way. -/
theorem avoids {r : List L} (hold : ¬P ++ [n] <+: r) (hnew : ¬Q ++ [m] <+: r) :
    Avoids g (Moved a n b m) root r := by
  rintro r₁ l r₂ rfl y hy (⟨rfl, rfl⟩ | ⟨rfl, rfl⟩)
  · rw [h.tree.unique hy h.newParent] at hnew
    exact hnew ⟨r₂, by simp⟩
  · rw [h.tree.unique hy h.parent] at hold
    exact hold ⟨r₂, by simp⟩

/-- Nothing can be followed behind what was at the new place. -/
theorem old_of_new {s : List L} (hs : follow g root (Q ++ [m] ++ s) = some x)
    (hx : D x ∨ ∃ l y, g x l = some y) : P ++ [n] = Q ++ [m] := by
  rw [follow_append, follow_concat, h.newParent, bind_some] at hs
  obtain ⟨v, hv, hs⟩ := bind_eq_some_iff.mp hs
  rcases h.replaced v hv with rfl | ⟨hD, hleaf⟩
  · refine h.tree.unique h.target_path ?_
    rw [follow_concat, h.newParent, bind_some, hv]
  · cases s with
    | nil =>
      cases hs
      rcases hx with hx | ⟨l, y, hy⟩
      · exact absurd hx hD
      · rw [hleaf] at hy
        cases hy
    | cons l s =>
      rw [follow, hleaf] at hs
      cases hs

end Movable

variable [DecidableEq N] [DecidableEq L]

/-- The graph without the edge `n` of `a`, and with an edge `m` from `b` to `t`. -/
def move (g : N → L → Option N) (a : N) (n : L) (b : N) (m : L) (t : N) : N → L → Option N :=
  fun x l ↦ if x = b ∧ l = m then some t else if x = a ∧ l = n then none else g x l

theorem move_of_not_moved {x : N} {l : L}
    (h : ¬Moved a n b m x l) : move g a n b m t x l = g x l := by
  rw [Moved, not_or] at h
  rw [move, if_neg h.1, if_neg h.2]

theorem move_new : move g a n b m t b m = some t := if_pos ⟨rfl, rfl⟩

theorem move_old (h : ¬(a = b ∧ n = m)) : move g a n b m t a n = none := by
  rw [move, if_neg h, if_pos ⟨rfl, rfl⟩]

theorem follow_move (h : Avoids g (Moved a n b m) x p) :
    follow (move g a n b m t) x p = follow g x p :=
  follow_congr (fun _ _ hx ↦ move_of_not_moved hx) h

namespace Movable

variable (h : Movable g root D P a n Q b m t)
include h

/-- Moving does not change the subtree, unless it is moved into itself. -/
theorem follow_target (hout : ¬P ++ [n] <+: Q) (s : List L) :
    follow (move g a n b m t) t s = follow g t s := by
  refine follow_move fun s₁ l s₂ _ y hy ↦ ?_
  have hpath : follow g root (P ++ [n] ++ s₁) = some y := by rw [follow_of_follow h.target_path, hy]
  rintro (⟨rfl, -⟩ | ⟨rfl, -⟩)
  · exact hout ⟨s₁, h.tree.unique hpath h.newParent⟩
  · have hlen := congrArg List.length (h.tree.unique hpath h.parent)
    simp only [length_append, length_singleton] at hlen
    omega

/-- **The moved node is at its new place.** -/
theorem follow_new (hout : ¬P ++ [n] <+: Q) (s : List L) :
    follow (move g a n b m t) root (Q ++ [m] ++ s) = follow g t s := by
  have hnew : follow (move g a n b m t) root (Q ++ [m]) = some t := by
    rw [follow_concat, follow_move (h.avoids hout (not_concat_isPrefix Q m)), h.newParent,
      bind_some, move_new]
  rw [follow_of_follow hnew, h.follow_target hout]

/-- **The moved node is not at its old place**, unless that is the new one. -/
theorem follow_old (hne : P ++ [n] ≠ Q ++ [m]) :
    follow (move g a n b m t) root (P ++ [n]) = none := by
  have hnew : ¬Q ++ [m] <+: P := by
    rintro ⟨s, hs⟩
    have hwalk := h.parent
    rw [← hs] at hwalk
    exact hne (h.old_of_new hwalk (.inr ⟨n, t, h.target⟩))
  have hedge : ¬(a = b ∧ n = m) := by
    rintro ⟨rfl, rfl⟩
    exact hne (by rw [h.tree.unique h.parent h.newParent])
  rw [follow_concat, follow_move (h.avoids (not_concat_isPrefix P n) hnew), h.parent,
    bind_some, move_old hedge]

/-- A path after the move comes from one before it. -/
theorem exists_path {r : List L} (hr : follow (move g a n b m t) root r = some x) :
    (follow g root r = some x ∧ ¬P ++ [n] <+: r) ∨
    ∃ s, r = Q ++ [m] ++ s ∧ follow (move g a n b m t) t s = some x ∧
      Avoids g (Moved a n b m) root Q := by
  by_cases havoid : Avoids g (Moved a n b m) root r
  · rw [follow_move havoid] at hr
    refine .inl ⟨hr, ?_⟩
    rintro ⟨s, rfl⟩
    exact havoid P n s (by simp) a h.parent (.inr ⟨rfl, rfl⟩)
  · obtain ⟨r₁, l, r₂, y, rfl, hy, hmoved, hfirst⟩ := exists_first havoid
    have hwalk : follow (move g a n b m t) root r₁ = some y := by
      rw [follow_move hfirst, hy]
    rw [follow_of_follow hwalk, follow] at hr
    by_cases hnew : y = b ∧ l = m
    · obtain ⟨rfl, rfl⟩ := hnew
      rw [move_new, bind_some] at hr
      obtain rfl := h.tree.unique hy h.newParent
      exact .inr ⟨r₂, by simp, hr, hfirst⟩
    · obtain ⟨rfl, rfl⟩ := hmoved.resolve_left hnew
      rw [move_old hnew] at hr
      cases hr

/-- **Moving a subtree elsewhere gives a tree.** -/
theorem treeOn_move (hout : ¬P ++ [n] <+: Q) : TreeOn (move g a n b m t) root D := by
  -- a path after the move, and the path before it
  have hback {r : List L} {x : N} (hr : follow (move g a n b m t) root r = some x) :
      ∃ r₀, follow g root r₀ = some x ∧ ((r = r₀ ∧ ¬P ++ [n] <+: r₀) ∨
        ∃ s, r = Q ++ [m] ++ s ∧ r₀ = P ++ [n] ++ s) := by
    rcases h.exists_path hr with ⟨hwalk, hold⟩ | ⟨s, rfl, hs, -⟩
    · exact ⟨r, hwalk, .inl ⟨rfl, hold⟩⟩
    · rw [h.follow_target hout] at hs
      exact ⟨P ++ [n] ++ s, by rw [follow_of_follow h.target_path, hs], .inr ⟨s, rfl, rfl⟩⟩
  constructor
  · intro p q x hp hq
    obtain ⟨p₀, hp₀, hp⟩ := hback hp
    obtain ⟨q₀, hq₀, hq⟩ := hback hq
    obtain rfl := h.tree.unique hp₀ hq₀
    rcases hp with ⟨rfl, hout⟩ | ⟨s, rfl, rfl⟩
    · rcases hq with ⟨rfl, -⟩ | ⟨s, rfl, rfl⟩
      · rfl
      · exact absurd ⟨s, rfl⟩ hout
    · rcases hq with ⟨rfl, hout⟩ | ⟨s', rfl, hs⟩
      · exact absurd ⟨s, rfl⟩ hout
      · rw [append_cancel_left hs]
  · intro x hx
    obtain ⟨r, hr⟩ := h.tree.reached hx
    by_cases hold : P ++ [n] <+: r
    · obtain ⟨s, rfl⟩ := hold
      rw [follow_of_follow h.target_path] at hr
      exact ⟨Q ++ [m] ++ s, by rw [h.follow_new hout, hr]⟩
    · have hnew : ¬Q ++ [m] <+: r := by
        rintro ⟨s, rfl⟩
        rw [h.old_of_new hr (.inl hx)] at hold
        exact hold ⟨s, rfl⟩
      exact ⟨r, by rw [follow_move (h.avoids hold hnew), hr]⟩

/-- **A subtree that is moved into itself is lost.** -/
theorem lost (hin : P ++ [n] <+: Q) (r : List L) : follow (move g a n b m t) root r ≠ some t := by
  intro hr
  rcases h.exists_path hr with ⟨hwalk, hold⟩ | ⟨s, -, -, havoid⟩
  · rw [h.tree.unique hwalk h.target_path] at hold
    exact hold (prefix_refl _)
  · obtain ⟨s, rfl⟩ := hin
    exact havoid P n s (by simp) a h.parent (.inr ⟨rfl, rfl⟩)

end Movable

end Move

end Tree

end Edos

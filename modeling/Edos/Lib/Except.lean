import Mathlib.Data.List.Basic

/-!
# Computations that may fail

How a sequence of steps in `Except` comes to its result.
-/

namespace Edos

universe v

variable {ε : Type*} {α β : Type v} {x : Except ε α} {f : α → Except ε β}

theorem bind_eq_ok {b : β} : (x >>= f) = .ok b ↔ ∃ a, x = .ok a ∧ f a = .ok b := by
  cases x with
  | error e => simp [bind, Except.bind]
  | ok a => simp [bind, Except.bind]

theorem bind_congr_ok {g : α → Except ε β} (h : ∀ a, x = .ok a → f a = g a) :
    (x >>= f) = (x >>= g) := by
  cases x with
  | error e => rfl
  | ok a => exact h a rfl

theorem map_eq_ok {f : α → β} {b : β} : x.map f = .ok b ↔ ∃ a, x = .ok a ∧ f a = b := by
  cases x with
  | error e => simp [Except.map]
  | ok a => simp [Except.map]

theorem map_of_mapM {l : List α} {bs : List β} (h : l.mapM f = .ok bs) : l.map f = bs.map .ok := by
  induction l generalizing bs with
  | nil =>
    cases h
    rfl
  | cons a l ih =>
    rw [List.mapM_cons] at h
    obtain ⟨b, hb, h⟩ := bind_eq_ok.mp h
    obtain ⟨bs', hbs, h⟩ := bind_eq_ok.mp h
    cases h
    rw [List.map_cons, List.map_cons, hb, ih hbs]

theorem exists_of_mem_mapM {l : List α} {bs : List β} (h : l.mapM f = .ok bs) {b : β}
    (hb : b ∈ bs) : ∃ a ∈ l, f a = .ok b := by
  have hmem := List.mem_map_of_mem (f := (Except.ok : β → Except ε β)) hb
  rw [← map_of_mapM h] at hmem
  exact List.mem_map.mp hmem

/-! ## Computations that return -/

/-- The computation returns, and what it returns satisfies `Q`. -/
def Returns (x : Except ε α) (Q : α → Prop) : Prop := ∃ a, x = .ok a ∧ Q a

variable {Q : α → Prop}

theorem Returns.pure {a : α} (h : Q a) : Returns (pure a : Except ε α) Q := ⟨a, rfl, h⟩

variable {P : α → Prop}

theorem Returns.bind {Q : β → Prop} (hx : Returns x P)
    (hf : ∀ a, P a → Returns (f a) Q) : Returns (x >>= f) Q := by
  obtain ⟨a, rfl, ha⟩ := hx
  exact hf a ha

theorem Returns.ite {c : Prop} [Decidable c] {y : Except ε α} (hx : c → Returns x Q)
    (hy : ¬c → Returns y Q) : Returns (if c then x else y) Q := by
  split_ifs with h
  · exact hx h
  · exact hy h

/-- A parser that rejects its input. -/
theorem Returns.reject {c : Prop} [Decidable c] {y : Except ε (Option (α × β))} {R : α → β → Prop}
    (hy : ¬c → Returns y fun r ↦ ∀ a b, r = some (a, b) → R a b) :
    Returns (if c then Pure.pure none else y) fun r ↦ ∀ a b, r = some (a, b) → R a b :=
  .ite (fun _ ↦ .pure nofun) hy

theorem Returns.mono (hx : Returns x P) (h : ∀ a, P a → Q a) : Returns x Q := by
  obtain ⟨a, hxa, ha⟩ := hx
  exact ⟨a, hxa, h a ha⟩

end Edos

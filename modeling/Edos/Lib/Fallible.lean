import Mathlib.Data.List.Basic

/-!
# Computations that fail half way

A computation reads and changes a state and returns a value or an error. An error takes nothing
back: what was changed before it stays changed.

Two kinds of rules are for such computations. What a run of a sequence of steps looks like
(`bind_ok_iff`, `bind_cases`), and what every run keeps, failed or not: `Keeps I m Q` says that `m`
leads from `I` to `I`, and that what it returns satisfies `Q`.
-/

namespace Edos

universe u

/-- A state before, and a result and a state after. -/
def Fallible (ε σ : Type*) (α : Type u) := σ → Except ε α × σ

namespace Fallible

variable {ε σ : Type*} {α β γ : Type u}

/-- Go on with the value, if there is one. -/
def andThen (m : Fallible ε σ α) (f : α → Fallible ε σ β) : Fallible ε σ β := fun s ↦
  match m s with
  | (.ok a, s') => f a s'
  | (.error e, s') => (.error e, s')

instance : Monad (Fallible ε σ) where
  pure a := fun s ↦ (.ok a, s)
  bind := andThen

/-- Return an error. -/
def throw (e : ε) : Fallible ε σ α := fun s ↦ (.error e, s)

/-- A value that is read off the state. -/
def gets (f : σ → α) : Fallible ε σ α := fun s ↦ (.ok (f s), s)

/-- Change the state. -/
def modify (f : σ → σ) : Fallible ε σ PUnit := fun s ↦ (.ok ⟨⟩, f s)

theorem gets_bind (f : σ → α) (k : α → Fallible ε σ β) (s : σ) : (gets f >>= k) s = k (f s) s := rfl

theorem modify_bind (f : σ → σ) (k : PUnit → Fallible ε σ β) (s : σ) :
    (modify f >>= k) s = k ⟨⟩ (f s) := rfl

theorem bind_of_ok {m : Fallible ε σ α} {f : α → Fallible ε σ β} {s t : σ} {a : α}
    (h : m s = (.ok a, t)) : (m >>= f) s = f a t := by
  change andThen m f s = f a t
  rw [andThen, h]

theorem bind_of_error {m : Fallible ε σ α} {f : α → Fallible ε σ β} {s t : σ} {e : ε}
    (h : m s = (.error e, t)) : (m >>= f) s = (.error e, t) := by
  change andThen m f s = (.error e, t)
  rw [andThen, h]

theorem ok_or_error (m : Fallible ε σ α) (s : σ) :
    (∃ a t, m s = (.ok a, t)) ∨ ∃ e t, m s = (.error e, t) := by
  obtain ⟨r, t⟩ := m s
  cases r with
  | ok a => exact .inl ⟨a, t, rfl⟩
  | error e => exact .inr ⟨e, t, rfl⟩

/-! ## Successful runs -/

theorem bind_ok_iff {m : Fallible ε σ α} {f : α → Fallible ε σ β} {s u : σ} {b : β} :
    (m >>= f) s = (.ok b, u) ↔ ∃ a t, m s = (.ok a, t) ∧ f a t = (.ok b, u) := by
  obtain ⟨a, t, h⟩ | ⟨e, t, h⟩ := ok_or_error m s
  · rw [bind_of_ok h, h]
    simp
  · rw [bind_of_error h, h]
    simp

theorem bind_cases {m : Fallible ε σ α} {f : α → Fallible ε σ β} {s u : σ} {r : Except ε β}
    (h : (m >>= f) s = (r, u)) :
    (∃ e, m s = (.error e, u) ∧ r = .error e) ∨ ∃ a t, m s = (.ok a, t) ∧ f a t = (r, u) := by
  obtain ⟨a, t, hm⟩ | ⟨e, t, hm⟩ := ok_or_error m s
  · exact .inr ⟨a, t, hm, (bind_of_ok hm).symm.trans h⟩
  · rw [bind_of_error hm] at h
    cases h
    exact .inl ⟨e, hm, rfl⟩

/-! ## What every run does -/

/-- Every run keeps `I`, whether it fails or not, and what it returns satisfies `Q`. -/
def Keeps (I : σ → Prop) (m : Fallible ε σ α) (Q : α → Prop) : Prop :=
  ∀ s, I s → I (m s).2 ∧ ∀ a, (m s).1 = .ok a → Q a

variable {I : σ → Prop} {m : Fallible ε σ α} {f : α → Fallible ε σ β} {Q : α → Prop} {P : β → Prop}

theorem keeps_pure {a : α} (h : Q a) : Keeps I (pure a : Fallible ε σ α) Q := by
  intro s hs
  refine ⟨hs, fun b hb ↦ ?_⟩
  cases hb
  exact h

theorem keeps_throw (e : ε) : Keeps I (throw e : Fallible ε σ α) Q := by
  intro s hs
  refine ⟨hs, fun b hb ↦ ?_⟩
  cases hb

theorem keeps_gets {g : σ → α} (h : ∀ s, I s → Q (g s)) : Keeps I (gets g : Fallible ε σ α) Q := by
  intro s hs
  refine ⟨hs, fun b hb ↦ ?_⟩
  cases hb
  exact h s hs

theorem keeps_modify {g : σ → σ} (h : ∀ s, I s → I (g s)) :
    Keeps I (modify g : Fallible ε σ PUnit) fun _ ↦ True :=
  fun s hs ↦ ⟨h s hs, fun _ _ ↦ trivial⟩

/-- **Composition.** -/
theorem Keeps.bind (hm : Keeps I m Q) (hf : ∀ a, Q a → Keeps I (f a) P) : Keeps I (m >>= f) P := by
  intro s hs
  obtain ⟨ht, hQ⟩ := hm s hs
  obtain ⟨a, t, h⟩ | ⟨e, t, h⟩ := ok_or_error m s
  · rw [h] at ht hQ
    rw [bind_of_ok h]
    exact hf a (hQ a rfl) t ht
  · rw [h] at ht
    rw [bind_of_error h]
    exact ⟨ht, fun _ h ↦ nomatch h⟩

theorem keeps_forM {l : List γ} {g : γ → Fallible ε σ PUnit}
    (h : ∀ x ∈ l, Keeps I (g x) fun _ ↦ True) : Keeps I (l.forM g) fun _ ↦ True := by
  induction l with
  | nil => exact keeps_pure trivial
  | cons x l ih =>
    exact (h x List.mem_cons_self).bind fun _ _ ↦ ih fun y hy ↦ h y (List.mem_cons_of_mem x hy)

theorem Keeps.state (hm : Keeps I m Q) {s t : σ} {r : Except ε α} (h : m s = (r, t)) (hs : I s) :
    I t := by
  have ht := (hm s hs).1
  rwa [h] at ht

end Fallible

end Edos

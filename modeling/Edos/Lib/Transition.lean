import Mathlib.Tactic.FinCases

/-!
# Runs of a partial step function

A system is a step function `step : S → A → Option S`: an action is taken when the step is defined.
`run` plays a list of actions; `Reaches C` is reachability along steps that all meet a side
condition `C`, which may look at the state the step is taken from and at the action, not at what
the step leads to.

The induction is packaged once: `Reaches.invariant` for a property that every step meeting the
condition preserves.
-/

namespace Edos

section Transition

variable {S A : Type*} {step : S → A → Option S} {C : S → A → Prop}

/-- Play a list of actions, giving up at the first that cannot be taken. -/
def run (step : S → A → Option S) : S → List A → Option S
  | s, [] => some s
  | s, a :: as => (step s a).bind fun s' ↦ run step s' as

/-- States reachable along steps that meet `C`. -/
inductive Reaches (step : S → A → Option S) (C : S → A → Prop) (init : S) : S → Prop
  | refl : Reaches step C init init
  | tail {s s' : S} {a : A} :
      Reaches step C init s → C s a → step s a = some s' → Reaches step C init s'

/-- **The invariant rule.** -/
theorem Reaches.invariant {init s : S} (h : Reaches step C init s) {I : S → Prop} (hinit : I init)
    (hstep : ∀ s a s', I s → C s a → step s a = some s' → I s') : I s := by
  induction h with
  | refl => exact hinit
  | tail _ hC hs ih => exact hstep _ _ _ ih hC hs

theorem Reaches.mono {C' : S → A → Prop} (hC : ∀ s a, C s a → C' s a) {init s : S}
    (h : Reaches step C init s) : Reaches step C' init s := by
  induction h with
  | refl => exact .refl
  | tail _ hc hs ih => exact ih.tail (hC _ _ hc) hs

theorem Reaches.trans {init s t : S} (h : Reaches step C init s) (h' : Reaches step C s t) :
    Reaches step C init t := by
  induction h' with
  | refl => exact h
  | tail _ hc hs ih => exact ih.tail hc hs

/-- A run of actions each of which meets the condition wherever it is taken reaches its end. -/
theorem reaches_of_run {as : List A} (hC : ∀ s, ∀ a ∈ as, C s a) :
    ∀ {s t : S}, run step s as = some t → Reaches step C s t := by
  induction as with
  | nil =>
    intro s t h
    cases h
    exact .refl
  | cons a as ih =>
    intro s t h
    obtain ⟨u, hu, h⟩ := Option.bind_eq_some_iff.mp h
    exact Reaches.trans (Reaches.refl.tail (hC s a List.mem_cons_self) hu)
      (ih (fun s' b hb ↦ hC s' b (List.mem_cons_of_mem a hb)) h)

/-- A run that checks the condition before each step is a run, and its steps meet the condition. -/
theorem run_of_checked (check : S → A → Bool) (hC : ∀ s a, check s a = true → C s a) {as : List A} :
    ∀ {s t : S}, run (fun s a ↦ if check s a = true then step s a else none) s as = some t →
      run step s as = some t ∧ Reaches step C s t := by
  induction as with
  | nil =>
    intro s t h
    cases h
    exact ⟨rfl, .refl⟩
  | cons a as ih =>
    intro s t h
    obtain ⟨u, hu, h⟩ := Option.bind_eq_some_iff.mp h
    dsimp only at hu
    split_ifs at hu with hcheck
    obtain ⟨hrun, hreaches⟩ := ih h
    exact ⟨Option.bind_eq_some_iff.mpr ⟨u, hu, hrun⟩,
      Reaches.trans (Reaches.refl.tail (hC s a hcheck) hu) hreaches⟩

theorem Reaches.play {init s t : S} (h : Reaches step C init s) (as : List A)
    (hC : ∀ s, ∀ a ∈ as, C s a) (hrun : run step s as = some t) : Reaches step C init t :=
  h.trans (reaches_of_run hC hrun)

end Transition

end Edos

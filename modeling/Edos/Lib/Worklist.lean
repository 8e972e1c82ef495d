import Edos.Lib.Except

/-!
# Draining a worklist

A loop that takes an item off a worklist and handles it, until the list is empty; handling an item
may add items. The loop is given a number of turns. It ends within them when there is a potential
that each turn lowers: that is how a handler that answers its items with lesser ones ends.
-/

namespace Edos

universe v

section Worklist

variable {ε ι : Type*} {σ : Type v}

/-- The loop, for at most `fuel` turns; `out` is the error of a loop that is cut off. -/
def drain (out : ε) (pop : σ → Option (ι × σ)) (handle : ι → σ → Except ε σ) :
    ℕ → σ → Except ε σ
  | 0, _ => throw out
  | fuel + 1, s =>
    match pop s with
    | none => pure s
    | some (a, s') => handle a s' >>= drain out pop handle fuel

/-- **The loop ends** with an empty worklist; `I k` says that a state is good for at most `k` more
turns. -/
theorem drain_returns {out : ε} {pop : σ → Option (ι × σ)} {handle : ι → σ → Except ε σ}
    {I : ℕ → σ → Prop}
    (hstep : ∀ k s a s', I k s → pop s = some (a, s') →
      Returns (handle a s') fun t ↦ ∃ k' < k, I k' t) :
    ∀ {fuel k : ℕ} {s : σ}, I k s → k < fuel →
      Returns (drain out pop handle fuel s) fun t ↦ (∃ k', I k' t) ∧ pop t = none := by
  intro fuel
  induction fuel with
  | zero =>
    intro k s _ hlt
    exact absurd hlt (Nat.not_lt_zero _)
  | succ fuel ih =>
    intro k s hs hlt
    cases hpop : pop s with
    | none =>
      rw [drain, hpop]
      exact .pure ⟨⟨k, hs⟩, hpop⟩
    | some item =>
      rw [drain, hpop]
      refine (hstep k s item.1 item.2 hs hpop).bind fun t ⟨k', hlower, ht⟩ ↦ ih ht ?_
      omega

end Worklist

end Edos

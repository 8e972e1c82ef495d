import Edos.Lib.Transition

/-!
# Logs of writes, applied in order or through a bounded queue

A write is what it does to a store: a partial function from addresses to values, where `none` is an
address it leaves alone. Applying a log is a fold, and the value it leaves at an address is that of
the last write that touches it, so a log can be applied again over anything its own writes have
done (`applyAll_absorb`).

## The queue

A queue keeps a bounded number of writes outstanding. The device takes them to the store in any
order, in pieces and more than once, until it reports one as complete; they are retired from the
front, when the queue is full or there is nothing left to submit. `WriteQueue.step` is this machine.
If writes that can be outstanding together agree wherever they overlap, the order does not matter
(`WriteQueue.store_of_drained`); and any two writes less than a queue's depth apart can be
outstanding together (`WriteQueue.reaches_outstanding`).
-/

namespace Edos

open List Option

section Log

variable {A V W : Type*} (den : W → A → Option V)

/-- The store after a write. -/
def applyWrite (s : A → V) (w : W) : A → V := fun a ↦ (den w a).getD (s a)

/-- The store after a log of writes. -/
def applyAll (ws : List W) (s : A → V) : A → V := ws.foldl (applyWrite den) s

variable {den}

theorem applyAll_append (ws ws' : List W) (s : A → V) :
    applyAll den (ws ++ ws') s = applyAll den ws' (applyAll den ws s) := foldl_append

theorem applyAll_of_untouched {ws : List W} {a : A} (h : ∀ w ∈ ws, den w a = none) (s : A → V) :
    applyAll den ws s a = s a := by
  induction ws generalizing s with
  | nil => rfl
  | cons w ws ih =>
    rw [applyAll, foldl_cons, ← applyAll, ih fun w' hw' ↦ h w' (mem_cons_of_mem w hw'),
      applyWrite, h w mem_cons_self, getD_none]

theorem applyAll_congr {ws : List W} {s s' : A → V}
    (h : ∀ a, (∀ w ∈ ws, den w a = none) → s a = s' a) :
    applyAll den ws s = applyAll den ws s' := by
  induction ws generalizing s s' with
  | nil => exact funext fun a ↦ h a (by simp)
  | cons w ws ih =>
    refine ih fun a ha ↦ ?_
    rw [applyWrite, applyWrite]
    cases hw : den w a with
    | some v => rfl
    | none =>
      refine h a fun w' hw' ↦ ?_
      rcases mem_cons.mp hw' with rfl | hw'
      · exact hw
      · exact ha w' hw'

/-- **Redo.** A log may be applied again over whatever some of its writes have done. -/
theorem applyAll_absorb {ws ws' : List W} (h : ∀ w ∈ ws', w ∈ ws) (s : A → V) :
    applyAll den ws (applyAll den ws' s) = applyAll den ws s :=
  applyAll_congr fun _ ha ↦ applyAll_of_untouched (fun w hw ↦ ha w (h w hw)) s

end Log

/-! ## The queue -/

/-- The writes not yet submitted, the ones outstanding or waiting to be retired, each with whether
the device has reported it complete, and the store. -/
structure WriteQueue (A V W : Type*) where
  pending : List W
  inflight : List (W × Bool)
  store : A → V

namespace WriteQueue

/-- What can happen to a queue: the next write is submitted; the device takes a part of an
outstanding write to the store, or all of it and reports completion; the front is retired. -/
inductive Action (A : Type*) where
  | submit
  | land (i : ℕ) (part : A → Bool)
  | complete (i : ℕ)
  | reap

variable {A V W : Type*} (den : W → A → Option V) (depth : ℕ)

def start (ws : List W) (s : A → V) : WriteQueue A V W := ⟨ws, [], s⟩

def step (q : WriteQueue A V W) : Action A → Option (WriteQueue A V W)
  | .submit =>
    match q.pending with
    | [] => none
    | w :: ws =>
      if q.inflight.length < depth then
        some { q with pending := ws, inflight := q.inflight ++ [(w, false)] }
      else none
  | .land i part =>
    match q.inflight[i]? with
    | some (w, false) =>
      some { q with store := fun a ↦ if part a then applyWrite den q.store w a else q.store a }
    | _ => none
  | .complete i =>
    match q.inflight[i]? with
    | some (w, false) =>
      some { q with inflight := q.inflight.set i (w, true), store := applyWrite den q.store w }
    | _ => none
  | .reap =>
    match q.inflight with
    | (_, true) :: rest =>
      if depth ≤ q.inflight.length ∨ q.pending.isEmpty then some { q with inflight := rest }
      else none
    | _ => none

/-- Nothing is left to submit or to wait for. -/
def Drained (q : WriteQueue A V W) : Prop := q.pending = [] ∧ q.inflight = []

/-- Submitted and not reported complete. -/
def Outstanding (q : WriteQueue A V W) (i : ℕ) (w : W) : Prop := q.inflight[i]? = some (w, false)

end WriteQueue

section Order

variable {A V W : Type*} {den : W → A → Option V} {depth : ℕ}

/-- Two writes agree wherever they overlap. -/
def Compatible (den : W → A → Option V) (w w' : W) : Prop :=
  ∀ a v v', den w a = some v → den w' a = some v' → v = v'

/-- Writes of a log that can be outstanding together agree wherever they overlap. -/
def WindowCompatible (den : W → A → Option V) (depth : ℕ) (ws : List W) : Prop :=
  ∀ i j w w', i < j → j < i + depth → ws[i]? = some w → ws[j]? = some w' → Compatible den w w'

theorem Compatible.symm {w w' : W} (h : Compatible den w w') : Compatible den w' w :=
  fun a v v' hv hv' ↦ (h a v' v hv' hv).symm

namespace WriteQueue

/-- What holds of a queue at any time: the log is what has been retired, what is in flight and what
is pending; a completed write is in force; and every value in the store is the one the retired
writes leave or that of a write in flight. -/
structure Sound (den : W → A → Option V) (depth : ℕ) (ws : List W) (s : A → V)
    (q : WriteQueue A V W) (reaped : List W) : Prop where
  split : ws = reaped ++ (q.inflight.map Prod.fst ++ q.pending)
  length_le : q.inflight.length ≤ depth
  done : ∀ w, (w, true) ∈ q.inflight → ∀ a v, den w a = some v → q.store a = v
  value : ∀ a, q.store a = applyAll den reaped s a ∨
    ∃ w ∈ q.inflight.map Prod.fst, den w a = some (q.store a)

variable {reaped ws : List W} {s : A → V} {q : WriteQueue A V W} {w : W}

/-- Writes in flight together are less than a queue's depth apart. -/
theorem Sound.compatible (h : Sound den depth ws s q reaped) (hws : WindowCompatible den depth ws)
    {w' : W} (hw : w ∈ q.inflight.map Prod.fst) (hw' : w' ∈ q.inflight.map Prod.fst) :
    Compatible den w w' := by
  have hat {i : ℕ} {x : W} (hi : (q.inflight.map Prod.fst)[i]? = some x) :
      ws[reaped.length + i]? = some x ∧ i < q.inflight.length := by
    have hlt : i < (q.inflight.map Prod.fst).length := (List.getElem?_eq_some_iff.mp hi).1
    refine ⟨?_, by rwa [length_map] at hlt⟩
    rw [h.split, getElem?_append_right (Nat.le_add_right _ _), Nat.add_sub_cancel_left,
      getElem?_append_left hlt, hi]
  obtain ⟨i, hi⟩ := mem_iff_getElem?.mp hw
  obtain ⟨j, hj⟩ := mem_iff_getElem?.mp hw'
  obtain ⟨hi', hilt⟩ := hat hi
  obtain ⟨hj', hjlt⟩ := hat hj
  have hlen := h.length_le
  rcases lt_trichotomy i j with hlt | rfl | hlt
  · exact hws _ _ w w' (by omega) (by omega) hi' hj'
  · obtain rfl : w = w' := some.inj (hi.symm.trans hj)
    exact fun _ _ _ hv hv' ↦ some.inj (hv.symm.trans hv')
  · exact (hws _ _ w' w (by omega) (by omega) hj' hi').symm

theorem Sound.land (h : Sound den depth ws s q reaped) (hws : WindowCompatible den depth ws)
    (hw : w ∈ q.inflight.map Prod.fst) (part : A → Bool) :
    Sound den depth ws s
      { q with store := fun a ↦ if part a then applyWrite den q.store w a else q.store a }
      reaped where
  split := h.split
  length_le := h.length_le
  done w' hw' a v hv := by
    have hold := h.done w' hw' a v hv
    have hcompat := h.compatible hws hw (List.mem_map_of_mem hw')
    cases hden : den w a with
    | none => simp [applyWrite, hden, hold]
    | some u => simp [applyWrite, hden, hold, hcompat a u v hden hv]
  value a := by
    cases hden : den w a with
    | none => simpa [applyWrite, hden] using h.value a
    | some u =>
      cases hpart : part a with
      | false => simpa [hpart] using h.value a
      | true => exact .inr ⟨w, hw, by simp [applyWrite, hden, hpart]⟩

theorem Sound.reap {pending : List W} {store : A → V} {rest : List (W × Bool)}
    (h : Sound den depth ws s ⟨pending, (w, true) :: rest, store⟩ reaped) :
    Sound den depth ws s ⟨pending, rest, store⟩ (reaped ++ [w]) where
  split := by rw [h.split, append_assoc]; rfl
  length_le := le_trans (Nat.le_succ _) h.length_le
  done w' hw' := h.done w' (mem_cons_of_mem _ hw')
  value a := by
    rw [applyAll_append]
    change store a = applyWrite den (applyAll den reaped s) w a ∨ _
    cases hden : den w a with
    | some v => exact .inl (by rw [applyWrite, hden]; exact h.done w mem_cons_self a v hden)
    | none =>
      rw [applyWrite, hden]
      refine (h.value a).imp_right ?_
      rintro ⟨w', hw', hval⟩
      rcases mem_cons.mp hw' with rfl | hw'
      · exact absurd (hden.symm.trans hval) (by simp)
      · exact ⟨w', hw', hval⟩

theorem Sound.step {q' : WriteQueue A V W} {act : Action A} (h : Sound den depth ws s q reaped)
    (hws : WindowCompatible den depth ws)
    (hstep : q.step den depth act = some q') : ∃ reaped', Sound den depth ws s q' reaped' := by
  obtain ⟨pending, inflight, store⟩ := q
  cases act with
  | submit =>
    cases pending with
    | nil => cases hstep
    | cons w pending =>
      simp only [WriteQueue.step, ite_none_right_eq_some, some.injEq] at hstep
      obtain ⟨hlt, rfl⟩ := hstep
      refine ⟨reaped, ?_, ?_, fun w' hw' ↦ h.done w' ?_, fun a ↦ (h.value a).imp_right ?_⟩
      · rw [h.split, map_append, append_assoc]
        rfl
      · rw [length_append]
        exact hlt
      · simpa using hw'
      · rintro ⟨w', hw', hval⟩
        exact ⟨w', by rw [map_append]; exact mem_append_left _ hw', hval⟩
  | land i part =>
    simp only [WriteQueue.step] at hstep
    split at hstep
    · rename_i w hi
      cases hstep
      exact ⟨reaped, h.land hws (List.mem_map_of_mem (mem_of_getElem? hi)) part⟩
    · cases hstep
  | complete i =>
    simp only [WriteQueue.step] at hstep
    split at hstep
    · rename_i w hi
      cases hstep
      have hland := h.land hws (List.mem_map_of_mem (mem_of_getElem? hi)) fun _ ↦ true
      have hfst : (inflight.set i (w, true)).map Prod.fst = inflight.map Prod.fst := by
        obtain ⟨hlt, heq⟩ := List.getElem?_eq_some_iff.mp
          (show (inflight.map Prod.fst)[i]? = some w by rw [getElem?_map, hi]; rfl)
        rw [map_set, ← heq, set_getElem_self]
      refine ⟨reaped, by rw [hfst]; exact h.split, by rw [length_set]; exact h.length_le, ?_,
        by rw [hfst]; exact hland.value⟩
      intro w' hw' a v hv
      rcases mem_or_eq_of_mem_set hw' with hw' | heq
      · exact hland.done w' hw' a v hv
      · cases heq
        simp [applyWrite, hv]
    · cases hstep
  | reap =>
    simp only [WriteQueue.step] at hstep
    split at hstep
    · simp only [ite_none_right_eq_some, some.injEq] at hstep
      obtain ⟨-, rfl⟩ := hstep
      exact ⟨_, h.reap⟩
    · cases hstep

theorem sound_of_reaches (hws : WindowCompatible den depth ws)
    (h : Reaches (WriteQueue.step den depth) (fun _ _ ↦ True) (start ws s) q) :
    ∃ reaped, Sound den depth ws s q reaped :=
  h.invariant (I := fun q ↦ ∃ reaped, Sound den depth ws s q reaped)
    ⟨[], rfl, Nat.zero_le _, nofun, fun _ ↦ .inl rfl⟩
    fun _ _ _ ⟨_, hq⟩ _ hstep ↦ hq.step hws hstep

/-- **Order does not matter** for a log whose writes agree where they can be outstanding together:
once the queue is drained, the store is what applying the log in order makes it. -/
theorem store_of_drained (hws : WindowCompatible den depth ws)
    (h : Reaches (WriteQueue.step den depth) (fun _ _ ↦ True) (start ws s) q) (hq : q.Drained) :
    q.store = applyAll den ws s := by
  obtain ⟨reaped, hsound⟩ := sound_of_reaches hws h
  obtain ⟨hpending, hinflight⟩ := hq
  have hreaped : ws = reaped := by
    have hsplit := hsound.split
    rwa [hinflight, hpending, map_nil, append_nil, append_nil] at hsplit
  funext a
  rcases hsound.value a with hval | ⟨w, hw, -⟩
  · rw [hval, hreaped]
  · rw [hinflight] at hw
    cases hw

/-- **Every window occurs.** After `n` submissions the last `depth` writes can all be outstanding.
-/
theorem reaches_outstanding (den : W → A → Option V) (hdepth : 0 < depth) (ws : List W) (s : A → V)
    (n : ℕ) (hn : n ≤ ws.length) :
    ∃ q, Reaches (WriteQueue.step den depth) (fun _ _ ↦ True) (start ws s) q ∧
      q.pending = ws.drop n ∧ q.inflight = ((ws.take n).drop (n - depth)).map (·, false) := by
  induction n with
  | zero => exact ⟨_, .refl, rfl, by simp [start]⟩
  | succ n ih =>
    obtain ⟨⟨pending, inflight, store⟩, hreach, hp, hi⟩ := ih (by omega)
    subst hp hi
    have hpending : ws.drop n = ws[n] :: ws.drop (n + 1) := drop_eq_getElem_cons (by omega)
    have hwindow {k : ℕ} (hk : k ≤ n) : ((ws.take (n + 1)).drop k).map (·, false)
        = ((ws.take n).drop k).map (·, false) ++ [(ws[n], false)] := by
      rw [take_succ_eq_append_getElem (by omega), drop_append_of_le_length
        (by rw [length_take]; omega), map_append]
      rfl
    have hlen (k : ℕ) : (((ws.take n).drop k).map (·, false)).length = n - k := by
      rw [length_map, length_drop, length_take]
      omega
    rcases lt_or_ge n depth with hlt | hge
    · refine ⟨⟨_, _, store⟩, hreach.tail (a := .submit) trivial ?_, rfl, rfl⟩
      rw [Nat.sub_eq_zero_of_le (le_of_lt hlt), Nat.sub_eq_zero_of_le hlt,
        hwindow (Nat.zero_le n), hpending]
      exact if_pos (by rw [hlen]; omega)
    · -- The queue is full: the front has to complete and be retired first.
      have hfront : ((ws.take n).drop (n - depth)).map (·, false)
          = (ws[n - depth], false) :: ((ws.take n).drop (n + 1 - depth)).map (·, false) := by
        rw [drop_eq_getElem_cons (by rw [length_take]; omega), map_cons,
          getElem_take, Nat.sub_add_comm hge]
      have hcomplete : WriteQueue.step den depth
          ⟨ws.drop n, ((ws.take n).drop (n - depth)).map (·, false), store⟩ (.complete 0)
          = some ⟨ws.drop n,
              (ws[n - depth], true) :: ((ws.take n).drop (n + 1 - depth)).map (·, false),
              applyWrite den store ws[n - depth]⟩ := by
        rw [hfront]
        rfl
      have hreap : WriteQueue.step den depth ⟨ws.drop n,
          (ws[n - depth], true) :: ((ws.take n).drop (n + 1 - depth)).map (·, false),
          applyWrite den store ws[n - depth]⟩ .reap
          = some ⟨ws.drop n, ((ws.take n).drop (n + 1 - depth)).map (·, false),
              applyWrite den store ws[n - depth]⟩ :=
        if_pos (.inl (by rw [length_cons, hlen]; omega))
      refine ⟨⟨_, _, applyWrite den store ws[n - depth]⟩,
        ((hreach.tail trivial hcomplete).tail trivial hreap).tail (a := .submit) trivial ?_,
        rfl, rfl⟩
      rw [hwindow (by omega), hpending]
      exact if_pos (by rw [hlen]; omega)

end WriteQueue

end Order

end Edos

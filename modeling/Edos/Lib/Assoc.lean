import Mathlib.Data.List.Nodup

/-!
# Association lists

`List.lookup` takes the first pair with a key. When no key occurs twice it only depends on which
pairs there are, so that an association list is a finite map.
-/

namespace Edos

open List

section Assoc

variable {α β : Type*} [DecidableEq α] {l l' : List (α × β)} {a : α} {b : β}

theorem lookup_eq_some_iff (h : (l.map Prod.fst).Nodup) : l.lookup a = some b ↔ (a, b) ∈ l := by
  induction l with
  | nil => simp
  | cons e l ih =>
    obtain ⟨hnew, hrest⟩ := nodup_cons.mp h
    rw [lookup_cons, mem_cons]
    by_cases heq : a = e.1
    · subst heq
      rw [beq_self_eq_true]
      refine ⟨fun hb ↦ .inl (Prod.ext rfl (Option.some.inj hb).symm), ?_⟩
      rintro (hb | hb)
      · exact congrArg some (congrArg Prod.snd hb).symm
      · exact absurd (mem_map_of_mem hb) hnew
    · rw [beq_eq_false_iff_ne.mpr heq]
      exact (ih hrest).trans ⟨.inr, fun hb ↦ hb.resolve_left fun hb ↦ heq (congrArg Prod.fst hb)⟩

theorem lookup_eq_none_iff : l.lookup a = none ↔ a ∉ l.map Prod.fst := by
  rw [List.lookup_eq_none_iff]
  simp only [mem_map, not_exists, not_and, bne_iff_ne]
  exact ⟨fun h e he heq ↦ h e he heq.symm, fun h e he heq ↦ h e he heq.symm⟩

/-- **Lookup does not depend on the order.** -/
theorem lookup_eq_of_perm (h : (l.map Prod.fst).Nodup) (hperm : l.Perm l') (a : α) :
    l.lookup a = l'.lookup a := by
  have h' : (l'.map Prod.fst).Nodup := (hperm.map _).nodup_iff.mp h
  refine Option.ext fun b ↦ ?_
  rw [lookup_eq_some_iff h, lookup_eq_some_iff h', hperm.mem_iff]

/-! ## Changing a list -/

theorem lookup_filter_ne (l : List (α × β)) (a k : α) :
    (l.filter fun e ↦ e.1 ≠ a).lookup k = if k = a then none else l.lookup k := by
  induction l with
  | nil => simp
  | cons e l ih =>
    by_cases he : e.1 = a
    · rw [filter_cons_of_neg (by simpa using he), ih, lookup_cons]
      by_cases hk : k = a
      · rw [if_pos hk, if_pos hk]
      · rw [if_neg hk, if_neg hk, beq_eq_false_iff_ne.mpr fun h ↦ hk (h.trans he)]
    · rw [filter_cons_of_pos (by simpa using he), lookup_cons, ih, lookup_cons]
      by_cases hk : k = e.1
      · rw [beq_iff_eq.mpr hk, if_neg fun h ↦ he (hk.symm.trans h),
          if_neg fun h ↦ he (hk.symm.trans h)]
      · rw [beq_eq_false_iff_ne.mpr hk]

theorem lookup_concat (l : List (α × β)) (a k : α) (b : β) :
    (l ++ [(a, b)]).lookup k = (l.lookup k).or (if k = a then some b else none) := by
  rw [lookup_append, lookup_cons]
  by_cases hk : k = a
  · rw [beq_iff_eq.mpr hk, if_pos hk]
  · rw [beq_eq_false_iff_ne.mpr hk, if_neg hk, lookup_nil]

/-- Change the values of a key. -/
def setKey (a : α) (f : β → β) (e : α × β) : α × β := if e.1 = a then (e.1, f e.2) else e

@[simp] theorem setKey_fst (a : α) (f : β → β) (e : α × β) : (setKey a f e).1 = e.1 := by
  rw [setKey]
  split_ifs <;> rfl

theorem lookup_map_setKey (l : List (α × β)) {a k : α} (f : β → β) (hk : k ≠ a) :
    (l.map (setKey a f)).lookup k = l.lookup k := by
  induction l with
  | nil => rfl
  | cons e l ih =>
    rw [map_cons, lookup_cons, lookup_cons, ih, setKey_fst]
    by_cases he : k = e.1
    · rw [beq_iff_eq.mpr he, setKey, if_neg fun h ↦ hk (he.trans h)]
    · rw [beq_eq_false_iff_ne.mpr he]

theorem map_setKey_of_split (h : ((l ++ (a, b) :: l').map Prod.fst).Nodup) (f : β → β) :
    (l ++ (a, b) :: l').map (setKey a f) = l ++ (a, f b) :: l' := by
  rw [map_append, map_cons, nodup_middle, nodup_cons, ← map_append] at h
  have hself {es : List (α × β)} (hes : es ⊆ l ++ l') : es.map (setKey a f) = es := by
    refine (map_congr_left fun e he ↦ ?_).trans (map_id es)
    rw [setKey, if_neg fun heq ↦ h.1 (mem_map.mpr ⟨e, hes he, heq⟩)]
    rfl
  rw [map_append, map_cons, setKey, if_pos rfl,
    hself (subset_append_left ..), hself (subset_append_right ..)]

theorem filter_ne_of_split (h : ((l ++ (a, b) :: l').map Prod.fst).Nodup) :
    (l ++ (a, b) :: l').filter (fun e ↦ e.1 ≠ a) = l ++ l' := by
  rw [map_append, map_cons, nodup_middle, nodup_cons, ← map_append] at h
  have hne (e : α × β) (he : e ∈ l ++ l') : decide (e.1 ≠ a) = true :=
    decide_eq_true fun heq ↦ h.1 (mem_map.mpr ⟨e, he, heq⟩)
  rw [filter_append, filter_cons_of_neg (by simp), ← filter_append, filter_eq_self.mpr hne]

end Assoc

end Edos

import Mathlib.Data.List.Basic
import Mathlib.Order.MinMax

/-!
# Maps that keep the largest value seen for a key

A map built by folding `insertMax` over a stream of key/value pairs holds, for every key that
occurs, the largest value it occurs with. `IsMaxOf m es` is that statement, taken as the meaning of
the map and not as a computation: it does not mention the order of the stream, it survives
appending to it, and it determines the map, so two streams give the same map exactly when each
dominates the other.
-/

namespace Edos

open List Option Std

variable {K : Type*} {cmp : K → K → Ordering} [TransCmp cmp]

/-- Raise the value at `k` to `v`, starting from zero where the key is new. -/
def insertMax (m : ExtTreeMap K ℕ cmp) (k : K) (v : ℕ) : ExtTreeMap K ℕ cmp :=
  m.alter k fun old ↦ some (if old.getD 0 < v then v else old.getD 0)

theorem getElem?_insertMax_self (m : ExtTreeMap K ℕ cmp) (k : K) (v : ℕ) :
    (insertMax m k v)[k]? = some (max (m[k]?.getD 0) v) := by
  rw [insertMax, ExtTreeMap.getElem?_alter_self]
  congr 1
  split_ifs <;> omega

theorem getElem?_insertMax_of_ne [LawfulEqCmp cmp] (m : ExtTreeMap K ℕ cmp) {k a : K} (v : ℕ)
    (h : k ≠ a) : (insertMax m k v)[a]? = m[a]? := by
  rw [insertMax, ExtTreeMap.getElem?_alter, if_neg (by simpa using h)]

/-- `m` holds the largest value of every key that occurs in `es`, and nothing else. -/
structure IsMaxOf (m : ExtTreeMap K ℕ cmp) (es : List (K × ℕ)) : Prop where
  /-- A key that occurs has a value at least as large as any it occurs with. -/
  bound : ∀ {k w}, (k, w) ∈ es → ∃ v, m[k]? = some v ∧ w ≤ v
  /-- A value held is one the key occurs with. -/
  attained : ∀ {k v}, m[k]? = some v → (k, v) ∈ es

/-- Every pair of `es` is matched in `es'` by one with the same key and no smaller value. -/
def Dominated (es es' : List (K × ℕ)) : Prop :=
  ∀ e ∈ es, ∃ w, (e.1, w) ∈ es' ∧ e.2 ≤ w

theorem isMaxOf_nil : IsMaxOf (∅ : ExtTreeMap K ℕ cmp) [] where
  bound h := by simp at h
  attained h := by simp at h

variable {es es' : List (K × ℕ)} {m m' : ExtTreeMap K ℕ cmp}

theorem IsMaxOf.dominated (h : IsMaxOf m es) (h' : IsMaxOf m es') : Dominated es es' := by
  intro e he
  obtain ⟨v, hv, hle⟩ := h.bound (k := e.1) (w := e.2) he
  exact ⟨v, h'.attained hv, hle⟩

theorem IsMaxOf.exists_ge (h : IsMaxOf m es) (h' : IsMaxOf m' es') (hd : Dominated es es') {k : K}
    {v : ℕ} (hv : m[k]? = some v) : ∃ v', m'[k]? = some v' ∧ v ≤ v' := by
  obtain ⟨w, hw, hvw⟩ := hd _ (h.attained hv)
  obtain ⟨v', hv', hwv⟩ := h'.bound hw
  exact ⟨v', hv', hvw.trans hwv⟩

theorem dominated_append_left {t t' : List (K × ℕ)} :
    Dominated (es ++ t) (es ++ t') ↔ Dominated t (es ++ t') := by
  constructor
  · exact fun h e he ↦ h e (mem_append_right es he)
  · intro h e he
    rcases mem_append.mp he with he | he
    · exact ⟨e.2, mem_append_left t' he, le_rfl⟩
    · exact h e he

variable [LawfulEqCmp cmp]

theorem IsMaxOf.insertMax (h : IsMaxOf m es) (k : K)
    (v : ℕ) : IsMaxOf (insertMax m k v) (es ++ [(k, v)]) where
  bound := by
    intro a w hw
    by_cases hka : k = a
    · subst hka
      refine ⟨_, getElem?_insertMax_self m k v, ?_⟩
      rcases mem_append.mp hw with hw | hw
      · obtain ⟨u, hu, hwu⟩ := h.bound hw
        rw [hu]
        exact le_max_of_le_left hwu
      · simp only [mem_singleton, Prod.mk.injEq, true_and] at hw
        exact hw ▸ le_max_right _ _
    · rw [getElem?_insertMax_of_ne m v hka]
      rcases mem_append.mp hw with hw | hw
      · exact h.bound hw
      · exact absurd (by simpa using hw : a = k ∧ w = v).1.symm hka
  attained := by
    intro a w hw
    by_cases hka : k = a
    · subst hka
      rw [getElem?_insertMax_self, some.injEq] at hw
      cases hold : m[k]? with
      | none =>
        rw [hold, getD_none, Nat.zero_max] at hw
        simp [hw]
      | some u =>
        rw [hold, getD_some] at hw
        rcases max_choice u v with hu | hv
        · exact mem_append_left _ (h.attained (by rw [hold, ← hw, hu]))
        · simp [← hw, hv]
    · rw [getElem?_insertMax_of_ne m v hka] at hw
      exact mem_append_left _ (h.attained hw)

/-- Folding a stream in extends what the map is the maximum of by that stream. -/
theorem IsMaxOf.foldl (h : IsMaxOf m es) (es' : List (K × ℕ)) :
    IsMaxOf (es'.foldl (fun m e ↦ Edos.insertMax m e.1 e.2) m) (es ++ es') := by
  induction es' generalizing m es with
  | nil => simpa using h
  | cons e es' ih =>
    have hstep := ih (h.insertMax e.1 e.2)
    rwa [append_assoc, singleton_append] at hstep

/-- **Extensionality.** Two such maps agree exactly when their streams dominate each other. -/
theorem IsMaxOf.eq_iff_dominated (h : IsMaxOf m es) (h' : IsMaxOf m' es') :
    m = m' ↔ Dominated es es' ∧ Dominated es' es := by
  constructor
  · rintro rfl
    exact ⟨h.dominated h', h'.dominated h⟩
  · rintro ⟨hd, hd'⟩
    refine ExtTreeMap.ext_getElem? fun k ↦ ?_
    cases hm : m[k]? with
    | none =>
      cases hm' : m'[k]? with
      | none => rfl
      | some v' =>
        obtain ⟨v, hv, -⟩ := h'.exists_ge h hd' hm'
        cases hm.symm.trans hv
    | some v =>
      obtain ⟨v', hv', hle⟩ := h.exists_ge h' hd hm
      obtain ⟨u, hu, hle'⟩ := h'.exists_ge h hd' hv'
      obtain rfl := some.inj (hm.symm.trans hu)
      rw [hv', Nat.le_antisymm hle hle']

end Edos

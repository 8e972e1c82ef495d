import Mathlib.Data.BitVec

/-!
# Serial numbers

Numbers that wrap, compared by the sign of their difference. Two numbers that are both ahead of a
common base by less than half of the space compare as their distances from the base do.
-/

namespace Edos

variable {w : ℕ}

/-- `a` is ahead of `b`. -/
def serialGt (a b : BitVec w) : Bool := 0 < (a - b).toInt

/-- `a` is not ahead of `b`. -/
def serialLe (a b : BitVec w) : Bool := !serialGt a b

/-- The distance from `b` forward to `a`. -/
def serialDist (a b : BitVec w) : ℕ := (a - b).toNat

theorem serialGt_iff {a b : BitVec w} :
    serialGt a b = true ↔ 0 < serialDist a b ∧ 2 * serialDist a b < 2 ^ w := by
  rw [serialGt, decide_eq_true_iff, BitVec.toInt_eq_toNat_cond, serialDist]
  split_ifs <;> omega

theorem serialDist_add (s : BitVec w) {a : ℕ} (ha : a < 2 ^ w) :
    serialDist (s + BitVec.ofNat w a) s = a := by
  rw [serialDist, BitVec.add_comm, BitVec.add_sub_cancel, BitVec.toNat_ofNat, Nat.mod_eq_of_lt ha]

theorem eq_add_serialDist (a b : BitVec w) : a = b + BitVec.ofNat w (serialDist a b) := by
  rw [serialDist, BitVec.ofNat_toNat, BitVec.setWidth_eq, BitVec.add_comm, BitVec.sub_add_cancel]

/-- **Comparison within half of the space** is comparison of the distances from the base. -/
theorem serialGt_add_add (s : BitVec w) {a b : ℕ} (ha : 2 * a < 2 ^ w) (hb : 2 * b < 2 ^ w) :
    serialGt (s + BitVec.ofNat w a) (s + BitVec.ofNat w b) = decide (b < a) := by
  rw [Bool.eq_iff_iff, serialGt_iff, decide_eq_true_iff, serialDist]
  rw [add_sub_add_left_eq_sub, BitVec.toNat_sub, BitVec.toNat_ofNat, BitVec.toNat_ofNat,
    Nat.mod_eq_of_lt (show a < 2 ^ w by omega), Nat.mod_eq_of_lt (show b < 2 ^ w by omega)]
  rcases lt_or_ge b a with hlt | hge
  · rw [show 2 ^ w - b + a = 2 ^ w + (a - b) by omega, Nat.add_mod_left,
      Nat.mod_eq_of_lt (by omega)]
    omega
  · rcases Nat.eq_or_lt_of_le hge with rfl | hgt
    · rw [Nat.sub_add_cancel (by omega), Nat.mod_self]
      omega
    · rw [Nat.mod_eq_of_lt (by omega)]
      omega

end Edos

import Edos.Lib.Bytes
import Mathlib.Data.Finset.Card
import Mathlib.Data.Nat.Bitwise

/-!
# Allocation bitmaps

A group has a bitmap of its blocks and one of its inodes: a bit is set for what is in use. The
driver looks for free blocks in two ways: the length of the free run at a given place
(`free_run_at`), and the first free run that is long enough, or else the longest one
(`find_free_run`).

The free bits are counted by `zeroBits`.
-/

namespace Edos

open List

/-- Whether a bit is set. -/
def bitAt (bitmap : List UInt8) (bit : ℕ) : Bool :=
  (bitmap.getD (bit / 8) 0).toNat.testBit (bit % 8)

def setBit (bitmap : List UInt8) (bit : ℕ) : List UInt8 :=
  bitmap.set (bit / 8) (bitmap.getD (bit / 8) 0 ||| 1 <<< UInt8.ofNat (bit % 8))

def clearBit (bitmap : List UInt8) (bit : ℕ) : List UInt8 :=
  bitmap.set (bit / 8) (bitmap.getD (bit / 8) 0 &&& ~~~ (1 <<< UInt8.ofNat (bit % 8)))

/-- `trailing_ones` of a word of the given width. -/
def trailingOnes : ℕ → ℕ → ℕ
  | 0, _ => 0
  | width + 1, val => if val % 2 = 1 then trailingOnes width (val / 2) + 1 else 0

/-- The number of free bits from `start` on, up to `want`. -/
def freeRunAt (bitmap : List UInt8) (maxBits : ℕ) : ℕ → ℕ → ℕ
  | 0, _ => 0
  | want + 1, start =>
    if start < maxBits && !bitAt bitmap start then freeRunAt bitmap maxBits want (start + 1) + 1
    else 0

/-- The loop of `find_free_run`. Every round goes on by a bit at least, so a fuel of `maxBits` is
enough. -/
def findFreeRunFrom (bitmap : List UInt8) (maxBits want : ℕ) :
    ℕ → ℕ → Option (ℕ × ℕ) → Option (ℕ × ℕ)
  | 0, _, best => best
  | fuel + 1, bit, best =>
    if maxBits ≤ bit then best
    else if bit % 8 = 0 && bitmap.getD (bit / 8) 0 == 0xFF then
      findFreeRunFrom bitmap maxBits want fuel (bit + 8) best
    else if bitAt bitmap bit then findFreeRunFrom bitmap maxBits want fuel (bit + 1) best
    else
      let len := freeRunAt bitmap maxBits want bit
      if want ≤ len then some (bit, len)
      else findFreeRunFrom bitmap maxBits want fuel (bit + len + 1)
        (if best.all fun b ↦ b.2 < len then some (bit, len) else best)

def findFreeRun (bitmap : List UInt8) (maxBits want : ℕ) : Option (ℕ × ℕ) :=
  findFreeRunFrom bitmap maxBits want maxBits 0 none

/-- The number of free bits among the first `n`. -/
def zeroBits (bitmap : List UInt8) (n : ℕ) : ℕ :=
  ((Finset.range n).filter fun k ↦ bitAt bitmap k = false).card

/-! ## Setting and clearing -/

@[simp] theorem length_setBit (bitmap : List UInt8) (bit : ℕ) :
    (setBit bitmap bit).length = bitmap.length := length_set

@[simp] theorem length_clearBit (bitmap : List UInt8) (bit : ℕ) :
    (clearBit bitmap bit).length = bitmap.length := length_set

variable {j k : ℕ} {bitmap : List UInt8}

theorem toNat_one_shiftLeft (hk : k < 8) : ((1 : UInt8) <<< UInt8.ofNat k).toNat = 2 ^ k := by
  have hpow : 2 ^ k < 2 ^ 8 := Nat.pow_lt_pow_right (by decide) hk
  rw [UInt8.toNat_shiftLeft, UInt8.toNat_ofNat', Nat.mod_mod_of_dvd _ (by decide),
    Nat.mod_eq_of_lt hk, Nat.shiftLeft_eq, UInt8.toNat_one, one_mul, Nat.mod_eq_of_lt hpow]

theorem testBit_or_shift (x : UInt8) (hk : k < 8) :
    (x ||| 1 <<< UInt8.ofNat k).toNat.testBit j = (x.toNat.testBit j || decide (k = j)) := by
  rw [UInt8.toNat_or, toNat_one_shiftLeft hk, Nat.testBit_or, Nat.testBit_two_pow]

theorem testBit_and_shift (x : UInt8) (hj : j < 8) (hk : k < 8) :
    (x &&& ~~~ (1 <<< UInt8.ofNat k)).toNat.testBit j = (x.toNat.testBit j && !decide (k = j)) := by
  have hpow : 2 ^ k < 2 ^ 8 := Nat.pow_lt_pow_right (by decide) hk
  have hsub : UInt8.size - 1 - 2 ^ k = 2 ^ 8 - (2 ^ k + 1) := by
    rw [Nat.sub_sub, add_comm 1]
    rfl
  rw [UInt8.toNat_and, UInt8.toNat_not, toNat_one_shiftLeft hk, Nat.testBit_and, hsub,
    Nat.testBit_two_pow_sub_succ hpow, Nat.testBit_two_pow, decide_eq_true hj, Bool.true_and]

theorem bit_ext (hbyte : j / 8 = k / 8) : k % 8 = j % 8 ↔ j = k := by omega

theorem getD_set_self {i : ℕ} (hi : i < bitmap.length) (x : UInt8) :
    (bitmap.set i x).getD i 0 = x := by
  rw [getD_eq_getElem?_getD, List.getElem?_set_self hi, Option.getD_some]

theorem getD_set_of_ne {i : ℕ} (h : i ≠ j) (x : UInt8) :
    (bitmap.set i x).getD j 0 = bitmap.getD j 0 := by
  rw [getD_eq_getElem?_getD, getElem?_set_ne h, getD_eq_getElem?_getD]

theorem bitAt_setBit (hk : k / 8 < bitmap.length) (j : ℕ) :
    bitAt (setBit bitmap k) j = (bitAt bitmap j || decide (j = k)) := by
  rw [bitAt, bitAt, setBit]
  by_cases hbyte : j / 8 = k / 8
  · rw [hbyte, getD_set_self hk, testBit_or_shift _ (Nat.mod_lt _ (by decide)),
      decide_eq_decide.mpr (bit_ext hbyte)]
  · have hne : j ≠ k := fun h ↦ hbyte (congrArg (· / 8) h)
    rw [getD_set_of_ne (Ne.symm hbyte), decide_eq_false hne, Bool.or_false]

theorem bitAt_clearBit (hk : k / 8 < bitmap.length) (j : ℕ) :
    bitAt (clearBit bitmap k) j = (bitAt bitmap j && !decide (j = k)) := by
  rw [bitAt, bitAt, clearBit]
  by_cases hbyte : j / 8 = k / 8
  · rw [hbyte, getD_set_self hk, testBit_and_shift _ (Nat.mod_lt _ (by decide))
      (Nat.mod_lt _ (by decide)), decide_eq_decide.mpr (bit_ext hbyte)]
  · have hne : j ≠ k := fun h ↦ hbyte (congrArg (· / 8) h)
    rw [getD_set_of_ne (Ne.symm hbyte), decide_eq_false hne, Bool.not_false, Bool.and_true]

/-- `claim_run` sets a run of bits one by one. -/
def setRun (bitmap : List UInt8) (bit len : ℕ) : List UInt8 :=
  (range' bit len).foldl setBit bitmap

theorem setRun_succ (bitmap : List UInt8) (bit len : ℕ) :
    setRun bitmap bit (len + 1) = setRun (setBit bitmap bit) (bit + 1) len := by
  rw [setRun, range'_succ, foldl_cons, setRun]

@[simp] theorem length_setRun (bitmap : List UInt8) (bit len : ℕ) :
    (setRun bitmap bit len).length = bitmap.length := by
  induction len generalizing bitmap bit with
  | zero => rfl
  | succ len ih => rw [setRun_succ, ih, length_setBit]

/-! ## What the searches find -/

theorem trailingOnes_spec {width val : ℕ} (hval : val < 2 ^ width) (hne : val ≠ 2 ^ width - 1) :
    trailingOnes width val < width ∧ val.testBit (trailingOnes width val) = false := by
  induction width generalizing val with
  | zero =>
    omega
  | succ width ih =>
    rw [trailingOnes]
    split_ifs with hodd
    · have hhalf : val / 2 < 2 ^ width := by omega
      obtain ⟨hlt, hclear⟩ := ih hhalf (by omega)
      refine ⟨Nat.succ_lt_succ hlt, ?_⟩
      rw [Nat.testBit_succ]
      exact hclear
    · refine ⟨Nat.succ_pos _, ?_⟩
      rw [Nat.testBit_zero, decide_eq_false hodd]

end Edos

import Edos.Lib.Bytes

/-!
# Network byte order and the internet checksum

The words of a packet are big-endian. The checksum adds them up in 32 bits and folds the carries
back in; `wordSum` is that sum as a number, and `wordSum_le` bounds it by the length of the data.
-/

namespace Edos.Net

open List

/-- `to_be_bytes` of an `n`-byte integer. -/
def beBytes (n v : ℕ) : List UInt8 := (leBytes n v).reverse

/-- `from_be_bytes`. -/
def beNat (bs : List UInt8) : ℕ := leNat bs.reverse

@[simp] theorem length_beBytes (n v : ℕ) : (beBytes n v).length = n := by
  rw [beBytes, length_reverse, length_leBytes]

theorem beNat_beBytes (n v : ℕ) : beNat (beBytes n v) = v % 256 ^ n := by
  rw [beNat, beBytes, reverse_reverse, leNat_leBytes]

/-- The sum of the 16-bit words of the data, an odd last byte being the high byte of a word. -/
def wordSum : List UInt8 → ℕ
  | [] => 0
  | [a] => a.toNat * 256
  | a :: b :: rest => a.toNat * 256 + b.toNat + wordSum rest

/-- The loop that folds the carries back in, run at most `fuel` times. -/
def foldCarries : ℕ → ℕ → ℕ
  | 0, sum => sum
  | fuel + 1, sum =>
    if sum / 2 ^ 16 = 0 then sum else foldCarries fuel (sum % 2 ^ 16 + sum / 2 ^ 16)

/-- `internet_checksum`. -/
def internetChecksum (data : List UInt8) : BitVec 16 :=
  ~~~BitVec.ofNat 16 (foldCarries (wordSum data) (wordSum data))

/-- No word exceeds 65535, so the sum over fewer than 2¹⁷ bytes fits in 32 bits. -/
theorem wordSum_le (data : List UInt8) : 2 * wordSum data ≤ 65535 * (data.length + 1) := by
  fun_induction wordSum data with
  | case1 => exact Nat.zero_le _
  | case2 a =>
    have := a.toNat_lt
    rw [length_singleton]
    omega
  | case3 a b rest ih =>
    have ha := a.toNat_lt
    have hb := b.toNat_lt
    rw [length_cons, length_cons]
    omega

end Edos.Net

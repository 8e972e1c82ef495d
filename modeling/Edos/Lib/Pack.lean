import Edos.Lib.Bytes

/-!
# Packed records

A packed structure on disk is the concatenation of its fields, each a little-endian number of a
fixed width. `pack` writes a list of fields and `unpack` reads a list of widths; what the widths
have room for is read back as it was written.
-/

namespace Edos

open List

/-- Fields, given by width and value, one after the other. -/
def pack (fields : List (ℕ × ℕ)) : List UInt8 := fields.flatMap fun f ↦ leBytes f.1 f.2

/-- The values of fields of the given widths. -/
def unpack : List ℕ → List UInt8 → List ℕ
  | [], _ => []
  | width :: widths, bs => leNat (bs.take width) :: unpack widths (bs.drop width)

theorem pack_cons (f : ℕ × ℕ) (fields : List (ℕ × ℕ)) :
    pack (f :: fields) = leBytes f.1 f.2 ++ pack fields := flatMap_cons

theorem length_pack (fields : List (ℕ × ℕ)) : (pack fields).length = (fields.map Prod.fst).sum := by
  induction fields with
  | nil => rfl
  | cons f fields ih => rw [pack_cons, length_append, length_leBytes, ih, map_cons, sum_cons]

/-- **Round trip.** -/
theorem unpack_pack {fields : List (ℕ × ℕ)} (h : ∀ f ∈ fields, f.2 < 256 ^ f.1) :
    unpack (fields.map Prod.fst) (pack fields) = fields.map Prod.snd := by
  induction fields with
  | nil => rfl
  | cons f fields ih =>
    rw [pack_cons, map_cons, unpack, take_left' (length_leBytes _ _),
      drop_left' (length_leBytes _ _), leNat_leBytes_of_lt (h f mem_cons_self),
      ih fun f' hf' ↦ h f' (mem_cons_of_mem f hf'), map_cons]

end Edos

import Mathlib.Data.List.Basic
import Mathlib.Tactic.Ring

/-!
# Little-endian integers and fixed-width records in a byte buffer

The vocabulary of an on-disk format: integers stored least significant byte first, a record copied
into a buffer at an offset, and a table of equally wide records behind a common base. Writing is
`patch`, reading is `window`, and everything a format proof needs about the two is what a window
sees of a patch: itself, or the buffer underneath.

## Tables

`putRecords` and `getRecords` are the writing and the reading loop over a table. Both give up at
the first record that would leave the buffer, which is how a table silently loses its tail. The
point of stating `window_putRecords` slot by slot, and not as one round trip, is that the slots
past the end of the list are then known to be untouched, and a reader that stops at a terminator
needs exactly that.
-/

namespace Edos

open List Option

/-- Division that rounds up. -/
def divCeil (a b : ℕ) : ℕ := (a + (b - 1)) / b

/-! ## Little-endian integers -/

/-- The `n` low bytes of `v`, least significant first. -/
def leBytes : ℕ → ℕ → List UInt8
  | 0, _ => []
  | n + 1, v => UInt8.ofNat v :: leBytes n (v / 256)

/-- The integer a little-endian byte string denotes. -/
def leNat : List UInt8 → ℕ
  | [] => 0
  | b :: bs => b.toNat + 256 * leNat bs

@[simp] theorem length_leBytes (n v : ℕ) : (leBytes n v).length = n := by
  induction n generalizing v with
  | zero => rfl
  | succ n ih => rw [leBytes, length_cons, ih]

theorem leNat_leBytes (n v : ℕ) : leNat (leBytes n v) = v % 256 ^ n := by
  induction n generalizing v with
  | zero => rw [leBytes, leNat, pow_zero, Nat.mod_one]
  | succ n ih =>
    rw [leBytes, leNat, ih, pow_succ', Nat.mod_mul, UInt8.toNat_ofNat']

theorem leNat_leBytes_of_lt {n v : ℕ} (h : v < 256 ^ n) : leNat (leBytes n v) = v := by
  rw [leNat_leBytes, Nat.mod_eq_of_lt h]

theorem leNat_lt (bs : List UInt8) : leNat bs < 256 ^ bs.length := by
  induction bs with
  | nil => simp [leNat]
  | cons b bs ih =>
    have hb : b.toNat < 256 := b.toNat_lt
    rw [leNat, length_cons, pow_succ]
    omega

theorem leNat_replicate_zero (n : ℕ) : leNat (replicate n 0) = 0 := by
  induction n with
  | zero => rfl
  | succ n ih => rw [replicate_succ, leNat, ih]; rfl

theorem leBytes_leNat {bs : List UInt8} {n : ℕ}
    (h : bs.length = n) : leBytes n (leNat bs) = bs := by
  subst h
  induction bs with
  | nil => rfl
  | cons b bs ih =>
    have hb : b.toNat < 256 := b.toNat_lt
    have hhead : UInt8.ofNat (b.toNat + 256 * leNat bs) = b := by
      apply UInt8.toNat_inj.mp
      rw [UInt8.toNat_ofNat']
      omega
    rw [length_cons, leBytes, leNat, hhead,
      show (b.toNat + 256 * leNat bs) / 256 = leNat bs by omega, ih]

/-! ## Patches and windows -/

section Buffer

variable {α : Type*}

/-- Copy `bs` into `buf` at `off`, overwriting what was there. -/
def patch (buf : List α) (off : ℕ) (bs : List α) : List α :=
  buf.take off ++ bs ++ buf.drop (off + bs.length)

/-- The `n` elements of `buf` from `off` on. -/
def window (buf : List α) (off n : ℕ) : List α := (buf.drop off).take n

theorem flatMap_window (data : List α) (w n : ℕ) :
    ((range n).flatMap fun i ↦ window data (i * w) w) = data.take (n * w) := by
  induction n with
  | zero => rw [range_zero, flatMap_nil, zero_mul, take_zero]
  | succ n ih =>
    rw [range_succ, flatMap_append, ih, flatMap_singleton, window, Nat.succ_mul, take_add]

/-- Changes that a function does not see. -/
theorem map_modify_of_eq {β : Type*} {φ : α → β} {f : α → α} (hf : ∀ x, φ (f x) = φ x) (l : List α)
    (g : ℕ) : (l.modify g f).map φ = l.map φ := by
  refine ext_getElem? fun i ↦ ?_
  rw [getElem?_map, getElem?_map, getElem?_modify]
  split_ifs <;> cases l[i]? <;> simp [hf]

variable {n o off : ℕ} {buf bs : List α}

theorem length_patch (h : off + bs.length ≤ buf.length) :
    (patch buf off bs).length = buf.length := by
  rw [patch, length_append, length_append, length_take, length_drop]
  omega

theorem length_window (h : off + n ≤ buf.length) : (window buf off n).length = n := by
  rw [window, length_take, length_drop]
  omega

theorem getElem?_window (buf : List α) (off n i : ℕ) :
    (window buf off n)[i]? = if i < n then buf[off + i]? else none := by
  rw [window, getElem?_take, getElem?_drop]

theorem getElem?_patch (bs : List α) (h : off ≤ buf.length) (i : ℕ) :
    (patch buf off bs)[i]?
      = if i < off then buf[i]? else if i < off + bs.length then bs[i - off]? else buf[i]? := by
  rw [patch, append_assoc, getElem?_append, length_take, min_eq_left h]
  split_ifs with h1 h2
  · rw [getElem?_take_of_lt h1]
  · rw [getElem?_append_left (by omega)]
  · rw [getElem?_append_right (by omega), getElem?_drop]
    congr 1
    omega

theorem window_patch_self (h : off ≤ buf.length)
    (hn : bs.length = n) : window (patch buf off bs) off n = bs := by
  subst hn
  apply ext_getElem?
  intro i
  rw [getElem?_window, getElem?_patch bs h]
  by_cases hi : i < bs.length
  · rw [if_pos hi, if_neg (by omega), if_pos (by omega), Nat.add_sub_cancel_left]
  · rw [if_neg hi, getElem?_eq_none (by omega)]

theorem window_patch_of_disjoint (h : off ≤ buf.length)
    (hd : o + n ≤ off ∨ off + bs.length ≤ o) : window (patch buf off bs) o n = window buf o n := by
  apply ext_getElem?
  intro i
  rw [getElem?_window, getElem?_window, getElem?_patch bs h]
  by_cases hi : i < n
  · rw [if_pos hi, if_pos hi]
    rcases hd with hd | hd
    · rw [if_pos (by omega)]
    · rw [if_neg (by omega), if_neg (by omega)]
  · rw [if_neg hi, if_neg hi]

theorem window_window (buf : List α) {p m : ℕ} (h : p + m ≤ n) :
    window (window buf o n) p m = window buf (o + p) m := by
  apply ext_getElem?
  intro i
  rw [getElem?_window, getElem?_window, getElem?_window]
  by_cases hi : i < m
  · rw [if_pos hi, if_pos hi, if_pos (by omega), add_assoc]
  · rw [if_neg hi, if_neg hi]

theorem window_replicate {x : α} {N : ℕ} (h : o + n ≤ N) :
    window (replicate N x) o n = replicate n x := by
  rw [window, drop_replicate, take_replicate, min_eq_left (by omega)]

theorem patch_patch_self {bs' : List α} (h : off ≤ buf.length)
    (hlen : bs.length = bs'.length) : patch (patch buf off bs) off bs' = patch buf off bs' := by
  have htake : (patch buf off bs).take off = buf.take off := by
    rw [patch, append_assoc, take_left' (by rw [length_take, min_eq_left h])]
  have hdrop : (patch buf off bs).drop (off + bs'.length) = buf.drop (off + bs'.length) := by
    rw [patch, ← hlen, drop_left' (by
      rw [length_append, length_take, min_eq_left h])]
  rw [patch, htake, hdrop, patch]

theorem patch_window_self (h : off + n ≤ buf.length) : patch buf off (window buf off n) = buf := by
  rw [patch, length_window h, window, ← take_add, take_append_drop]

variable {a : List α}

theorem window_append_left {b : List α} (h : a.length = n) : window (a ++ b) 0 n = a := by
  rw [window, drop_zero, ← h, take_left]

theorem window_append_right {b : List α} (h : a.length ≤ o) :
    window (a ++ b) o n = window b (o - a.length) n := by
  rw [window, window, drop_append, drop_eq_nil_of_le h, nil_append]

theorem window_append_of_le (b : List α) (h : o + n ≤ a.length) :
    window (a ++ b) o n = window a o n := by
  rw [window, window, drop_append_of_le_length (by omega), take_append_of_le_length]
  rw [length_drop]
  omega

theorem window_append_add (a b : List α) (o n : ℕ) :
    window (a ++ b) (a.length + o) n = window b o n := by
  rw [window_append_right (Nat.le_add_right _ _), Nat.add_sub_cancel_left]

theorem patch_append_add (a b : List α) (o : ℕ) (bs : List α) :
    patch (a ++ b) (a.length + o) bs = a ++ patch b o bs := by
  rw [patch, patch, take_length_add_append, add_assoc, drop_length_add_append]
  simp only [append_assoc]

theorem patch_append_of_le (b : List α)
    (h : o + bs.length ≤ a.length) : patch (a ++ b) o bs = patch a o bs ++ b := by
  rw [patch, patch, take_append_of_le_length (by omega), drop_append_of_le_length h]
  simp only [append_assoc]

end Buffer

/-! ## Tables of records -/

section Records

variable {α : Type*}

/-- Write the records of a list into a table, from slot `i` on, giving up at the first one that
would leave the buffer. -/
def putRecords (width base size : ℕ) (enc : α → List UInt8) :
    List UInt8 → ℕ → List α → List UInt8
  | buf, _, [] => buf
  | buf, i, e :: es =>
    if size < base + i * width + width then buf
    else putRecords width base size enc (patch buf (base + i * width) (enc e)) (i + 1) es

/-- Read `n` records of a table from slot `i` on, giving up at the first one that would leave the
block or the buffer. -/
def getRecords (width base size : ℕ) (dec : List UInt8 → α) (buf : List UInt8) :
    ℕ → ℕ → List α
  | 0, _ => []
  | n + 1, i =>
    if size < base + i * width + width then []
    else if buf.length < base + i * width + width then []
    else dec (window buf (base + i * width) width) :: getRecords width base size dec buf n (i + 1)

/-- Read records from `off` on until one of them is a terminator. -/
def getRecordsUntil (width size : ℕ) (dec : List UInt8 → α) (stop : α → Bool)
    (buf : List UInt8) : ℕ → ℕ → List α
  | 0, _ => []
  | n + 1, off =>
    if off + width ≤ size ∧ off + width ≤ buf.length then
      if stop (dec (window buf off width)) then []
      else dec (window buf off width) :: getRecordsUntil width size dec stop buf n (off + width)
    else []

variable {width base size : ℕ} {enc : α → List UInt8} {dec : List UInt8 → α}

theorem length_putRecords (henc : ∀ e, (enc e).length = width) (es : List α) :
    ∀ {buf : List UInt8} {i : ℕ}, buf.length = size →
      (putRecords width base size enc buf i es).length = size := by
  induction es with
  | nil => intro buf i hbuf; exact hbuf
  | cons e es ih =>
    intro buf i hbuf
    rw [putRecords]
    split_ifs with hfull
    · exact hbuf
    · exact ih (by rw [length_patch (by rw [henc]; omega), hbuf])

/-- The table never reaches below the slot it starts at. -/
theorem window_putRecords_below (henc : ∀ e, (enc e).length = width) (es : List α) :
    ∀ {buf : List UInt8} {i o n : ℕ}, buf.length = size → o + n ≤ base + i * width →
      window (putRecords width base size enc buf i es) o n = window buf o n := by
  induction es with
  | nil => intro buf i o n _ _; rfl
  | cons e es ih =>
    intro buf i o n hbuf hlow
    rw [putRecords]
    split_ifs with hfull
    · rfl
    · have hnext : o + n ≤ base + (i + 1) * width := by rw [add_mul]; omega
      rw [ih (by rw [length_patch (by rw [henc]; omega), hbuf]) hnext,
        window_patch_of_disjoint (by omega) (Or.inl hlow)]

/-- **Slot by slot.** A slot of the table holds the record written to it, or else what the buffer
held before. -/
theorem window_putRecords (henc : ∀ e, (enc e).length = width) (es : List α) :
    ∀ {buf : List UInt8} {i j : ℕ}, buf.length = size → i ≤ j →
      base + j * width + width ≤ size →
      window (putRecords width base size enc buf i es) (base + j * width) width
        = (es[j - i]?.map enc).getD (window buf (base + j * width) width) := by
  induction es with
  | nil => intro buf i j _ _ _; rfl
  | cons e es ih =>
    intro buf i j hbuf hij hj
    have hmono : i * width ≤ j * width := Nat.mul_le_mul_right _ hij
    rw [putRecords, if_neg (by omega)]
    have hlen : (patch buf (base + i * width) (enc e)).length = size := by
      rw [length_patch (by rw [henc]; omega), hbuf]
    rcases Nat.eq_or_lt_of_le hij with rfl | hlt
    · rw [window_putRecords_below henc es hlen (by rw [add_mul]; omega), Nat.sub_self,
        getElem?_cons_zero, map_some, getD_some, window_patch_self (by omega) (henc e)]
    · have hstep : (i + 1) * width ≤ j * width := Nat.mul_le_mul_right _ hlt
      rw [ih hlen hlt hj, show j - i = (j - (i + 1)) + 1 by omega, getElem?_cons_succ,
        window_patch_of_disjoint (by omega) (Or.inr (by rw [henc]; rw [add_mul] at hstep; omega))]

/-- How many records a table of this shape has room for. -/
def recordCapacity (width base size : ℕ) : ℕ := (size - base) / width

theorem slot_fits_iff (hw : 0 < width) (j : ℕ) :
    base + j * width + width ≤ size ↔ j < recordCapacity width base size := by
  have hmul : (j + 1) * width = j * width + width := by ring
  rw [recordCapacity, ← Nat.succ_le_iff, Nat.succ_eq_add_one, Nat.le_div_iff_mul_le hw, hmul]
  omega

/-- The reading loop never returns more records than the table has slots. -/
theorem length_getRecords_le (hw : 0 < width) (buf : List UInt8) (n : ℕ) :
    ∀ i, (getRecords width base size dec buf n i).length ≤ recordCapacity width base size - i := by
  induction n with
  | zero => intro i; exact Nat.zero_le _
  | succ n ih =>
    intro i
    rw [getRecords]
    split_ifs with hfull hbuf
    · exact Nat.zero_le _
    · exact Nat.zero_le _
    · have hslot := (slot_fits_iff hw i).mp (Nat.not_lt.mp hfull)
      have hrest := ih (i + 1)
      rw [length_cons]
      omega

variable {buf : List UInt8}

/-- **The reading loop in closed form**: the slots from `i` on, as many as were asked for and the
table has. -/
theorem getRecords_eq_map (hw : 0 < width) (hbuf : buf.length = size) (n : ℕ) :
    ∀ i, getRecords width base size dec buf n i
      = (range' i (min n (recordCapacity width base size - i))).map
          fun j ↦ dec (window buf (base + j * width) width) := by
  induction n with
  | zero => intro i; simp [getRecords]
  | succ n ih =>
    intro i
    have hfit : base + i * width + width ≤ size ↔ i < recordCapacity width base size :=
      slot_fits_iff hw i
    rw [getRecords, hbuf]
    split_ifs with hfull
    · rw [show recordCapacity width base size - i = 0 by omega]
      simp
    · rw [ih, show min (n + 1) (recordCapacity width base size - i)
          = min n (recordCapacity width base size - (i + 1)) + 1 by omega,
        range'_succ, map_cons]

/-- What a table holds after writing `es` from its first slot into a buffer of zeros: the records
that fit, then whatever zeros decode to. -/
theorem getRecords_putRecords (hw : 0 < width) (henc : ∀ e, (enc e).length = width)
    {es : List α} (hdec : ∀ e ∈ es, dec (enc e) = e)
    (hbuf : buf.length = size)
    (hzero : ∀ j, j < recordCapacity width base size →
      window buf (base + j * width) width = replicate width 0) (n : ℕ) :
    getRecords width base size dec (putRecords width base size enc buf 0 es) n 0
      = (es.take (min n (recordCapacity width base size))) ++
        replicate (min n (recordCapacity width base size) - es.length)
          (dec (replicate width 0)) := by
  rw [getRecords_eq_map hw (length_putRecords henc es hbuf), Nat.sub_zero]
  apply ext_getElem?
  intro j
  rw [getElem?_map, getElem?_append, length_take, getElem?_take]
  by_cases hj : j < min n (recordCapacity width base size)
  · have hfit : base + j * width + width ≤ size := (slot_fits_iff hw j).mpr (by omega)
    rw [getElem?_range' hj, zero_add, one_mul, map_some,
      window_putRecords henc es hbuf (Nat.zero_le j) hfit, Nat.sub_zero, hzero j (by omega)]
    by_cases hlen : j < es.length
    · rw [if_pos (by omega), if_pos hj, getElem?_eq_getElem hlen, map_some,
        getD_some, hdec _ (getElem_mem hlen)]
    · rw [if_neg (by omega), getElem?_eq_none (by omega), map_none, getD_none,
        getElem?_replicate, if_pos (by omega)]
  · rw [getElem?_eq_none (by simp; omega), map_none]
    split_ifs with hlt
    · omega
    · rw [getElem?_replicate, if_neg (by omega)]

/-- Reading up to a terminator is reading everything and cutting at the terminator. -/
theorem getRecordsUntil_eq_takeWhile (width base size : ℕ) (dec : List UInt8 → α) (stop : α → Bool)
    (buf : List UInt8) (n : ℕ) :
    ∀ i, getRecordsUntil width size dec stop buf n (base + i * width)
      = (getRecords width base size dec buf n i).takeWhile fun e ↦ !stop e := by
  induction n with
  | zero => intro i; rfl
  | succ n ih =>
    intro i
    rw [getRecordsUntil, getRecords]
    by_cases hsize : size < base + i * width + width
    · rw [if_neg (by omega), if_pos hsize, takeWhile_nil]
    · by_cases hlen : buf.length < base + i * width + width
      · rw [if_neg (by omega), if_neg hsize, if_pos hlen, takeWhile_nil]
      · rw [if_pos (by omega), if_neg hsize, if_neg hlen, takeWhile_cons,
          show base + i * width + width = base + (i + 1) * width by ring, ih]
        cases stop (dec (window buf (base + i * width) width)) <;> rfl

end Records

end Edos

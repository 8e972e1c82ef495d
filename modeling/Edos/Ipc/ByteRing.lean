import Edos.Lib.Bytes

/-!
# The byte ring

`ByteRing` is a queue of bytes in a buffer that is read and written around its end. The live bytes
are the `len` bytes from `head` on; what they are, in order, is `contents`. A push that does not
fit lays the live bytes out again, in a buffer whose size is doubled until it is large enough.

Slot `i` of the queue is at `index i` of the buffer, which wraps at most once. `push` and `pop` are
compared with the queue slot by slot.
-/

namespace Edos.Ipc

open List

/-- `ByteRing`. The length of the buffer is the capacity. -/
structure ByteRing where
  ring : List UInt8
  head : ℕ
  len : ℕ
  head_lt : head = 0 ∨ head < ring.length
  len_le : len ≤ ring.length

namespace ByteRing

def minCapacity : ℕ := 4096

def new : ByteRing := ⟨[], 0, 0, .inl rfl, le_rfl⟩

/-- `capacity`. -/
def capacity (r : ByteRing) : ℕ := r.ring.length

/-- `is_empty`. -/
def isEmpty (r : ByteRing) : Bool := r.len = 0

/-- `slices`: the live bytes, as the one or two runs they are in. -/
def slices (r : ByteRing) : List UInt8 × List UInt8 :=
  if r.len = 0 then ([], [])
  else if r.head + r.len ≤ r.capacity then (window r.ring r.head r.len, [])
  else (r.ring.drop r.head, r.ring.take (r.head + r.len - r.capacity))

/-- The live bytes in order. -/
def contents (r : ByteRing) : List UInt8 := r.slices.1 ++ r.slices.2

/-- Where slot `i` of the queue is in the buffer. -/
def index (r : ByteRing) (i : ℕ) : ℕ :=
  if r.head + i < r.capacity then r.head + i else r.head + i - r.capacity

/-- The loop of `grow_for`: twice the capacity, until there is enough. -/
def doubled (needed capacity : ℕ) : ℕ :=
  if 0 < capacity ∧ capacity < needed then doubled needed (capacity * 2) else capacity
termination_by needed - capacity

theorem le_doubled (needed : ℕ) {capacity : ℕ} (h : 0 < capacity) :
    needed ≤ doubled needed capacity := by
  fun_induction doubled needed capacity with
  | case1 capacity hshort ih => exact ih (by omega)
  | case2 capacity henough => omega

theorem getElem?_contents (r : ByteRing) (i : ℕ) :
    r.contents[i]? = if i < r.len then r.ring[r.index i]? else none := by
  have hhead := r.head_lt
  rw [contents, slices, index, capacity]
  by_cases hzero : r.len = 0
  · rw [if_pos hzero, if_neg (by omega)]
    rfl
  split_ifs with hrun hi hwrap hi' hwrap'
  · rw [append_nil, getElem?_window, if_pos hi]
  · omega
  · rw [append_nil, getElem?_window, if_neg hi]
  all_goals dsimp only
  all_goals rw [getElem?_append, length_drop, getElem?_drop, getElem?_take]
  · rw [if_pos (by omega)]
  · rw [if_neg (by omega), if_pos (by omega)]
    congr 1
    omega
  · rw [if_neg (by omega), if_neg (by omega)]

@[simp]
theorem length_contents (r : ByteRing) : r.contents.length = r.len := by
  have hlen := r.len_le
  rw [contents, slices, capacity]
  split_ifs with hzero hrun
  · exact hzero.symm
  · rw [append_nil, length_window]
    omega
  · have := r.head_lt
    rw [length_append, length_drop, length_take]
    omega

/-- The buffer `grow_for` lays the live bytes out in. -/
def relaid (r : ByteRing) (capacity : ℕ) : List UInt8 :=
  patch (replicate capacity 0) 0 r.contents

variable {r : ByteRing} {i : ℕ} {data : List UInt8}

theorem length_relaid {capacity : ℕ} (h : r.len ≤ capacity) :
    (r.relaid capacity).length = capacity := by
  rw [relaid, length_patch, length_replicate]
  rwa [length_contents, length_replicate, Nat.zero_add]

/-- The capacity `grow_for` settles on for `needed` bytes. -/
def grown (r : ByteRing) (needed : ℕ) : ℕ := doubled needed (max r.capacity minCapacity)

theorem le_grown (r : ByteRing) (needed : ℕ) : needed ≤ r.grown needed :=
  le_doubled needed (lt_max_of_lt_right (by decide : 0 < minCapacity))

/-- `grow_for`: make room for `extra` more bytes. -/
def growFor (r : ByteRing) (extra : ℕ) : ByteRing :=
  if r.len + extra ≤ r.capacity then r
  else
    { ring := r.relaid (r.grown (r.len + extra))
      head := 0
      len := r.len
      head_lt := .inl rfl
      len_le := by
        have := r.le_grown (r.len + extra)
        rw [length_relaid (by omega)]
        omega }

theorem contents_of_head_eq_zero (h : r.head = 0) : r.contents = window r.ring 0 r.len := by
  have hlen := r.len_le
  rw [contents, slices, h, capacity, Nat.zero_add]
  split_ifs with hzero
  · rw [hzero]
    rfl
  · exact append_nil _

theorem contents_growFor (r : ByteRing) (extra : ℕ) : (r.growFor extra).contents = r.contents := by
  rw [growFor]
  split_ifs with henough
  · rfl
  · rw [contents_of_head_eq_zero rfl]
    exact window_patch_self (Nat.zero_le _) r.length_contents

theorem le_capacity_growFor (r : ByteRing) (extra : ℕ) :
    r.len + extra ≤ (r.growFor extra).capacity := by
  rw [growFor]
  split_ifs with henough
  · exact henough
  · have := r.le_grown (r.len + extra)
    rw [capacity, length_relaid (by omega)]
    exact this

@[simp]
theorem len_growFor (r : ByteRing) (extra : ℕ) : (r.growFor extra).len = r.len := by
  rw [growFor]
  split_ifs <;> rfl

/-- What `push` copies into a ring that has room: a run at the tail and, if that reaches the end
of the buffer, a run at its start. -/
def copyIn (r : ByteRing) (data : List UInt8) : List UInt8 :=
  let tail := (r.head + r.len) % r.capacity
  let first := min data.length (r.capacity - tail)
  let ring := patch r.ring tail (data.take first)
  if first < data.length then patch ring 0 (data.drop first) else ring

theorem tail_eq (hroom : r.len < r.capacity) : (r.head + r.len) % r.capacity = r.index r.len := by
  have hhead := r.head_lt
  rw [index]
  rw [capacity] at hroom ⊢
  split_ifs with hrun
  · exact Nat.mod_eq_of_lt hrun
  · rw [Nat.mod_eq_sub_mod (by omega), Nat.mod_eq_of_lt (by omega)]

theorem index_lt (hi : i < r.capacity) : r.index i < r.capacity := by
  have hhead := r.head_lt
  rw [index]
  rw [capacity] at hi ⊢
  split_ifs <;> omega

theorem length_firstRun {tail : ℕ} (htail : tail ≤ r.capacity) (data : List UInt8) :
    (patch r.ring tail (data.take (min data.length (r.capacity - tail)))).length = r.capacity := by
  rw [capacity] at htail ⊢
  refine length_patch ?_
  rw [length_take]
  omega

theorem length_copyIn
    (hroom : r.len + data.length ≤ r.capacity) : (r.copyIn data).length = r.capacity := by
  have htail : (r.head + r.len) % r.capacity ≤ r.capacity := by
    rcases Nat.eq_zero_or_pos r.capacity with hnone | hpos
    · have hhead := r.head_lt
      rw [capacity] at hnone hroom ⊢
      rw [hnone, Nat.mod_zero]
      omega
    · exact (Nat.mod_lt _ hpos).le
  rw [copyIn]
  split_ifs
  · rw [length_patch, length_firstRun htail]
    rw [length_firstRun htail, length_drop]
    omega
  · exact length_firstRun htail data

/-- `push`. -/
def push (r : ByteRing) (data : List UInt8) : ByteRing :=
  if data = [] then r
  else
    { ring := (r.growFor data.length).copyIn data
      head := (r.growFor data.length).head
      len := (r.growFor data.length).len + data.length
      head_lt := by
        rw [length_copyIn (by rw [len_growFor]; exact r.le_capacity_growFor _)]
        exact (r.growFor data.length).head_lt
      len_le := by
        rw [length_copyIn (by rw [len_growFor]; exact r.le_capacity_growFor _), len_growFor]
        exact r.le_capacity_growFor _ }

/-- A slot of the buffer after the copy: the new bytes are in the slots after the live ones. -/
theorem getElem?_copyIn (hdata : data ≠ []) (hroom : r.len + data.length ≤ r.capacity)
    (hi : i < r.capacity) :
    (r.copyIn data)[r.index i]?
      = if i < r.len then r.ring[r.index i]?
        else if i < r.len + data.length then data[i - r.len]? else r.ring[r.index i]? := by
  have hpos : 0 < data.length := length_pos_iff.mpr hdata
  have hhead := r.head_lt
  have htail := index_lt (show r.len < r.capacity by omega)
  rw [copyIn, tail_eq (by omega)]
  rw [capacity] at hi htail hroom
  split_ifs with hwrap hold hnew hold hnew
  all_goals
    first
    | rw [getElem?_patch _ (Nat.zero_le _), getElem?_patch _ htail.le]
    | rw [getElem?_patch _ htail.le]
  all_goals simp only [length_take, length_drop, index, capacity] at hwrap ⊢
  -- the slot is a live one, a new one of either run, or neither
  all_goals grind

@[simp]
theorem len_push (r : ByteRing) (data : List UInt8) : (r.push data).len = r.len + data.length := by
  rw [push]
  split_ifs with hnone
  · rw [hnone]
    rfl
  · exact congrArg (· + data.length) (r.len_growFor data.length)

theorem push_ring (hdata : data ≠ []) :
    (r.push data).ring = (r.growFor data.length).copyIn data := by
  rw [push, if_neg hdata]

theorem index_push (hdata : data ≠ []) (i : ℕ) :
    (r.push data).index i = (r.growFor data.length).index i := by
  have hlength : (r.push data).capacity = (r.growFor data.length).capacity := by
    rw [capacity, push_ring hdata, length_copyIn]
    rw [len_growFor]
    exact r.le_capacity_growFor _
  have hhead : (r.push data).head = (r.growFor data.length).head := by
    rw [push, if_neg hdata]
  rw [index, index, hlength, hhead]

/-- **A push appends**: the queue after it is the queue before it, then the bytes pushed. -/
theorem contents_push (r : ByteRing) (data : List UInt8) :
    (r.push data).contents = r.contents ++ data := by
  by_cases hnone : data = []
  · rw [push, if_pos hnone, hnone, append_nil]
  have hroom : (r.growFor data.length).len + data.length ≤ (r.growFor data.length).capacity := by
    rw [len_growFor]
    exact r.le_capacity_growFor _
  refine ext_getElem? fun i ↦ ?_
  rw [getElem?_contents, len_push, getElem?_append, length_contents,
    ← r.contents_growFor data.length, getElem?_contents, push_ring hnone, index_push hnone]
  by_cases hi : i < r.len + data.length
  · rw [getElem?_copyIn hnone hroom (by rw [len_growFor] at hroom; omega), len_growFor, if_pos hi]
    by_cases hold : i < r.len
    · rw [if_pos hold, if_pos hold, if_pos hold]
    · rw [if_neg hold, if_neg hold, if_pos hi]
  · rw [if_neg hi, if_neg (by omega), getElem?_eq_none (by omega)]

/-- What `pop` takes from the front of a ring, at most `n` bytes: the run from the head and, if
that reaches the end of the buffer, a run from its start. -/
def copyOut (r : ByteRing) (n : ℕ) : List UInt8 :=
  let taken := min n r.len
  let first := min taken (r.capacity - r.head)
  window r.ring r.head first ++ if first < taken then r.ring.take (taken - first) else []

/-- The ring once `taken` bytes have left its front. A drained ring restarts at zero. -/
def advance (r : ByteRing) (taken : ℕ) : ByteRing where
  ring := r.ring
  head := if r.len - taken = 0 then 0 else (r.head + taken) % r.capacity
  len := r.len - taken
  head_lt := by
    split_ifs with hdrained
    · exact .inl rfl
    · exact .inr (Nat.mod_lt _ (by have := r.len_le; rw [capacity]; omega))
  len_le := (Nat.sub_le _ _).trans r.len_le

/-- `pop`: up to `n` bytes move out, `n` the length of the buffer they are moved to. -/
def pop (r : ByteRing) (n : ℕ) : List UInt8 × ByteRing :=
  let taken := min n r.len
  if taken = 0 then ([], r) else (r.copyOut n, r.advance taken)

theorem copyOut_eq (r : ByteRing) (n : ℕ) : r.copyOut n = r.contents.take n := by
  have hhead := r.head_lt
  refine ext_getElem? fun i ↦ ?_
  rw [copyOut, getElem?_take, getElem?_contents, index, getElem?_append, length_window,
    getElem?_window, capacity]
  · grind
  · rw [capacity]
    omega

theorem index_advance {taken : ℕ} (hi : taken + i < r.len) :
    (r.advance taken).index i = r.index (taken + i) := by
  have hhead := r.head_lt
  have hlen := r.len_le
  have hnext : (r.advance taken).head
      = if r.head + taken < r.capacity then r.head + taken
        else r.head + taken - r.capacity := by
    have hlive : (r.advance taken).head = (r.head + taken) % r.capacity := if_neg (by omega)
    rw [hlive, capacity]
    split_ifs with hrun
    · exact Nat.mod_eq_of_lt hrun
    · rw [Nat.mod_eq_sub_mod (by omega), Nat.mod_eq_of_lt (by omega)]
  rw [index, index, hnext, show (r.advance taken).capacity = r.capacity from rfl, capacity]
  split_ifs <;> omega

/-- **A pop takes from the front.** -/
theorem pop_eq (r : ByteRing) (n : ℕ) :
    (r.pop n).1 = r.contents.take n ∧ (r.pop n).2.contents = r.contents.drop n := by
  rw [pop]
  split_ifs with hnone
  · rcases Nat.eq_zero_or_pos n with rfl | hn
    · exact ⟨rfl, rfl⟩
    · have hempty : r.contents = [] := length_eq_zero_iff.mp (by rw [length_contents]; omega)
      rw [hempty]
      exact ⟨take_nil.symm, drop_nil.symm⟩
  · refine ⟨r.copyOut_eq n, ext_getElem? fun i ↦ ?_⟩
    rw [getElem?_contents, getElem?_drop, getElem?_contents,
      show (r.advance (min n r.len)).len = r.len - min n r.len from rfl]
    by_cases hi : i < r.len - min n r.len
    · rw [if_pos hi, if_pos (by omega), index_advance (by omega), Nat.min_eq_left (by omega)]
      rfl
    · rw [if_neg hi, if_neg (by omega)]

end ByteRing

end Edos.Ipc

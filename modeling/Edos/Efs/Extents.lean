import Mathlib.Algebra.Ring.Nat

/-!
# Extent maps

A file's block map is a list of extents, sorted by logical block: runs of blocks that are contiguous
in the file and on the device. This is the in-memory form; how it is stored in the inode, or in a
tree of nodes behind it, is left out.

Directories grow by one block at their end and never shrink, so their maps have no holes. For such a
map (`Dense`) the list of physical blocks says all there is to know, and adding a block to the file
adds it to that list.
-/

namespace Edos

open List Option

/-- A run of blocks. The physical start is stored in 48 bits. -/
structure EfsExtent where
  logicalBlock : ℕ
  length : ℕ
  physicalStart : ℕ
  deriving DecidableEq

/-- `u16::MAX >> 1`: how long an extent may become. -/
def maxExtentLength : ℕ := 32767

/-- `max_extents` for blocks of 4 KiB: thirteen index entries, each with a leaf of 340. -/
def maxExtents : ℕ := 13 * 340

/-- A file's block map. -/
abbrev ExtentMap := List EfsExtent

namespace ExtentMap

/-- `partition_point` for the extents that start at or before a block. -/
def partitionPoint (m : ExtentMap) (logicalBlock : ℕ) : ℕ :=
  (m.takeWhile fun e ↦ e.logicalBlock ≤ logicalBlock).length

/-- The extent just before a position. -/
def before (m : ExtentMap) (pos : ℕ) : Option EfsExtent := if 0 < pos then m[pos - 1]? else none

def blockCount (m : ExtentMap) : ℕ := (m.map EfsExtent.length).sum

/-- `lookup`. The binary search ends at the last extent that starts at or before the block. -/
def lookup (m : ExtentMap) (logicalBlock : ℕ) : Option ℕ :=
  (m.before (m.partitionPoint logicalBlock)).bind fun e ↦
    if logicalBlock < e.logicalBlock + e.length then
      some (e.physicalStart + (logicalBlock - e.logicalBlock))
    else none

/-- Fuse an extent with its successor when the two have become adjacent. -/
def mergeForward (m : ExtentMap) (i : ℕ) : ExtentMap :=
  match m[i]?, m[i + 1]? with
  | some cur, some next =>
    if cur.logicalBlock + cur.length = next.logicalBlock ∧
        cur.physicalStart + cur.length = next.physicalStart ∧
        cur.length + next.length ≤ maxExtentLength then
      (m.set i { cur with length := cur.length + next.length }).eraseIdx (i + 1)
    else m
  | _, _ => m

/-- Record a block: extend the extent before it or the one after it, or insert a new one. -/
def insert (m : ExtentMap) (logicalBlock physBlock : ℕ) : ExtentMap :=
  let pos := m.partitionPoint logicalBlock
  match (m.before pos).filter fun prev ↦ prev.logicalBlock + prev.length = logicalBlock ∧
      prev.physicalStart + prev.length = physBlock ∧ prev.length < maxExtentLength with
  | some prev => mergeForward (m.set (pos - 1) { prev with length := prev.length + 1 }) (pos - 1)
  | none =>
    match (m[pos]?).filter fun next ↦ logicalBlock + 1 = next.logicalBlock ∧
        physBlock + 1 = next.physicalStart ∧ next.length < maxExtentLength with
    | some next =>
      let m := m.set pos ⟨logicalBlock, next.length + 1, physBlock % 2 ^ 48⟩
      if 0 < pos then mergeForward m (pos - 1) else m
    | none => m.insertIdx pos ⟨logicalBlock, 1, physBlock % 2 ^ 48⟩

/-! ## Maps without holes -/

/-- The physical blocks, in the order of the file. -/
def physical (m : ExtentMap) : List ℕ := m.flatMap fun e ↦ range' e.physicalStart e.length

/-- The extents cover the file from the given block on, one after the other. -/
def Dense : ℕ → ExtentMap → Prop
  | _, [] => True
  | k, e :: es =>
    e.logicalBlock = k ∧ 0 < e.length ∧ e.length ≤ maxExtentLength ∧ Dense (k + e.length) es

@[simp] theorem blockCount_cons (e : EfsExtent) (es : ExtentMap) :
    blockCount (e :: es) = e.length + blockCount es := by
  rw [blockCount, map_cons, sum_cons, blockCount]

@[simp] theorem blockCount_append (es es' : ExtentMap) :
    blockCount (es ++ es') = blockCount es + blockCount es' := by
  rw [blockCount, map_append, sum_append, blockCount, blockCount]

theorem physical_cons (e : EfsExtent) (es : ExtentMap) :
    physical (e :: es) = range' e.physicalStart e.length ++ physical es := flatMap_cons

theorem physical_append (es es' : ExtentMap) :
    physical (es ++ es') = physical es ++ physical es' := flatMap_append

@[simp] theorem length_physical (m : ExtentMap) : (physical m).length = m.blockCount := by
  induction m with
  | nil => rfl
  | cons e es ih => rw [physical_cons, length_append, length_range', ih, blockCount_cons]

variable {i k : ℕ} {m : ExtentMap}

theorem dense_append {es es' : ExtentMap} :
    Dense k (es ++ es') ↔ Dense k es ∧ Dense (k + blockCount es) es' := by
  induction es generalizing k with
  | nil => exact (and_iff_right trivial).symm
  | cons e es ih =>
    rw [cons_append, Dense, Dense, ih, blockCount_cons, add_assoc]
    simp only [and_assoc]

theorem Dense.blockCount_le (h : Dense k m) : m.blockCount ≤ m.length * maxExtentLength := by
  induction m generalizing k with
  | nil => exact Nat.zero_le _
  | cons e es ih =>
    obtain ⟨-, -, hlen, hes⟩ := h
    have := ih hes
    rw [blockCount_cons, length_cons, Nat.succ_mul]
    omega

theorem partitionPoint_cons {e : EfsExtent} (es : ExtentMap) (h : e.logicalBlock ≤ i) :
    partitionPoint (e :: es) i = partitionPoint es i + 1 := by
  rw [partitionPoint, takeWhile_cons_of_pos (by simpa using h), length_cons, partitionPoint]

theorem Dense.partitionPoint_of_lt (h : Dense k m) (hi : i < k) : m.partitionPoint i = 0 := by
  cases m with
  | nil => rfl
  | cons e es =>
    obtain ⟨rfl, -⟩ := h
    rw [partitionPoint, takeWhile_cons_of_neg (by simpa using hi), length_nil]

theorem Dense.partitionPoint_end (h : Dense k m)
    (hi : k + m.blockCount ≤ i) : m.partitionPoint i = m.length := by
  induction m generalizing k with
  | nil => rfl
  | cons e es ih =>
    obtain ⟨rfl, -, -, hes⟩ := h
    rw [blockCount_cons] at hi
    rw [partitionPoint_cons es (by omega), ih hes (by omega), length_cons]

/-- **Looking a block up** in a map without holes. -/
theorem Dense.lookup_eq (h : Dense k m) (hi : k ≤ i) : m.lookup i = m.physical[i - k]? := by
  induction m generalizing k with
  | nil => rfl
  | cons e es ih =>
    obtain ⟨rfl, hpos, -, hes⟩ := h
    rw [lookup, partitionPoint_cons es hi, before, if_pos (Nat.succ_pos _), Nat.add_sub_cancel,
      physical_cons]
    by_cases hlt : i < e.logicalBlock + e.length
    · rw [hes.partitionPoint_of_lt hlt, getElem?_cons_zero, bind_some, if_pos hlt,
        getElem?_append_left (by rw [length_range']; omega), getElem?_range' (by omega), one_mul]
    · rw [getElem?_append_right (by rw [length_range']; omega), length_range']
      have hrest := ih hes (Nat.not_lt.mp hlt)
      rw [lookup, before] at hrest
      rcases Nat.eq_zero_or_pos (partitionPoint es i) with hzero | hes'
      · rw [hzero, if_neg (Nat.lt_irrefl 0), bind_none] at hrest
        rw [hzero, getElem?_cons_zero, bind_some, if_neg hlt, hrest]
        congr 1
        omega
      · rw [if_pos hes'] at hrest
        obtain ⟨p, hp⟩ := Nat.exists_eq_succ_of_ne_zero (Nat.ne_of_gt hes')
        rw [hp, Nat.succ_eq_add_one, Nat.add_sub_cancel] at hrest
        rw [hp, Nat.succ_eq_add_one, getElem?_cons_succ, hrest]
        congr 1
        omega

theorem mergeForward_last (m : ExtentMap) (h : m.length ≤ i + 1) : m.mergeForward i = m := by
  rw [mergeForward, getElem?_eq_none (i := i + 1) h]
  cases m[i]? <;> rfl

/-- **Adding a block at the end** of a map without holes. -/
theorem Dense.insert_end (h : Dense 0 m) {phys : ℕ} (hphys : phys < 2 ^ 48) :
    Dense 0 (m.insert m.blockCount phys) ∧
      (m.insert m.blockCount phys).physical = m.physical ++ [phys] := by
  have hpos := h.partitionPoint_end (Nat.le_of_eq (zero_add m.blockCount))
  have hnew : Dense 0 (m ++ [⟨m.blockCount, 1, phys % 2 ^ 48⟩]) ∧
      physical (m ++ [⟨m.blockCount, 1, phys % 2 ^ 48⟩]) = m.physical ++ [phys] := by
    refine ⟨dense_append.mpr ⟨h, (zero_add _).symm, Nat.one_pos,
      (by decide : 1 ≤ maxExtentLength), trivial⟩, ?_⟩
    rw [physical_append, Nat.mod_eq_of_lt hphys]
    rfl
  rcases eq_nil_or_concat m with rfl | ⟨es, e, rfl⟩
  · exact hnew
  · rw [concat_eq_append] at h hpos hnew ⊢
    have hlast : (es ++ [e])[(es ++ [e]).length - 1]? = some e := by simp
    have hnext : (es ++ [e])[(es ++ [e]).length]? = none := getElem?_eq_none (Nat.le_refl _)
    simp only [insert, hpos, before, hlast, hnext, insertIdx_length_self]
    rw [if_pos (by simp)]
    obtain ⟨hes, hlogical, hlen, -, -⟩ := dense_append.mp h
    by_cases hext : e.logicalBlock + e.length = blockCount (es ++ [e]) ∧
        e.physicalStart + e.length = phys ∧ e.length < maxExtentLength
    · have hset : (es ++ [e]).set ((es ++ [e]).length - 1) { e with length := e.length + 1 }
          = es ++ [{ e with length := e.length + 1 }] := by simp
      rw [filter_some_pos (by simpa using hext)]
      dsimp only
      rw [hset, mergeForward_last _ (by simp)]
      refine ⟨dense_append.mpr ⟨hes, hlogical, Nat.succ_pos _, hext.2.2, trivial⟩, ?_⟩
      rw [physical_append, physical_append, append_assoc]
      rw [physical_cons, physical_cons, ← hext.2.1]
      simp [physical, range'_concat]
    · rw [filter_some_neg (by simpa using hext)]
      exact hnew

end ExtentMap

end Edos

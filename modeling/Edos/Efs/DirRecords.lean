import Edos.Lib.Bytes

/-!
# Directory records

A directory is a sequence of blocks, each of them divided into records: a header of twelve bytes, a
name, and padding up to the length that the header gives. A record whose inode number is 0 is free.

The driver never parses a directory into records. It loads all blocks into one flat buffer and goes
from header to header, for reading as well as for changing. This file has these loops and edits on
bytes, as they are in the driver, and what they mean for a buffer that is a sequence of records.

## The start of a block

`find_prev_entry_len` looks for the record that ends at a given offset, from the start of the block
that contains this offset on. If the offset is itself the start of a block, it looks in the block
after the one in which the record is, and finds nothing. `remove_dir_entry` then takes the record it
removes for the one before it, and doubles its length (`removeAt_block_start`).
-/

namespace Edos

open List Option

/-! ## On disk -/

def dirEntryHeaderSize : ℕ := 12

/-- The fixed part of a record. -/
structure EfsDirEntryHeader where
  inode : UInt64
  recLen : ℕ
  nameLen : UInt8
  fileType : UInt8
  deriving DecidableEq

namespace EfsDirEntryHeader

def toBytes (h : EfsDirEntryHeader) : List UInt8 :=
  leBytes 8 h.inode.toNat ++ leBytes 2 h.recLen ++ [h.nameLen, h.fileType]

def ofBytes (bs : List UInt8) : EfsDirEntryHeader where
  inode := UInt64.ofNat (leNat (window bs 0 8))
  recLen := leNat (window bs 8 2)
  nameLen := (window bs 10 1).headD 0
  fileType := (window bs 11 1).headD 0

@[simp] theorem length_toBytes (h : EfsDirEntryHeader) : h.toBytes.length = dirEntryHeaderSize := by
  simp [toBytes, dirEntryHeaderSize]

theorem ofBytes_toBytes {h : EfsDirEntryHeader} (hlen : h.recLen < 65536) :
    ofBytes h.toBytes = h := by
  have hinode : window h.toBytes 0 8 = leBytes 8 h.inode.toNat := rfl
  have hrec : window h.toBytes 8 2 = leBytes 2 h.recLen := rfl
  have hname : window h.toBytes 10 1 = [h.nameLen] := rfl
  have htype : window h.toBytes 11 1 = [h.fileType] := rfl
  rw [ofBytes, hinode, hrec, hname, htype, leNat_leBytes_of_lt h.inode.toNat_lt,
    leNat_leBytes_of_lt (n := 2) hlen]
  simp

theorem patch_recLen (h : EfsDirEntryHeader) (n : ℕ) :
    patch h.toBytes 8 (leBytes 2 n) = { h with recLen := n }.toBytes := rfl

theorem patch_inode (h : EfsDirEntryHeader) :
    patch h.toBytes 0 (replicate 8 0) = { h with inode := 0 }.toBytes := by
  have hzero : leBytes 8 (0 : UInt64).toNat = replicate 8 0 := by decide
  rw [toBytes, toBytes, hzero, append_assoc, patch_append_of_le _ (by simp), patch,
    drop_eq_nil_of_le (by simp), take_zero, nil_append, append_nil, append_assoc]

end EfsDirEntryHeader

/-- `dir_entry_min_size`: the header and the name, up to the next multiple of four. -/
def dirEntryMinSize (nameLen : UInt8) : ℕ := (dirEntryHeaderSize + nameLen.toNat + 3) / 4 * 4

theorem add_le_dirEntryMinSize (nameLen : UInt8) :
    dirEntryHeaderSize + nameLen.toNat ≤ dirEntryMinSize nameLen := by
  rw [dirEntryMinSize]
  omega

theorem dirEntryMinSize_le (nameLen : UInt8) : dirEntryMinSize nameLen ≤ 268 := by
  have h := nameLen.toNat_lt
  rw [dirEntryMinSize, dirEntryHeaderSize]
  omega

/-- The bytes of a name. -/
def nameBytes (name : String) : List UInt8 := name.toByteArray.data.toList

def fromUtf8 (bs : List UInt8) : Option String := String.fromUTF8? ⟨bs.toArray⟩

theorem fromUtf8_nameBytes (name : String) : fromUtf8 (nameBytes name) = some name := by
  rw [fromUtf8, nameBytes, Array.toArray_toList, String.fromUTF8?, dif_pos name.isValidUTF8]
  rfl

theorem nameBytes_inj {name name' : String} (h : nameBytes name = nameBytes name') :
    name = name' := by
  have hsome := congrArg fromUtf8 h
  rw [fromUtf8_nameBytes, fromUtf8_nameBytes] at hsome
  exact some.inj hsome

/-! ## The driver's loops -/

/-- Why an operation did not return a value. -/
inductive FsError where
  | fileNotFound
  | notADir
  | notAFile
  | noSpace
  | corrupted
  | unsupported
  | invalidArgument
  | linkEscape
  | tooManyLinks
  | io
  deriving DecidableEq

/-- The outcomes other than a value. The kernel checks slice bounds and overflow. -/
inductive Fault where
  | panic
  | error (e : FsError)
  deriving DecidableEq

def headerAt (data : List UInt8) (off : ℕ) : EfsDirEntryHeader :=
  .ofBytes (window data off dirEntryHeaderSize)

/-- The records that a loop over the buffer visits from `off` on. The readers also stop at a record
that ends behind the buffer (`bounded`); the two loops that look for a place to change do not. Each
round goes on by at least a header, so a fuel of the buffer's length is enough. -/
def walk (bounded : Bool) (data : List UInt8) : ℕ → ℕ → List (ℕ × EfsDirEntryHeader)
  | 0, _ => []
  | fuel + 1, off =>
    if off + dirEntryHeaderSize ≤ data.length then
      let hdr := headerAt data off
      if hdr.recLen < dirEntryHeaderSize ∨ (bounded ∧ data.length < off + hdr.recLen) then []
      else (off, hdr) :: walk bounded data fuel (off + hdr.recLen)
    else []

/-- `parse_dir_entries_from_bytes`. -/
def parseDirEntriesFromBytes (data : List UInt8) : List (String × UInt64 × UInt8) :=
  (walk true data data.length 0).filterMap fun (off, hdr) ↦
    if hdr.inode ≠ 0 ∧ off + dirEntryHeaderSize + hdr.nameLen.toNat ≤ data.length then
      (fromUtf8 (window data (off + dirEntryHeaderSize) hdr.nameLen.toNat)).map
        fun name ↦ (name, hdr.inode, hdr.fileType)
    else none

/-- The loop of `lookup_in_dir`. -/
def lookupInData (data : List UInt8) (name : String) : Option (UInt64 × UInt8) :=
  (walk true data data.length 0).findSome? fun (off, hdr) ↦
    if hdr.inode ≠ 0 ∧ hdr.nameLen.toNat = (nameBytes name).length ∧
        off + dirEntryHeaderSize + hdr.nameLen.toNat ≤ data.length ∧
        window data (off + dirEntryHeaderSize) hdr.nameLen.toNat = nameBytes name then
      some (hdr.inode, hdr.fileType)
    else none

/-- `write_dir_entry`. The header is written byte by byte, the name only if it fits. -/
def writeDirEntry (buf : List UInt8) (inode : UInt64) (recLen : ℕ) (nameLen fileType : UInt8)
    (name : List UInt8) : Except Fault (List UInt8) :=
  if buf.length < dirEntryHeaderSize then .error .panic
  else
    let buf := patch buf 0 (EfsDirEntryHeader.toBytes ⟨inode, recLen, nameLen, fileType⟩)
    if dirEntryHeaderSize + nameLen.toNat ≤ buf.length then
      if name.length = nameLen.toNat then .ok (patch buf dirEntryHeaderSize name)
      else .error .panic
    else .ok buf

/-- What a record has to keep: nothing if it is free. -/
def EfsDirEntryHeader.minLen (hdr : EfsDirEntryHeader) : ℕ :=
  if hdr.inode ≠ 0 then dirEntryMinSize hdr.nameLen else 0

/-- The scan of `add_dir_entry` for a record with room behind it. -/
def findSlack (data : List UInt8) (needed : ℕ) : Option (ℕ × EfsDirEntryHeader) :=
  (walk false data data.length 0).find? fun (_, hdr) ↦ needed ≤ hdr.recLen - hdr.minLen

/-- `add_dir_entry` once it has found a record with room: a live record is cut back to what it
needs, a free one is taken as a whole. -/
def insertAt (data : List UInt8) (off : ℕ) (hdr : EfsDirEntryHeader) (inode : UInt64)
    (nameLen fileType : UInt8) (name : List UInt8) : Except Fault (List UInt8) :=
  let data := if hdr.inode ≠ 0 then patch data (off + 8) (leBytes 2 hdr.minLen) else data
  let insertOff := off + hdr.minLen
  let remaining := hdr.recLen - hdr.minLen
  if data.length < insertOff + remaining then .error .panic
  else
    (writeDirEntry (window data insertOff remaining) inode remaining nameLen fileType name).map
      (patch data insertOff)

/-- `find_prev_entry_len`. -/
def findPrevEntryLen (data : List UInt8) (endOffset blockSize : ℕ) : ℕ :=
  loop data.length (endOffset / blockSize * blockSize)
where
  loop : ℕ → ℕ → ℕ
    | 0, _ => 0
    | fuel + 1, off =>
      if off < endOffset then
        if data.length < off + dirEntryHeaderSize then 0
        else
          let recLen := leNat (window data (off + 8) 2)
          if recLen < dirEntryHeaderSize then 0
          else if off + recLen = endOffset then recLen
          else if endOffset < off + recLen then 0
          else loop fuel (off + recLen)
      else 0

/-- The scan of `remove_dir_entry`. -/
def findName (data : List UInt8) (name : String) : Option (ℕ × EfsDirEntryHeader) :=
  (walk false data data.length 0).find? fun (off, hdr) ↦
    hdr.inode ≠ 0 ∧ off + dirEntryHeaderSize + hdr.nameLen.toNat ≤ data.length ∧
      window data (off + dirEntryHeaderSize) hdr.nameLen.toNat = nameBytes name

/-- `remove_dir_entry` once it has found the name. `prev_end` is the end of the record visited
before, which is where this one starts. -/
def removeAt (data : List UInt8) (off : ℕ) (hdr : EfsDirEntryHeader) (blockSize : ℕ) : List UInt8 :=
  let data := patch data off (replicate 8 0)
  if 0 < off then
    let prevOff := off - findPrevEntryLen data off blockSize
    patch data (prevOff + 8) (leBytes 2 ((headerAt data prevOff).recLen + hdr.recLen))
  else data

/-! ## Records -/

/-- A record: the length in its header is that of its bytes. -/
structure DirRecord where
  inode : UInt64
  nameLen : UInt8
  fileType : UInt8
  /-- What comes after the header: the name, and padding. -/
  body : List UInt8

namespace DirRecord

def size (r : DirRecord) : ℕ := dirEntryHeaderSize + r.body.length

def header (r : DirRecord) : EfsDirEntryHeader := ⟨r.inode, r.size, r.nameLen, r.fileType⟩

def bytes (r : DirRecord) : List UInt8 := r.header.toBytes ++ r.body

def name (r : DirRecord) : List UInt8 := r.body.take r.nameLen.toNat

/-- The entry that a live record stands for. -/
def asEntry (r : DirRecord) : Option (String × UInt64 × UInt8) :=
  if r.inode = 0 then none else (fromUtf8 r.name).map fun name ↦ (name, r.inode, r.fileType)

/-- A live record with the given name. -/
def Names (r : DirRecord) (name : String) : Prop := r.inode ≠ 0 ∧ r.name = nameBytes name

instance (name : String) (r : DirRecord) : Decidable (r.Names name) := instDecidableAnd

/-- A record as the driver writes it. -/
structure Valid (r : DirRecord) : Prop where
  size_lt : r.size < 65536
  min_le : r.inode ≠ 0 → dirEntryMinSize r.nameLen ≤ r.size
  utf8 : r.inode ≠ 0 → ∃ name, r.name = nameBytes name

variable {r : DirRecord}

@[simp] theorem length_bytes (r : DirRecord) : r.bytes.length = r.size := by
  rw [bytes, length_append, EfsDirEntryHeader.length_toBytes, size]

theorem headerSize_le (r : DirRecord) : dirEntryHeaderSize ≤ r.size := Nat.le_add_right _ _

theorem Valid.nameLen_le (h : r.Valid) (hlive : r.inode ≠ 0) : r.nameLen.toNat ≤ r.body.length := by
  have hmin := h.min_le hlive
  have hadd := add_le_dirEntryMinSize r.nameLen
  rw [size] at hmin
  omega

/-- The bytes of a sequence of records. -/
def bytesOf (rs : List DirRecord) : List UInt8 := rs.flatMap bytes

/-- The length of a sequence of records. -/
def totalSize (rs : List DirRecord) : ℕ := (rs.map size).sum

@[simp] theorem bytesOf_nil : bytesOf [] = [] := rfl

@[simp] theorem bytesOf_cons (r : DirRecord) (rs : List DirRecord) :
    bytesOf (r :: rs) = r.bytes ++ bytesOf rs := flatMap_cons

@[simp] theorem bytesOf_append (rs rs' : List DirRecord) :
    bytesOf (rs ++ rs') = bytesOf rs ++ bytesOf rs' := flatMap_append

@[simp] theorem totalSize_nil : totalSize [] = 0 := rfl

@[simp] theorem totalSize_cons (r : DirRecord) (rs : List DirRecord) :
    totalSize (r :: rs) = r.size + totalSize rs := by rw [totalSize, map_cons, sum_cons, totalSize]

@[simp] theorem totalSize_append (rs rs' : List DirRecord) :
    totalSize (rs ++ rs') = totalSize rs + totalSize rs' := by
  rw [totalSize, map_append, sum_append, totalSize, totalSize]

@[simp] theorem length_bytesOf (rs : List DirRecord) : (bytesOf rs).length = totalSize rs := by
  induction rs with
  | nil => rfl
  | cons r rs ih => rw [bytesOf_cons, length_append, length_bytes, ih, totalSize_cons]

variable {rs : List DirRecord} {base : ℕ}

theorem length_le_totalSize (rs : List DirRecord) : rs.length ≤ totalSize rs := by
  induction rs with
  | nil => exact le_refl 0
  | cons r rs ih =>
    have h := r.headerSize_le
    rw [dirEntryHeaderSize] at h
    rw [length_cons, totalSize_cons]
    omega

/-! ## The loops on records -/

/-- What a loop over a sequence of records visits. -/
def offsets : ℕ → List DirRecord → List (ℕ × EfsDirEntryHeader)
  | _, [] => []
  | off, r :: rs => (off, r.header) :: offsets (off + r.size) rs

theorem headerAt_of_split {data pre : List UInt8} (post : List UInt8) (hr : r.Valid)
    (hdata : data = pre ++ r.bytes ++ post) : headerAt data pre.length = r.header := by
  have hwindow : window data pre.length dirEntryHeaderSize = r.header.toBytes := by
    rw [hdata, bytes, append_assoc, ← add_zero pre.length, window_append_add, append_assoc]
    exact window_append_left r.header.length_toBytes
  rw [headerAt, hwindow, EfsDirEntryHeader.ofBytes_toBytes hr.size_lt]

variable {fuel : ℕ}

/-- A loop that comes to a sequence of records goes through them, and on from their end. -/
theorem walk_bytesOf (bounded : Bool) (hrs : ∀ r ∈ rs, r.Valid) (pre post : List UInt8)
    (hfuel : rs.length ≤ fuel) :
    walk bounded (pre ++ bytesOf rs ++ post) fuel pre.length = offsets pre.length rs ++
      walk bounded (pre ++ bytesOf rs ++ post) (fuel - rs.length) (pre.length + totalSize rs) := by
  induction rs generalizing pre fuel with
  | nil => rfl
  | cons r rs ih =>
    cases fuel with
    | zero => cases hfuel
    | succ fuel =>
      have hr := hrs r mem_cons_self
      have hhdr : headerAt (pre ++ bytesOf (r :: rs) ++ post) pre.length = r.header :=
        headerAt_of_split (bytesOf rs ++ post) hr (by
          simp only [bytesOf_cons, append_assoc])
      have hlen : (pre ++ bytesOf (r :: rs) ++ post).length
          = pre.length + (r.size + totalSize rs) + post.length := by
        rw [length_append, length_append, length_bytesOf, totalSize_cons]
      have hsize := r.headerSize_le
      have hrest := ih (fun r' h ↦ hrs r' (mem_cons_of_mem r h)) (pre ++ r.bytes)
        (Nat.le_of_succ_le_succ hfuel)
      rw [append_assoc pre, ← bytesOf_cons, length_append, length_bytes,
        add_assoc, ← totalSize_cons] at hrest
      rw [walk, if_pos (by omega), hhdr, if_neg, offsets, cons_append, length_cons,
        Nat.add_sub_add_right]
      · exact congrArg _ hrest
      · rintro (hshort | ⟨-, hlong⟩)
        · exact not_lt.mpr hsize hshort
        · have hlong : _ < pre.length + r.size := hlong
          omega

theorem walk_records (bounded : Bool) (hrs : ∀ r ∈ rs, r.Valid) :
    walk bounded (bytesOf rs) (bytesOf rs).length 0 = offsets 0 rs := by
  have h := walk_bytesOf bounded hrs [] [] (length_le_totalSize rs)
  rw [nil_append, append_nil, ← length_bytesOf, length_nil, zero_add] at h
  have hend : walk bounded (bytesOf rs) ((bytesOf rs).length - rs.length) (bytesOf rs).length
      = [] := by
    cases (bytesOf rs).length - rs.length with
    | zero => rfl
    | succ fuel => rw [walk, if_neg (by rw [dirEntryHeaderSize]; omega)]
  rw [h, hend, append_nil]

variable {β : Type*}

theorem map_offsets {f : ℕ × EfsDirEntryHeader → β} {g : DirRecord → β}
    (h : ∀ xs r ys, rs = xs ++ r :: ys → f (base + totalSize xs, r.header) = g r) :
    (offsets base rs).map f = rs.map g := by
  induction rs generalizing base with
  | nil => rfl
  | cons r rs ih =>
    refine congrArg₂ _ (h [] r rs rfl) (ih fun xs r' ys hsplit ↦ ?_)
    rw [← h (r :: xs) r' ys (by rw [hsplit, cons_append]), totalSize_cons, add_assoc]

variable {f : ℕ × EfsDirEntryHeader → Option β} {g : DirRecord → Option β}

theorem filterMap_offsets
    (h : ∀ xs r ys, rs = xs ++ r :: ys → f (base + totalSize xs, r.header) = g r) :
    (offsets base rs).filterMap f = rs.filterMap g := by
  have hmap := congrArg (List.filterMap id) (map_offsets h)
  rwa [filterMap_map, filterMap_map] at hmap

theorem findSome?_offsets
    (h : ∀ xs r ys, rs = xs ++ r :: ys → f (base + totalSize xs, r.header) = g r) :
    (offsets base rs).findSome? f = rs.findSome? g := by
  have hmap := congrArg (List.findSome? id) (map_offsets h)
  rwa [findSome?_map, findSome?_map] at hmap

variable {off : ℕ}

/-- Where in a sequence of records something visited is. -/
theorem offsets_split {hdr : EfsDirEntryHeader} {xs ys : List (ℕ × EfsDirEntryHeader)}
    (h : offsets base rs = xs ++ (off, hdr) :: ys) :
    ∃ as r bs, rs = as ++ r :: bs ∧ xs = offsets base as ∧ off = base + totalSize as ∧
      hdr = r.header := by
  induction rs generalizing base xs with
  | nil => cases xs <;> cases h
  | cons r rs ih =>
    cases xs with
    | nil =>
      obtain ⟨hhead, -⟩ := List.cons.inj h
      obtain ⟨rfl, rfl⟩ := Prod.mk.inj hhead
      exact ⟨[], r, rs, rfl, rfl, rfl, rfl⟩
    | cons x xs =>
      obtain ⟨hx, htail⟩ := List.cons.inj h
      obtain ⟨as, r', bs, rfl, rfl, rfl, rfl⟩ := ih htail
      exact ⟨r :: as, r', bs, rfl, by rw [← hx, offsets],
        by rw [totalSize_cons, add_assoc], rfl⟩

theorem offsets_append (base : ℕ) (xs ys : List DirRecord) :
    offsets base (xs ++ ys) = offsets base xs ++ offsets (base + totalSize xs) ys := by
  induction xs generalizing base with
  | nil => rfl
  | cons x xs ih => rw [cons_append, offsets, ih, offsets, totalSize_cons, add_assoc, cons_append]

section Find

variable {p : ℕ × EfsDirEntryHeader → Bool} {q : DirRecord → Prop}
  (h : ∀ xs r ys, rs = xs ++ r :: ys → (p (base + totalSize xs, r.header) = true ↔ q r))

include h

theorem forall_offsets {xs zs : List DirRecord} (hrs : rs = xs ++ zs) :
    (∀ a ∈ offsets base xs, ¬p a = true) ↔ ∀ x ∈ xs, ¬q x := by
  have hmap : (offsets base xs).map (fun a ↦ ¬p a = true) = xs.map fun x ↦ ¬q x :=
    map_offsets fun as x bs hsplit ↦ by
      rw [h as x (bs ++ zs) (by rw [hrs, hsplit, append_assoc, cons_append])]
  have hall : (∀ P ∈ (offsets base xs).map fun a ↦ ¬p a = true, P) ↔
      ∀ a ∈ offsets base xs, ¬p a = true := List.forall_mem_map
  rw [← hall, hmap]
  exact List.forall_mem_map

theorem find?_offsets {hdr : EfsDirEntryHeader} :
    (offsets base rs).find? p = some (off, hdr) ↔ ∃ xs r ys, rs = xs ++ r :: ys ∧
      off = base + totalSize xs ∧ hdr = r.header ∧ q r ∧ ∀ x ∈ xs, ¬q x := by
  rw [find?_eq_some_iff_append]
  simp only [Bool.not_eq_true', ← Bool.not_eq_true]
  constructor
  · rintro ⟨hp, us, vs, huv, hall⟩
    obtain ⟨xs, r, ys, rfl, rfl, rfl, rfl⟩ := offsets_split huv
    exact ⟨xs, r, ys, rfl, rfl, rfl, (h xs r ys rfl).mp hp, (forall_offsets h rfl).mp hall⟩
  · rintro ⟨xs, r, ys, rfl, rfl, rfl, hq, hall⟩
    exact ⟨(h xs r ys rfl).mpr hq, offsets base xs, offsets (base + totalSize xs + r.size) ys,
      by rw [offsets_append, offsets], (forall_offsets h rfl).mpr hall⟩

theorem find?_offsets_eq_none : (offsets base rs).find? p = none ↔ ∀ r ∈ rs, ¬q r := by
  rw [find?_eq_none]
  exact forall_offsets h (append_nil rs).symm

end Find

section Reading

variable {rs : List DirRecord} {xs ys : List DirRecord}

theorem window_name (hr : r.Valid) (hlive : r.inode ≠ 0) (hsplit : rs = xs ++ r :: ys) :
    totalSize xs + dirEntryHeaderSize + r.nameLen.toNat ≤ (bytesOf rs).length ∧
      window (bytesOf rs) (totalSize xs + dirEntryHeaderSize) r.nameLen.toNat = r.name := by
  have hname := hr.nameLen_le hlive
  subst hsplit
  constructor
  · rw [length_bytesOf, totalSize_append, totalSize_cons, size]
    omega
  · rw [bytesOf_append, bytesOf_cons, ← length_bytesOf xs, window_append_add, bytes,
      append_assoc, ← r.header.length_toBytes, ← add_zero r.header.toBytes.length,
      window_append_add, window_append_of_le _ (by omega), window, drop_zero, name]

/-- **Reading a sequence of records** gives the entries of the live ones. -/
theorem parseDirEntriesFromBytes_bytesOf (hrs : ∀ r ∈ rs, r.Valid) :
    parseDirEntriesFromBytes (bytesOf rs) = rs.filterMap asEntry := by
  rw [parseDirEntriesFromBytes, walk_records true hrs]
  refine filterMap_offsets fun xs r ys hsplit ↦ ?_
  have hr := hrs r (by rw [hsplit]; simp)
  dsimp only [header]
  rw [zero_add, asEntry]
  by_cases hlive : r.inode = 0
  · rw [if_neg fun h ↦ h.1 hlive, if_pos hlive]
  · obtain ⟨hle, hname⟩ := window_name hr hlive hsplit
    rw [if_neg hlive, if_pos ⟨hlive, hle⟩, hname]

/-- **Looking a name up in a sequence of records** gives the first live one with that name. -/
theorem lookupInData_bytesOf (hrs : ∀ r ∈ rs, r.Valid) (name : String) :
    lookupInData (bytesOf rs) name
      = rs.findSome? fun r ↦ if r.Names name then some (r.inode, r.fileType) else none := by
  rw [lookupInData, walk_records true hrs]
  refine findSome?_offsets fun xs r ys hsplit ↦ ?_
  have hr := hrs r (by rw [hsplit]; simp)
  dsimp only [header]
  rw [zero_add]
  refine if_congr ?_ rfl rfl
  constructor
  · rintro ⟨hlive, -, -, hname⟩
    exact ⟨hlive, (window_name hr hlive hsplit).2.symm.trans hname⟩
  · rintro ⟨hlive, hname⟩
    obtain ⟨hle, hwindow⟩ := window_name hr hlive hsplit
    refine ⟨hlive, ?_, hle, hwindow.trans hname⟩
    rw [← hname, DirRecord.name, length_take, min_eq_left (hr.nameLen_le hlive)]

/-- A record with room for another one behind it. -/
def HasRoom (r : DirRecord) (needed : ℕ) : Prop := needed ≤ r.size - r.header.minLen

variable {needed : ℕ} {hdr : EfsDirEntryHeader} {name : String}

section

variable (hrs : ∀ r ∈ rs, r.Valid)

include hrs

theorem findSlack_bytesOf :
    findSlack (bytesOf rs) needed = some (off, hdr) ↔ ∃ xs r ys, rs = xs ++ r :: ys ∧
      off = totalSize xs ∧ hdr = r.header ∧ r.HasRoom needed ∧ ∀ x ∈ xs, ¬x.HasRoom needed := by
  rw [findSlack, walk_records false hrs, find?_offsets (q := fun r ↦ r.HasRoom needed)]
  · simp only [zero_add]
  · exact fun _ _ _ _ ↦ decide_eq_true_iff

theorem findSlack_bytesOf_eq_none :
    findSlack (bytesOf rs) needed = none ↔ ∀ r ∈ rs, ¬r.HasRoom needed := by
  rw [findSlack, walk_records false hrs]
  exact find?_offsets_eq_none fun _ _ _ _ ↦ decide_eq_true_iff

theorem findName_iff (hsplit : rs = xs ++ r :: ys) :
    (decide (r.header.inode ≠ 0 ∧
      0 + totalSize xs + dirEntryHeaderSize + r.header.nameLen.toNat ≤ (bytesOf rs).length ∧
        window (bytesOf rs) (0 + totalSize xs + dirEntryHeaderSize) r.header.nameLen.toNat
          = nameBytes name) = true) ↔ r.Names name := by
  have hr := hrs r (by rw [hsplit]; simp)
  rw [decide_eq_true_iff, zero_add]
  constructor
  · rintro ⟨hlive, -, hname⟩
    exact ⟨hlive, (window_name hr hlive hsplit).2.symm.trans hname⟩
  · rintro ⟨hlive, hname⟩
    obtain ⟨hle, hwindow⟩ := window_name hr hlive hsplit
    exact ⟨hlive, hle, hwindow.trans hname⟩

theorem findName_bytesOf :
    findName (bytesOf rs) name = some (off, hdr) ↔ ∃ xs r ys, rs = xs ++ r :: ys ∧
      off = totalSize xs ∧ hdr = r.header ∧ r.Names name ∧ ∀ x ∈ xs, ¬x.Names name := by
  rw [findName, walk_records false hrs, find?_offsets (q := fun r ↦ r.Names name)]
  · simp only [zero_add]
  · exact fun _ _ _ hsplit ↦ findName_iff hrs hsplit

theorem findName_bytesOf_eq_none : findName (bytesOf rs) name = none ↔ ∀ r ∈ rs, ¬r.Names name := by
  rw [findName, walk_records false hrs]
  exact find?_offsets_eq_none fun _ _ _ hsplit ↦ findName_iff hrs hsplit

/-- A free record that ends behind the buffer is taken for one with room. -/
theorem findSlack_of_overlong (hfull : ∀ r ∈ rs, ¬r.HasRoom needed) (hfree : hdr.inode = 0)
    (hlt : hdr.recLen < 65536) (hneeded : needed ≤ hdr.recLen)
    (hhead : dirEntryHeaderSize ≤ hdr.recLen) (body : List UInt8) :
    findSlack (bytesOf rs ++ (hdr.toBytes ++ body)) needed = some (totalSize rs, hdr) := by
  have hlen : (bytesOf rs ++ (hdr.toBytes ++ body)).length
      = totalSize rs + (dirEntryHeaderSize + body.length) := by
    rw [length_append, length_append, length_bytesOf, hdr.length_toBytes]
  have hpos : 0 < dirEntryHeaderSize := by decide
  have hle := length_le_totalSize rs
  have hwalk := walk_bytesOf false hrs [] (hdr.toBytes ++ body)
    (hle.trans (by rw [hlen]; exact Nat.le_add_right _ _) :
      rs.length ≤ (bytesOf rs ++ (hdr.toBytes ++ body)).length)
  rw [nil_append, length_nil, zero_add] at hwalk
  obtain ⟨fuel, hfuel⟩ : ∃ fuel,
      (bytesOf rs ++ (hdr.toBytes ++ body)).length - rs.length = fuel + 1 :=
    ⟨_, (Nat.sub_add_cancel (by omega)).symm⟩
  have hhdr : headerAt (bytesOf rs ++ (hdr.toBytes ++ body)) (totalSize rs) = hdr := by
    rw [headerAt, ← length_bytesOf, ← add_zero (bytesOf rs).length, window_append_add,
      window_append_left hdr.length_toBytes, EfsDirEntryHeader.ofBytes_toBytes hlt]
  rw [findSlack, hwalk, find?_append,
    (find?_offsets_eq_none fun _ _ _ _ ↦ decide_eq_true_iff).mpr hfull, none_or, hfuel, walk,
    if_pos (by rw [hlen]; omega), hhdr, if_neg (by simp; omega), find?_cons_of_pos]
  have hmin : hdr.minLen = 0 := if_neg (not_not.mpr hfree)
  exact decide_eq_true (by rw [hmin]; exact hneeded)

end

end Reading

/-! ## The edits on records -/

/-- A record that is cut back to what it needs. -/
def kept (r : DirRecord) : DirRecord :=
  { r with body := r.body.take (dirEntryMinSize r.nameLen - dirEntryHeaderSize) }

/-- What is left of a record that makes room. -/
def cut (r : DirRecord) : List DirRecord := if r.inode ≠ 0 then [r.kept] else []

/-- The record that is written into the room another one has left. -/
def filled (r : DirRecord) (inode : UInt64) (nameLen fileType : UInt8) (name : List UInt8) :
    DirRecord where
  inode := inode
  nameLen := nameLen
  fileType := fileType
  body := name ++ (r.bytes.drop r.header.minLen).drop (dirEntryHeaderSize + name.length)

variable {nameLen : UInt8}

theorem writeDirEntry_eq {buf name : List UInt8} {inode : UInt64} {recLen : ℕ} {fileType : UInt8}
    (hname : name.length = nameLen.toNat) (hbuf : dirEntryHeaderSize + nameLen.toNat ≤ buf.length) :
    writeDirEntry buf inode recLen nameLen fileType name
      = .ok (EfsDirEntryHeader.toBytes ⟨inode, recLen, nameLen, fileType⟩ ++
          (name ++ buf.drop (dirEntryHeaderSize + name.length))) := by
  have hhead (h : EfsDirEntryHeader) :
      patch buf 0 h.toBytes = h.toBytes ++ buf.drop dirEntryHeaderSize := by
    rw [patch, take_zero, nil_append, zero_add, h.length_toBytes]
  rw [writeDirEntry, if_neg (by omega)]
  rw [hhead, if_pos (by simp; omega), if_pos hname]
  rw [← EfsDirEntryHeader.length_toBytes ⟨inode, recLen, nameLen, fileType⟩,
    ← add_zero (EfsDirEntryHeader.toBytes _).length, patch_append_add, patch, take_zero,
    nil_append, zero_add, drop_drop, add_zero]

theorem minLen_of_live (hlive : r.inode ≠ 0) : r.header.minLen = dirEntryMinSize r.nameLen :=
  if_pos hlive

theorem minLen_of_free (hfree : r.inode = 0) : r.header.minLen = 0 := if_neg (not_not.mpr hfree)

theorem Valid.minLen_le (hr : r.Valid) : r.header.minLen ≤ r.size := by
  by_cases hlive : r.inode = 0
  · rw [minLen_of_free hlive]
    exact Nat.zero_le _
  · rw [minLen_of_live hlive]
    exact hr.min_le hlive

theorem name_kept (r : DirRecord) : r.kept.name = r.name := by
  have hadd := add_le_dirEntryMinSize r.nameLen
  have hle : r.nameLen.toNat ≤ dirEntryMinSize r.nameLen - dirEntryHeaderSize := by omega
  rw [name, name, kept, take_take]
  exact congrArg (List.take · r.body) (min_eq_left hle)

theorem size_kept (hr : r.Valid) (hlive : r.inode ≠ 0) :
    r.kept.size = dirEntryMinSize r.nameLen := by
  have hmin := hr.min_le hlive
  have hadd := add_le_dirEntryMinSize r.nameLen
  rw [size] at hmin
  rw [size, kept, length_take]
  omega

theorem totalSize_cut (hr : r.Valid) : totalSize r.cut = r.header.minLen := by
  by_cases hlive : r.inode = 0
  · rw [cut, if_neg (not_not.mpr hlive), minLen_of_free hlive, totalSize_nil]
  · rw [cut, if_pos hlive, minLen_of_live hlive, totalSize_cons, totalSize_nil, size_kept hr hlive,
      add_zero]

/-- A record in its two parts: what it keeps, and the room behind it. -/
theorem bytes_cut (hr : r.Valid) :
    (if r.inode ≠ 0 then patch r.bytes 8 (leBytes 2 r.header.minLen) else r.bytes)
      = bytesOf r.cut ++ r.bytes.drop r.header.minLen := by
  by_cases hlive : r.inode = 0
  · rw [if_neg (not_not.mpr hlive), cut, if_neg (not_not.mpr hlive), minLen_of_free hlive]
    rfl
  · have hadd := add_le_dirEntryMinSize r.nameLen
    have hdrop : r.bytes.drop (dirEntryMinSize r.nameLen)
        = r.body.drop (dirEntryMinSize r.nameLen - dirEntryHeaderSize) := by
      rw [bytes, drop_append, drop_eq_nil_of_le (by simp; omega), nil_append,
        r.header.length_toBytes]
    have hkept : r.kept.header = { r.header with recLen := dirEntryMinSize r.nameLen } := by
      rw [header, size_kept hr hlive]
      rfl
    rw [if_pos hlive, minLen_of_live hlive, cut, if_pos hlive, bytesOf_cons, bytesOf_nil,
      append_nil, hdrop, bytes, bytes, hkept, append_assoc,
      patch_append_of_le _ (by simp [dirEntryHeaderSize]), EfsDirEntryHeader.patch_recLen]
    exact congrArg _ (take_append_drop ..).symm

theorem size_filled {inode : UInt64} {fileType : UInt8} {name : List UInt8}
    (hname : name.length = nameLen.toNat)
    (hroom : dirEntryMinSize nameLen ≤ r.size - r.header.minLen) :
    (r.filled inode nameLen fileType name).size = r.size - r.header.minLen := by
  have hadd := add_le_dirEntryMinSize nameLen
  rw [size, filled, length_append, length_drop, length_drop, length_bytes]
  omega

section Editing

variable {xs ys : List DirRecord}

theorem bytesOf_split (xs : List DirRecord) (r : DirRecord) (ys : List DirRecord) :
    bytesOf (xs ++ r :: ys) = bytesOf xs ++ (r.bytes ++ bytesOf ys) := by
  rw [bytesOf_append, bytesOf_cons]

theorem patch_split {bs : List UInt8} (h : off + bs.length ≤ r.size) :
    patch (bytesOf (xs ++ r :: ys)) (totalSize xs + off) bs
      = bytesOf xs ++ (patch r.bytes off bs ++ bytesOf ys) := by
  rw [bytesOf_split, ← length_bytesOf, patch_append_add,
    patch_append_of_le _ (by rw [length_bytes]; exact h)]

/-- **Adding a record.** -/
theorem insertAt_bytesOf {inode : UInt64} {fileType : UInt8} {name : List UInt8} (hr : r.Valid)
    (hname : name.length = nameLen.toNat)
    (hroom : dirEntryMinSize nameLen ≤ r.size - r.header.minLen) :
    insertAt (bytesOf (xs ++ r :: ys)) (totalSize xs) r.header inode nameLen fileType name
      = .ok (bytesOf (xs ++ r.cut ++ r.filled inode nameLen fileType name :: ys)) := by
  have hadd := add_le_dirEntryMinSize nameLen
  have hhead := r.headerSize_le
  have hrest : (r.bytes.drop r.header.minLen).length = r.size - r.header.minLen := by
    rw [length_drop, length_bytes]
  have hdata : (if r.header.inode ≠ 0 then
      patch (bytesOf (xs ++ r :: ys)) (totalSize xs + 8) (leBytes 2 r.header.minLen)
      else bytesOf (xs ++ r :: ys))
      = bytesOf (xs ++ r.cut) ++ (r.bytes.drop r.header.minLen ++ bytesOf ys) := by
    rw [bytesOf_append xs r.cut, append_assoc, ← append_assoc (bytesOf r.cut), ← bytes_cut hr]
    change (if r.inode ≠ 0 then _ else _) = _
    split_ifs
    · rw [patch_split (by rw [length_leBytes]; rw [dirEntryHeaderSize] at hhead; omega)]
    · rw [bytesOf_split]
  have hoff : totalSize xs + r.header.minLen = (bytesOf (xs ++ r.cut)).length := by
    rw [length_bytesOf, totalSize_append, totalSize_cut hr]
  have hbytes : (r.filled inode nameLen fileType name).bytes
      = EfsDirEntryHeader.toBytes ⟨inode, r.size - r.header.minLen, nameLen, fileType⟩ ++
        (name ++ (r.bytes.drop r.header.minLen).drop (dirEntryHeaderSize + name.length)) := by
    rw [bytes, header, size_filled hname hroom]
    rfl
  simp only [insertAt]
  rw [hdata, hoff]
  change (if _ < _ + (r.size - _) then _ else
    Except.map _ (writeDirEntry (window _ _ (r.size - _)) _ (r.size - _) _ _ _)) = _
  rw [if_neg, ← add_zero (bytesOf (xs ++ r.cut)).length, window_append_add,
    window_append_left hrest, writeDirEntry_eq hname (by omega), ← hbytes, Except.map,
    patch_append_add, bytesOf_append (xs ++ r.cut), bytesOf_cons]
  · rw [patch, take_zero, nil_append, zero_add, length_bytes,
      size_filled hname hroom, ← hrest, drop_left]
  · rw [length_append, length_append, hrest]
    omega

/-- A record that has been marked as free. -/
def freed (r : DirRecord) : DirRecord := { r with inode := 0 }

/-- A record that has been extended over the one behind it. -/
def absorb (p r : DirRecord) : DirRecord := { p with body := p.body ++ r.freed.bytes }

theorem patch_inode (xs : List DirRecord) (r : DirRecord) (ys : List DirRecord) :
    patch (bytesOf (xs ++ r :: ys)) (totalSize xs) (replicate 8 0)
      = bytesOf (xs ++ r.freed :: ys) := by
  have hhead := r.headerSize_le
  rw [dirEntryHeaderSize] at hhead
  rw [← add_zero (totalSize xs), patch_split (by rw [length_replicate]; omega), bytesOf_split,
    bytes, patch_append_of_le _ (by simp [dirEntryHeaderSize]), EfsDirEntryHeader.patch_inode]
  rfl

theorem size_absorb (p r : DirRecord) : (p.absorb r).size = p.size + r.size := by
  rw [size, absorb, length_append, length_bytes, freed, size, size, size, add_assoc]

theorem recLen_of_split {data pre : List UInt8} (post : List UInt8) (hr : r.Valid)
    (hdata : data = pre ++ r.bytes ++ post) : leNat (window data (pre.length + 8) 2) = r.size := by
  have hwindow : window (window data pre.length dirEntryHeaderSize) 8 2
      = window data (pre.length + 8) 2 := window_window _ (by decide)
  rw [← hwindow]
  exact congrArg EfsDirEntryHeader.recLen (headerAt_of_split post hr hdata)

variable {us : List DirRecord}

/-- The search for the record that ends at an offset, from the start of a sequence of records. -/
theorem findPrevEntryLen_loop {p : DirRecord} (hp : p.Valid) (hus : ∀ u ∈ us, u.Valid)
    (pre post : List UInt8) (hfuel : us.length < fuel) :
    findPrevEntryLen.loop (pre ++ bytesOf (us ++ [p]) ++ post)
      (pre.length + totalSize (us ++ [p])) fuel pre.length = p.size := by
  induction us generalizing pre fuel with
  | nil =>
    cases fuel with
    | zero => cases hfuel
    | succ fuel =>
      have hhead := p.headerSize_le
      have hpos : 0 < dirEntryHeaderSize := by decide
      have hlen : leNat (window (pre ++ bytesOf ([] ++ [p]) ++ post) (pre.length + 8) 2) = p.size :=
        recLen_of_split post hp (by simp)
      have hsize : totalSize ([] ++ [p]) = p.size := by simp
      rw [findPrevEntryLen.loop, if_pos (by omega), if_neg (by simp; omega)]
      simp only [hlen]
      rw [if_neg (by omega), if_pos (by omega)]
  | cons u us ih =>
    cases fuel with
    | zero => cases hfuel
    | succ fuel =>
      have hhead := u.headerSize_le
      have hhead' := p.headerSize_le
      have hpos : 0 < dirEntryHeaderSize := by decide
      have hlen : leNat (window (pre ++ bytesOf (u :: us ++ [p]) ++ post) (pre.length + 8) 2)
          = u.size :=
        recLen_of_split (bytesOf (us ++ [p]) ++ post) (hus u mem_cons_self) (by simp)
      have hsize : totalSize (u :: us ++ [p]) = u.size + (totalSize us + p.size) := by simp
      have hrest := ih (fun v hv ↦ hus v (mem_cons_of_mem u hv)) (pre ++ u.bytes)
        (Nat.lt_of_succ_lt_succ hfuel)
      rw [append_assoc pre, ← bytesOf_cons, ← cons_append, length_append,
        length_bytes, add_assoc, ← totalSize_cons, ← cons_append] at hrest
      rw [findPrevEntryLen.loop, if_pos (by omega), if_neg (by simp; omega)]
      simp only [hlen]
      rw [if_neg (by omega), if_neg (by omega), if_neg (by omega), hrest]

variable {blockSize : ℕ}

/-- **Removing a record behind another one of the same block**: it becomes part of that one. -/
theorem removeAt_behind {ws : List DirRecord} {p : DirRecord} (hus : ∀ u ∈ us, u.Valid)
    (hp : p.Valid) (hstart : totalSize (ws ++ us ++ [p]) / blockSize * blockSize = totalSize ws) :
    removeAt (bytesOf (ws ++ us ++ p :: r :: ys)) (totalSize (ws ++ us ++ [p])) r.header blockSize
      = bytesOf (ws ++ us ++ p.absorb r :: ys) := by
  have hhead := p.headerSize_le
  rw [dirEntryHeaderSize] at hhead
  have hsize : totalSize (ws ++ us ++ [p]) = totalSize (ws ++ us) + p.size := by
    rw [totalSize_append, totalSize_cons, totalSize_nil, add_zero]
  have hpatch : patch (bytesOf (ws ++ us ++ p :: r :: ys)) (totalSize (ws ++ us ++ [p]))
      (replicate 8 0) = bytesOf (ws ++ us ++ p :: r.freed :: ys) := by
    have h := patch_inode (ws ++ us ++ [p]) r ys
    simpa only [append_assoc, singleton_append] using h
  have hprev : findPrevEntryLen (bytesOf (ws ++ us ++ p :: r.freed :: ys))
      (totalSize (ws ++ us ++ [p])) blockSize = p.size := by
    have hfuel : us.length < (bytesOf (ws ++ us ++ p :: r.freed :: ys)).length := by
      have hus := length_le_totalSize us
      simp only [length_bytesOf, totalSize_append, totalSize_cons]
      omega
    have h := findPrevEntryLen_loop hp hus (bytesOf ws) (bytesOf (r.freed :: ys)) hfuel
    rw [findPrevEntryLen, hstart]
    simpa only [length_bytesOf, ← totalSize_append, ← bytesOf_append, append_assoc,
      singleton_append] using h
  have hhdr : headerAt (bytesOf (ws ++ us ++ p :: r.freed :: ys)) (totalSize (ws ++ us))
      = p.header := by
    rw [← length_bytesOf]
    exact headerAt_of_split (bytesOf (r.freed :: ys)) hp (by simp)
  have hmerged : patch p.bytes 8 (leBytes 2 (p.header.recLen + r.header.recLen)) ++ r.freed.bytes
      = (p.absorb r).bytes := by
    have hbytes : (p.absorb r).bytes
        = EfsDirEntryHeader.toBytes ⟨p.inode, (p.absorb r).size, p.nameLen, p.fileType⟩ ++
          (p.body ++ r.freed.bytes) := rfl
    rw [hbytes, size_absorb, bytes, patch_append_of_le _ (by simp [dirEntryHeaderSize]),
      EfsDirEntryHeader.patch_recLen, append_assoc]
    rfl
  simp only [removeAt]
  rw [hpatch, hprev, if_pos (by omega), hsize, Nat.add_sub_cancel, hhdr,
    patch_split (by rw [length_leBytes]; omega), bytesOf_split, bytesOf_cons, ← hmerged,
    append_assoc]

/-- **Removing the first record of a later block**: nothing before it is found, so its own length is
added to itself. -/
theorem removeAt_block_start {xs : List DirRecord} (hr : r.Valid) (hpos : 0 < totalSize xs)
    (hstart : totalSize xs / blockSize * blockSize = totalSize xs) :
    removeAt (bytesOf (xs ++ r :: ys)) (totalSize xs) r.header blockSize
      = bytesOf xs ++ ({ r.freed.header with recLen := r.size + r.size }.toBytes ++ r.body ++
          bytesOf ys) := by
  have hhead := r.headerSize_le
  rw [dirEntryHeaderSize] at hhead
  have hprev : findPrevEntryLen (bytesOf (xs ++ r.freed :: ys)) (totalSize xs) blockSize = 0 := by
    rw [findPrevEntryLen, hstart]
    cases (bytesOf (xs ++ r.freed :: ys)).length with
    | zero => rfl
    | succ fuel => rw [findPrevEntryLen.loop, if_neg (lt_irrefl _)]
  have hfreed : r.freed.Valid := ⟨hr.size_lt, fun h ↦ absurd rfl h, fun h ↦ absurd rfl h⟩
  have hhdr : headerAt (bytesOf (xs ++ r.freed :: ys)) (totalSize xs) = r.freed.header := by
    rw [← length_bytesOf]
    exact headerAt_of_split (bytesOf ys) hfreed (by simp)
  simp only [removeAt]
  rw [patch_inode, hprev, if_pos hpos, Nat.sub_zero, hhdr,
    patch_split (by rw [length_leBytes]; change _ ≤ r.size; omega), bytes,
    patch_append_of_le _ (by simp [dirEntryHeaderSize]), EfsDirEntryHeader.patch_recLen]
  rfl

end Editing

/-! ## Entries -/

theorem asEntry_of_free (h : r.inode = 0) : r.asEntry = none := if_pos h

theorem asEntry_of_names {name : String} (h : r.Names name) :
    r.asEntry = some (name, r.inode, r.fileType) := by
  rw [asEntry, if_neg h.1, h.2, fromUtf8_nameBytes, map_some]

theorem asEntry_eq_some_iff (hr : r.Valid) {name : String} {v : UInt64 × UInt8} :
    r.asEntry = some (name, v) ↔ r.Names name ∧ v = (r.inode, r.fileType) := by
  refine ⟨fun h ↦ ?_, fun ⟨hnames, hv⟩ ↦ hv ▸ asEntry_of_names hnames⟩
  have hlive : r.inode ≠ 0 := fun hfree ↦ by cases (asEntry_of_free hfree).symm.trans h
  obtain ⟨name', hname⟩ := hr.utf8 hlive
  cases (asEntry_of_names ⟨hlive, hname⟩).symm.trans h
  exact ⟨⟨hlive, hname⟩, rfl⟩

theorem findSome?_names (hrs : ∀ r ∈ rs, r.Valid) (name : String) :
    (rs.findSome? fun r ↦ if r.Names name then some (r.inode, r.fileType) else none)
      = (rs.filterMap asEntry).lookup name := by
  induction rs with
  | nil => rfl
  | cons r rs ih =>
    have hr := hrs r mem_cons_self
    have hrest := ih fun r' h ↦ hrs r' (mem_cons_of_mem r h)
    rw [findSome?_cons]
    by_cases hnames : r.Names name
    · rw [if_pos hnames, filterMap_cons, asEntry_of_names hnames]
      simp only [lookup_cons, beq_self_eq_true]
    · rw [if_neg hnames, filterMap_cons]
      cases hentry : r.asEntry with
      | none => exact hrest
      | some e =>
        have hne : (name == e.1) = false := by
          rw [beq_eq_false_iff_ne]
          rintro rfl
          exact hnames ((asEntry_eq_some_iff hr).mp hentry).1
        rw [hrest, show e = (e.1, e.2) from rfl, lookup_cons, hne]

theorem Valid.cut (hr : r.Valid) : ∀ r' ∈ r.cut, r'.Valid := by
  intro r' h
  rw [DirRecord.cut] at h
  split_ifs at h with hlive
  · obtain rfl := mem_singleton.mp h
    have hsize := size_kept hr hlive
    have hle := dirEntryMinSize_le r.nameLen
    refine ⟨by omega, fun _ ↦ hsize.ge, fun _ ↦ ?_⟩
    rw [name_kept]
    exact hr.utf8 hlive
  · cases h

theorem asEntry_cut (r : DirRecord) : r.cut.filterMap asEntry = [r].filterMap asEntry := by
  rw [cut]
  split_ifs with hlive
  · rw [filterMap_cons, filterMap_cons, asEntry, name_kept, asEntry]
    rfl
  · rw [filterMap_cons, asEntry_of_free (not_not.mp hlive)]

section Filled

variable {inode : UInt64} {fileType : UInt8} {name : String}

theorem toNat_nameLen (h : (nameBytes name).length ≤ 255) :
    (UInt8.ofNat (nameBytes name).length).toNat = (nameBytes name).length := by
  rw [UInt8.toNat_ofNat', Nat.mod_eq_of_lt (by omega)]

theorem name_filled (r : DirRecord) (h : (nameBytes name).length ≤ 255) :
    (r.filled inode (.ofNat (nameBytes name).length) fileType (nameBytes name)).name
      = nameBytes name := by
  rw [DirRecord.name, filled, toNat_nameLen h, take_left]

theorem Valid.filled (hr : r.Valid) (h : (nameBytes name).length ≤ 255)
    (hroom : dirEntryMinSize (.ofNat (nameBytes name).length) ≤ r.size - r.header.minLen) :
    (r.filled inode (.ofNat (nameBytes name).length) fileType (nameBytes name)).Valid := by
  have hsize : (r.filled inode (.ofNat (nameBytes name).length) fileType (nameBytes name)).size
      = r.size - r.header.minLen := size_filled (toNat_nameLen h).symm hroom
  have hlt := hr.size_lt
  exact ⟨by omega, fun _ ↦ hroom.trans hsize.ge, fun _ ↦ ⟨name, name_filled r h⟩⟩

theorem asEntry_filled (r : DirRecord) (h : (nameBytes name).length ≤ 255) (hinode : inode ≠ 0) :
    (r.filled inode (.ofNat (nameBytes name).length) fileType (nameBytes name)).asEntry
      = some (name, inode, fileType) := asEntry_of_names ⟨hinode, name_filled r h⟩

end Filled

section Fresh

/-- A record that fills the given space, with zeros behind its name. -/
def fresh (size : ℕ) (inode : UInt64) (fileType : UInt8) (name : String) : DirRecord where
  inode := inode
  nameLen := .ofNat (nameBytes name).length
  fileType := fileType
  body := nameBytes name ++
    replicate (size - (dirEntryHeaderSize + (nameBytes name).length)) 0

variable {size : ℕ} {inode : UInt64} {fileType : UInt8} {name : String}

theorem size_fresh (h : dirEntryHeaderSize + (nameBytes name).length ≤ size) :
    (fresh size inode fileType name).size = size := by
  rw [DirRecord.size, fresh, length_append, length_replicate]
  omega

section

variable (h : (nameBytes name).length ≤ 255)

include h

theorem name_fresh : (fresh size inode fileType name).name = nameBytes name := by
  rw [DirRecord.name, fresh, toNat_nameLen h, take_left]

theorem asEntry_fresh (hinode : inode ≠ 0) :
    (fresh size inode fileType name).asEntry = some (name, inode, fileType) :=
  asEntry_of_names ⟨hinode, name_fresh h⟩

theorem valid_fresh (hlt : size < 65536)
    (hmin : dirEntryMinSize (.ofNat (nameBytes name).length) ≤ size) :
    (fresh size inode fileType name).Valid := by
  have hadd := add_le_dirEntryMinSize (.ofNat (nameBytes name).length)
  rw [toNat_nameLen h] at hadd
  have hsize : (fresh size inode fileType name).size = size := size_fresh (hadd.trans hmin)
  exact ⟨by omega, fun _ ↦ hmin.trans hsize.ge, fun _ ↦ ⟨name, name_fresh h⟩⟩

theorem writeDirEntry_replicate (hle : dirEntryHeaderSize + (nameBytes name).length ≤ size)
    (extra : ℕ) :
    writeDirEntry (replicate (size + extra) 0) inode size (.ofNat (nameBytes name).length)
        fileType (nameBytes name)
      = .ok ((fresh size inode fileType name).bytes ++ replicate extra 0) := by
  have hlen := toNat_nameLen h
  rw [writeDirEntry_eq hlen.symm (by rw [length_replicate, hlen]; omega), bytes, header,
    size_fresh hle, fresh, append_assoc, append_assoc, replicate_append_replicate, drop_replicate]
  congr 5
  omega

end

end Fresh

section Absorb

variable {p : DirRecord}

theorem name_absorb (hp : p.Valid) (hlive : p.inode ≠ 0) : (p.absorb r).name = p.name := by
  rw [name, absorb, name, take_append_of_le_length (hp.nameLen_le hlive)]

theorem Valid.absorb (hp : p.Valid) (hsize : p.size + r.size < 65536) : (p.absorb r).Valid := by
  have habsorb := size_absorb p r
  refine ⟨by omega, fun hlive ↦ (hp.min_le hlive).trans (by omega), fun hlive ↦ ?_⟩
  obtain ⟨name, hname⟩ := hp.utf8 hlive
  exact ⟨name, (name_absorb hp hlive).trans hname⟩

theorem asEntry_absorb (hp : p.Valid) (r : DirRecord) : (p.absorb r).asEntry = p.asEntry := by
  by_cases hlive : p.inode = 0
  · rw [asEntry_of_free hlive]
    exact asEntry_of_free hlive
  · rw [asEntry, name_absorb hp hlive, asEntry]
    rfl

theorem names_absorb (hp : p.Valid) (name : String) : (p.absorb r).Names name ↔ p.Names name :=
  and_congr_right fun hlive ↦ by rw [name_absorb hp hlive]

/-- When a record becomes part of the one before it, the others stay where they are. -/
theorem findName_absorb {ws vs : List DirRecord} {name name' : String}
    (hold : ∀ x ∈ ws ++ p :: r :: vs, x.Valid) (hnew : ∀ x ∈ ws ++ p.absorb r :: vs, x.Valid)
    (hnames : r.Names name) (hne : name' ≠ name) {hdr : EfsDirEntryHeader}
    (h : findName (bytesOf (ws ++ p.absorb r :: vs)) name' = some (off, hdr)) :
    ∃ hdr', findName (bytesOf (ws ++ p :: r :: vs)) name' = some (off, hdr') := by
  have hp : p.Valid := hold p (by simp)
  obtain ⟨xs, x, ys, hsplit, rfl, rfl, hx, hfirst⟩ := (findName_bytesOf hnew).mp h
  have hat (as : List DirRecord) (y : DirRecord) (bs : List DirRecord)
      (heq : ws ++ p :: r :: vs = as ++ y :: bs)
      (hoff : totalSize xs = totalSize as) (hy : y.Names name') (has : ∀ a ∈ as, ¬a.Names name') :
      ∃ hdr', findName (bytesOf (ws ++ p :: r :: vs)) name' = some (totalSize xs, hdr') :=
    ⟨y.header, (findName_bytesOf hold).mpr ⟨as, y, bs, heq, hoff, rfl, hy, has⟩⟩
  rcases append_eq_append_iff.mp hsplit with ⟨zs, rfl, hzs⟩ | ⟨zs, rfl, hzs⟩
  · cases zs with
    | nil =>
      obtain ⟨rfl, rfl⟩ := List.cons.inj hzs
      rw [append_nil] at hfirst
      exact hat ws p _ rfl (by rw [append_nil]) ((names_absorb hp name').mp hx) hfirst
    | cons z zs =>
      obtain ⟨rfl, rfl⟩ := List.cons.inj hzs
      refine hat (ws ++ p :: r :: zs) x ys (by simp) ?_ hx fun y hy ↦ ?_
      · simp only [totalSize_append, totalSize_cons, size_absorb]
        omega
      · simp only [mem_append, mem_cons] at hy
        rcases hy with hy | rfl | rfl | hy
        · exact hfirst y (by simp [hy])
        · exact (names_absorb hp name').not.mp (hfirst (y.absorb r) (by simp))
        · exact fun hy ↦ hne (nameBytes_inj (hy.2.symm.trans hnames.2))
        · exact hfirst y (by simp [hy])
  · cases zs with
    | nil =>
      obtain ⟨rfl, rfl⟩ := List.cons.inj hzs
      rw [append_nil] at *
      exact hat xs p _ rfl rfl ((names_absorb hp name').mp hx) hfirst
    | cons z zs =>
      obtain ⟨rfl, rfl⟩ := List.cons.inj hzs
      exact hat xs x (zs ++ p :: r :: vs) (by simp) rfl hx hfirst

end Absorb

end DirRecord

end Edos

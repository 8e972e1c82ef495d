import Edos.Lib.Bytes
import Edos.Lib.Fallible
import Edos.Memory.Cow

/-!
# The state behind the memory calls

A call runs for one process, in a world of frames, shared memory regions, cached file pages and the
kernel's own page table (`Task`). It ends with a value, with an error that the caller sees, or with
a panic.

Reference counting of cached pages is that of `Arc`: `refs` counts the entry in the cache of the
file, the slots of mappings that hold the page, and a caller that is about to store it; the page
gives its frame back when the last of them goes. Pins and dirty marks decide nothing here and are
left out, and so are the locks and the TLB.

The loops over pages are here.
-/

namespace Edos.Memory

open Fallible

/-- `Errno`, as far as these calls return it. -/
inductive Errno where
  | EPERM
  | EBADF
  | ENOMEM
  | EACCES
  | EINVAL
  deriving DecidableEq, Repr

inductive FaultReject where
  | protection
  | noVma
  | notFaultable
  | writeToReadOnly
  | execOnNoExec
  | mountGone
  | pastEof (pageIdx fileSize : ℕ)
  | fillFailed (pageIdx : ℕ)
  | noFrame
  | mapFailed
  | relocFailed
  deriving DecidableEq, Repr

/-- How a call ends that returns no value. -/
inductive Stop where
  | panic
  | errno (e : Errno)
  | reject (r : FaultReject)
  deriving DecidableEq, Repr

/-- `SharedMemory`, a region of at least one page. -/
structure SharedMemory where
  id : ℕ
  frames : List ℕ
  refCount : ℕ
  destroyed : Bool
  frames_ne_nil : frames ≠ []
  deriving DecidableEq

/-- The size of a region, which the source stores: that of the frames it was created with. -/
def SharedMemory.size (shm : SharedMemory) : ℕ := shm.frames.length * pageSize

theorem SharedMemory.size_ne_zero (shm : SharedMemory) : shm.size ≠ 0 :=
  Nat.mul_ne_zero (fun h ↦ shm.frames_ne_nil (List.length_eq_zero_iff.mp h)) (by decide)

/-- `CachedPage`, page `idx` of a file; `cached` is whether the cache of the file still has it. -/
structure CachedPage where
  id : ℕ
  inode : ℕ
  idx : ℕ
  frame : ℕ
  cached : Bool
  refs : ℕ
  deriving DecidableEq

/-- What the file system says about an inode: its size, if it can tell, and whether it has a page
cache. -/
structure File where
  size : Option ℕ
  pageCacheOps : Bool
  deriving DecidableEq

/-- `FileDescriptor`, with the mode a file was opened in and its inode. -/
inductive FileDescriptor where
  | fsFile (readable writable : Bool) (inode : Option ℕ)
  | other
  deriving DecidableEq

/-- `RelocTable` with the range it applies to and the base the image is loaded at. -/
structure Reloc where
  entries : List (ℕ × ℕ)
  rangeStart : ℕ
  rangeEnd : ℕ
  loadBase : ℕ
  deriving DecidableEq

/-- What is not part of a process. `mappers` are the processes that an inode knows to map it. -/
structure World where
  frames : FrameAllocator
  contents : Contents
  kernelTable : Node 4
  allowedPhys : List (ℕ × ℕ)
  shm : OrdMap SharedMemory SharedMemory.id
  nextShmId : ℕ
  pages : OrdMap CachedPage CachedPage.id
  nextPageId : ℕ
  files : ℕ → Option File
  mappers : ℕ → List ℕ

/-- A process: its mappings, its page table with the frame of the root, and what the memory calls
read of the rest. `tls` is the base and the size of the thread's TLS mapping. -/
structure Process where
  pid : ℕ
  vmas : VmaSet
  nextMmapAddr : ℕ
  root : ℕ
  table : Node 4
  reloc : Option Reloc
  tls : Option (ℕ × ℕ)
  stackTop : ℕ
  fds : ℕ → Option FileDescriptor

/-- The running process and the world. -/
structure Task where
  world : World
  proc : Process

/-- A call. -/
abbrev Sys := Fallible Stop Task

namespace Sys

/-- Return an error unless a condition holds. -/
def ensure (c : Prop) [Decidable c] (e : Errno) : Sys PUnit :=
  if c then pure ⟨⟩ else throw (.errno e)

/-- A value, or a panic. -/
def orPanic {α : Type} : Option α → Sys α
  | some a => pure a
  | none => throw .panic

def setVmas (vmas : VmaSet) : Sys PUnit := modify fun s ↦ { s with proc := { s.proc with vmas } }

def setTable (table : Node 4) : Sys PUnit := modify fun s ↦ { s with proc := { s.proc with table } }

def setFrames (frames : FrameAllocator) : Sys PUnit :=
  modify fun s ↦ { s with world := { s.world with frames } }

end Sys

/-! ## Pages of a tree -/

/-- The pages from `first` on. -/
def pageRange (first count : ℕ) : List ℕ := List.range' first count

/-- The pages of a mapping. -/
def Vma.pageList (v : Vma) : List ℕ := pageRange (v.start / pageSize) (divCeil v.size pageSize)

/-- Take pages out of a tree, those that are present: their frames, and the tree. -/
def unmapPages : List ℕ → Node 4 → List ℕ × Node 4
  | [], t => ([], t)
  | p :: ps, t =>
    match translate 3 t p with
    | none => unmapPages ps t
    | some (f, _) =>
      let (fs, t) := unmapPages ps (setLeaf 3 t p none)
      (f :: fs, t)

/-- Drop a reference to each frame, in one of the two ways. -/
def dropFrames (drop : FrameAllocator → ℕ → Option FrameAllocator) :
    List ℕ → FrameAllocator → Option FrameAllocator
  | [], fa => some fa
  | f :: fs, fa => (drop fa f).bind (dropFrames drop fs)

/-- `map_address`: a frame that the allocator manages is marked as taken. -/
def mapAddress (page frame : ℕ) (flags : PageFlags) (t : Node 4) (fa : FrameAllocator) :
    Bool × Node 4 × FrameAllocator :=
  match mapPage 3 t page (frame, flags) fa with
  | (false, t, fa) => (false, t, fa)
  | (true, t, fa) =>
    match fa.frameToIndex frame with
    | some idx => (true, t, fa.setFrameAllocated idx)
    | none => (true, t, fa)

/-- Map frames to consecutive pages up to the first that fails: how many were mapped. -/
def mapFrames (flags : PageFlags) : ℕ → List ℕ → Node 4 → FrameAllocator →
    ℕ × Node 4 × FrameAllocator
  | _, [], t, fa => (0, t, fa)
  | page, f :: fs, t, fa =>
    match mapAddress page f flags t fa with
    | (false, t, fa) => (0, t, fa)
    | (true, t, fa) =>
      let (done, t, fa) := mapFrames flags (page + 1) fs t fa
      (done + 1, t, fa)

/-- The flags of a present page after `sys_mprotect`. -/
def protectFlags (prot : VmaProt) (flags : PageFlags) : PageFlags :=
  { flags with writable := prot.write && !flags.cow, noExecute := !prot.exec }

/-- The loop of `sys_mprotect` over the pages. -/
def protectPages (prot : VmaProt) : List ℕ → Node 4 → Node 4
  | [], t => t
  | p :: ps, t =>
    match translate 3 t p with
    | none => protectPages prot ps t
    | some (f, flags) => protectPages prot ps (setLeaf 3 t p (some (f, protectFlags prot flags)))

/-! ## Cached pages -/

namespace World

/-- Drop an `Arc` of a cached page; the last one gives the frame back. -/
def dropPage (w : World) (id : ℕ) : Option World :=
  match w.pages.get id with
  | none => some w
  | some p =>
    if p.refs ≤ 1 then
      (w.frames.deallocateFrame p.frame).map fun frames ↦
        { w with frames := frames, pages := w.pages.erase id }
    else some { w with pages := w.pages.insert { p with refs := p.refs - 1 } }

/-- Drop the `Arc`s in the slots of a mapping. -/
def dropSlots (w : World) : List (Option ℕ) → Option World
  | [] => some w
  | none :: slots => w.dropSlots slots
  | some id :: slots => (w.dropPage id).bind (·.dropSlots slots)

end World

/-- The cached pages that a mapping holds. -/
def Vma.slots (v : Vma) : List (Option ℕ) :=
  match v.backing with
  | .fileBacked _ _ _ _ pages => pages
  | _ => []

/-- A file-backed mapping with other slots. -/
def VmaBacking.mapSlots (f : List (Option ℕ) → List (Option ℕ)) : VmaBacking → VmaBacking
  | .fileBacked inode fileOffset shared writable pages =>
    .fileBacked inode fileOffset shared writable (f pages)
  | other => other

/-- A mapping with other slots. -/
def Vma.mapSlots (f : List (Option ℕ) → List (Option ℕ)) (v : Vma) : Vma :=
  { v with backing := v.backing.mapSlots f }

namespace World

/-- Drop a mapping. -/
def dropVma (w : World) (v : Vma) : Option World := w.dropSlots v.slots

end World

namespace VmaSet

variable {s t : VmaSet}

theorem Tidy.of_ranges (hs : s.Tidy)
    (h : ∀ w ∈ t, ∃ v ∈ s, w.start = v.start ∧ w.endAddr = v.endAddr) : t.Tidy where
  aligned w hw := by
    obtain ⟨v, hv, h₁, h₂⟩ := h w hw
    rw [h₁, h₂]
    exact hs.aligned v hv
  disjoint w hw w' hw' hlt := by
    obtain ⟨v, hv, h₁, h₂⟩ := h w hw
    obtain ⟨v', hv', h₁', -⟩ := h w' hw'
    rw [h₂, h₁']
    exact hs.disjoint v hv v' hv' (by rwa [← h₁, ← h₁'])

end VmaSet

end Edos.Memory

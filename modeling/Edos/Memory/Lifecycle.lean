import Edos.Lib.Transition
import Edos.Memory.Fault

/-!
# Processes

`sys_fork`, the end of a process (`release_mappings`, and what `Thread::free` does around it for the
last thread), and the truncation of a file that processes map. With these and the calls the kernel
is a state machine: `exec` plays one action and says what the caller sees, `step` is the state after
it. A panic is the end of a run.
-/

namespace Edos.Memory

open Fallible Sys

/-! ## Fork -/

/-- A mapping of the child: a file-backed one starts with no pages. -/
def Vma.forChild (v : Vma) : Vma := v.mapSlots fun pages ↦ List.replicate pages.length none

/-- The mappings of the child. -/
def VmaSet.forChild (s : VmaSet) : VmaSet where
  vmas := s.vmas.mapValues Vma.forChild fun _ ↦ rfl
  mmapBase := 0
  mmapBase_aligned := Nat.dvd_zero pageSize

/-- The references of the child to the regions it maps; that a region is being destroyed is not
noticed. -/
def World.incRefs (w : World) : List Vma → World
  | [] => w
  | v :: vs =>
    match v.backing with
    | .sharedMemory shmId =>
      match w.shm.get shmId with
      | none => w.incRefs vs
      | some shm => (w.incRef shm).2.incRefs vs
    | _ => w.incRefs vs

/-- `sys_fork`: the child. -/
def sysFork (childPid : ℕ) : Sys Process := do
  let s ← gets id
  let r ← orPanic (cloneUserPageTablesCow s.proc.vmas s.proc.table s.world.frames)
  setTable r.parent
  setFrames r.frames
  match r.child with
  | none => throw (.errno .ENOMEM)
  | some (root, table) =>
    modify fun t ↦ { t with world := t.world.incRefs s.proc.vmas.vmas.toList }
    pure { s.proc with pid := childPid, vmas := s.proc.vmas.forChild, root := root, table := table }

/-! ## The end of a process -/

/-- `unmap_memory`, page by page. A page that is not present ends it. -/
def unmapMemory : List ℕ → Node 4 → FrameAllocator → Option (Node 4 × FrameAllocator)
  | [], t, fa => some (t, fa)
  | p :: ps, t, fa =>
    match translate 3 t p with
    | none => some (t, fa)
    | some (f, _) => (fa.deallocateFrame f).bind (unmapMemory ps (setLeaf 3 t p none))

/-- `get_page_range`. -/
def pagesOf (addr size : ℕ) : List ℕ :=
  pageRange (addr / pageSize) ((addr + size - 1) / pageSize + 1 - addr / pageSize)

/-- `unmap_memory` in the running process, its error discarded. -/
def unmapMemoryAt (addr size : ℕ) : Sys PUnit := do
  let s ← gets id
  let (table, fa) ← orPanic (unmapMemory (pagesOf addr size) s.proc.table s.world.frames)
  setTable table
  setFrames fa

/-- Unmap pages and leave their frames alone. -/
def forgetPages (pages : List ℕ) : Sys PUnit :=
  modify fun s ↦ { s with proc := { s.proc with table := (unmapPages pages s.proc.table).2 } }

/-- What `release_mappings` does with a mapping. -/
def releaseVma (v : Vma) : Sys PUnit :=
  match v.backing with
  | .anonymous => unmapMemoryAt v.start v.size
  | .tls => pure ⟨⟩
  | .sharedMemory shmId => do
    forgetPages v.pageList
    let w ← gets (·.world)
    let w ← orPanic (w.decRefOf shmId)
    modify fun s ↦ { s with world := w }
  | .physical _ => forgetPages v.pageList
  | .stack => pure ⟨⟩
  | .fileBacked _ _ _ _ _ => releasePages FrameAllocator.decRefcount v.pageList

def userStackSize : ℕ := 8 * 1024 * 1024

/-- `thread_stack_free`. -/
def threadStackFree (stackTop : ℕ) : Sys PUnit :=
  if stackTop < userStackSize then throw .panic
  else releasePages FrameAllocator.deallocateFrame
    (pageRange ((stackTop - userStackSize) / pageSize) (userStackSize / pageSize))

/-- Every entry of a table is unused. -/
def isUnused {n : ℕ} (t : Node (n + 1)) : Bool := (List.finRange 512).all fun i ↦ (t.get i).isNone

/-- The loop of `clean_up_addr_range` over a table of tables: a table that is left empty is freed.
-/
def cleanTables {n : ℕ}
    (walk : Node (n + 1) → FrameAllocator → Option (Node (n + 1) × FrameAllocator)) :
    List (Fin 512) → Node (n + 2) → FrameAllocator → Option (Node (n + 2) × FrameAllocator)
  | [], t, fa => some (t, fa)
  | i :: is, t, fa =>
    match t.get i with
    | none => cleanTables walk is t fa
    | some (frame, table) =>
      (walk table fa).bind fun (table, fa) ↦
        if isUnused table then
          (fa.deallocateFrame frame).bind fun fa ↦ cleanTables walk is (t.set i none) fa
        else cleanTables walk is (t.set i (some (frame, table))) fa

/-- `clean_lower_half`, from a table of level `n + 1` on. -/
def cleanUp : (n : ℕ) → Node (n + 1) → FrameAllocator → Option (Node (n + 1) × FrameAllocator)
  | 0, t, fa => some (t, fa)
  | n + 1, t, fa => cleanTables (cleanUp n) (span (n + 1)) t fa

/-- `clean_lower_half` in the running process. -/
def cleanLowerHalf : Sys PUnit := do
  let s ← gets id
  let (table, fa) ← orPanic (cleanUp 3 s.proc.table s.world.frames)
  setTable table
  setFrames fa

/-- `release_mappings`. -/
def releaseMappings : Sys PUnit := do
  let s ← gets id
  s.proc.vmas.vmas.toList.forM releaseVma
  threadStackFree s.proc.stackTop
  cleanLowerHalf

/-- The part of `Thread::free` for the TLS mapping of the thread. -/
def releaseTls : Sys PUnit := do
  let s ← gets id
  match s.proc.tls with
  | none => pure ⟨⟩
  | some (base, size) =>
    unmapMemoryAt base size
    modify fun t ↦ { t with proc := { t.proc with vmas := (t.proc.vmas.remove base).2 } }

/-- The mappings of a process that is gone drop the cached pages they hold. -/
def dropVmas : List Vma → Sys PUnit
  | [] => pure ⟨⟩
  | v :: vs => do
    let w ← gets (·.world)
    let w ← orPanic (w.dropVma v)
    modify fun s ↦ { s with world := w }
    dropVmas vs

/-- `Thread::free` for the last thread of a process. -/
def exitProcess : Sys PUnit := do
  releaseTls
  releaseMappings
  let s ← gets id
  let fa ← orPanic (s.world.frames.deallocateFrame s.proc.root)
  setFrames fa
  dropVmas s.proc.vmas.vmas.toList

/-! ## Truncation -/

/-- Take the pages from a slot list of a mapping, and drop the cached pages in these slots. -/
def invalidateSlots (v : Vma) : List ℕ → Sys PUnit
  | [] => pure ⟨⟩
  | slot :: slots => do
    releasePages FrameAllocator.decRefcount [v.start / pageSize + slot]
    let w ← gets (·.world)
    let w ← orPanic (w.dropSlots [v.slots.getD slot none])
    modify fun s ↦ { s with world := w }
    invalidateSlots v slots

/-- The mapping with its slots from `first` on empty. -/
def Vma.clearSlots (first : ℕ) (v : Vma) : Vma :=
  v.mapSlots fun pages ↦ pages.take first ++ List.replicate (pages.length - first) none

/-- The first slot of a mapping behind the new end of the file. -/
def firstInvalidSlot (fileOffset newSize : ℕ) : ℕ :=
  if newSize ≤ fileOffset then 0 else divCeil (newSize - fileOffset) pageSize

/-- What `invalidate_mappings_above` does with one mapping. -/
def invalidateVma (inode newSize : ℕ) (v : Vma) : Sys PUnit :=
  match v.backing with
  | .fileBacked ino fileOffset _ _ _ =>
    let first := firstInvalidSlot fileOffset newSize
    let count := v.size / pageSize
    if ino = inode ∧ first < count then do
      invalidateSlots v (List.range' first (count - first))
      modify fun s ↦ { s with proc := { s.proc with
        vmas := s.proc.vmas.findMut v.start (Vma.clearSlots first) } }
    else pure ⟨⟩
  | _ => pure ⟨⟩

/-- The pass of `invalidate_mappings_above` over the mappings of one process. -/
def invalidateVmas (inode newSize : ℕ) : List Vma → Sys PUnit
  | [] => pure ⟨⟩
  | v :: vs => do
    invalidateVma inode newSize v
    invalidateVmas inode newSize vs

namespace World

/-- `invalidate_from` over the pages of the cache. -/
def invalidateFrom (w : World) (inode fromPage : ℕ) : List CachedPage → Option World
  | [] => some w
  | p :: ps =>
    if p.inode = inode ∧ p.cached = true ∧ fromPage ≤ p.idx then
      (World.dropPage { w with pages := w.pages.insert { p with cached := false } } p.id).bind
        fun w ↦ w.invalidateFrom inode fromPage ps
    else w.invalidateFrom inode fromPage ps

end World

/-! ## The kernel -/

/-- The processes and the world. -/
structure Kernel where
  world : World
  procs : OrdMap Process Process.pid
  nextPid : ℕ

/-- What happens to a kernel. The argument of a fault is what the file system reads for the page;
that of a truncation is what it says about the file afterwards; the last two of a region are the
frames by which the heap grows. -/
inductive Action where
  | mmap (pid addr length prot flags r8 r9 : ℕ)
  | mprotect (pid addr length prot : ℕ)
  | munmap (pid addr length : ℕ)
  | shmCreate (pid size vec node : ℕ)
  | shmMap (pid shmId addrHint prot : ℕ)
  | shmUnmap (pid addr : ℕ)
  | shmDestroy (pid shmId : ℕ)
  | demandFault (pid addr : ℕ) (isWrite isExec : Bool) (fill : Option (List UInt8))
  | cowFault (pid addr : ℕ)
  | fork (pid : ℕ)
  | exit (pid : ℕ)
  | truncate (inode newSize : ℕ) (after : Option File)

namespace Kernel

/-- Run a call for a process. -/
def asProcess {α : Type} (k : Kernel) (pid : ℕ) (m : Sys α) : Option (Except Stop α × Kernel) :=
  (k.procs.get pid).bind fun p ↦
    match m ⟨k.world, p⟩ with
    | (.error .panic, _) => none
    | (r, t) =>
      some (r, { k with world := t.world, procs := k.procs.insert { t.proc with pid := pid } })

/-- A fork, and the child among the processes. -/
def forkProcess (k : Kernel) (pid : ℕ) : Option (Except Stop ℕ × Kernel) :=
  (k.asProcess pid (sysFork k.nextPid)).map fun (r, k') ↦
    match r with
    | .error e => (.error e, k')
    | .ok child =>
      (.ok k.nextPid, { k' with procs := k'.procs.insert child, nextPid := k.nextPid + 1 })

/-- The end of a process. -/
def endProcess (k : Kernel) (pid : ℕ) : Option (Except Stop ℕ × Kernel) :=
  (k.asProcess pid exitProcess).map fun (r, k') ↦
    (r.map fun _ ↦ 0, { k' with procs := k'.procs.erase pid })

/-- `invalidate_mappings_above`, over the processes that the inode knows. -/
def invalidateMappersAbove (k : Kernel) (inode newSize : ℕ) : List ℕ → Option Kernel
  | [] => some k
  | pid :: pids =>
    match k.procs.get pid with
    | none => k.invalidateMappersAbove inode newSize pids
    | some p =>
      (k.asProcess pid (invalidateVmas inode newSize p.vmas.vmas.toList)).bind fun (_, k) ↦
        k.invalidateMappersAbove inode newSize pids

/-- `truncate` of the VFS, after the file system has done its part. -/
def truncateFile (k : Kernel) (inode newSize : ℕ) (after : Option File) :
    Option (Except Stop ℕ × Kernel) :=
  let k := { k with world := { k.world with files := Function.update k.world.files inode after } }
  (k.invalidateMappersAbove inode newSize (k.world.mappers inode)).bind fun k ↦
    (k.world.invalidateFrom inode (divCeil newSize pageSize) k.world.pages.toList).map fun w ↦
      (.ok 0, { k with world := w })

/-- An action: what the caller sees, and the kernel after it. -/
def exec (k : Kernel) : Action → Option (Except Stop ℕ × Kernel)
  | .mmap pid addr length prot flags r8 r9 => k.asProcess pid (sysMmap addr length prot flags r8 r9)
  | .mprotect pid addr length prot => k.asProcess pid (sysMprotect addr length prot)
  | .munmap pid addr length => k.asProcess pid (sysMunmap addr length)
  | .shmCreate pid size vec node => k.asProcess pid (sysShmCreate size vec node)
  | .shmMap pid shmId addrHint prot => k.asProcess pid (sysShmMap shmId addrHint prot)
  | .shmUnmap pid addr => k.asProcess pid (sysShmUnmap addr)
  | .shmDestroy pid shmId => k.asProcess pid (sysShmDestroy shmId)
  | .demandFault pid addr isWrite isExec fill =>
    (k.asProcess pid (handleDemandFault addr isWrite isExec fill)).map fun (r, k) ↦
      (r.map fun _ ↦ 0, k)
  | .cowFault pid addr =>
    (k.asProcess pid (cowFault addr)).map fun (r, k) ↦ (r.map Bool.toNat, k)
  | .fork pid => k.forkProcess pid
  | .exit pid => k.endProcess pid
  | .truncate inode newSize after => k.truncateFile inode newSize after

/-- The kernel after an action. -/
def step (k : Kernel) (a : Action) : Option Kernel := (k.exec a).map Prod.snd

variable {k k' : Kernel} {pid : ℕ} {α : Type} {m : Sys α} {r : Except Stop α}

/-- **A call that was run for a process** and did not panic. -/
theorem asProcess_eq_some (h : k.asProcess pid m = some (r, k')) :
    ∃ p t, p ∈ k.procs ∧ p.pid = pid ∧ m ⟨k.world, p⟩ = (r, t) ∧ r ≠ .error .panic ∧
      k' = { k with world := t.world, procs := k.procs.insert { t.proc with pid := pid } } := by
  obtain ⟨p, hp, h⟩ := Option.bind_eq_some_iff.mp h
  obtain ⟨hmem, hpid⟩ := OrdMap.mem_of_get hp
  cases hrun : m ⟨k.world, p⟩ with
  | mk r₀ t =>
    rw [hrun] at h
    split at h
    · cases h
    · next r₁ t₁ hne heq =>
      cases heq
      cases h
      exact ⟨p, t, hmem, hpid, hrun, hne, rfl⟩

end Kernel

/-! ## A small kernel -/

/-- A kernel with sixteen frames, of which the first is the root table of its one process. The
process maps nothing; it has the file `7` of two pages open for reading, as `3`, and for writing, as
`4`. -/
def oneProcess : Kernel where
  world :=
    { frames :=
        { bitmap := [1, 0]
          refcounts := 1 :: List.replicate 15 0
          startFrame := 0
          frameCount := 16
          nextFreeHint := 0
          frameCount_le_bitmap := by decide
          frameCount_le_refcounts := by decide }
      contents := fun _ ↦ List.replicate pageSize 0
      kernelTable := emptyTable 3
      allowedPhys := [(0xfd000000, 0xfe000000)]
      shm := OrdMap.empty
      nextShmId := 1
      pages := OrdMap.empty
      nextPageId := 0
      files := fun inode ↦ if inode = 7 then some ⟨some (2 * pageSize), true⟩ else none
      mappers := fun _ ↦ [] }
  procs := OrdMap.empty.insert
    { pid := 1
      vmas := VmaSet.new
      nextMmapAddr := 0x10000000
      root := 0
      table := emptyTable 3
      reloc := none
      tls := none
      stackTop := 0x7ff000000000
      fds := fun fd ↦ if fd = 3 ∨ fd = 4 then some (.fsFile true (fd = 4) (some 7)) else none }
  nextPid := 2

end Edos.Memory

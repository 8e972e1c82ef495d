import Edos.Memory.Machine

/-!
# The memory calls

`sys_mmap`, `sys_mprotect`, `sys_munmap` and the four calls for shared memory, with every branch.
The masks are numbers whose bits are tested as the source does.

An address becomes a `VirtAddr` only if it is canonical, and the kernel panics otherwise
(`virtAddr`).
-/

namespace Edos.Memory

open Fallible Sys

/-! ## Masks and addresses -/

/-- `vma_prot_from`. -/
def vmaProtFrom (prot : ℕ) : VmaProt := ⟨prot.testBit 0, prot.testBit 1, prot.testBit 2⟩

def mapShared (flags : ℕ) : Bool := flags.testBit 0

def mapPrivate (flags : ℕ) : Bool := flags.testBit 1

def mapAnonymous (flags : ℕ) : Bool := flags.testBit 5

def mapPhysical (flags : ℕ) : Bool := flags.testBit 6

def mapWriteCombining (flags : ℕ) : Bool := flags.testBit 7

/-- An address whose upper bits are copies of bit 47. -/
def Canonical (addr : ℕ) : Prop := addr < 2 ^ 47 ∨ 2 ^ 64 - 2 ^ 47 ≤ addr ∧ addr < 2 ^ 64

instance (addr : ℕ) : Decidable (Canonical addr) := inferInstanceAs (Decidable (_ ∨ _))

/-- `VirtAddr::new`. -/
def virtAddr (addr : ℕ) : Sys PUnit := if Canonical addr then pure ⟨⟩ else throw .panic

/-- The errors of `VmaSet`, as `claim_range` returns them. -/
def VmaError.errno : VmaError → Errno
  | .outOfUserSpace => .EINVAL
  | .noSpace => .ENOMEM

/-- The end of a range of whole pages, if it does not wrap. -/
def rangeEnd (addr length : ℕ) : Option ℕ := (pageRoundUp length).bind (checkedAdd addr)

/-! ## `sys_mmap` -/

/-- The branch of `claim_range` for an address that the caller chose. The mapping that starts there,
if there is one, is replaced, and drops its cached pages. -/
def claimAt (addr length : ℕ) (prot : VmaProt) (flags : VmaFlags)
    (backing : VmaBacking) : Sys ℕ := do
  match rangeEnd addr length with
  | none => throw (.errno .EINVAL)
  | some endAddr =>
    ensure (endAddr ≤ userVaEnd) .EINVAL
    virtAddr endAddr
    let s ← gets id
    match s.proc.vmas.insert ⟨addr, endAddr, prot, flags, backing⟩ with
    | .error e => throw (.errno e.errno)
    | .ok vmas =>
      setVmas vmas
      match s.proc.vmas.vmas.get addr with
      | none => pure addr
      | some old =>
        let world ← orPanic (s.world.dropVma old)
        modify fun t ↦ { t with world := world }
        pure addr

/-- The branch of `claim_range` in which the kernel picks the range. -/
def claimFree (length : ℕ) (prot : VmaProt) (flags : VmaFlags) (backing : VmaBacking) : Sys ℕ := do
  let s ← gets id
  match s.proc.vmas.reserve s.proc.nextMmapAddr length prot flags backing with
  | (.error e, vmas, hint) =>
    modify fun t ↦ { t with proc := { t.proc with vmas := vmas, nextMmapAddr := hint } }
    throw (.errno e.errno)
  | (.ok start, vmas, hint) =>
    virtAddr hint
    modify fun t ↦ { t with proc := { t.proc with vmas := vmas, nextMmapAddr := hint } }
    pure start

/-- `claim_range`. -/
def claimRange (addr length : ℕ) (prot : VmaProt) (flags : VmaFlags)
    (backing : VmaBacking) : Sys ℕ :=
  if addr = 0 then claimFree length prot flags backing else claimAt addr length prot flags backing

/-- `is_physical_range_allowed`. The sum panics if it does not fit. -/
def World.isPhysicalRangeAllowed (w : World) (start size : ℕ) : Option Bool :=
  (checkedAdd start size).map fun stop ↦
    w.allowedPhys.any fun (rStart, rEnd) ↦ rStart ≤ start ∧ stop ≤ rEnd

/-- Map frames behind a claimed range, or take back what was mapped and the range. -/
def installFrames (mapAddr : ℕ) (flags : PageFlags) (frames : List ℕ) : Sys PUnit := do
  let s ← gets id
  let (done, table, fa) := mapFrames flags (mapAddr / pageSize) frames s.proc.table s.world.frames
  setFrames fa
  if done < frames.length then
    setTable (unmapPages (pageRange (mapAddr / pageSize) done) table).2
    setVmas (s.proc.vmas.remove mapAddr).2
    throw (.errno .ENOMEM)
  else setTable table

/-- The `MAP_PHYSICAL` branch of `sys_mmap`. The leaves are writable whatever the caller asked for.
-/
def mmapPhysical (addr length prot flags physAddr : ℕ) : Sys ℕ := do
  ensure (physAddr % pageSize = 0) .EINVAL
  let world ← gets (·.world)
  let allowed ← orPanic (world.isPhysicalRangeAllowed physAddr length)
  ensure (allowed = true) .EPERM
  let mapAddr ← claimRange addr length (vmaProtFrom prot) ⟨true, false, false, false⟩
    (.physical physAddr)
  installFrames mapAddr ⟨true, true, true, false, mapWriteCombining flags⟩
    (pageRange (physAddr / pageSize) (divCeil length pageSize))
  pure mapAddr

/-- The anonymous branch of `sys_mmap`. -/
def mmapAnonymous (addr length prot flags : ℕ) : Sys ℕ := do
  ensure (mapPrivate flags = true ∨ mapShared flags = true) .EINVAL
  claimRange addr length (vmaProtFrom prot) ⟨true, false, false, true⟩ .anonymous

/-- The file-backed branch of `sys_mmap`. -/
def mmapFile (addr length prot flags fd fileOffset : ℕ) : Sys ℕ := do
  ensure (mapShared flags = true ∨ mapPrivate flags = true) .EINVAL
  ensure (¬(mapShared flags = true ∧ mapPrivate flags = true)) .EINVAL
  ensure (fileOffset % pageSize = 0) .EINVAL
  ensure (length % pageSize = 0) .EINVAL
  let s ← gets id
  match s.proc.fds fd with
  | some (.fsFile readable writable inode) =>
    ensure (readable = true) .EACCES
    ensure (¬(mapShared flags = true ∧ prot.testBit 1 = true ∧ writable = false)) .EACCES
    match inode with
    | none => throw (.errno .EINVAL)
    | some inode =>
      ensure ((s.world.files inode).any (·.pageCacheOps) = true) .EINVAL
      let mapAddr ← claimRange addr length (vmaProtFrom prot)
        ⟨mapPrivate flags, mapShared flags, false, true⟩
        (.fileBacked inode fileOffset (mapShared flags) (prot.testBit 1)
          (List.replicate (length / pageSize) none))
      modify fun t ↦
        { t with world := { t.world with
            mappers := Function.update t.world.mappers inode
              (if t.proc.pid ∈ t.world.mappers inode then t.world.mappers inode
                else t.world.mappers inode ++ [t.proc.pid]) } }
      pure mapAddr
  | _ => throw (.errno .EBADF)

/-- `sys_mmap`. -/
def sysMmap (addr length prot flags r8 r9 : ℕ) : Sys ℕ := do
  ensure (length ≠ 0) .EINVAL
  ensure (addr % pageSize = 0) .EINVAL
  if mapPhysical flags then mmapPhysical addr length prot flags r8
  else if mapAnonymous flags ∨ r8 = 2 ^ 64 - 1 then mmapAnonymous addr length prot flags
  else mmapFile addr length prot flags r8 r9

/-! ## `sys_mprotect` -/

/-- The cursor of `sys_mprotect`: how far the mappings reach without a hole. -/
def coveredTo : ℕ → List Vma → ℕ
  | cursor, [] => cursor
  | cursor, v :: vs => if v.start = cursor then coveredTo v.endAddr vs else cursor

/-- The mappings in a range, after the cuts at its ends. -/
def VmaSet.inside (s : VmaSet) (start endAddr : ℕ) : List Vma :=
  s.vmas.toList.filter fun v ↦ start ≤ v.start ∧ v.endAddr ≤ endAddr

/-- Write the protection of the mappings at the given addresses. -/
def VmaSet.retag (prot : VmaProt) : List Vma → VmaSet → VmaSet
  | [], s => s
  | v :: vs, s => retag prot vs (s.findMut v.start fun w ↦ { w with prot := prot })

/-- `sys_mprotect`. -/
def sysMprotect (addr length prot : ℕ) : Sys ℕ := do
  ensure (length ≠ 0 ∧ addr % pageSize = 0 ∧ prot < 8) .EINVAL
  match rangeEnd addr length with
  | none => throw (.errno .EINVAL)
  | some endAddr =>
    ensure (endAddr ≤ userVaEnd) .EINVAL
    virtAddr endAddr
    let s ← gets id
    let vmas := (s.proc.vmas.splitAt addr).splitAt endAddr
    setVmas vmas
    let spans := vmas.inside addr endAddr
    ensure (coveredTo addr spans = endAddr) .ENOMEM
    setVmas (vmas.retag (vmaProtFrom prot) spans)
    setTable (protectPages (vmaProtFrom prot) (spans.flatMap Vma.pageList) s.proc.table)
    pure 0

/-! ## `sys_munmap` -/

/-- Unmap the pages of a mapping from the process's table and drop a reference to each frame. -/
def releasePages (drop : FrameAllocator → ℕ → Option FrameAllocator) (pages : List ℕ) :
    Sys PUnit := do
  let s ← gets id
  let (frames, table) := unmapPages pages s.proc.table
  setTable table
  let fa ← orPanic (dropFrames drop frames s.world.frames)
  setFrames fa

/-- Put a mapping back and report an error. -/
def putBack (v : Vma) : Sys Bool := do
  modify fun s ↦ { s with proc := { s.proc with vmas := s.proc.vmas.insertValidated v } }
  pure true

/-- What `sys_munmap` does with a mapping it has taken out: whether that is an error. A physical
mapping is unmapped from the table of the kernel. -/
def unmapVma (v : Vma) : Sys Bool :=
  match v.backing with
  | .anonymous => do
    releasePages FrameAllocator.deallocateFrame v.pageList
    pure false
  | .physical _ => do
    modify fun s ↦ { s with world := { s.world with
      kernelTable := (unmapPages v.pageList s.world.kernelTable).2 } }
    pure false
  | .fileBacked _ _ _ _ pages => do
    releasePages FrameAllocator.decRefcount v.pageList
    let world ← gets (·.world)
    let world ← orPanic (world.dropSlots pages)
    modify fun s ↦ { s with world := world }
    pure false
  | .sharedMemory _ => putBack v
  | .tls => putBack v
  | .stack => putBack v

/-- The loop of `sys_munmap` over what was taken out: whether there was an error. -/
def unmapVmas : List Vma → Sys Bool
  | [] => pure false
  | v :: vs => do
    let bad ← unmapVma v
    let worse ← unmapVmas vs
    pure (bad || worse)

/-- `sys_munmap`. -/
def sysMunmap (addr length : ℕ) : Sys ℕ := do
  ensure (length ≠ 0 ∧ addr % pageSize = 0) .EINVAL
  virtAddr addr
  match rangeEnd addr length with
  | none => throw (.errno .EINVAL)
  | some endAddr =>
    virtAddr endAddr
    let s ← gets id
    let (removed, vmas) := s.proc.vmas.removeRange addr endAddr
    setVmas vmas
    ensure (removed ≠ []) .EINVAL
    let bad ← unmapVmas removed
    ensure (bad = false) .EINVAL
    pure 0

/-! ## Shared memory -/

/-- The loop of `SharedMemory::new` that allocates: the frames, and whether there were enough. -/
def allocateFrames : ℕ → FrameAllocator → Bool × List ℕ × FrameAllocator
  | 0, fa => (true, [], fa)
  | n + 1, fa =>
    match fa.allocateFrame with
    | none => (false, [], fa)
    | some (f, fa) =>
      let (ok, fs, fa) := allocateFrames n fa
      (ok, f :: fs, fa)

namespace FrameAllocator

/-- `stats().allocated_frames`. -/
def allocatedFrames (fa : FrameAllocator) : ℕ :=
  (List.range (fa.bitmap.length * 8)).countP (bitAt fa.bitmap)

/-- `stats().free_frames`. -/
def freeFrames (fa : FrameAllocator) : ℕ := fa.frameCount - fa.allocatedFrames

end FrameAllocator

/-- The frames by which an allocation makes the kernel heap grow. A heap that cannot be mapped
panics; its frames are not given back. -/
def growHeap (frames : ℕ) : Sys PUnit := do
  let w ← gets (·.world)
  match allocateFrames frames w.frames with
  | (true, _, fa) => setFrames fa
  | (false, _, _) => throw .panic

/-- `sys_shm_create` and `SharedMemory::new`. The heap may grow, by `vecFrames` for the list of the
frames and by `nodeFrames` for the region and its entry in the registry. -/
def sysShmCreate (size vecFrames nodeFrames : ℕ) : Sys ℕ := do
  ensure (size ≠ 0) .EINVAL
  match pageRoundUp size with
  | none => throw (.errno .EINVAL)
  | some aligned =>
    let w ← gets (·.world)
    ensure (aligned / pageSize ≤ w.frames.freeFrames) .ENOMEM
    growHeap vecFrames
    let w ← gets (·.world)
    match allocateFrames (aligned / pageSize) w.frames with
    | (true, f :: fs, fa) =>
      setFrames fa
      growHeap nodeFrames
      modify fun s ↦ { s with world := { s.world with
        contents := fun g ↦ if g ∈ f :: fs then List.replicate pageSize 0 else s.world.contents g
        nextShmId := w.nextShmId + 1
        shm := s.world.shm.insert ⟨w.nextShmId, f :: fs, 0, false, List.cons_ne_nil f fs⟩ } }
      pure w.nextShmId
    | (_, _, fa) =>
      setFrames fa
      throw (.errno .ENOMEM)

namespace World

/-- Drop a region that the registry no longer has. -/
def dropShm (w : World) (shm : SharedMemory) : Option World :=
  (dropFrames FrameAllocator.deallocateFrame shm.frames w.frames).map fun frames ↦
    { w with frames := frames, shm := w.shm.erase shm.id }

/-- `inc_ref`: whether the region may still be mapped. -/
def incRef (w : World) (shm : SharedMemory) : Bool × World :=
  if shm.destroyed then (false, w)
  else (true, { w with shm := w.shm.insert { shm with refCount := shm.refCount + 1 } })

/-- `dec_ref`, and what follows when it takes the region out of the registry. -/
def decRef (w : World) (shm : SharedMemory) : Option World :=
  if shm.refCount = 1 ∧ shm.destroyed then w.dropShm shm
  else some { w with
    shm := w.shm.insert { shm with refCount := (shm.refCount + (2 ^ 64 - 1)) % 2 ^ 64 } }

/-- `dec_ref` of the region with a number, if there is one. -/
def decRefOf (w : World) (id : ℕ) : Option World :=
  match w.shm.get id with
  | none => some w
  | some shm => w.decRef shm

end World

/-- `sys_shm_map`. -/
def sysShmMap (shmId addrHint prot : ℕ) : Sys ℕ := do
  let w ← gets (·.world)
  match w.shm.get shmId with
  | none => throw (.errno .EINVAL)
  | some shm =>
    ensure (addrHint = 0 ∨ addrHint % pageSize = 0 ∧ addrHint < userVaEnd) .EINVAL
    let mapAddr ← claimRange addrHint shm.size (vmaProtFrom prot) ⟨false, true, false, false⟩
      (.sharedMemory shmId)
    installFrames mapAddr ⟨prot.testBit 1, true, !prot.testBit 2, false, false⟩ shm.frames
    let s ← gets id
    match s.world.incRef shm with
    | (true, world) =>
      modify fun t ↦ { t with world := world }
      pure mapAddr
    | (false, _) =>
      let pages := pageRange (mapAddr / pageSize) (divCeil shm.size pageSize)
      setTable (unmapPages pages s.proc.table).2
      setVmas (s.proc.vmas.remove mapAddr).2
      throw (.errno .EINVAL)

/-- `sys_shm_unmap`: the reference goes first, the pages after it. -/
def sysShmUnmap (addr : ℕ) : Sys ℕ := do
  virtAddr addr
  let s ← gets id
  match s.proc.vmas.remove addr with
  | (none, _) => throw (.errno .EINVAL)
  | (some vma, vmas) =>
    match vma.backing with
    | .sharedMemory shmId =>
      setVmas vmas
      let world ← orPanic (s.world.decRefOf shmId)
      modify fun t ↦ { t with world := world }
      setTable (unmapPages vma.pageList s.proc.table).2
      pure 0
    | _ =>
      setVmas (vmas.insertValidated vma)
      throw (.errno .EINVAL)

/-- `sys_shm_destroy`. -/
def sysShmDestroy (shmId : ℕ) : Sys ℕ := do
  let w ← gets (·.world)
  match w.shm.get shmId with
  | none => throw (.errno .EINVAL)
  | some shm =>
    let shm := { shm with destroyed := true }
    if 0 < shm.refCount then
      modify fun s ↦ { s with world := { s.world with shm := s.world.shm.insert shm } }
      pure 0
    else
      let world ← orPanic (w.dropShm shm)
      modify fun s ↦ { s with world := world }
      pure 0

end Edos.Memory

import Edos.Memory.Syscalls

/-!
# Page faults

`handle_demand_fault` brings in a page that is not present, from the mapping that covers the
address: a zeroed frame, a page of the file's cache, or, where relocations apply, a private copy of
such a page that has been patched. `handle_cow_fault` is the handler of a write to a page that is
present.

What the file system reads for a page that is not cached is an argument of the fault, and so is that
it cannot read it.
-/

namespace Edos.Memory

open Fallible Function Sys

inductive FaultSource where
  | zero
  | fileBacked (inode pageIdx : ℕ) (shared : Bool)
  deriving DecidableEq, Repr

/-- `lookup_fault_vma`: the flags of the leaf and where the page comes from. -/
def lookupFaultVma (vmas : VmaSet) (faultAddr : ℕ) : Option (PageFlags × FaultSource) :=
  (vmas.find faultAddr).bind fun vma ↦
    if vma.flags.lazy = false then none
    else
      match vma.backing with
      | .anonymous => some (⟨vma.prot.write, true, !vma.prot.exec, false, false⟩, .zero)
      | .stack => some (⟨vma.prot.write, true, !vma.prot.exec, false, false⟩, .zero)
      | .fileBacked inode fileOffset shared _ _ =>
        some (⟨shared && vma.prot.write, true, !vma.prot.exec, !shared, false⟩,
          .fileBacked inode ((fileOffset + (alignDown faultAddr - vma.start)) / pageSize) shared)
      | _ => none

/-! ## The page cache -/

/-- The page of a file that is cached. -/
def World.cachedPage (w : World) (inode idx : ℕ) : Option CachedPage :=
  w.pages.toList.find? fun p ↦ p.inode = inode ∧ p.idx = idx ∧ p.cached

/-- `get_or_fill_page`: a page with a reference for the caller, or nothing if it cannot be had. -/
def getOrFillPage (inode idx : ℕ) (fill : Option (List UInt8)) : Sys (Option CachedPage) := do
  let w ← gets (·.world)
  match w.cachedPage inode idx with
  | some p =>
    let p := { p with refs := p.refs + 1 }
    modify fun s ↦ { s with world := { s.world with pages := s.world.pages.insert p } }
    pure (some p)
  | none =>
    match w.frames.allocateFrame with
    | none => pure none
    | some (frame, fa) =>
      setFrames fa
      match fill with
      | none =>
        let fa ← orPanic (fa.deallocateFrame frame)
        setFrames fa
        pure none
      | some bytes =>
        let p : CachedPage := ⟨w.nextPageId, inode, idx, frame, true, 2⟩
        modify fun s ↦ { s with world := { s.world with
          contents := update s.world.contents frame bytes
          pages := s.world.pages.insert p
          nextPageId := w.nextPageId + 1 } }
        pure (some p)

/-- Drop the caller's reference. -/
def releasePage (id : ℕ) : Sys PUnit := do
  let w ← gets (·.world)
  let w ← orPanic (w.dropPage id)
  modify fun s ↦ { s with world := w }

/-- `store_cached_page_on_vma`: the reference goes to the slot of the page, or it is dropped. -/
def storeCachedPageOnVma (faultAddr pageId : ℕ) : Sys PUnit := do
  let s ← gets id
  match s.proc.vmas.find faultAddr with
  | none => releasePage pageId
  | some v =>
    let slot := (alignDown faultAddr - v.start) / pageSize
    if alignDown faultAddr < v.start ∨ v.slots.length ≤ slot then releasePage pageId
    else
      setVmas (s.proc.vmas.findMut faultAddr (Vma.mapSlots (·.set slot (some pageId))))
      match v.slots.getD slot none with
      | none => pure ⟨⟩
      | some old => releasePage old

/-! ## Demand faults -/

/-- The size check of a file-backed fault: the file system is there, and the page is not behind the
end of the file. -/
def checkFile (inode pageIdx : ℕ) (gone past : FaultReject) : Sys File := do
  let w ← gets (·.world)
  match w.files inode with
  | none => throw (.reject gone)
  | some file =>
    if file.size.any (· ≤ pageIdx * pageSize) then throw (.reject past) else pure file

/-- The page of a file that has a cache. -/
def filePage (file : File) (inode pageIdx : ℕ) (fill : Option (List UInt8)) :
    Sys (Option CachedPage) :=
  if file.pageCacheOps then getOrFillPage inode pageIdx fill else pure none

/-- The file-backed path of `fault_in_page`. -/
def faultInFilePage (faultAddr : ℕ) (flags : PageFlags) (inode pageIdx : ℕ)
    (fill : Option (List UInt8)) : Sys PUnit := do
  let w ← gets (·.world)
  let size := ((w.files inode).bind File.size).getD 0
  let file ← checkFile inode pageIdx .mountGone (.pastEof pageIdx size)
  let page ← filePage file inode pageIdx fill
  match page with
  | none => throw (.reject (.fillFailed pageIdx))
  | some page =>
    let s ← gets id
    let fa ← orPanic (s.world.frames.incRefcount page.frame)
    match mapPage 3 s.proc.table (faultAddr / pageSize) (page.frame, flags) fa with
    | (true, table, fa) =>
      setTable table
      setFrames fa
      storeCachedPageOnVma faultAddr page.id
    | (false, table, fa) =>
      setTable table
      let fa ← orPanic (fa.decRefcount page.frame)
      setFrames fa
      releasePage page.id
      throw (.reject .mapFailed)

/-- A frame of its own for a page: mapped, or given back. -/
def installPrivate (faultAddr : ℕ) (flags : PageFlags) (frame : ℕ) (bytes : List UInt8)
    (failed : FaultReject) : Sys PUnit := do
  let s ← gets id
  modify fun s ↦ { s with world := { s.world with
    contents := update s.world.contents frame bytes } }
  match mapPage 3 s.proc.table (faultAddr / pageSize) (frame, flags) s.world.frames with
  | (true, table, fa) =>
    setTable table
    setFrames fa
  | (false, table, fa) =>
    setTable table
    let fa ← orPanic (fa.deallocateFrame frame)
    setFrames fa
    throw (.reject failed)

/-- The zero-fill path of `fault_in_page`. -/
def faultInZeroPage (faultAddr : ℕ) (flags : PageFlags) : Sys PUnit := do
  let s ← gets id
  match s.world.frames.allocateFrame with
  | none => throw (.reject .noFrame)
  | some (frame, fa) =>
    setFrames fa
    installPrivate faultAddr flags frame (List.replicate pageSize 0) .mapFailed

/-- `apply_relocs_to_page`: the entries of the page are written into it. -/
def Reloc.applyToPage (r : Reloc) (pageOffset : ℕ) (bytes : List UInt8) : List UInt8 :=
  (r.entries.filter fun e ↦ e.1 / pageSize = pageOffset / pageSize).foldl
    (fun bytes e ↦ patch bytes (e.1 % pageSize) (leBytes 8 ((r.loadBase + e.2) % 2 ^ 64))) bytes

/-- `fault_in_reloc_page`, for a fault on a private file page in the range of the relocations. The
leaf is writable whatever the mapping says. -/
def faultInRelocPage (faultAddr : ℕ) (flags : PageFlags) (inode pageIdx : ℕ) (r : Reloc)
    (fill : Option (List UInt8)) : Sys PUnit := do
  let file ← checkFile inode pageIdx .relocFailed .relocFailed
  let page ← filePage file inode pageIdx fill
  match page with
  | none => throw (.reject .relocFailed)
  | some page =>
    let s ← gets id
    match s.world.frames.allocateFrame with
    | none =>
      releasePage page.id
      throw (.reject .relocFailed)
    | some (frame, fa) =>
      setFrames fa
      releasePage page.id
      installPrivate faultAddr { flags with writable := true, cow := false } frame
        (r.applyToPage ((alignDown faultAddr - r.loadBase) % 2 ^ 32)
          (s.world.contents page.frame)) .relocFailed

/-- The relocations, if they apply to the page of an address. -/
def Process.relocAt (p : Process) (addr : ℕ) : Option Reloc :=
  p.reloc.filter fun r ↦ r.rangeStart ≤ alignDown addr ∧ alignDown addr < r.rangeEnd

/-- `handle_demand_fault`. A fault on a page that is present is a protection violation. -/
def handleDemandFault (faultAddr : ℕ) (isWrite isExec : Bool) (fill : Option (List UInt8)) :
    Sys PUnit := do
  let s ← gets id
  if (translate 3 s.proc.table (faultAddr / pageSize)).isSome then throw (.reject .protection)
  else
    match s.proc.vmas.find faultAddr with
    | none => throw (.reject .noVma)
    | some vma =>
      if isWrite && !vma.prot.write then throw (.reject .writeToReadOnly)
      else if isExec && !vma.prot.exec then throw (.reject .execOnNoExec)
      else
        match lookupFaultVma s.proc.vmas faultAddr with
        | none => throw (.reject .notFaultable)
        | some (flags, .zero) => faultInZeroPage faultAddr flags
        | some (flags, .fileBacked inode pageIdx true) =>
          faultInFilePage faultAddr flags inode pageIdx fill
        | some (flags, .fileBacked inode pageIdx false) =>
          match s.proc.relocAt faultAddr with
          | some r => faultInRelocPage faultAddr flags inode pageIdx r fill
          | none => faultInFilePage faultAddr flags inode pageIdx fill

/-- `handle_cow_fault` in the running process: whether the fault was resolved. -/
def cowFault (faultAddr : ℕ) : Sys Bool := do
  let s ← gets id
  let o ← orPanic
    (handleCowFault s.proc.vmas s.proc.table s.world.frames s.world.contents faultAddr)
  setTable o.table
  modify fun t ↦ { t with world := { t.world with frames := o.frames, contents := o.contents } }
  pure o.resolved

end Edos.Memory

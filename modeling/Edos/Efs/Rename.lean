import Edos.Efs.DirMap
import Edos.Lib.Tree

/-!
# Renaming

A rename goes through three layers. `api::rename` follows the symbolic links in the leading
components of both paths, `vfs::rename` refuses to move between two file systems, and
`EfsDriver::rename` looks up the two parents and moves one entry. A file that is in the way is
removed, a directory is not.

None of the layers compares the two paths. If the new path goes through the directory that is moved,
its entry is taken out of the tree and put into itself: no path leads to it any more, and the call
succeeds (`rename_detaches`). In all other cases the directories stay a tree (`rename_tree_iff`).

Directories are the ones of `DirMap`, bytes and all, with the exception that each of them has its
own blocks. The file system is the only one that is mounted.
-/

namespace Edos

open Function List Option

/-! ## Paths -/

/-- The components of an absolute path. -/
abbrev Path := List String

namespace Path

/-- One round of `normalize`. -/
def push (stack : Path) (comp : String) : Path :=
  if comp = "" ∨ comp = "." then stack
  else if comp = ".." then stack.dropLast
  else stack ++ [comp]

def normalize (path : Path) : Path := path.foldl push []

def parentOrRoot (path : Path) : Path := path.dropLast

def lastComponent (path : Path) : Option String := path.getLast?

/-- A component that stands for an entry. -/
def Proper (comp : String) : Prop := comp ≠ "" ∧ comp ≠ "." ∧ comp ≠ ".."

instance (comp : String) : Decidable (Proper comp) := instDecidableAnd

end Path

/-- How the last component of a path is treated when it is a symbolic link. -/
inductive LinkMode where
  | follow
  | noFollow
  deriving DecidableEq

/-- Where a symbolic link points. -/
inductive LinkEscape where
  | absolute (components : Path)
  | aboveMount (up : ℕ) (components : Path)

/-- One round of `splice_symlink`. -/
def spliceStep : Path × ℕ → String → Path × ℕ
  | (out, up), comp =>
    if comp = "" ∨ comp = "." then (out, up)
    else if comp = ".." then if out = [] then (out, up + 1) else (out.dropLast, up)
    else (out ++ [comp], up)

/-- `splice_symlink`. -/
def spliceSymlink (resolved : Path) (target : String) (rest : Path) : LinkEscape :=
  let absolute := target.startsWith "/"
  let (out, up) := (target.splitOn "/" ++ rest).foldl spliceStep
    (if absolute then [] else resolved, 0)
  if absolute then .absolute out else .aboveMount up out

/-! ## The file system -/

def efsRootIno : UInt64 := 1

def maxSymlinkHops : ℕ := 8

/-- An inode, by the type in its mode. -/
inductive FsNode where
  | dir (linkCount : ℕ) (store : DirStore)
  | file
  | fifo
  | symlink (target : String)

/-- `file_type_for_dir_entry`. -/
def FsNode.fileType : FsNode → UInt8
  | .file => 1
  | .dir .. => ftDir
  | .symlink _ => 7
  | .fifo => 5

/-- The inodes in use, and the chain of those that have lost their name but are still open. -/
structure EfsFs where
  inodes : UInt64 → Option FsNode
  orphans : List UInt64

/-- Where a walk ends. -/
inductive Walk where
  | node (ino : UInt64) (inode : FsNode)
  | escaped (escape : LinkEscape)

namespace EfsFs

variable (fs : EfsFs)

def readInode (ino : UInt64) : Except Fault FsNode :=
  match fs.inodes ino with
  | some inode => .ok inode
  | none => .error (.error .corrupted)

def lookupInDir (ino : UInt64) (name : String) : Except Fault (Option (UInt64 × UInt8)) :=
  match fs.inodes ino with
  | some (.dir _ s) => s.lookupInDir name
  | some _ => .error (.error .notADir)
  | none => .error (.error .corrupted)

/-- The loop of `resolve_path_walk`, with the components passed so far. -/
def resolvePathFrom (mode : LinkMode) : UInt64 → Path → Path → Except Fault Walk
  | current, _, [] => do
    let inode ← fs.readInode current
    return .node current inode
  | current, resolved, name :: rest => do
    match ← fs.lookupInDir current name with
    | none => .error (.error .fileNotFound)
    | some (ino, _) =>
      match ← fs.readInode ino with
      | .symlink target =>
        if rest ≠ [] ∨ mode = .follow then return .escaped (spliceSymlink resolved target rest)
        else resolvePathFrom mode ino (resolved ++ [name]) rest
      | _ => resolvePathFrom mode ino (resolved ++ [name]) rest

/-- `resolve_path_mode`. -/
def resolvePathMode (path : Path) (mode : LinkMode) : Except Fault (UInt64 × FsNode) := do
  match ← fs.resolvePathFrom mode efsRootIno [] path with
  | .node ino inode => return (ino, inode)
  | .escaped _ => .error (.error .linkEscape)

/-- `resolve_path`. -/
def resolvePath (path : Path) : Except Fault UInt64 :=
  (fs.resolvePathMode path .follow).map Prod.fst

/-- Change the data of a directory. The source has no check here: it has looked a name up in the
directory before. -/
def modifyDir (ino : UInt64) (f : DirStore → Except Fault DirStore) : Except Fault EfsFs :=
  match fs.inodes ino with
  | some (.dir links s) =>
    (f s).map fun s' ↦ { fs with inodes := Function.update fs.inodes ino (some (.dir links s')) }
  | some _ => .error (.error .notADir)
  | none => .error (.error .corrupted)

/-- `remove_file_inner`: the inode of a symbolic link is free at once, that of a file once it has
been closed. -/
def removeFileInner (parentIno fileIno : UInt64) (inode : FsNode) (name : String) :
    Except Fault EfsFs := do
  let fs ← fs.modifyDir parentIno fun s ↦ s.removeDirEntry name
  match inode with
  | .symlink _ => return { fs with inodes := Function.update fs.inodes fileIno none }
  | _ => return { fs with orphans := fileIno :: fs.orphans }

/-- Write the link count of a directory. -/
def setLinks (ino : UInt64) (f : ℕ → Except Fault ℕ) : Except Fault EfsFs :=
  match fs.inodes ino with
  | some (.dir links s) =>
    (f links).map fun n ↦ { fs with inodes := Function.update fs.inodes ino (some (.dir n s)) }
  | some _ => .error (.error .notADir)
  | none => .error (.error .corrupted)

/-- The first part of `rename_inner`: a file that has the new name is removed. -/
def removeReplaced (newParentIno targetIno : UInt64) (newName : String) : Except Fault EfsFs := do
  match ← fs.lookupInDir newParentIno newName with
  | some (victimIno, _) =>
    if victimIno ≠ targetIno then
      match ← fs.readInode victimIno with
      | .dir .. => .error (.error .notAFile)
      | victim => fs.removeFileInner newParentIno victimIno victim newName
    else .ok fs
  | none => .ok fs

/-- The last part of `rename_inner`: a directory that has moved gets a new parent. -/
def updateParent (oldParentIno newParentIno targetIno : UInt64) (target : FsNode) :
    Except Fault EfsFs :=
  match target with
  | .dir .. =>
    if oldParentIno ≠ newParentIno then do
      let fs ← fs.modifyDir targetIno fun s ↦ s.updateDotdotEntry newParentIno
      let fs ← fs.setLinks oldParentIno fun n ↦ .ok (n - 1)
      fs.setLinks newParentIno fun n ↦ if n + 1 < 2 ^ 16 then .ok (n + 1) else .error .panic
    else .ok fs
  | _ => .ok fs

/-- `rename_inner`. -/
def renameInner (oldParentIno newParentIno targetIno : UInt64) (target : FsNode)
    (oldName newName : String) : Except Fault EfsFs := do
  let fs ← fs.removeReplaced newParentIno targetIno newName
  let fs ← fs.modifyDir oldParentIno fun s ↦ s.removeDirEntry oldName
  let fs ← fs.modifyDir newParentIno fun s ↦ s.addDirEntry newName targetIno target.fileType
  fs.updateParent oldParentIno newParentIno targetIno target

def rename (oldPath newPath : Path) : Except Fault EfsFs := do
  let oldPath := oldPath.normalize
  let newPath := newPath.normalize
  match oldPath.lastComponent, newPath.lastComponent with
  | some oldName, some newName =>
    let oldParentIno ← fs.resolvePath oldPath.parentOrRoot
    let newParentIno ← fs.resolvePath newPath.parentOrRoot
    let (targetIno, target) ← fs.resolvePathMode oldPath .noFollow
    fs.renameInner oldParentIno newParentIno targetIno target oldName newName
  | _, _ => .error (.error .invalidArgument)

/-- `read_link`. -/
def readLink (path : Path) : Except Fault String := do
  let (_, inode) ← fs.resolvePathMode path.normalize .noFollow
  match inode with
  | .symlink target => return target
  | _ => .error (.error .invalidArgument)

/-- `link_escape`, of the file system and of the VFS: the mount is the root. -/
def linkEscape (path : Path) (mode : LinkMode) : Except Fault Path := do
  match ← fs.resolvePathFrom mode efsRootIno [] path.normalize with
  | .escaped (.absolute components) => return components
  | .escaped (.aboveMount _ components) => return components
  | .node .. => .error (.error .unsupported)

/-- `resolve_links`, for a path whose last component is not followed. -/
def resolveLinks : ℕ → Path → Except Fault Path
  | 0, _ => .error (.error .tooManyLinks)
  | hops + 1, path =>
    match fs.readLink path.normalize with
    | .error (.error .linkEscape) => do
      let path ← fs.linkEscape path.normalize .noFollow
      resolveLinks hops path
    | _ => .ok path

/-- `api::rename` and `vfs::rename`: both paths are on the one file system that is mounted. -/
def apiRename (oldPath newPath : Path) : Except Fault EfsFs := do
  let oldPath ← fs.resolveLinks maxSymlinkHops oldPath
  let newPath ← fs.resolveLinks maxSymlinkHops newPath
  fs.rename oldPath.normalize newPath.normalize

/-! ## The tree -/

/-- The inode that a path leads to, without following a link at its end. -/
def locate (path : Path) : Option UInt64 :=
  (fs.resolvePathMode path .noFollow).toOption.map Prod.fst

def IsDir (ino : UInt64) : Prop := ∃ links s, fs.inodes ino = some (.dir links s)

/-- Follow an entry of a directory, other than the one to itself and the one to its parent. -/
def edge (ino : UInt64) (name : String) : Option UInt64 :=
  match fs.inodes ino with
  | some (.dir _ s) =>
    if Path.Proper name then ((s.lookupInDir name).toOption.join).map Prod.fst else none
  | _ => none

/-- The directories are well-formed, the entries lead to inodes in use, every directory can be
reached on exactly one path, and nothing else on more than one: there are no hard links. -/
structure Tree : Prop where
  dirs : ∀ ino links s, fs.inodes ino = some (.dir links s) → ∃ es, s.Represents es
  allocated : ∀ ino name c, fs.edge ino name = some c → (fs.inodes c).isSome
  tree : TreeOn fs.edge efsRootIno fs.IsDir

/-- The name is not that of the first entry in a block of the directory. -/
def Inside (ino : UInt64) (name : String) : Prop :=
  ∀ links s, fs.inodes ino = some (.dir links s) → s.RemovesInside name

/-- The entry that the path names is not the first one in a block of its directory. -/
def EntryInside (path : Path) : Prop :=
  ∀ ino name, fs.locate path.parentOrRoot = some ino → path.lastComponent = some name →
    fs.Inside ino name

end EfsFs

/-! ## Paths that have been normalized -/

namespace Path

theorem proper_push {stack : Path} {comp : String} (h : ∀ c ∈ stack, Proper c) :
    ∀ c ∈ push stack comp, Proper c := by
  rw [push]
  split_ifs with hempty hdots
  · exact h
  · exact fun c hc ↦ h c (mem_of_mem_dropLast hc)
  · rw [forall_mem_append, forall_mem_singleton]
    exact ⟨h, fun heq ↦ hempty (.inl heq), fun heq ↦ hempty (.inr heq), hdots⟩

theorem proper_normalize (path : Path) : ∀ c ∈ path.normalize, Proper c := by
  have hfold (path stack : Path) (h : ∀ c ∈ stack, Proper c) :
      ∀ c ∈ path.foldl push stack, Proper c := by
    induction path generalizing stack with
    | nil => exact h
    | cons comp path ih => exact ih _ (proper_push h)
  exact hfold path [] (by simp)

theorem normalize_of_proper {path : Path} (h : ∀ c ∈ path, Proper c) : path.normalize = path := by
  have hfold (path stack : Path) (h : ∀ c ∈ path, Proper c) :
      path.foldl push stack = stack ++ path := by
    induction path generalizing stack with
    | nil => exact (append_nil stack).symm
    | cons comp path ih =>
      obtain ⟨hempty, hdot, hdots⟩ := h comp mem_cons_self
      rw [foldl_cons, push, if_neg (not_or.mpr ⟨hempty, hdot⟩), if_neg hdots,
        ih _ fun c hc ↦ h c (mem_cons_of_mem comp hc), append_assoc, singleton_append]
  exact hfold path [] h

end Path

namespace EfsFs

variable {fs fs' : EfsFs}

/-! ## Entries -/

/-- The directories hold the given entries. -/
def Holds (fs : EfsFs) (E : UInt64 → List (String × UInt64 × UInt8)) : Prop :=
  ∀ ino links s, fs.inodes ino = some (.dir links s) → s.Represents (E ino)

/-- Which inodes are in use, and which of them are directories. -/
def shape (fs : EfsFs) (ino : UInt64) : Option Bool :=
  (fs.inodes ino).map fun
    | .dir .. => true
    | _ => false

variable {E : UInt64 → List (String × UInt64 × UInt8)}

theorem Tree.exists_holds (h : fs.Tree) : ∃ E, fs.Holds E := by
  have hex (ino : UInt64) : ∃ es, ∀ links s, fs.inodes ino = some (.dir links s) →
      s.Represents es := by
    by_cases hdir : fs.IsDir ino
    · obtain ⟨links, s, hs⟩ := hdir
      obtain ⟨es, hes⟩ := h.dirs ino links s hs
      refine ⟨es, fun links' s' hs' ↦ ?_⟩
      cases hs.symm.trans hs'
      exact hes
    · exact ⟨[], fun links s hs ↦ absurd ⟨links, s, hs⟩ hdir⟩
  choose E hE using hex
  exact ⟨E, hE⟩

variable {b ino t : UInt64} {m : String} {p q : Path}

theorem isDir_iff_shape : fs.IsDir ino ↔ fs.shape ino = some true := by
  rw [IsDir, shape]
  cases fs.inodes ino with
  | none => simp
  | some inode => cases inode <;> simp

theorem isSome_iff_shape : (fs.inodes ino).isSome ↔ fs.shape ino ≠ none := by
  rw [shape, Ne, map_eq_none_iff]
  exact isSome_iff_ne_none

theorem readInode_eq_ok {inode : FsNode} (h : fs.readInode ino = .ok inode) :
    fs.inodes ino = some inode := by
  rw [readInode] at h
  split at h
  · rename_i hinode
    rw [hinode, Except.ok.inj h]
  · cases h

theorem Holds.lookupInDir (h : fs.Holds E) (hdir : fs.IsDir ino) (name : String) :
    fs.lookupInDir ino name = .ok ((E ino).lookup name) := by
  obtain ⟨links, s, hs⟩ := hdir
  rw [EfsFs.lookupInDir, hs]
  exact (h ino links s hs).lookup name

variable {name : String}

theorem isDir_of_lookupInDir {found : Option (UInt64 × UInt8)}
    (h : fs.lookupInDir ino name = .ok found) : fs.IsDir ino := by
  rw [EfsFs.lookupInDir] at h
  split at h
  · rename_i links s hinode
    exact ⟨links, s, hinode⟩
  · cases h
  · cases h

theorem Holds.edge_eq_some_iff (h : fs.Holds E) {c : UInt64} :
    fs.edge ino name = some c ↔
      Path.Proper name ∧ fs.IsDir ino ∧ ∃ fileType, (E ino).lookup name = some (c, fileType) := by
  rw [edge]
  cases hinode : fs.inodes ino with
  | none => simp [IsDir, hinode]
  | some inode =>
    cases inode with
    | dir links s =>
      have hdir : fs.IsDir ino := ⟨links, s, hinode⟩
      dsimp only
      rw [(h ino links s hinode).lookup name]
      by_cases hname : Path.Proper name
      · simp [hname, hdir, Except.toOption]
      · simp [hname]
    | file | fifo | symlink _ => simp [IsDir, hinode]

/-! ## Walks -/

section Resolve

variable {mode : LinkMode} {cur x : UInt64} {resolved path : Path} {inode : FsNode}

theorem Holds.follow_of_resolve (h : fs.Holds E) (hpath : ∀ c ∈ path, Path.Proper c)
    (hok : fs.resolvePathFrom mode cur resolved path = .ok (.node x inode)) :
    follow fs.edge cur path = some x ∧ fs.inodes x = some inode := by
  induction path generalizing cur resolved with
  | nil =>
    obtain ⟨node, hnode, hok⟩ := bind_eq_ok.mp hok
    cases hok
    exact ⟨rfl, readInode_eq_ok hnode⟩
  | cons name rest ih =>
    have hrest (c : String) (hc : c ∈ rest) := hpath c (mem_cons_of_mem name hc)
    obtain ⟨found, hfound, hok⟩ := bind_eq_ok.mp hok
    have hdir := isDir_of_lookupInDir hfound
    rw [h.lookupInDir hdir] at hfound
    cases found with
    | none => cases hok
    | some entry =>
      obtain ⟨ino, fileType⟩ := entry
      have hedge : fs.edge cur name = some ino :=
        h.edge_eq_some_iff.mpr ⟨hpath name mem_cons_self, hdir, fileType, Except.ok.inj hfound⟩
      obtain ⟨node, -, hok⟩ := bind_eq_ok.mp hok
      have hcont : fs.resolvePathFrom mode ino (resolved ++ [name]) rest = .ok (.node x inode) := by
        cases node with
        | symlink target =>
          split_ifs at hok
          · cases hok
          · exact hok
        | dir _ _ | file | fifo => exact hok
      rw [follow, hedge]
      exact ih hrest hcont

theorem Holds.resolve_of_follow (h : fs.Holds E) (hinode : fs.inodes x = some inode)
    (hfollow : follow fs.edge cur path = some x) :
    fs.resolvePathFrom .noFollow cur resolved path = .ok (.node x inode) := by
  induction path generalizing cur resolved with
  | nil =>
    cases hfollow
    rw [resolvePathFrom, readInode, hinode]
    rfl
  | cons name rest ih =>
    obtain ⟨y, hy, hfollow⟩ := bind_eq_some_iff.mp hfollow
    obtain ⟨-, hdir, fileType, hlookup⟩ := h.edge_eq_some_iff.mp hy
    have hcont : fs.resolvePathFrom .noFollow y (resolved ++ [name]) rest = .ok (.node x inode) :=
      ih hfollow
    rw [resolvePathFrom, h.lookupInDir hdir, hlookup]
    simp only [bind, Except.bind]
    cases rest with
    | nil =>
      cases hfollow
      rw [readInode, hinode]
      cases inode with
      | symlink target => simpa using hcont
      | dir _ _ | file | fifo => exact hcont
    | cons name' rest =>
      obtain ⟨z, hz, -⟩ := bind_eq_some_iff.mp hfollow
      obtain ⟨-, ⟨links, s, hs⟩, -⟩ := h.edge_eq_some_iff.mp hz
      rw [readInode, hs]
      exact hcont

theorem Holds.resolvePathMode (h : fs.Holds E) (hpath : ∀ c ∈ path, Path.Proper c)
    (hok : fs.resolvePathMode path mode = .ok (x, inode)) :
    follow fs.edge efsRootIno path = some x ∧ fs.inodes x = some inode := by
  obtain ⟨found, hfound, hok⟩ := bind_eq_ok.mp hok
  cases found with
  | node ino node =>
    cases hok
    exact h.follow_of_resolve hpath hfound
  | escaped escape => cases hok

theorem Holds.resolvePath (h : fs.Holds E) (hpath : ∀ c ∈ path, Path.Proper c)
    (hok : fs.resolvePath path = .ok x) :
    follow fs.edge efsRootIno path = some x ∧ (fs.inodes x).isSome := by
  obtain ⟨⟨ino, inode⟩, hmode, rfl⟩ := map_eq_ok.mp hok
  obtain ⟨hfollow, hinode⟩ := h.resolvePathMode hpath hmode
  exact ⟨hfollow, by rw [hinode]; rfl⟩

/-- **Where a path leads.** -/
theorem Holds.locate_eq_some_iff (h : fs.Holds E) (hpath : ∀ c ∈ path, Path.Proper c) :
    fs.locate path = some x ↔ follow fs.edge efsRootIno path = some x ∧ (fs.inodes x).isSome := by
  rw [locate]
  constructor
  · intro hloc
    obtain ⟨⟨ino, inode⟩, hres, rfl⟩ := map_eq_some_iff.mp hloc
    cases hmode : fs.resolvePathMode path .noFollow with
    | error e =>
      rw [hmode] at hres
      cases hres
    | ok found =>
      rw [hmode] at hres
      cases hres
      obtain ⟨hfollow, hinode⟩ := h.resolvePathMode hpath hmode
      exact ⟨hfollow, by rw [hinode]; rfl⟩
  · rintro ⟨hfollow, hsome⟩
    obtain ⟨inode, hinode⟩ := isSome_iff_exists.mp hsome
    rw [EfsFs.resolvePathMode, h.resolve_of_follow hinode hfollow]
    rfl

end Resolve

/-! ## The steps -/

variable {f : DirStore → Except Fault DirStore}

theorem modifyDir_eq_ok
    (h : fs.modifyDir ino f = .ok fs') : ∃ links s s', fs.inodes ino = some (.dir links s) ∧
      f s = .ok s' ∧
        fs' = { fs with inodes := Function.update fs.inodes ino (some (.dir links s')) } := by
  rw [modifyDir] at h
  split at h
  · rename_i links s hinode
    obtain ⟨s', hs', rfl⟩ := map_eq_ok.mp h
    exact ⟨links, s, s', hinode, hs', rfl⟩
  · cases h
  · cases h

section

variable (h : fs.Holds E)

include h

variable {es : List (String × UInt64 × UInt8)}

theorem Holds.update {links links' : ℕ} {s s' : DirStore} (hs : fs.inodes ino = some (.dir links s))
    (hs' : s'.Represents es)
    (hfs : fs' = { fs with inodes := Function.update fs.inodes ino (some (.dir links' s')) }) :
    fs'.shape = fs.shape ∧ fs'.Holds (Function.update E ino es) := by
  subst hfs
  constructor
  · funext x
    rw [shape, shape]
    dsimp only
    by_cases hx : x = ino
    · subst hx
      rw [update_self, hs]
      rfl
    · rw [update_of_ne hx]
  · intro x n t ht
    dsimp only at ht
    by_cases hx : x = ino
    · subst hx
      rw [update_self] at ht
      cases ht
      rwa [update_self]
    · rw [update_of_ne hx] at ht
      rw [update_of_ne hx]
      exact h x n t ht

/-- **Changing one directory.** -/
theorem Holds.modifyDir
    (hok : fs.modifyDir ino f = .ok fs')
    (hf : ∀ links s s', fs.inodes ino = some (.dir links s) → s.Represents (E ino) → f s = .ok s' →
      s'.Represents es) :
    fs'.shape = fs.shape ∧ fs'.Holds (Function.update E ino es) := by
  obtain ⟨links, s, s', hs, hs', rfl⟩ := modifyDir_eq_ok hok
  exact h.update hs (hf links s s' hs (h ino links s hs) hs') rfl

theorem Holds.setLinks {f : ℕ → Except Fault ℕ}
    (hok : fs.setLinks ino f = .ok fs') : fs'.shape = fs.shape ∧ fs'.Holds E := by
  rw [EfsFs.setLinks] at hok
  split at hok
  · rename_i links s hinode
    obtain ⟨n, -, rfl⟩ := map_eq_ok.mp hok
    refine (h.update hinode (h ino links s hinode) rfl).imp_right fun hnew ↦ ?_
    rwa [update_eq_self] at hnew
  · cases hok
  · cases hok

/-- **Removing an entry.** -/
theorem Holds.removeEntry {v : UInt64} {fileType : UInt8} (hinside : fs.Inside b m)
    (hlookup : (E b).lookup m = some (v, fileType))
    (hok : fs.modifyDir b (fun s ↦ s.removeDirEntry m) = .ok fs') :
    fs'.shape = fs.shape ∧ fs'.Holds (Function.update E b ((E b).filter fun e ↦ e.1 ≠ m)) ∧
      ∀ a n, ¬(a = b ∧ n = m) → fs.Inside a n → fs'.Inside a n := by
  obtain ⟨links, s, s', hs, hremove, rfl⟩ := modifyDir_eq_ok hok
  have hrep := h b links s hs
  have hmem : m ∈ (E b).map Prod.fst :=
    List.mem_map.mpr ⟨_, (lookup_eq_some_iff hrep.nodup).mp hlookup, rfl⟩
  obtain ⟨hshape, hholds⟩ := h.update hs (hrep.remove hmem (hinside links s hs) hremove) rfl
  refine ⟨hshape, hholds, fun a n hne hin links' t ht ↦ ?_⟩
  dsimp only at ht
  by_cases hab : a = b
  · subst hab
    rw [update_self] at ht
    cases ht
    exact hrep.removesInside hmem (hinside links s hs) hremove (fun hn ↦ hne ⟨rfl, hn⟩)
      (hin links s hs)
  · rw [update_of_ne hab] at ht
    exact hin links' t ht

theorem Holds.free (v : UInt64)
    (hfs : fs' = { fs with inodes := Function.update fs.inodes v none }) :
    fs'.shape = Function.update fs.shape v none ∧ fs'.Holds E ∧
      ∀ a n, fs.Inside a n → fs'.Inside a n := by
  subst hfs
  have hinodes {x : UInt64} {links : ℕ} {s : DirStore}
      (hx : Function.update fs.inodes v none x = some (.dir links s)) :
      fs.inodes x = some (.dir links s) := by
    by_cases hxv : x = v
    · subst hxv
      rw [update_self] at hx
      cases hx
    · rwa [update_of_ne hxv] at hx
  refine ⟨funext fun x ↦ ?_, fun x links s hx ↦ h x links s (hinodes hx),
    fun a n hin links s hx ↦ hin links s (hinodes hx)⟩
  rw [shape]
  dsimp only
  by_cases hxv : x = v
  · subst hxv
    rw [update_self, update_self]
    rfl
  · rw [update_of_ne hxv, update_of_ne hxv, shape]

/-- **Replacing a file**: nothing happens unless there is another file with the new name, and its
entry is removed then. -/
theorem Holds.removeReplaced (hinside : fs.Inside b m) (hok : fs.removeReplaced b t m = .ok fs') :
    fs.IsDir b ∧ ((fs' = fs ∧ ∀ v fileType, (E b).lookup m = some (v, fileType) → v = t) ∨
      ∃ v fileType, (E b).lookup m = some (v, fileType) ∧ v ≠ t ∧ fs.shape v = some false ∧
        fs'.Holds (Function.update E b ((E b).filter fun e ↦ e.1 ≠ m)) ∧
        (fs'.shape = fs.shape ∨ fs'.shape = Function.update fs.shape v none) ∧
        ∀ a n, ¬(a = b ∧ n = m) → fs.Inside a n → fs'.Inside a n) := by
  obtain ⟨found, hfound, hok⟩ := bind_eq_ok.mp hok
  have hdir := isDir_of_lookupInDir hfound
  refine ⟨hdir, ?_⟩
  rw [h.lookupInDir hdir] at hfound
  obtain rfl := Except.ok.inj hfound
  cases hlookup : (E b).lookup m with
  | none =>
    rw [hlookup] at hok
    cases hok
    exact .inl ⟨rfl, nofun⟩
  | some entry =>
    obtain ⟨v, fileType⟩ := entry
    rw [hlookup] at hok
    dsimp only at hok
    by_cases hvt : v = t
    · rw [if_neg (not_not.mpr hvt)] at hok
      cases hok
      refine .inl ⟨rfl, fun v' ft' heq ↦ ?_⟩
      cases heq
      exact hvt
    · rw [if_pos hvt] at hok
      obtain ⟨node, hnode, hok⟩ := bind_eq_ok.mp hok
      have hinode : fs.inodes v = some node := readInode_eq_ok hnode
      refine .inr ⟨v, fileType, rfl, hvt, ?_⟩
      cases node with
      | dir links s => cases hok
      | symlink target =>
        obtain ⟨fs₁, hremove, hok⟩ := bind_eq_ok.mp hok
        obtain ⟨hshape, hholds, hin⟩ := h.removeEntry hinside hlookup hremove
        obtain ⟨hshape', hholds', hin'⟩ := hholds.free v (Except.ok.inj hok).symm
        rw [hshape] at hshape'
        exact ⟨by rw [shape, hinode]; rfl, hholds', .inr hshape',
          fun a n hne ha ↦ hin' a n (hin a n hne ha)⟩
      | file | fifo =>
        obtain ⟨fs₁, hremove, hok⟩ := bind_eq_ok.mp hok
        obtain ⟨hshape, hholds, hin⟩ := h.removeEntry hinside hlookup hremove
        cases hok
        exact ⟨by rw [shape, hinode]; rfl, hholds, .inl hshape, hin⟩

theorem Holds.updateParent {a : UInt64} {target : FsNode} (hb : b ≠ 0)
    (hok : fs.updateParent a b t target = .ok fs') :
    fs'.shape = fs.shape ∧ ∃ E', fs'.Holds E' ∧
      ∀ x name, Path.Proper name → (E' x).lookup name = (E x).lookup name := by
  have hself : fs.shape = fs.shape ∧ ∃ E', fs.Holds E' ∧
      ∀ x name, Path.Proper name → (E' x).lookup name = (E x).lookup name :=
    ⟨rfl, E, h, fun _ _ _ ↦ rfl⟩
  cases target with
  | file | fifo | symlink _ =>
    cases hok
    exact hself
  | dir links s =>
    rw [EfsFs.updateParent] at hok
    split_ifs at hok with hab
    · obtain ⟨fs₁, hdots, hok⟩ := bind_eq_ok.mp hok
      obtain ⟨fs₂, hold, hnew⟩ := bind_eq_ok.mp hok
      obtain ⟨hshape₁, hholds₁⟩ := h.modifyDir hdots fun _ _ _ _ hrep hupdate ↦
        hrep.updateDotdot hb hupdate
      obtain ⟨hshape₂, hholds₂⟩ := hholds₁.setLinks hold
      obtain ⟨hshape₃, hholds₃⟩ := hholds₂.setLinks hnew
      refine ⟨hshape₃.trans (hshape₂.trans hshape₁), _, hholds₃, fun x name hname ↦ ?_⟩
      by_cases hx : x = t
      · subst hx
        rw [update_self, lookup_map_setKey _ _ hname.2.2]
      · rw [update_of_ne hx]
    · cases hok
      exact hself

end

/-! ## The move -/

section Lookup

variable (E : UInt64 → List (String × UInt64 × UInt8)) {a x : UInt64} {n l : String}

theorem lookup_update_filter :
    (Function.update E a ((E a).filter fun e ↦ e.1 ≠ n) x).lookup l
      = if x = a ∧ l = n then none else (E x).lookup l := by
  by_cases hx : x = a
  · subst hx
    rw [update_self, lookup_filter_ne]
    exact if_congr (by simp) rfl rfl
  · rw [update_of_ne hx, if_neg fun h ↦ hx h.1]

theorem lookup_update_concat {v : UInt64 × UInt8} (hnew : (E a).lookup n = none) :
    (Function.update E a (E a ++ [(n, v)]) x).lookup l
      = if x = a ∧ l = n then some v else (E x).lookup l := by
  by_cases hx : x = a
  · subst hx
    rw [update_self, lookup_concat]
    by_cases hl : l = n
    · rw [hl, hnew, if_pos rfl, if_pos ⟨rfl, rfl⟩, none_or]
    · rw [if_neg hl, if_neg fun h ↦ hl h.2, or_none]
  · rw [update_of_ne hx, if_neg fun h ↦ hx h.1]

end Lookup

section Inner

variable {a b t : UInt64} {n m : String} {fileType : UInt8} {target : FsNode}

/-- **What is replaced, before the move.** -/
theorem Holds.beforeMove (h : fs.Holds E) (hina : fs.Inside a n) (hinb : fs.Inside b m)
    (htarget : (E a).lookup n = some (t, fileType))
    (hsame : ∀ fileType', (E b).lookup m = some (t, fileType') → a = b ∧ n = m)
    (hok : fs.removeReplaced b t m = .ok fs') :
    ∃ E', fs'.Holds E' ∧ fs'.Inside a n ∧ (E' a).lookup n = some (t, fileType) ∧
      ((a = b ∧ n = m) ∨ (E' b).lookup m = none) ∧
      (∀ x l, ¬(x = b ∧ l = m) → (E' x).lookup l = (E x).lookup l) ∧
      (∀ v fileType', (E b).lookup m = some (v, fileType') → v = t ∨ fs.shape v = some false) ∧
      (fs'.shape = fs.shape ∨ ∃ v fileType', (E b).lookup m = some (v, fileType') ∧ v ≠ t ∧
        fs.shape v = some false ∧ fs'.shape = Function.update fs.shape v none) := by
  rcases (h.removeReplaced hinb hok).2 with ⟨rfl, heq⟩ |
    ⟨v, ft, hlookup, hne, hfile, hholds, hshape, hin⟩
  · refine ⟨E, h, hina, htarget, ?_, fun _ _ _ ↦ rfl, fun v ft hv ↦ .inl (heq v ft hv), .inl rfl⟩
    cases hm : (E b).lookup m with
    | none => exact .inr rfl
    | some entry =>
      obtain ⟨v, ft⟩ := entry
      obtain rfl := heq v ft hm
      exact .inl (hsame ft hm)
  · have hedge : ¬(a = b ∧ n = m) := by
      rintro ⟨rfl, rfl⟩
      rw [hlookup] at htarget
      cases htarget
      exact hne rfl
    refine ⟨_, hholds, hin a n hedge hina, ?_, .inr ?_, fun x l hx ↦ ?_,
      fun v' ft' hv' ↦ .inr ?_, ?_⟩
    · rw [lookup_update_filter, if_neg hedge, htarget]
    · rw [lookup_update_filter, if_pos ⟨rfl, rfl⟩]
    · rw [lookup_update_filter, if_neg hx]
    · rw [hlookup] at hv'
      cases hv'
      exact hfile
    · exact hshape.imp_right fun hshape ↦ ⟨v, ft, hlookup, hne, hfile, hshape⟩

/-- **What `rename_inner` does** to the entries. -/
theorem Holds.renameInner (h : fs.Holds E) (hn : Path.Proper n) (hm : Path.Proper m)
    (hina : fs.Inside a n) (hinb : fs.Inside b m) (hb : b ≠ 0)
    (htarget : (E a).lookup n = some (t, fileType)) (hsame : fs.edge b m = some t → a = b ∧ n = m)
    (hok : fs.renameInner a b t target n m = .ok fs') :
    fs.IsDir b ∧ (∃ E', fs'.Holds E') ∧ (∀ x, fs'.IsDir x ↔ fs.IsDir x) ∧
      fs'.edge = move fs.edge a n b m t ∧
      (∀ v, fs.edge b m = some v → v = t ∨ fs.shape v = some false) ∧
      (fs'.shape = fs.shape ∨ ∃ v, fs.edge b m = some v ∧ v ≠ t ∧ fs.shape v = some false ∧
        fs'.shape = Function.update fs.shape v none) := by
  obtain ⟨fs₁, hreplace, hok⟩ := bind_eq_ok.mp hok
  obtain ⟨fs₂, hremove, hok⟩ := bind_eq_ok.mp hok
  obtain ⟨fs₃, hadd, hparent⟩ := bind_eq_ok.mp hok
  have hdirb := (h.removeReplaced hinb hreplace).1
  have hedge {v : UInt64} : fs.edge b m = some v ↔ ∃ ft, (E b).lookup m = some (v, ft) := by
    rw [h.edge_eq_some_iff]
    exact ⟨fun hv ↦ hv.2.2, fun hv ↦ ⟨hm, hdirb, hv⟩⟩
  obtain ⟨E₁, hholds₁, hin₁, htarget₁, hnone₁, hother₁, hreplaced, hshape₁⟩ :=
    h.beforeMove hina hinb htarget (fun ft hft ↦ hsame (hedge.mpr ⟨ft, hft⟩)) hreplace
  obtain ⟨hshape₂, hholds₂, -⟩ := hholds₁.removeEntry hin₁ htarget₁ hremove
  obtain ⟨links, s, -, hs, -⟩ := modifyDir_eq_ok hremove
  have htne : t ≠ 0 := (hholds₁ a links s hs).ino_ne_zero htarget₁
  have hnone₂ : (Function.update E₁ a ((E₁ a).filter fun e ↦ e.1 ≠ n) b).lookup m = none := by
    rw [lookup_update_filter]
    split_ifs with hedge
    · rfl
    · exact hnone₁.resolve_left fun heq ↦ hedge ⟨heq.1.symm, heq.2.symm⟩
  obtain ⟨hshape₃, hholds₃⟩ := hholds₂.modifyDir hadd fun _ _ _ _ hrep hadd ↦
    hrep.add htne (lookup_eq_none_iff.mp hnone₂) hadd
  obtain ⟨hshape₄, E₄, hholds₄, hother₄⟩ := hholds₃.updateParent hb hparent
  have hlookup {x : UInt64} {l : String} (hl : Path.Proper l) : (E₄ x).lookup l =
      if x = b ∧ l = m then some (t, target.fileType)
      else if x = a ∧ l = n then none else (E₁ x).lookup l := by
    rw [hother₄ x l hl, lookup_update_concat _ hnone₂, lookup_update_filter]
  -- no directory has been freed
  have hshape : fs'.shape = fs₁.shape := hshape₄.trans (hshape₃.trans hshape₂)
  have hdir (x : UInt64) : fs'.IsDir x ↔ fs.IsDir x := by
    rw [isDir_iff_shape, isDir_iff_shape, hshape]
    rcases hshape₁ with hshape₁ | ⟨v, ft, -, -, hfile, hshape₁⟩
    · rw [hshape₁]
    · rw [hshape₁]
      by_cases hx : x = v
      · subst hx
        rw [update_self, hfile]
        simp
      · rw [update_of_ne hx]
  refine ⟨hdirb, ⟨E₄, hholds₄⟩, hdir, funext fun x ↦ funext fun l ↦ Option.ext fun c ↦ ?_,
    fun v hv ↦ ?_, ?_⟩
  · rw [hholds₄.edge_eq_some_iff, hdir, move]
    by_cases hl : Path.Proper l
    · rw [hlookup hl]
      by_cases hnew : x = b ∧ l = m
      · rw [if_pos hnew, if_pos hnew, hnew.1]
        simp only [hl, hdirb, true_and, some_inj, Prod.mk.injEq]
        exact ⟨fun hex ↦ hex.elim fun _ h ↦ h.1, fun heq ↦ ⟨_, heq, rfl⟩⟩
      · rw [if_neg hnew, if_neg hnew]
        by_cases hold : x = a ∧ l = n
        · rw [if_pos hold, if_pos hold]
          simp
        · rw [if_neg hold, if_neg hold, hother₁ x l hnew, h.edge_eq_some_iff]
    · rw [if_neg fun hx : x = b ∧ l = m ↦ hl (hx.2 ▸ hm),
        if_neg fun hx : x = a ∧ l = n ↦ hl (hx.2 ▸ hn), h.edge_eq_some_iff]
      simp [hl]
  · obtain ⟨ft, hft⟩ := hedge.mp hv
    exact hreplaced v ft hft
  · rw [hshape]
    refine hshape₁.imp_right ?_
    rintro ⟨v, ft, hv, hne, hfile, hfreed⟩
    exact ⟨v, hedge.mpr ⟨ft, hv⟩, hne, hfile, hfreed⟩

end Inner

/-! ## Renaming in a tree -/

theorem Holds.ino_ne_zero (h : fs.Holds E) {path : Path} {x : UInt64}
    (hfollow : follow fs.edge efsRootIno path = some x) : x ≠ 0 := by
  rcases eq_nil_or_concat path with rfl | ⟨path, name, rfl⟩
  · cases hfollow
    decide
  · rw [concat_eq_append, follow_concat] at hfollow
    obtain ⟨y, -, hy⟩ := bind_eq_some_iff.mp hfollow
    obtain ⟨-, ⟨links, s, hs⟩, fileType, hlookup⟩ := h.edge_eq_some_iff.mp hy
    exact (h y links s hs).ino_ne_zero hlookup

/-- What a rename that succeeds has found. -/
theorem rename_eq_ok (hp : ∀ c ∈ p, Path.Proper c) (hq : ∀ c ∈ q, Path.Proper c)
    (h : fs.rename p q = .ok fs') : ∃ P n Q m a b t target, p = P ++ [n] ∧ q = Q ++ [m] ∧
      fs.resolvePath P = .ok a ∧ fs.resolvePath Q = .ok b ∧
      fs.resolvePathMode p .noFollow = .ok (t, target) ∧
      fs.renameInner a b t target n m = .ok fs' := by
  rw [rename, Path.normalize_of_proper hp, Path.normalize_of_proper hq] at h
  rcases eq_nil_or_concat p with rfl | ⟨P, n, rfl⟩
  · cases h
  rcases eq_nil_or_concat q with rfl | ⟨Q, m, rfl⟩
  · rw [Path.lastComponent, Path.lastComponent, concat_eq_append, getLast?_concat] at h
    cases h
  simp only [concat_eq_append, Path.lastComponent, Path.parentOrRoot, getLast?_concat,
    dropLast_concat] at h
  obtain ⟨a, ha, h⟩ := bind_eq_ok.mp h
  obtain ⟨b, hb, h⟩ := bind_eq_ok.mp h
  obtain ⟨⟨t, target⟩, ht, h⟩ := bind_eq_ok.mp h
  simp only [concat_eq_append]
  exact ⟨P, n, Q, m, a, b, t, target, rfl, rfl, ha, hb, ht, h⟩

/-- What a rename in a tree has found can be moved. -/
theorem Holds.movable (h : fs.Holds E) (htree : fs.Tree) {P Q : Path} {n : String} {a : UInt64}
    (ha : follow fs.edge efsRootIno P = some a) (hb : follow fs.edge efsRootIno Q = some b)
    (ht : follow fs.edge efsRootIno (P ++ [n]) = some t)
    (hreplaced : ∀ v, fs.edge b m = some v → v = t ∨ fs.shape v = some false) :
    Movable fs.edge efsRootIno fs.IsDir P a n Q b m t where
  tree := htree.tree
  parent := ha
  target := by rwa [follow_concat, ha, bind_some] at ht
  newParent := hb
  replaced v hv := by
    refine (hreplaced v hv).imp_right fun hfile ↦ ?_
    have hdir : ¬fs.IsDir v := by
      rw [isDir_iff_shape, hfile]
      decide
    refine ⟨hdir, fun l ↦ eq_none_iff_forall_ne_some.mpr fun c hc ↦ ?_⟩
    exact hdir (h.edge_eq_some_iff.mp hc).2.1

/-- **A rename moves one edge.** The only inode that may be freed is that of a replaced link. -/
structure Moves (fs fs' : EfsFs) (P : Path) (a : UInt64) (n : String) (Q : Path) (b : UInt64)
    (m : String) (t : UInt64) : Prop where
  movable : Movable fs.edge efsRootIno fs.IsDir P a n Q b m t
  dir : fs.IsDir b
  inUse : (fs.inodes t).isSome
  holds : ∃ E, fs'.Holds E
  isDir : fs'.IsDir = fs.IsDir
  edge : fs'.edge = move fs.edge a n b m t
  shape : fs'.shape = fs.shape ∨
    ∃ v, fs.edge b m = some v ∧ v ≠ t ∧ fs'.shape = Function.update fs.shape v none

/-- **What a rename does**, for paths without links. -/
theorem moves_of_rename (htree : fs.Tree) (hp : ∀ c ∈ p, Path.Proper c)
    (hq : ∀ c ∈ q, Path.Proper c) (hinp : fs.EntryInside p) (hinq : fs.EntryInside q)
    (hrename : fs.rename p q = .ok fs') :
    ∃ P a n Q b m t, p = P ++ [n] ∧ q = Q ++ [m] ∧ Moves fs fs' P a n Q b m t := by
  obtain ⟨E, hE⟩ := htree.exists_holds
  obtain ⟨P, n, Q, m, a, b, t, target, rfl, rfl, ha, hb, ht, hinner⟩ := rename_eq_ok hp hq hrename
  have hP (c : String) (hc : c ∈ P) := hp c (mem_append_left _ hc)
  have hQ (c : String) (hc : c ∈ Q) := hq c (mem_append_left _ hc)
  obtain ⟨hfa, hsa⟩ := hE.resolvePath hP ha
  obtain ⟨hfb, hsb⟩ := hE.resolvePath hQ hb
  obtain ⟨hft, hit⟩ := hE.resolvePathMode hp ht
  have hedge : fs.edge a n = some t := by rwa [follow_concat, hfa, bind_some] at hft
  obtain ⟨-, -, fileType, htarget⟩ := hE.edge_eq_some_iff.mp hedge
  have hinside {r : Path} {x : UInt64} {l : String} (hr : ∀ c ∈ r, Path.Proper c)
      (hfollow : follow fs.edge efsRootIno r = some x) (hsome : (fs.inodes x).isSome)
      (hin : fs.EntryInside (r ++ [l])) : fs.Inside x l := by
    refine hin x l ?_ getLast?_concat
    rw [Path.parentOrRoot, dropLast_concat]
    exact (hE.locate_eq_some_iff hr).mpr ⟨hfollow, hsome⟩
  have hsame (heq : fs.edge b m = some t) : a = b ∧ n = m := by
    have hpath := htree.tree.unique hft
      (by rw [follow_concat, hfb, bind_some, heq] : follow _ _ (Q ++ [m]) = some t)
    obtain ⟨rfl, hlast⟩ := append_inj' hpath rfl
    rw [hfa] at hfb
    exact ⟨some.inj hfb, (List.cons.inj hlast).1⟩
  obtain ⟨hdirb, hE', hdir, hmove, hreplaced, hshape⟩ := hE.renameInner (hp n (by simp))
    (hq m (by simp)) (hinside hP hfa hsa hinp) (hinside hQ hfb hsb hinq)
      (hE.ino_ne_zero hfb) htarget
    hsame hinner
  exact ⟨P, a, n, Q, b, m, t, rfl, rfl, hE.movable htree hfa hfb hft hreplaced, hdirb,
    by rw [hit]; rfl, hE', funext fun x ↦ propext (hdir x), hmove,
    hshape.imp_right fun ⟨v, hv, hne, _, hfreed⟩ ↦ ⟨v, hv, hne, hfreed⟩⟩

namespace Moves

variable {P Q : Path} {a b t : UInt64} {n m : String} (h : Moves fs fs' P a n Q b m t)
include h

/-- What is moved into itself is a directory. -/
theorem isDir_of_isPrefix (htree : fs.Tree) (hin : P ++ [n] <+: Q) : fs.IsDir t := by
  obtain ⟨E, hE⟩ := htree.exists_holds
  obtain ⟨s, rfl⟩ := hin
  have hfollow := h.movable.newParent
  rw [follow_of_follow h.movable.target_path] at hfollow
  cases s with
  | nil =>
    cases hfollow
    exact h.dir
  | cons l s =>
    obtain ⟨y, hy, -⟩ := bind_eq_some_iff.mp hfollow
    exact (hE.edge_eq_some_iff.mp hy).2.1

theorem inUse_target : (fs'.inodes t).isSome := by
  have hsome := isSome_iff_shape.mp h.inUse
  rw [isSome_iff_shape]
  rcases h.shape with hshape | ⟨v, -, hne, hshape⟩
  · rwa [hshape]
  · rwa [hshape, update_of_ne hne.symm]

theorem inUse_of_edge (htree : fs.Tree) {x c : UInt64} {l : String} (hc : fs.edge x l = some c)
    (hne : ¬(x = b ∧ l = m)) : (fs'.inodes c).isSome := by
  obtain ⟨E, hE⟩ := htree.exists_holds
  have hsome := isSome_iff_shape.mp (htree.allocated x l c hc)
  rw [isSome_iff_shape]
  rcases h.shape with hshape | ⟨v, hv, -, hshape⟩
  · rwa [hshape]
  · -- the link that was replaced had no other entry
    have hcv : c ≠ v := by
      rintro rfl
      obtain ⟨r, hr⟩ := htree.tree.reached (hE.edge_eq_some_iff.mp hc).2.1
      have hpath := htree.tree.unique
        (by rw [follow_concat, hr, bind_some, hc] : follow _ _ (r ++ [l]) = some c)
        (by rw [follow_concat, h.movable.newParent, bind_some, hv] :
          follow _ _ (Q ++ [m]) = some c)
      obtain ⟨rfl, hlast⟩ := append_inj' hpath rfl
      exact hne ⟨some.inj (hr.symm.trans h.movable.newParent), (List.cons.inj hlast).1⟩
    rwa [hshape, update_of_ne hcv]

theorem tree (htree : fs.Tree) (hout : ¬P ++ [n] <+: Q) : fs'.Tree := by
  obtain ⟨E', hE'⟩ := h.holds
  refine ⟨fun ino links s hs ↦ ⟨E' ino, hE' ino links s hs⟩, fun x l c hc ↦ ?_, ?_⟩
  · rw [h.edge, move] at hc
    split_ifs at hc with hnew hold
    · cases hc
      exact h.inUse_target
    · exact h.inUse_of_edge htree hc hnew
  · rw [h.edge, h.isDir]
    exact h.movable.treeOn_move hout

theorem not_tree (htree : fs.Tree) (hin : P ++ [n] <+: Q) : ¬fs'.Tree := by
  intro htree'
  have hdir : fs'.IsDir t := by
    rw [h.isDir]
    exact h.isDir_of_isPrefix htree hin
  obtain ⟨r, hr⟩ := htree'.tree.reached hdir
  rw [h.edge] at hr
  exact h.movable.lost hin r hr

end Moves

/-- **Renaming keeps the tree**, for paths without links. -/
theorem rename_iff (htree : fs.Tree) (hp : ∀ c ∈ p, Path.Proper c) (hq : ∀ c ∈ q, Path.Proper c)
    (hinp : fs.EntryInside p) (hinq : fs.EntryInside q) (hrename : fs.rename p q = .ok fs') :
    (fs'.Tree ∧ fs'.locate q = fs.locate p ∧ (p ≠ q → fs'.locate p = none)) ↔
      ¬p <+: q.parentOrRoot := by
  obtain ⟨E, hE⟩ := htree.exists_holds
  obtain ⟨P, a, n, Q, b, m, t, rfl, rfl, h⟩ := moves_of_rename htree hp hq hinp hinq hrename
  obtain ⟨E', hE'⟩ := h.holds
  rw [Path.parentOrRoot, dropLast_concat]
  refine ⟨fun htree' hin ↦ h.not_tree htree hin htree'.1,
    fun hout ↦ ⟨h.tree htree hout, ?_, fun hne ↦ ?_⟩⟩
  · have hold : fs.locate (P ++ [n]) = some t :=
      (hE.locate_eq_some_iff hp).mpr ⟨h.movable.target_path, h.inUse⟩
    have hfollow := h.movable.follow_new hout []
    rw [append_nil, ← h.edge] at hfollow
    rw [hold, hE'.locate_eq_some_iff hq]
    exact ⟨hfollow, h.inUse_target⟩
  · refine eq_none_iff_forall_ne_some.mpr fun x hx ↦ ?_
    have hfollow := ((hE'.locate_eq_some_iff hp).mp hx).1
    rw [h.edge, h.movable.follow_old hne] at hfollow
    cases hfollow

/-- **Renaming keeps the tree** unless the new path goes through what is moved. -/
theorem rename_tree_iff (htree : fs.Tree) {old new p q : Path}
    (hold : fs.resolveLinks maxSymlinkHops old = .ok p)
    (hnew : fs.resolveLinks maxSymlinkHops new = .ok q) (hinp : fs.EntryInside p.normalize)
    (hinq : fs.EntryInside q.normalize) (h : fs.apiRename old new = .ok fs') :
    (fs'.Tree ∧ fs'.locate q.normalize = fs.locate p.normalize ∧
      (p.normalize ≠ q.normalize → fs'.locate p.normalize = none)) ↔
    ¬p.normalize <+: q.normalize.parentOrRoot := by
  rw [apiRename, hold, hnew] at h
  exact rename_iff htree (Path.proper_normalize p) (Path.proper_normalize q) hinp hinq h

/-! ## A directory that is moved into itself -/

/-- Two directories in the root. -/
def sample (s₁ s₃ s₄ : DirStore) : EfsFs where
  inodes ino := if ino = 1 then some (.dir 4 s₁) else if ino = 3 then some (.dir 2 s₃)
    else if ino = 4 then some (.dir 2 s₄) else none
  orphans := []

/-- What is in the directories of `sample`. -/
def sampleEntries (ino : UInt64) : List (String × UInt64 × UInt8) :=
  if ino = 1 then [(".", 1, ftDir), ("..", 1, ftDir), ("a", 3, ftDir), ("d", 4, ftDir)]
  else [(".", ino, ftDir), ("..", 1, ftDir)]

/-- Directories with the entries of `sample`, all of them in one block. -/
structure Sample (s₁ s₃ s₄ : DirStore) : Prop where
  root : s₁.Represents (sampleEntries 1)
  first : s₃.Represents (sampleEntries 3)
  second : s₄.Represents (sampleEntries 4)
  rootBlock : ∃ map room, s₁.OneBlock map 1 16 room
  firstBlock : ∃ map, s₃.OneBlock map 3 16 4064
  secondBlock : ∃ map, s₄.OneBlock map 4 16 4064

theorem exists_sample : ∃ s₁ s₃ s₄, Sample s₁ s₃ s₄ := by
  have hone : (1 : UInt64) ≠ 0 := by decide
  have hthree : (3 : UInt64) ≠ 0 := by decide
  have hfour : (4 : UInt64) ≠ 0 := by decide
  obtain ⟨s₀, map₁, hrep, hblock⟩ := DirStore.exists_newDir hone hone
  obtain ⟨s, hadd, hblock, -⟩ : ∃ s, s₀.addDirEntry "a" 3 ftDir = .ok s ∧
      s.OneBlock map₁ 1 16 (4064 - 16) ∧ s.free = s₀.free :=
    hblock.add hthree (by decide) (by decide) (by decide)
  obtain ⟨s₁, hadd', hblock, -⟩ : ∃ s₁, s.addDirEntry "d" 4 ftDir = .ok s₁ ∧
      s₁.OneBlock map₁ 1 16 (4064 - 16 - 16) ∧ s₁.free = s.free :=
    hblock.add hfour (by decide) (by decide) (by decide)
  have hrep₁ := (hrep.add hthree (by decide) hadd).add hfour (by decide) hadd'
  obtain ⟨s₃, map₃, hrep₃, hblock₃⟩ := DirStore.exists_newDir hthree hone
  obtain ⟨s₄, map₄, hrep₄, hblock₄⟩ := DirStore.exists_newDir hfour hone
  exact ⟨s₁, s₃, s₄, hrep₁, hrep₃, hrep₄, ⟨map₁, _, hblock⟩, ⟨map₃, hblock₃⟩, map₄, hblock₄⟩

section Sample

variable {s₁ s₃ s₄ : DirStore} (h : Sample s₁ s₃ s₄)
include h

theorem Sample.holds : (sample s₁ s₃ s₄).Holds sampleEntries := by
  intro ino links s hs
  simp only [sample] at hs
  split_ifs at hs with hone hthree hfour
  · cases hs
    rw [hone]
    exact h.root
  · cases hs
    rw [hthree]
    exact h.first
  · cases hs
    rw [hfour]
    exact h.second

theorem Sample.edge_eq_some {x y : UInt64} {l : String}
    (hxy : (sample s₁ s₃ s₄).edge x l = some y) :
    x = 1 ∧ ((l = "a" ∧ y = 3) ∨ (l = "d" ∧ y = 4)) := by
  obtain ⟨⟨-, hdot, hdots⟩, -, ft, hlookup⟩ := h.holds.edge_eq_some_iff.mp hxy
  rw [sampleEntries] at hlookup
  split_ifs at hlookup with hx
  · have hmem := (lookup_eq_some_iff (by decide)).mp hlookup
    simp only [mem_cons, Prod.mk.injEq, not_mem_nil, or_false] at hmem
    rcases hmem with ⟨hl, -⟩ | ⟨hl, -⟩ | ⟨hl, hy, -⟩ | ⟨hl, hy, -⟩
    · exact absurd hl hdot
    · exact absurd hl hdots
    · exact ⟨hx, .inl ⟨hl, hy⟩⟩
    · exact ⟨hx, .inr ⟨hl, hy⟩⟩
  · have hnodup : ([(".", x, ftDir), ("..", 1, ftDir)].map Prod.fst).Nodup :=
      (by decide : [".", ".."].Nodup)
    have hmem := (lookup_eq_some_iff hnodup).mp hlookup
    simp only [mem_cons, Prod.mk.injEq, not_mem_nil, or_false] at hmem
    rcases hmem with ⟨hl, -⟩ | ⟨hl, -⟩
    · exact absurd hl hdot
    · exact absurd hl hdots

theorem Sample.follow_eq_some {x : UInt64} {p : Path}
    (hx : follow (sample s₁ s₃ s₄).edge efsRootIno p = some x) :
    (p = [] ∧ x = 1) ∨ (p = ["a"] ∧ x = 3) ∨ (p = ["d"] ∧ x = 4) := by
  cases p with
  | nil =>
    cases hx
    exact .inl ⟨rfl, rfl⟩
  | cons l p =>
    obtain ⟨y, hy, hx⟩ := bind_eq_some_iff.mp hx
    obtain ⟨-, hy⟩ := h.edge_eq_some hy
    cases p with
    | nil =>
      cases hx
      rcases hy with ⟨rfl, rfl⟩ | ⟨rfl, rfl⟩
      · exact .inr (.inl ⟨rfl, rfl⟩)
      · exact .inr (.inr ⟨rfl, rfl⟩)
    | cons l' p =>
      obtain ⟨z, hz, -⟩ := bind_eq_some_iff.mp hx
      obtain ⟨rfl, -⟩ := h.edge_eq_some hz
      rcases hy with ⟨-, hy⟩ | ⟨-, hy⟩ <;> cases hy

theorem Sample.tree : (sample s₁ s₃ s₄).Tree := by
  have hedge {l : String} {y : UInt64} (hl : Path.Proper l)
      (hy : (sampleEntries 1).lookup l = some (y, ftDir)) : (sample s₁ s₃ s₄).edge 1 l = some y :=
    h.holds.edge_eq_some_iff.mpr ⟨hl, ⟨4, s₁, rfl⟩, ftDir, hy⟩
  refine ⟨fun ino links s hs ↦ ⟨_, h.holds ino links s hs⟩, fun x l c hc ↦ ?_, ?_, ?_⟩
  · rcases (h.edge_eq_some hc).2 with ⟨-, rfl⟩ | ⟨-, rfl⟩ <;> rfl
  · intro p q x hp hq
    rcases h.follow_eq_some hp with ⟨rfl, rfl⟩ | ⟨rfl, rfl⟩ | ⟨rfl, rfl⟩ <;>
      rcases h.follow_eq_some hq with ⟨rfl, hx⟩ | ⟨rfl, hx⟩ | ⟨rfl, hx⟩ <;>
      first | rfl | exact absurd hx (by decide)
  · rintro x ⟨links, s, hs⟩
    simp only [sample] at hs
    split_ifs at hs with hone hthree hfour
    · exact ⟨[], by rw [hone]; rfl⟩
    · exact ⟨["a"], by rw [hthree, follow, efsRootIno, hedge (by decide) rfl]; rfl⟩
    · exact ⟨["d"], by rw [hfour, follow, efsRootIno, hedge (by decide) rfl]; rfl⟩

theorem Sample.entryInside {p : Path} (hp : ∀ c ∈ p, Path.Proper c) :
    (sample s₁ s₃ s₄).EntryInside p := by
  intro ino name _ hname links s hs
  have hdot : name ≠ "." := (hp name (mem_of_getLast? hname)).2.1
  simp only [sample] at hs
  split_ifs at hs
  · cases hs
    obtain ⟨map, room, hblock⟩ := h.rootBlock
    exact hblock.removesInside hdot
  · cases hs
    obtain ⟨map, hblock⟩ := h.firstBlock
    exact hblock.removesInside hdot
  · cases hs
    obtain ⟨map, hblock⟩ := h.secondBlock
    exact hblock.removesInside hdot

theorem Sample.lookup_root :
    s₁.lookupInDir "a" = .ok (some (3, ftDir)) ∧ s₁.lookupInDir "d" = .ok (some (4, ftDir)) :=
  ⟨h.root.lookup "a", h.root.lookup "d"⟩

theorem Sample.exists_remove : ∃ s₁', s₁.removeDirEntry "a" = .ok s₁' := by
  obtain ⟨map₁, room, hblock⟩ := h.rootBlock
  exact h.root.exists_remove (by decide : "a" ∈ _) (hblock.removesInside (by decide))

theorem Sample.resolveLinks : (sample s₁ s₃ s₄).resolveLinks maxSymlinkHops ["a"] = .ok ["a"] ∧
    (sample s₁ s₃ s₄).resolveLinks maxSymlinkHops ["a", "b"] = .ok ["a", "b"] ∧
    (sample s₁ s₃ s₄).resolveLinks maxSymlinkHops ["d", "b"] = .ok ["d", "b"] := by
  obtain ⟨ha, hd⟩ := h.lookup_root
  have hb : s₃.lookupInDir "b" = .ok none := h.first.lookup "b"
  have hb' : s₄.lookupInDir "b" = .ok none := h.second.lookup "b"
  simp [maxSymlinkHops, EfsFs.resolveLinks, readLink, Path.normalize, Path.push, resolvePathMode,
    resolvePathFrom, lookupInDir, readInode, sample, efsRootIno, ha, hd, hb, hb', bind, Except.bind,
    pure, Except.pure]

end Sample

/-- The directory `a` is moved into `d`. -/
theorem rename_tree_sample : ∃ fs fs' : EfsFs, fs.Tree ∧ fs.apiRename ["a"] ["d", "b"] = .ok fs' ∧
    fs'.Tree ∧ fs'.locate ["d", "b"] = fs.locate ["a"] ∧ fs'.locate ["a"] = none := by
  obtain ⟨s₁, s₃, s₄, h⟩ := exists_sample
  obtain ⟨hold, -, hnew⟩ := h.resolveLinks
  obtain ⟨map₄, hblock₄⟩ := h.secondBlock
  obtain ⟨s₁', hremove⟩ := h.exists_remove
  obtain ⟨s₄', hadd, -⟩ : ∃ s₄', s₄.addDirEntry "b" 3 ftDir = .ok s₄' ∧
      s₄'.OneBlock map₄ 4 16 (4064 - 16) ∧ s₄'.free = s₄.free :=
    hblock₄.add (by decide) (by decide) (by decide) (by decide)
  obtain ⟨s₃', hupdate⟩ := h.first.exists_updateDotdot (by decide) (by decide : (4 : UInt64) ≠ 0)
  obtain ⟨fs', hrename⟩ : ∃ fs', (sample s₁ s₃ s₄).apiRename ["a"] ["d", "b"] = .ok fs' := by
    obtain ⟨ha, hd⟩ := h.lookup_root
    have hb : s₄.lookupInDir "b" = .ok none := h.second.lookup "b"
    rw [apiRename, hold, hnew]
    simp [Path.normalize, Path.push, resolvePathMode, resolvePathFrom, lookupInDir, readInode,
      sample, efsRootIno, ha, hd, hb, bind, Except.bind, pure, Except.pure, rename, resolvePath,
      Path.lastComponent, Path.parentOrRoot, renameInner, removeReplaced, modifyDir, updateParent,
      setLinks, hremove, hadd, hupdate, FsNode.fileType, Except.map]
  obtain ⟨htree, hfound, hgone⟩ := (rename_tree_iff h.tree hold hnew (h.entryInside (by decide))
    (h.entryInside (by decide)) hrename).mpr (by decide)
  exact ⟨_, fs', h.tree, hrename, htree, hfound, hgone (by decide)⟩

/-- **The directory `a` is moved into itself**: the call succeeds, and no path leads to it any more.
-/
theorem rename_detaches : ∃ fs fs' : EfsFs, fs.Tree ∧ fs.EntryInside ["a"] ∧
    fs.EntryInside ["a", "b"] ∧ fs.apiRename ["a"] ["a", "b"] = .ok fs' ∧ fs'.IsDir 3 ∧
    ∀ path : Path, fs'.locate path.normalize ≠ some 3 := by
  obtain ⟨s₁, s₃, s₄, h⟩ := exists_sample
  obtain ⟨hold, hnew, -⟩ := h.resolveLinks
  obtain ⟨map₃, hblock₃⟩ := h.firstBlock
  obtain ⟨s₁', hremove⟩ := h.exists_remove
  obtain ⟨s₃', hadd, -⟩ : ∃ s₃', s₃.addDirEntry "b" 3 ftDir = .ok s₃' ∧
      s₃'.OneBlock map₃ 3 16 (4064 - 16) ∧ s₃'.free = s₃.free :=
    hblock₃.add (by decide) (by decide) (by decide) (by decide)
  have hrep := h.first.add (by decide) (by decide) hadd
  obtain ⟨s₃'', hupdate⟩ := hrep.exists_updateDotdot (by decide) (by decide : (3 : UInt64) ≠ 0)
  obtain ⟨fs', hrename⟩ : ∃ fs', (sample s₁ s₃ s₄).apiRename ["a"] ["a", "b"] = .ok fs' := by
    obtain ⟨ha, -⟩ := h.lookup_root
    have hb : s₃.lookupInDir "b" = .ok none := h.first.lookup "b"
    rw [apiRename, hold, hnew]
    simp [Path.normalize, Path.push, resolvePathMode, resolvePathFrom, lookupInDir, readInode,
      sample, efsRootIno, ha, hb, bind, Except.bind, pure, Except.pure, rename, resolvePath,
      Path.lastComponent, Path.parentOrRoot, renameInner, removeReplaced, modifyDir, updateParent,
      setLinks, hremove, hadd, hupdate, FsNode.fileType, Except.map]
  have hrename' := hrename
  rw [apiRename, hold, hnew] at hrename'
  obtain ⟨P, a, n, Q, b, m, t, hp, hq, hmoves⟩ :=
    moves_of_rename h.tree (Path.proper_normalize ["a"]) (Path.proper_normalize ["a", "b"])
      (h.entryInside (by decide)) (h.entryInside (by decide)) hrename'
  have hold' : P ++ [n] = ["a"] := hp.symm
  obtain ⟨rfl, -⟩ := append_inj' (hq : ["a"] ++ ["b"] = Q ++ [m]) rfl
  have htarget := hmoves.movable.target_path
  rw [hold'] at htarget
  obtain rfl : t = 3 := by simpa using h.follow_eq_some htarget
  have hin : P ++ [n] <+: ["a"] := by rw [hold']
  obtain ⟨E', hE'⟩ := hmoves.holds
  refine ⟨_, fs', h.tree, h.entryInside (by decide), h.entryInside (by decide), hrename, ?_,
    fun path hpath ↦ ?_⟩
  · rw [hmoves.isDir]
    exact hmoves.isDir_of_isPrefix h.tree hin
  · have hfollow := ((hE'.locate_eq_some_iff (Path.proper_normalize path)).mp hpath).1
    rw [hmoves.edge] at hfollow
    exact hmoves.movable.lost hin _ hfollow

end EfsFs

end Edos

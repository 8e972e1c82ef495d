import Edos.Efs.Rename

/-!
# Where a symbolic link leads

A file system splices the target of a link into the path it is walking and reports what is left
inside its mount, with the number of levels above the mount point (`splice_symlink`). The VFS takes
that number from the path of the mount (`link_escape`). Together they fold `.` and `..` as
`normalize` does on the whole path: the stack of `normalize` is what is kept of the mount path, with
the components that the file system has (`foldl_push_mount`).
-/

namespace Edos

open List

/-- `link_escape` of the VFS: the absolute path that a link names. -/
def LinkEscape.inNamespace (mount : Path) : LinkEscape → Path
  | .absolute components => components
  | .aboveMount up components => mount.take (mount.length - up) ++ components

variable {mount resolved out : Path} {up : ℕ}

/-- One component: above the mount point `..` takes a component of the mount path, or stays at the
root. -/
theorem push_mount (mount : Path) (out : Path) (up : ℕ) (comp : String) :
    Path.push (mount.take (mount.length - up) ++ out) comp =
      mount.take (mount.length - (spliceStep (out, up) comp).2) ++
        (spliceStep (out, up) comp).1 := by
  rw [Path.push, spliceStep]
  split_ifs with hskip hdots hnil
  · rfl
  · rw [hnil, append_nil, append_nil, dropLast_eq_take, length_take, take_take]
    congr 1
    omega
  · exact dropLast_append_of_ne_nil hnil
  · exact append_assoc ..

/-- **All components.** -/
theorem foldl_push_mount (comps : Path) :
    comps.foldl Path.push (mount.take (mount.length - up) ++ out) =
      LinkEscape.inNamespace mount
        (.aboveMount (comps.foldl spliceStep (out, up)).2
          (comps.foldl spliceStep (out, up)).1) := by
  induction comps generalizing out up with
  | nil => rfl
  | cons comp comps ih =>
    rw [foldl_cons, push_mount, ih]
    rfl

/-- **Links are resolved lexically.** What the file system and the VFS make of a link is the
normalised path of its target from the root, or from where the link is, with the components that
followed it. -/
theorem link_resolved_lexically (hmount : ∀ c ∈ mount, Path.Proper c)
    (hresolved : ∀ c ∈ resolved, Path.Proper c) (target : String) (rest : Path) :
    (spliceSymlink resolved target rest).inNamespace mount =
      if target.startsWith "/" then Path.normalize (target.splitOn "/" ++ rest)
      else Path.normalize (mount ++ resolved ++ (target.splitOn "/" ++ rest)) := by
  rw [spliceSymlink]
  split_ifs with habsolute
  · have hfold := @foldl_push_mount [] [] 0 (target.splitOn "/" ++ rest)
    rw [LinkEscape.inNamespace, take_nil, take_nil, nil_append, nil_append] at hfold
    exact hfold.symm
  · have hstart : (mount ++ resolved).foldl Path.push [] =
        mount.take (mount.length - 0) ++ resolved := by
      rw [Nat.sub_zero, take_length]
      exact Path.normalize_of_proper fun c hc ↦ (mem_append.mp hc).elim (hmount c) (hresolved c)
    have hfold : Path.normalize (mount ++ resolved ++ (target.splitOn "/" ++ rest)) =
        (target.splitOn "/" ++ rest).foldl Path.push ((mount ++ resolved).foldl Path.push []) :=
      foldl_append ..
    rw [hfold, hstart, foldl_push_mount]

/-- A link that leaves its mount. -/
theorem link_resolved_lexically_above :
    (spliceSymlink ["a"] "../../b" ["c"]).inNamespace ["mnt", "usb"] =
      if "../../b".startsWith "/" then Path.normalize ("../../b".splitOn "/" ++ ["c"])
      else Path.normalize (["mnt", "usb"] ++ ["a"] ++ ("../../b".splitOn "/" ++ ["c"])) :=
  link_resolved_lexically (by decide) (by decide) "../../b" ["c"]

end Edos

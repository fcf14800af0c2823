import Mathlib.Data.UInt
import Mathlib.Tactic

/-!
# The virtual file system

`vfs.c` finds the file system that a path leads into by comparing the path with the paths at which
file systems are mounted, and then walks through the rest of the path one name at a time.

Strings are lists of bytes, without the 0 at their end.  `vfs_lookup` cuts the names out of a copy of
the path; here the copy is the path, as if `kmalloc`, whose result is not tested, never failed.  A vnode
is a value of some type `V`; the operations of file systems are a parameter (`Vnodeops`, `VfsT`).
-/

namespace Vfs

/-- A string. -/
abbrev Str := List UInt8

/-- The character that separates the names of a path. -/
abbrev slash : UInt8 := 0x2f

/-- `struct vfs`: the mount path, and what `vfs_op->vfs_root` gives, unless it fails. -/
structure VfsT (V : Type) where
  mountPath : Str
  vfsRoot : Option V

/-- `vn_lookup`: what it returns for a vnode and a name, and what `*out` then holds, given what it
held before. -/
structure Vnodeops (V : Type) where
  vnLookup : V → Str → V → Int × V

variable {V : Type}

/-! ### Mount paths -/

/-- The number of characters in which a path and a mount path agree, as the inner loop of
`find_longest_mount_path` counts them. -/
def commonLength : Str → Str → ℕ
  | p :: path, m :: mountPath => if p = m then commonLength path mountPath + 1 else 0
  | _, _ => 0

/-- `find_longest_mount_path`: the variables `max_len` and `root`, the latter without a value at
first. -/
def findLongestMountPath (vfsList : List (VfsT V)) (path : Str) : ℕ × Option (VfsT V) :=
  vfsList.foldl (fun (maxLen, root) i =>
    let idx := commonLength path i.mountPath
    if idx > maxLen then (idx, some i) else (maxLen, root)) (0, none)

/-! ### Looking up -/

/-- The loop of `vfs_lookup` over the rest of the path, for at most `n` names.  The result is `ret`
and what `res` points to. -/
def walkFrom (ops : Vnodeops V) : ℕ → V → Str → Int → V → Int × V
  | 0, _, _, ret, res => (ret, res)
  | n + 1, vnode, p, ret, res =>
    if p.length ≠ 0 ∧ ret = 0 then
      let slashIndex := (p.takeWhile (· ≠ slash)).length
      let inc := if slashIndex ≠ p.length then slashIndex + 1 else slashIndex
      let (ret, res) := ops.vnLookup vnode (p.take slashIndex) res
      walkFrom ops n res (p.drop inc) ret res
    else
      (ret, res)

/-- `vfs_lookup` after the mount path: the path goes on with `path` in the file system `root`.  Each
round takes at least one character off the path. -/
def lookupIn (ops : Vnodeops V) (root : VfsT V) (path : Str) (res : V) : Int × V :=
  match root.vfsRoot with
  | none => (-1, res)
  | some vnode => if path.length = 0 then (0, vnode) else walkFrom ops path.length vnode path 0 res

/-- The file system in which `vfs_lookup` continues with an absolute path, and the rest of the
path. -/
def selected (vfsList : List (VfsT V)) (path : Str) : Option (VfsT V × Str) :=
  let (maxLen, root) := findLongestMountPath vfsList path
  root.map fun root => (root, path.drop maxLen)

/-- `vfs_lookup`.  `none` when it uses the variable `root` without a value. -/
def vfsLookup (ops : Vnodeops V) (vfsList : List (VfsT V)) (path : Str) (res : V) :
    Option (Int × V) :=
  if path.length < 1 then some (-1, res)
  else if path.head? ≠ some slash then some (-1, res)
  else (selected vfsList path).map fun (root, path) => lookupIn ops root path res

end Vfs

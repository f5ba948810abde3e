import Cervus.Errno
import Cervus.Fs.Normalize

/-! From the path a task names to a node: the prefix of the task's root, the mount
table, and the walk that starts again at every link. -/

namespace Cervus.Fs

def vfsMaxPath : Nat := 512
def vfsMaxName : Nat := 256
def vfsSymlinkMax : Nat := 8

inductive NodeType
  | file | dir | chardev | blkdev | symlink | pipe | socket
  deriving DecidableEq

/-- What the lookups see of the mounted file systems: `lookup`, `readlink` and `stat` are
the operations of the nodes, and the mounts are the used slots in the table's order. -/
structure Vfs (V : Type) where
  type : V → NodeType
  lookup : V → List Char → Except Int V
  readlink : V → Except Int (List Char)
  stat : V → Except Int NodeType
  mounts : List (List Char × V)

section
variable {V : Type}

def mountMatches (path mount : List Char) : Bool :=
  mount.isPrefixOf path && (path[mount.length]? == some '/' || path[mount.length]? == none ||
    mount.length == 1)

def findMountLoop (path : List Char) :
    List (List Char × V) → Option (List Char × V) → Option (List Char × V)
  | [], best => best
  | m :: ms, best =>
    if mountMatches path m.1 && decide (m.1.length > (best.map fun b => b.1.length).getD 0) then
      findMountLoop path ms (some m)
    else findMountLoop path ms best

def findMount (mounts : List (List Char × V)) (path : List Char) : Option (List Char × V) :=
  findMountLoop path mounts none

def skipSlashes (p : List Char) : List Char := p.dropWhile (· = '/')

def pathNextComponent (src : List Char) : List Char × List Char :=
  let src := skipSlashes src
  let comp := (src.takeWhile (· ≠ '/')).take (vfsMaxName - 1)
  (comp, src.drop comp.length)

/-- `while (cl > 1 && curpath[cl - 1] == '/')`, with the last character first. -/
def dropSlashes : List Char → List Char
  | c :: d :: p => if c = '/' then dropSlashes (d :: p) else c :: d :: p
  | p => p

def startPath (base : List Char) : List Char :=
  (dropSlashes (base.take (vfsMaxPath - 1)).reverse).reverse

def appendName (curpath comp : List Char) : List Char :=
  if curpath.length + 1 + comp.length < vfsMaxPath then
    (if curpath.length > 1 ∨ curpath.head? ≠ some '/' then curpath ++ ['/'] else curpath) ++ comp
  else curpath

def linkRootLen (root : List Char) : Nat := if root = [] ∨ root = ['/'] then 0 else root.length

def underRoot (path root : List Char) : Bool :=
  root.isPrefixOf path && (path[root.length]? == some '/' || path[root.length]? == none)

def followLink (root dirpath target rest : List Char) : Except Int (List Char) :=
  let rl := linkRootLen root
  let abs := target.head? = some '/'
  if (if abs then rl + target.length + 1
      else dirpath.length + 1 + target.length + 1) > vfsMaxPath then
    .error (-Errno.enametoolong)
  else
    let full := if abs then root.take rl ++ target else dirpath ++ '/' :: target
    if rest ≠ [] ∧ full.length + 1 + rest.length + 1 > vfsMaxPath then .error (-Errno.enametoolong)
    else
      let full := syscallPathNormalize (if rest ≠ [] then full ++ '/' :: rest else full)
      .ok (if rl ≠ 0 ∧ underRoot full root = false then root else full)

/-- The loop of `walk_from`; `again` is `lookup_path` one level deeper, and the fuel is
for the characters of the path. -/
def walkLoop (fs : Vfs V) (root : List Char) (follow : Bool) (again : List Char → Except Int V) :
    Nat → V → List Char → List Char → Except Int V
  | 0, cur, _, _ => .ok cur
  | n + 1, cur, curpath, p =>
    if p = [] then .ok cur
    else
      let r := pathNextComponent p
      if r.1 = [] then walkLoop fs root follow again n cur curpath r.2
      else if fs.type cur ≠ .dir then .error (-Errno.enotdir)
      else
        match fs.lookup cur r.1 with
        | .error e => .error e
        | .ok next =>
          let p := skipSlashes r.2
          if fs.type next = .symlink ∧ (p ≠ [] ∨ follow = true) then
            match fs.readlink next with
            | .error e => .error e
            | .ok target =>
              match followLink root curpath (target.take (vfsMaxPath - 1)) p with
              | .error e => .error e
              | .ok full => again full
          else walkLoop fs root follow again n next (appendName curpath r.1) p

def lookupPath (fs : Vfs V) (root : List Char) (follow : Bool) : Nat → List Char → Except Int V
  | n, path =>
    if path.head? ≠ some '/' then .error (-Errno.einval)
    else
      match n with
      | 0 => .error (-Errno.eloop)
      | n + 1 =>
        match findMount fs.mounts path with
        | none => .error (-Errno.enoent)
        | some m =>
          let rel := skipSlashes (path.drop m.1.length)
          if rel = [] then .ok m.2
          else
            let base := path.take (min (path.length - rel.length) (vfsMaxPath - 1))
            walkLoop fs root follow (lookupPath fs root follow n) (rel.length + 1) m.2
              (startPath (if base = [] then ['/'] else base)) rel

def vfsLookup (fs : Vfs V) (root path : List Char) : Except Int V :=
  lookupPath fs root true vfsSymlinkMax path

def vfsLookupNofollow (fs : Vfs V) (root path : List Char) : Except Int V :=
  lookupPath fs root false vfsSymlinkMax path

def isDotSegment (s : List Char) : Bool :=
  let seg := s.takeWhile (· ≠ '/')
  seg == ['.'] || seg == ['.', '.']

/-- Checks that what stands before a slash at the end, or before a dot segment, is a
directory. `done` is what the loop has passed. -/
def requireDirsLoop (fs : Vfs V) (root : List Char) : Nat → List Char → List Char → Except Int Unit
  | 0, _, _ => .ok ()
  | n + 1, done, rest =>
    let done := done ++ rest.takeWhile (· = '/')
    let rest := skipSlashes rest
    if rest = [] then .ok ()
    else
      let done := done ++ rest.takeWhile (· ≠ '/')
      let after := rest.dropWhile (· ≠ '/')
      let next := skipSlashes after
      if after = [] ∨ isDotSegment rest then requireDirsLoop fs root n done after
      else if next ≠ [] ∧ isDotSegment next = false then requireDirsLoop fs root n done after
      else if done.length ≥ pathBuf then .error (-Errno.enametoolong)
      else
        match vfsLookup fs root (syscallPathNormalize done) with
        | .error e => if next = [] then requireDirsLoop fs root n done after else .error e
        | .ok node =>
          if fs.type node ≠ .dir then .error (-Errno.enotdir)
            else requireDirsLoop fs root n done after

def pathRequireDirs (fs : Vfs V) (root path : List Char) : Except Int Unit :=
  requireDirsLoop fs root path.length [] path

def syscallRootPrefix (path root : List Char) : Nat :=
  if root ≠ [] ∧ underRoot path root then root.length else 0

inductive Abi
  | cervus | linux | freebsd
  deriving DecidableEq

structure PathTask where
  root : List Char
  cwd : List Char
  atBase : Option (List Char)
  abi : Abi

def statPath (fs : Vfs V) (r : Except Int V) : Except Int NodeType := r.bind fs.stat

/-- Looks for the path in the tree of the other system first; `dst` is `pre ++ p`. -/
def compatRedirect (fs : Vfs V) (root pre p : List Char) (max : Nat) (croot : List Char)
    (libdirs : List (List Char)) : List Char :=
  if p.head? ≠ some '/' ∨ p.length < 2 then p
  else if croot.isPrefixOf p && (p[croot.length]? == some '/' || p[croot.length]? == none) then p
  else if pre.length + croot.length + p.length + 1 > max ∨
    croot.length + p.length + 1 > vfsMaxPath then p
  else
    match statPath fs (vfsLookupNofollow fs root (pre ++ croot ++ p)) with
    | .ok st =>
      if st = .dir ∧ statPath fs (vfsLookup fs root (pre ++ p)) matches .ok .dir then p
        else croot ++ p
    | .error _ =>
      let lib := libdirs.any fun d => d.isPrefixOf p
      if lib = false ∨ statPath fs (vfsLookupNofollow fs root (pre ++ croot)) matches .error _
        then p
      else croot ++ p

def linuxLibdirs : List (List Char) :=
  ["/lib/".toList, "/lib64/".toList, "/usr/lib/".toList, "/usr/lib64/".toList,
    "/usr/local/lib/".toList]

def freebsdLibdirs : List (List Char) :=
  ["/lib/".toList, "/usr/lib/".toList, "/libexec/".toList, "/usr/local/lib/".toList]

def abiCompatRedirect (fs : Vfs V) (root pre p : List Char) (max : Nat) : Abi → List Char
  | .cervus => p
  | .linux => compatRedirect fs root pre p max "/compat/linux".toList linuxLibdirs
  | .freebsd => compatRedirect fs root pre p max "/compat/freebsd".toList freebsdLibdirs

def PathTask.base (t : PathTask) : List Char :=
  t.atBase.getD (if t.cwd = [] then ['/'] else t.cwd)

def resolveView (t : PathTask) (path : List Char) : Except Int (List Char × List Char) :=
  if path.head? = some '/' then
    if path.length ≥ vfsMaxPath then .error (-Errno.enametoolong) else .ok (t.root, path)
  else
    let skip := syscallRootPrefix t.base t.root
    let root := if skip = 0 then [] else t.root
    let base := t.base.drop skip
    let base := if base = [] then ['/'] else base
    if base.length + 1 + path.length + 1 > vfsMaxPath then .error (-Errno.enametoolong)
    else .ok (root, (if base.getLast? = some '/' then base else base ++ ['/']) ++ path)

def syscallResolvePath (fs : Vfs V) (t : PathTask) (path : List Char) (max : Nat) :
    Except Int (List Char) :=
  if max = 0 then .error (-Errno.einval)
  else if path = [] then .error (-Errno.enoent)
  else
    match resolveView t path with
    | .error e => .error e
    | .ok (root, view) =>
      if root.length + view.length + 1 > max then .error (-Errno.enametoolong)
      else
        match pathRequireDirs fs t.root (root ++ view) with
        | .error e => .error e
        | .ok _ =>
          let p := syscallPathNormalize view
          let p := if path.head? = some '/' ∧
            t.abi ≠ .cervus then abiCompatRedirect fs t.root root p max t.abi else p
          .ok (if root ≠ [] ∧ p = ['/'] then root else root ++ p)

end

end Cervus.Fs

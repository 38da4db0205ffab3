import YazzyPreload.Recyclix.Options
import YazzyPreload.Syscall

/-!
# `recyclix.so`

The functions of `recyclix.c` as programs over the system calls.  Loops and recursion take a
`fuel`; a program that runs out of it returns `none`.  Messages to standard error are left out,
and strings are as long as they need to be.

`unlinkat` is cut at its three stages: `nextRecycler` goes through the items of `RECYCLER`,
`locate` finds the entry's pathname and the mountpoint it is under, and `recycle` clones the
directories and moves the entry.
-/

namespace YazzyPreload.Recyclix

/-- What `unlinkat` reads from the environment of the process, and the regular expressions of the
C library. -/
structure Env where
  recycler : Option Str
  home : Option Str
  regcomp : Regcomp

/-- How a call ends: the value returned, and `errno` where the function sets it itself. -/
structure Exit where
  retval : ℤ
  errno : Option Errno
  deriving DecidableEq

/-- The exit that leaves `errno` as the last call set it. -/
def Exit.plain (retval : ℤ) : Exit := ⟨retval, none⟩

/-- The return value of a call that gives nothing but success or failure. -/
def retvalOf (r : Except Errno Unit) : ℤ :=
  match r with
  | .ok _ => 0
  | .error _ => -1

/-! ## Cloning a directory path -/

mutual

/-- `recyclix_clonepath_recursive`: makes the directory `p_path` with the mode and owner of
`p_donor`, and the directories above it that are missing with those of the directories above
`p_donor`. -/
def recyclixClonepathRecursive : ℕ → Str → Str → Code (Option ℤ)
  | 0, _, _ => .ret none
  | fuel + 1, p_path, p_donor =>
    .call (.stat p_donor) fun
      | .error _ => .ret (some (-1))
      | .ok donor_st => tryMkdir fuel p_path p_donor donor_st

/-- The part of `recyclix_clonepath_recursive` from the label `try_mkdir` on. -/
def tryMkdir : ℕ → Str → Str → Stat → Code (Option ℤ)
  | 0, _, _, _ => .ret none
  | fuel + 1, p_path, p_donor, donor_st =>
    let chownAndReturn : Code (Option ℤ) :=
      .call (.chown p_path donor_st.inode.uid donor_st.inode.gid) fun _ => .ret (some 0)
    let missingParent : Code (Option ℤ) :=
      .call (.unlink (dirname p_path)) fun
        | .ok _ => tryMkdir fuel p_path p_donor donor_st
        | .error .ENOENT => do
          let retval ← recyclixClonepathRecursive fuel (dirname p_path) (dirname p_donor)
          if retval = some 0 then tryMkdir fuel p_path p_donor donor_st else .ret retval
        | .error _ => .ret (some (-1))
    .call (.mkdir p_path donor_st.inode.mode) fun
      | .ok _ => chownAndReturn
      | .error .ENOENT => missingParent
      | .error .ENOTDIR => missingParent
      | .error .EEXIST =>
        .call (.stat p_path) fun
          | .error _ => .ret (some (-1))
          | .ok st =>
            if st.isDir then .call (.chmod p_path donor_st.inode.mode) fun _ => chownAndReturn
            else
              .call (.unlink p_path) fun
                | .ok _ => tryMkdir fuel p_path p_donor donor_st
                | .error _ => .ret (some (-1))
      | .error _ => .ret (some (-1))

end

/-! ## Choosing a recycler -/

/-- Where the loop over the items ends: with the real `unlinkat`, by returning, or at a recycler
that takes the file, with the directory's inode number. -/
inductive Choice
  | realUnlink
  | exit (e : Exit)
  | recycler (dir : Str) (inode : ℕ)
  deriving DecidableEq

/-- The loop over the items of `RECYCLER`; `st1` is the status of the file. -/
def nextRecycler (env : Env) (pathname : Str) (st1 : Stat) : List Str → Code Choice
  | [] => .ret .realUnlink
  | item :: items =>
    let recycler := expandHome env.home item
    if recycler = [] then nextRecycler env pathname st1 items
    else
      match readOptions env.regcomp pathname (binOptions recycler) .initial with
      | none => .ret (.exit ⟨-1, some .ECANCELED⟩)
      | some lim =>
        .call (.stat (binDir recycler)) fun
          | .error _ => nextRecycler env pathname st1 items
          | .ok st2 =>
            if st2.obj.dev ≠ st1.obj.dev then nextRecycler env pathname st1 items
            else if lim.admits st1.isReg st1.size then
              .ret (.recycler (binDir recycler) st2.obj.ino)
            else nextRecycler env pathname st1 items

/-! ## Locating the file -/

/-- What the search for the root of the file system ends with. -/
inductive Found
  | exit (e : Exit)
  | realUnlink
  | mountpoint (fqpath mp_path : Str)
  deriving DecidableEq

/-- The pathname with the directory it is relative to, and the value `retval` has then. -/
def fullPath (dirfd : ℤ) (pathname : Str) : Code (Except Exit (Str × ℤ)) :=
  if isAbs pathname then .ret (.ok (pathname, 0))
  else if dirfd = atFdcwd then
    .call .getcwd fun
      | .error _ => .ret (.error (.plain (-1)))
      | .ok atdir => .ret (.ok (atdir ++ '/' :: pathname, 0))
  else
    .call (.readlinkFd dirfd) fun
      | .error _ => .ret (.error (.plain (-1)))
      | .ok atdir => .ret (.ok (atdir ++ '/' :: pathname, (List.length atdir : ℕ)))

/-- The loop that looks for the root of the file system, from `mp_path` upwards. -/
def findRoot (st1 : Stat) (recyclerInode : ℕ) (fqpath : Str) : ℕ → Str → Code (Option Found)
  | 0, _ => .ret none
  | fuel + 1, mp_path =>
    let tmp := if dirname mp_path = ['/', '/'] then ['/'] else dirname mp_path
    .call (.stat tmp) fun
      | .error _ => .ret (some (.exit (.plain (-1))))
      | .ok st2 =>
        if st2.obj.ino = recyclerInode then .ret (some .realUnlink)
        else if mp_path = ['/'] ∧ tmp = ['/'] then .ret (some (.mountpoint fqpath mp_path))
        else if st1.obj.dev ≠ st2.obj.dev then .ret (some (.mountpoint fqpath mp_path))
        else findRoot st1 recyclerInode fqpath fuel tmp

/-- From the choice of the recycler to the mountpoint of the file. -/
def locate (fuel : ℕ) (dirfd : ℤ) (pathname : Str) (st1 : Stat) (recyclerInode : ℕ) :
    Code (Option Found) := do
  match ← fullPath dirfd pathname with
  | .error e => .ret (some (.exit e))
  | .ok (fqpath, retval) =>
    .call (.realpath (dirname fqpath)) fun
      | .error _ => .ret (some (.exit (.plain retval)))
      | .ok ptr =>
        let fqpath := ptr ++ '/' :: basename fqpath
        findRoot st1 recyclerInode fqpath fuel fqpath

/-! ## Moving the file -/

/-- The pathname of the file inside the recycler. -/
def recycledPath (recycler fqpath mp_path : Str) : Str :=
  recycler ++ '/' :: fqpath.drop mp_path.length

/-- The end of `unlinkat`, at the label `real_unlink`. -/
def realUnlink (dirfd : ℤ) (pathname : Str) (flags : Flags) : Code (Option Exit) :=
  .call (.unlinkat dirfd pathname flags) fun r => .ret (some (.plain (retvalOf r)))

/-- The paths `recyclix_clonepath_recursive` is called with: those of the file itself for a
directory, else those of its parent. -/
def clonePaths (isDir : Bool) (recycled fqpath : Str) : Str × Str :=
  if isDir then (recycled, fqpath) else (dirname recycled, dirname fqpath)

/-- The part of `unlinkat` after the mountpoint is known. -/
def recycle (fuel : ℕ) (dirfd : ℤ) (pathname : Str) (flags : Flags) (st1 : Stat)
    (recycler fqpath mp_path : Str) : Code (Option Exit) := do
  let recycled := recycledPath recycler fqpath mp_path
  let paths := clonePaths st1.isDir recycled fqpath
  match ← recyclixClonepathRecursive fuel paths.1 paths.2 with
  | none => .ret none
  | some retval =>
    if retval ≠ 0 then .ret (some (.plain retval))
    else if st1.isDir then realUnlink dirfd pathname flags
    else
      .call (.renameat dirfd pathname 0 recycled) fun r => .ret (some (.plain (retvalOf r)))

/-- The flags `unlinkat` passes to `fstatat`. -/
def statFlags (flags : Flags) : Flags := (flags &&& ~~~atRemovedir) ||| atSymlinkNofollow

/-- `unlinkat` after the recycler is chosen. -/
def dropFile (fuel : ℕ) (dirfd : ℤ) (pathname : Str) (flags : Flags) (st1 : Stat) :
    Choice → Code (Option Exit)
  | .realUnlink => realUnlink dirfd pathname flags
  | .exit e => .ret (some e)
  | .recycler dir inode => do
    match ← locate fuel dirfd pathname st1 inode with
    | none => .ret none
    | some (.exit e) => .ret (some e)
    | some .realUnlink => realUnlink dirfd pathname flags
    | some (.mountpoint fqpath mp_path) => recycle fuel dirfd pathname flags st1 dir fqpath mp_path

/-- `unlinkat`. -/
def unlinkat (env : Env) (fuel : ℕ) (dirfd : ℤ) (pathname : Str) (flags : Flags) :
    Code (Option Exit) :=
  match env.recycler with
  | none => realUnlink dirfd pathname flags
  | some recyclers =>
    .call (.fstatat dirfd pathname (statFlags flags)) fun
      | .error _ => .ret (some (.plain (-1)))
      | .ok st1 => do
        let choice ← nextRecycler env pathname st1 (recyclers.splitOn ':')
        dropFile fuel dirfd pathname flags st1 choice

/-- `unlink`. -/
def unlink (env : Env) (fuel : ℕ) (pathname : Str) : Code (Option Exit) :=
  unlinkat env fuel atFdcwd pathname 0

/-! ## A small machine -/

namespace Sample

/-- The name of a directory entry, written as a literal. -/
def name (s : String) (h : Ordinary s.toList := by decide) : Name := ⟨s.toList, h⟩

def bin : Name := name "bin"

def a : Name := name "a"

def f : Name := name "f"

def dir : Inode := ⟨.dir, 0o755, 0, 0⟩

def file : Inode := ⟨.reg 5, 0o644, 0, 0⟩

def symlink (target : String) : Inode := ⟨.symlink target.toList, 0o777, 0, 0⟩

/-- The superuser, in the root directory. -/
def process : Process := ⟨[], fun _ => none, 0, 0, 0⟩

/-- The recycler `/bin`, without options. -/
def env : Env := ⟨some "/bin".toList, none, fun _ => none⟩

/-- One device, with the directories `/bin` and `/a`. -/
def tree : FileSystem :=
  ((FileSystem.bare ⟨1, 2⟩).addChild [] bin dir).addChild [] a dir

/-- The tree with the file `/a/f`. -/
def fileTree : FileSystem := tree.addChild [a] f file

end Sample

end YazzyPreload.Recyclix

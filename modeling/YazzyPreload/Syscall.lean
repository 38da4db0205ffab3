import YazzyPreload.Lookup
import YazzyPreload.Program

/-!
# System calls

The calls the programs make, as operations on a file system on behalf of a process.  `exec` gives
the answer a call has when nothing but the state of the file system decides it; in `Sys` every call
may also be denied for a reason outside the model (permissions, limits, hardware).
-/

namespace YazzyPreload

/-- What a file descriptor refers to: a directory, or another object together with the text
`readlink` gives for the descriptor. -/
inductive Desc
  | dir (l : Loc)
  | file (o : Obj) (link : Str)

/-- The calling process. -/
structure Process where
  cwd : Loc
  fds : ℤ → Option Desc
  umask : Mode
  uid : ℕ
  gid : ℕ

/-- The descriptor that stands for the current directory. -/
def atFdcwd : ℤ := -100

/-- The flags of the `*at` calls. -/
abbrev Flags : Type := BitVec 32

def atSymlinkNofollow : Flags := 0x100
def atRemovedir : Flags := 0x200
def atNoAutomount : Flags := 0x800
def atEmptyPath : Flags := 0x1000
/-- Both bits of the synchronization type, which `fstatat` ignores. -/
def atStatxSyncType : Flags := 0x6000

/-- The result of `stat`. -/
structure Stat where
  obj : Obj
  inode : Inode
  deriving DecidableEq

/-- `st_size`, for regular files. -/
def Stat.size (st : Stat) : ℕ :=
  match st.inode.kind with
  | .reg size => size
  | _ => 0

/-- `S_ISDIR`. -/
def Stat.isDir (st : Stat) : Bool := st.inode.kind = .dir

/-- `S_ISREG`. -/
def Stat.isReg (st : Stat) : Bool :=
  match st.inode.kind with
  | .reg _ => true
  | _ => false

/-- The calls. `readlinkFd` is `readlink` on `/proc/self/fd/<dirfd>`. -/
inductive Call
  | fstatat (dirfd : ℤ) (path : Str) (flags : Flags)
  | stat (path : Str)
  | getcwd
  | readlinkFd (dirfd : ℤ)
  | realpath (path : Str)
  | mkdir (path : Str) (mode : Mode)
  | unlink (path : Str)
  | chmod (path : Str) (mode : Mode)
  | chown (path : Str) (uid gid : ℕ)
  | renameat (olddirfd : ℤ) (oldpath : Str) (newdirfd : ℤ) (newpath : Str)
  | unlinkat (dirfd : ℤ) (path : Str) (flags : Flags)
  deriving DecidableEq

/-- What a call gives on success. -/
abbrev Call.Result : Call → Type
  | fstatat .. => Stat
  | stat _ => Stat
  | getcwd => Str
  | readlinkFd _ => Str
  | realpath _ => Str
  | _ => Unit

/-- The answer to a call: its result or an error. -/
abbrev Call.Answer (c : Call) : Type := Except Errno c.Result

/-- Programs over these calls. -/
abbrev Code (α : Type) : Type := Prog Call Call.Answer α

/-! ## Pathnames of locations -/

/-- The absolute pathname of a location other than the root; empty for the root. -/
def absPath : Loc → Str
  | [] => []
  | n :: l => absPath l ++ '/' :: n.1

/-- The absolute pathname of a location. -/
def pathOf (l : Loc) : Str := if l = [] then ['/'] else absPath l

/-! ## The effect of each call -/

namespace FileSystem

variable (fs : FileSystem) (p : Process)

/-- The directory a pathname starts from. -/
def base (p : Process) (dirfd : ℤ) (s : Str) : Except Errno Loc :=
  if isAbs s then .ok []
  else if dirfd = atFdcwd then .ok p.cwd
  else
    match p.fds dirfd with
    | some (.dir l) => .ok l
    | some (.file _ _) => .error .ENOTDIR
    | none => .error .EBADF

/-- What a pathname names. -/
def targetAt (dirfd : ℤ) (s : Str) : Except Errno Target :=
  if s = [] then .error .ENOENT else (base p dirfd s).bind fun cur => target fs.kindAt cur s

/-- Where a pathname leads. -/
def lookupAt (dirfd : ℤ) (s : Str) (follow : Bool) : Except Errno Loc :=
  if s = [] then .error .ENOENT else (base p dirfd s).bind fun cur => lookup fs.kindAt cur s follow

/-- The status of the object at a location. -/
def statLoc (l : Loc) : Except Errno Stat :=
  match fs.dirent l with
  | none => .error .ENOENT
  | some d => .ok ⟨d.obj, fs.inode d.obj⟩

/-- `stat(2)`. -/
def stat (s : Str) : Except Errno Stat := (fs.lookupAt p atFdcwd s true).bind fs.statLoc

/-- The status of what a descriptor refers to. -/
def fstat (dirfd : ℤ) : Except Errno Stat :=
  if dirfd = atFdcwd then fs.statLoc p.cwd
  else
    match p.fds dirfd with
    | some (.dir l) => fs.statLoc l
    | some (.file o _) => .ok ⟨o, fs.inode o⟩
    | none => .error .EBADF

/-- `fstatat(2)`. -/
def fstatat (dirfd : ℤ) (s : Str) (flags : Flags) : Except Errno Stat :=
  if flags &&& ~~~(atSymlinkNofollow ||| atNoAutomount ||| atEmptyPath ||| atStatxSyncType) ≠ 0 then
    .error .EINVAL
  else if s = [] ∧ flags &&& atEmptyPath ≠ 0 then fs.fstat p dirfd
  else (fs.lookupAt p dirfd s (flags &&& atSymlinkNofollow = 0)).bind fs.statLoc

/-- `getcwd(3)`. -/
def getcwd : Except Errno Str := if fs.IsDir p.cwd then .ok (pathOf p.cwd) else .error .ENOENT

/-- `readlink(2)` on the link that `/proc` keeps for a descriptor. -/
def readlinkFd (dirfd : ℤ) : Except Errno Str :=
  match p.fds dirfd with
  | some (.dir l) => .ok (pathOf l)
  | some (.file _ link) => .ok link
  | none => .error .ENOENT

/-- `realpath(3)`. -/
def realpath (s : Str) : Except Errno Str := (fs.lookupAt p atFdcwd s true).map pathOf

/-- The inode of a new directory: the mode is masked, and a set-group-ID directory passes on its
group. -/
def newDir (l : Loc) (mode : Mode) : Inode :=
  let parent : Option Inode := (fs.dirent l).map fun d => fs.inode d.obj
  let mode := mode &&& 0o1777 &&& ~~~p.umask
  match parent with
  | some i =>
    if i.mode &&& 0o2000 ≠ 0 then ⟨.dir, mode ||| 0o2000, p.uid, i.gid⟩ else ⟨.dir, mode, p.uid, p.gid⟩
  | none => ⟨.dir, mode, p.uid, p.gid⟩

/-- `mkdir(2)`. -/
def mkdir (s : Str) (mode : Mode) : Except Errno Unit × FileSystem :=
  match fs.targetAt p atFdcwd s with
  | .error e => (.error e, fs)
  | .ok (.entry l n) =>
    if fs.dirent (n :: l) = none then (.ok (), fs.addChild l n (fs.newDir p l mode))
    else (.error .EEXIST, fs)
  | .ok _ => (.error .EEXIST, fs)

/-- `unlinkat(2)` without `AT_REMOVEDIR`. -/
def unlinkEntry (dirfd : ℤ) (s : Str) : Except Errno Unit × FileSystem :=
  match fs.targetAt p dirfd s with
  | .error e => (.error e, fs)
  | .ok (.entry l n) =>
    match fs.dirent (n :: l) with
    | none => (.error .ENOENT, fs)
    | some d =>
      if (fs.inode d.obj).kind = .dir then (.error .EISDIR, fs)
      else if slashed s then (.error .ENOTDIR, fs)
      else if d.mounted then (.error .EBUSY, fs)
      else (.ok (), fs.erase (n :: l))
  | .ok _ => (.error .EISDIR, fs)

/-- `unlinkat(2)` with `AT_REMOVEDIR`. -/
def removeDir (dirfd : ℤ) (s : Str) : Except Errno Unit × FileSystem :=
  match fs.targetAt p dirfd s with
  | .error e => (.error e, fs)
  | .ok .root => (.error .EBUSY, fs)
  | .ok .dot => (.error .EINVAL, fs)
  | .ok .dotdot => (.error .ENOTEMPTY, fs)
  | .ok (.entry l n) =>
    match fs.dirent (n :: l) with
    | none => (.error .ENOENT, fs)
    | some d =>
      if (fs.inode d.obj).kind ≠ .dir then (.error .ENOTDIR, fs)
      else if d.mounted then (.error .EBUSY, fs)
      else if fs.childless (n :: l) then (.ok (), fs.erase (n :: l))
      else (.error .ENOTEMPTY, fs)

/-- `unlinkat(2)`. -/
def unlinkat (dirfd : ℤ) (s : Str) (flags : Flags) : Except Errno Unit × FileSystem :=
  if flags &&& ~~~atRemovedir ≠ 0 then (.error .EINVAL, fs)
  else if flags &&& atRemovedir ≠ 0 then fs.removeDir p dirfd s
  else fs.unlinkEntry p dirfd s

/-- `chmod(2)`. -/
def chmod (s : Str) (mode : Mode) : Except Errno Unit × FileSystem :=
  match (fs.lookupAt p atFdcwd s true).bind fs.statLoc with
  | .error e => (.error e, fs)
  | .ok st => (.ok (), fs.setMode st.obj mode)

/-- `chown(2)`; on a directory it keeps the mode. -/
def chown (s : Str) (uid gid : ℕ) : Except Errno Unit × FileSystem :=
  match (fs.lookupAt p atFdcwd s true).bind fs.statLoc with
  | .error e => (.error e, fs)
  | .ok st => (.ok (), fs.setOwner st.obj uid gid)

/-- The part of `rename` after both names are resolved: `src` and `dst` are entries, `slash` says
that one of the pathnames ends with a slash. -/
def renameEntry (src dst : Loc) (slash : Bool) : Except Errno Unit × FileSystem :=
  match fs.dirent src with
  | none => (.error .ENOENT, fs)
  | some d =>
    let isDir := (fs.inode d.obj).kind = .dir
    if ¬ isDir ∧ slash then (.error .ENOTDIR, fs)
    else if src <:+ dst ∧ src ≠ dst then (.error .EINVAL, fs)
    else if dst <:+ src ∧ src ≠ dst then (.error .ENOTEMPTY, fs)
    else
      match fs.dirent dst with
      | none => if d.mounted then (.error .EBUSY, fs) else (.ok (), fs.move src dst)
      | some d' =>
        if d.obj = d'.obj then (.ok (), fs)
        else if isDir ∧ (fs.inode d'.obj).kind ≠ .dir then (.error .ENOTDIR, fs)
        else if ¬ isDir ∧ (fs.inode d'.obj).kind = .dir then (.error .EISDIR, fs)
        else if d.mounted ∨ d'.mounted then (.error .EBUSY, fs)
        else if fs.childless dst = false then (.error .ENOTEMPTY, fs)
        else (.ok (), fs.move src dst)

/-- `renameat(2)`. -/
def renameat (olddirfd : ℤ) (old : Str) (newdirfd : ℤ) (new : Str) :
    Except Errno Unit × FileSystem :=
  match fs.targetAt p olddirfd old with
  | .error e => (.error e, fs)
  | .ok t =>
    match fs.targetAt p newdirfd new with
    | .error e => (.error e, fs)
    | .ok t' =>
      match t, t' with
      | .entry l n, .entry l' n' =>
        if fs.mountOf l ≠ fs.mountOf l' then (.error .EXDEV, fs)
        else fs.renameEntry (n :: l) (n' :: l') (slashed old || slashed new)
      | _, _ => (.error .EBUSY, fs)

end FileSystem

/-! ## Pathnames that name entries -/

namespace FileSystem

variable {fs : FileSystem} {p : Process} {l : Loc} {n : Name} {dirfd : ℤ} {pathname : Str}

theorem targetAt_entry (ht : fs.targetAt p dirfd pathname = .ok (.entry l n)) :
    ∃ cur ys, base p dirfd pathname = .ok cur ∧ segments pathname = ys ++ [n.1] ∧
      walk fs.kindAt maxSymlinks cur (ys.map Comp.ofStr) = .ok l ∧ fs.IsDir l := by
  rw [targetAt] at ht
  split_ifs at ht
  cases hb : base p dirfd pathname with
  | error e => rw [hb] at ht; cases ht
  | ok cur =>
    rw [hb] at ht
    obtain ⟨xs, hxs, hw, hl⟩ := target_eq_entry_iff.1 ht
    obtain ⟨ys, zs, hseg, hys, hzs⟩ := List.map_eq_append_iff.1 hxs
    obtain ⟨c, rfl, hc⟩ := List.map_eq_singleton_iff.1 hzs
    exact ⟨cur, ys, rfl, by rw [hseg, Comp.ofStr_eq_name hc], by rw [hys]; exact hw, hl⟩

theorem isDir_of_targetAt (ht : fs.targetAt p dirfd pathname = .ok (.entry l n)) : fs.IsDir l := by
  obtain ⟨-, -, -, -, -, hl⟩ := targetAt_entry ht
  exact hl

end FileSystem

/-- The answer of each call and the state it leaves. -/
def exec (p : Process) : Handler Call Call.Answer FileSystem
  | .fstatat dirfd s flags, fs => (fs.fstatat p dirfd s flags, fs)
  | .stat s, fs => (fs.stat p s, fs)
  | .getcwd, fs => (fs.getcwd p, fs)
  | .readlinkFd dirfd, fs => (FileSystem.readlinkFd p dirfd, fs)
  | .realpath s, fs => (fs.realpath p s, fs)
  | .mkdir s mode, fs => fs.mkdir p s mode
  | .unlink s, fs => fs.unlinkEntry p atFdcwd s
  | .chmod s mode, fs => fs.chmod p s mode
  | .chown s uid gid, fs => fs.chown p s uid gid
  | .renameat olddirfd old newdirfd new, fs => fs.renameat p olddirfd old newdirfd new
  | .unlinkat dirfd s flags, fs => fs.unlinkat p dirfd s flags

/-- Calls are answered as `exec` says, or denied without an effect with one of the errors in
`deny`. -/
def Sys (p : Process) (deny : Errno → Bool) : System Call Call.Answer FileSystem := fun fs c r fs' =>
  exec p c fs = (r, fs') ∨ ∃ e : Errno, deny e = true ∧ r = .error e ∧ fs' = fs

theorem sys_exec (p : Process) (deny : Errno → Bool) (fs : FileSystem) (c : Call) :
    Sys p deny fs c (exec p c fs).1 (exec p c fs).2 := Or.inl rfl

theorem wp_sys_call {α : Type} {p : Process} {deny : Errno → Bool} {c : Call}
    {k : c.Answer → Code α} {fs : FileSystem}
    {Q : List (Event Call Call.Answer FileSystem) → α → FileSystem → Prop} :
    Prog.wp (Sys p deny) (.call c k) fs Q ↔
      Prog.wp (Sys p deny) (k (exec p c fs).1) (exec p c fs).2
        (fun es => Q (⟨fs, c, (exec p c fs).1⟩ :: es)) ∧
      ∀ e, deny e = true →
        Prog.wp (Sys p deny) (k (.error e)) fs fun es => Q (⟨fs, c, .error e⟩ :: es) := by
  rw [Prog.wp_call]
  constructor
  · exact fun h => ⟨h _ _ (Or.inl rfl), fun e he => h _ _ (Or.inr ⟨e, he, rfl, rfl⟩)⟩
  · rintro ⟨h, hd⟩ r fs' (hr | ⟨e, he, rfl, rfl⟩)
    · rw [hr] at h
      exact h
    · exact hd e he

/-- What holds of every run without denials holds of the handler's run. -/
theorem run_of_wp {α : Type} {p : Process} {prog : Code α} {fs : FileSystem}
    {Q : α → FileSystem → Prop} (h : Prog.wp (Sys p fun _ => false) prog fs fun _ => Q) :
    Q (prog.run (exec p) fs).1 (prog.run (exec p) fs).2 := Prog.wp.run (sys_exec p _) h

/-- The rule for a call that is answered in one way or denied. -/
theorem wp_sys_call_of {α : Type} {p : Process} {deny : Errno → Bool} {c : Call}
    {k : c.Answer → Code α} {fs fs' : FileSystem} {r : c.Answer} {Q : α → FileSystem → Prop}
    (hr : exec p c fs = (r, fs')) (h : Prog.wp (Sys p deny) (k r) fs' fun _ => Q)
    (hd : ∀ e, deny e = true → Prog.wp (Sys p deny) (k (.error e)) fs fun _ => Q) :
    Prog.wp (Sys p deny) (.call c k) fs fun _ => Q := by
  rw [wp_sys_call, hr]
  exact ⟨h, hd⟩

/-- The same for a call that changes nothing. -/
theorem wp_sys_query {α : Type} {p : Process} {deny : Errno → Bool} {c : Call}
    {k : c.Answer → Code α} {fs : FileSystem} {r : c.Answer} {Q : α → FileSystem → Prop}
    (hr : exec p c fs = (r, fs)) (h : Prog.wp (Sys p deny) (k r) fs fun _ => Q)
    (hd : ∀ e, deny e = true → Prog.wp (Sys p deny) (k (.error e)) fs fun _ => Q) :
    Prog.wp (Sys p deny) (.call c k) fs fun _ => Q := wp_sys_call_of hr h hd

end YazzyPreload

import YazzyPreload.Xdev

/-!
# The hooks of `xdev.so`

`__lxstat64`, `__openat_2` and `opendir` ask `xdev_allow` about their pathname and then make the
real call.  The question is about where the pathname leads from the current directory, so
`__openat_2` may open another place when it is given a descriptor.

`can_hold_iff` says what a process can get at by any number of calls that open what they ask about:
exactly the directories that no line of `/proc/mounts` denies.  `not_onNetwork_of_held` has the
conditions on the lines under which none of them is on a network mount.
-/

namespace YazzyPreload.Xdev

/-! ## The hooks -/

def oAccmode : Flags := 0x3

def oCreat : Flags := 0x40

def oTrunc : Flags := 0x200

def oDirectory : Flags := 0x10000

def oNofollow : Flags := 0x20000

def oPath : Flags := 0x200000

/-- It contains `O_DIRECTORY`. -/
def oTmpfile : Flags := 0x410000

/-- How an intercepted call ends: with the result of the real one, with the error of `xdev_allow`,
or not at all. -/
inductive Hooked (α : Type)
  | real (r : Except Errno α)
  | refused
  | aborted

section Hooks

variable (procMounts : Str) (fs : FileSystem) (p : Process)

/-- `openat(2)` of what is at a place. -/
def openLoc (oflag : Flags) (l : Loc) : Except Errno Desc :=
  match fs.dirent l with
  | none => .error .ENOENT
  | some d =>
    match (fs.inode d.obj).kind with
    | .dir =>
      if oflag &&& oPath = 0 ∧ oflag &&& (oAccmode ||| oTrunc) ≠ 0 then .error .EISDIR
      else .ok (.dir l)
    | .symlink _ =>
      if oflag &&& oDirectory ≠ 0 then .error .ENOTDIR
      else if oflag &&& oPath = 0 then .error .ELOOP
      else .ok (.file d.obj (pathOf l))
    | _ => if oflag &&& oDirectory ≠ 0 then .error .ENOTDIR else .ok (.file d.obj (pathOf l))

/-- The real `__openat_2`, which aborts the process if the flags need a mode. -/
def realOpenat2 (fd : ℤ) (path : Str) (oflag : Flags) : Hooked Desc :=
  if oflag &&& oCreat ≠ 0 ∨ oflag &&& oTmpfile = oTmpfile then .aborted
  else .real ((fs.lookupAt p fd path (oflag &&& oNofollow = 0)).bind (openLoc fs oflag))

/-- The real `opendir`. -/
def realOpendir (pathname : Str) : Hooked Desc :=
  .real ((fs.lookupAt p atFdcwd pathname true).bind fun l =>
    if fs.kindAt l = some .dir then .ok (.dir l) else .error .ENOTDIR)

/-- `__lxstat64`. -/
def lxstat64 (path : Str) : Hooked Stat :=
  if xdevAllow fs p procMounts path = true then
    .real ((fs.lookupAt p atFdcwd path false).bind fs.statLoc)
  else .refused

/-- `__openat_2`. -/
def openat2 (fd : ℤ) (path : Str) (oflag : Flags) : Hooked Desc :=
  if xdevAllow fs p procMounts path = true then realOpenat2 fs p fd path oflag else .refused

/-- `opendir`. -/
def opendir (pathname : Str) : Hooked Desc :=
  if xdevAllow fs p procMounts pathname = true then realOpendir fs p pathname else .refused

end Hooks

/-! ## Runs -/

/-- What a process does.  A call that opens something comes with the number that it is to have. -/
inductive Op
  | lxstat64 (path : Str)
  | openat2 (fd : ℤ) (path : Str) (oflag : Flags) (newfd : ℤ)
  | opendir (pathname : Str) (newfd : ℤ)
  | chdir (path : Str)
  | fchdir (fd : ℤ)
  | close (fd : ℤ)

/-- The process gets a descriptor, if a call gives one. -/
def get (p : Process) (newfd : ℤ) : Hooked Desc → Process
  | .real (.ok d) => { p with fds := Function.update p.fds newfd (some d) }
  | _ => p

section Run

variable (procMounts : Str) (fs : FileSystem)

/-- One step of the process; `chdir`, `fchdir` and `close` are not intercepted.  A process that is
aborted does not get anything more, so it may as well go on. -/
def step (p : Process) : Op → Process
  | .lxstat64 _ => p
  | .openat2 fd path oflag newfd => get p newfd (openat2 procMounts fs p fd path oflag)
  | .opendir pathname newfd => get p newfd (opendir procMounts fs p pathname)
  | .chdir path =>
    match fs.lookupAt p atFdcwd path true with
    | .error _ => p
    | .ok l => if fs.kindAt l = some .dir then { p with cwd := l } else p
  | .fchdir fd =>
    match p.fds fd with
    | some (.dir l) => { p with cwd := l }
    | _ => p
  | .close fd => { p with fds := Function.update p.fds fd none }

def after (ops : List Op) (p : Process) : Process := ops.foldl (step procMounts fs) p

/-- The step opens what it asks about: an `__openat_2` takes its pathname from the current
directory. -/
def Straight (p : Process) : Op → Prop
  | .openat2 fd path _ _ => isAbs path = true ∨ fd = atFdcwd ∨ p.fds fd = some (.dir p.cwd)
  | _ => True

/-- Every step of the run does. -/
def StraightRun : List Op → Process → Prop
  | [], _ => True
  | op :: ops, p => Straight p op ∧ StraightRun ops (step procMounts fs p op)

end Run

/-- No line denies the text. -/
def Allowed (ms : List Mount) (s : Str) : Prop := ∀ m ∈ ms, ¬m.Hits s

/-- The directories that the process has open are allowed. -/
def Clear (ms : List Mount) (fs : FileSystem) (p : Process) : Prop :=
  ∀ fd l, p.fds fd = some (.dir l) → fs.IsDir l ∧ Allowed ms (pathOf l)

variable {ms : List Mount} {fs : FileSystem} {p : Process} {l : Loc} {path : Str} {fd newfd : ℤ}
  {d : Desc} {oflag : Flags} {op : Op} {ops : List Op}

/-! ## Where a pathname leads -/

/-- A directory is found whether links are followed or not. -/
theorem lookup_follow {v : View} {cur : Loc} {follow : Bool} (h : lookup v cur path follow = .ok l)
    (hl : v l = some .dir) : lookup v cur path true = .ok l := by
  rw [lookup] at h ⊢
  split_ifs at h with hne hfollow
  · rw [if_neg hne, Bool.true_or, if_pos rfl]
    exact h
  · rw [if_neg hne, Bool.true_or, if_pos rfl]
    have hs : slashed path = false := by
      rw [Bool.or_eq_true, not_or] at hfollow
      exact Bool.eq_false_iff.2 hfollow.2
    cases ht : target v cur path with
    | error e => rw [ht] at h; cases h
    | ok t =>
      rw [ht] at h
      cases t with
      | root | dot | dotdot => exact h
      | entry q n =>
        -- the last component is a name, and it is not the name of a link
        obtain ⟨xs, hxs, hw, hq⟩ := target_eq_entry_iff.1 ht
        dsimp only at h
        split_ifs at h
        cases h
        rw [lookupComps, hs, if_neg Bool.false_ne_true, List.append_nil, hxs, walk_concat, hw]
        exact step_name_of_ne_symlink hq hl fun t => by simp

theorem lookupAt_follow_of_ok {follow : Bool} (h : fs.lookupAt p fd path follow = .ok l)
    (hl : fs.IsDir l) : fs.lookupAt p fd path true = .ok l := by
  rw [FileSystem.lookupAt] at h ⊢
  split_ifs at h ⊢
  cases hb : FileSystem.base p fd path with
  | error e => rw [hb] at h; cases h
  | ok cur =>
    rw [hb] at h
    exact lookup_follow h hl

/-- From the current directory a pathname leads where it leads without a descriptor. -/
theorem lookupAt_of_straight {follow : Bool}
    (hs : isAbs path = true ∨ fd = atFdcwd ∨ p.fds fd = some (.dir p.cwd)) :
    fs.lookupAt p fd path follow = fs.lookupAt p atFdcwd path follow := by
  have hbase : FileSystem.base p fd path = FileSystem.base p atFdcwd path := by
    by_cases habs : isAbs path = true
    · rw [FileSystem.base, FileSystem.base, if_pos habs, if_pos habs]
    · by_cases hfd : fd = atFdcwd
      · rw [hfd]
      · have hcwd := (hs.resolve_left habs).resolve_left hfd
        rw [FileSystem.base, FileSystem.base, if_neg habs, if_neg habs, if_neg hfd, if_pos rfl,
          hcwd]
  rw [FileSystem.lookupAt, FileSystem.lookupAt, hbase]

/-! ## What a call asks about -/

theorem realpath_of_lookupAt (hl : fs.lookupAt p atFdcwd path true = .ok l) :
    fs.realpath p path = .ok (pathOf l) := congrArg (Except.map pathOf) hl

theorem xdevAllow_iff_allowed (hl : fs.lookupAt p atFdcwd path true = .ok l) :
    xdevAllow fs p (table ms) path = true ↔ Allowed ms (pathOf l) := by
  rw [← Bool.not_eq_false, xdevAllow_eq_false_iff (realpath_of_lookupAt hl)]
  simp only [Allowed, not_exists, not_and]

/-- What is opened as a directory is one, and is where it is opened. -/
theorem openLoc_eq_dir {l' : Loc} (h : openLoc fs oflag l = .ok (.dir l')) :
    l' = l ∧ fs.IsDir l := by
  rw [openLoc] at h
  cases hd : fs.dirent l with
  | none => rw [hd] at h; cases h
  | some e =>
    rw [hd] at h
    rw [FileSystem.IsDir, FileSystem.kindAt, hd, Option.map_some]
    dsimp only at h
    cases hk : (fs.inode e.obj).kind with
    | dir =>
      rw [hk] at h
      dsimp only at h
      split_ifs at h
      cases h
      exact ⟨rfl, rfl⟩
    | _ =>
      rw [hk] at h
      dsimp only at h
      split_ifs at h
      cases h

/-- A directory that a straight `__openat_2` opens is allowed. -/
theorem openat2_eq_dir (hs : isAbs path = true ∨ fd = atFdcwd ∨ p.fds fd = some (.dir p.cwd))
    (h : openat2 (table ms) fs p fd path oflag = .real (.ok (.dir l))) :
    fs.IsDir l ∧ Allowed ms (pathOf l) := by
  rw [openat2, realOpenat2] at h
  split_ifs at h with hx hmode
  rw [Hooked.real.injEq] at h
  cases hl : fs.lookupAt p fd path (oflag &&& oNofollow = 0) with
  | error e => rw [hl] at h; cases h
  | ok l' =>
    rw [hl] at h
    obtain ⟨rfl, hdir⟩ := openLoc_eq_dir h
    have hask := (lookupAt_of_straight hs).symm.trans (lookupAt_follow_of_ok hl hdir)
    exact ⟨hdir, (xdevAllow_iff_allowed hask).1 hx⟩

/-- A pathname that `opendir` opens leads to an allowed directory, and it opens every such
pathname. -/
theorem opendir_eq_dir_iff : opendir (table ms) fs p path = .real (.ok (.dir l)) ↔
    fs.lookupAt p atFdcwd path true = .ok l ∧ fs.IsDir l ∧ Allowed ms (pathOf l) := by
  rw [opendir, realOpendir]
  constructor
  · intro h
    split_ifs at h with hx
    rw [Hooked.real.injEq] at h
    cases hl : fs.lookupAt p atFdcwd path true with
    | error e => rw [hl] at h; cases h
    | ok l' =>
      rw [hl] at h
      dsimp only [Except.bind] at h
      split_ifs at h with hdir
      cases h
      exact ⟨rfl, hdir, (xdevAllow_iff_allowed hl).1 hx⟩
  · rintro ⟨hl, hdir, hallow⟩
    rw [if_pos ((xdevAllow_iff_allowed hl).2 hallow), hl]
    exact congrArg Hooked.real (if_pos hdir)

/-! ## What a process can hold -/

/-- A process gets nothing but what the call gives. -/
theorem clear_get {r : Hooked Desc} (hp : Clear ms fs p)
    (hr : ∀ l, r = .real (.ok (.dir l)) → fs.IsDir l ∧ Allowed ms (pathOf l)) :
    Clear ms fs (get p newfd r) := by
  rcases r with (e | d) | _ | _
  · exact hp
  · intro fd l h
    dsimp only [get] at h
    by_cases hfd : fd = newfd
    · subst hfd
      rw [Function.update_self, Option.some_inj] at h
      exact hr l (h ▸ rfl)
    · rw [Function.update_of_ne hfd] at h
      exact hp fd l h
  · exact hp
  · exact hp

/-- What a step leaves open is allowed. -/
theorem clear_step (hp : Clear ms fs p) (hs : Straight p op) :
    Clear ms fs (step (table ms) fs p op) := by
  cases op with
  | lxstat64 path => exact hp
  | openat2 fd path oflag newfd => exact clear_get hp fun l h => openat2_eq_dir hs h
  | opendir pathname newfd => exact clear_get hp fun l h => (opendir_eq_dir_iff.1 h).2
  | chdir path =>
    rw [step]
    split
    · exact hp
    · split_ifs <;> exact hp
  | fchdir fd =>
    rw [step]
    split
    · exact hp
    · exact hp
  | close fd =>
    intro fd' l h
    dsimp only [step] at h
    by_cases hfd : fd' = fd
    · subst hfd
      rw [Function.update_self] at h
      cases h
    · rw [Function.update_of_ne hfd] at h
      exact hp fd' l h

/-- What a run leaves open is allowed. -/
theorem clear_after (hp : Clear ms fs p) (hs : StraightRun (table ms) fs ops p) :
    Clear ms fs (after (table ms) fs ops p) := by
  induction ops generalizing p with
  | nil => exact hp
  | cons op ops ih => exact ih (clear_step hp hs.1) hs.2

theorem clear_of_nothing (hp : ∀ fd, p.fds fd = none) : Clear ms fs p := fun fd l h => by
  rw [hp] at h
  cases h

/-- Nothing on a network mount is left open, if every line fits the buffer and no mountpoint has
escapes. -/
theorem not_onNetwork_of_held (hp : ∀ fd, p.fds fd = none)
    (hms : ∀ m ∈ ms, m.Plain)
    (hs : StraightRun (table ms) fs ops p)
    (h : (after (table ms) fs ops p).fds fd = some (.dir l)) : ¬OnNetwork ms l := by
  intro hnet
  obtain ⟨hdir, hallow⟩ := clear_after (clear_of_nothing hp) hs fd l h
  have hl := FileSystem.lookupAt_of_spells (p := p) (spells_pathOf l) hdir
  have hdeny := xdevAllow_of_onNetwork (realpath_of_lookupAt hl) hms hnet
  exact Bool.false_ne_true (hdeny.symm.trans ((xdevAllow_iff_allowed hl).2 hallow))

/-- A process that starts with nothing open can get at a directory, by calls that open what they ask
about, if and only if no line of `/proc/mounts` denies its pathname. -/
theorem can_hold_iff (hp : ∀ fd, p.fds fd = none) :
    (∃ ops, StraightRun (table ms) fs ops p ∧
      ∃ fd, (after (table ms) fs ops p).fds fd = some (.dir l)) ↔
        fs.IsDir l ∧ Allowed ms (pathOf l) := by
  constructor
  · rintro ⟨ops, hs, fd, hfd⟩
    exact clear_after (clear_of_nothing hp) hs fd l hfd
  · rintro ⟨hdir, hallow⟩
    have hl := FileSystem.lookupAt_of_spells (p := p) (spells_pathOf l) hdir
    have hopen := opendir_eq_dir_iff.2 ⟨hl, hdir, hallow⟩
    refine ⟨[.opendir (pathOf l) 3], ⟨trivial, trivial⟩, 3, ?_⟩
    rw [after, List.foldl_cons, List.foldl_nil, step, hopen]
    exact Function.update_self (3 : ℤ) _ p.fds

/-- The directory whose mountpoint has an escape can be got at, though its mount is a network one;
the local mount in a network mount cannot. -/
theorem can_hold_iff_mounts :
    (∃ ops, StraightRun (table Sample.mounts) Sample.fs ops Sample.process ∧
      ∃ fd, (after (table Sample.mounts) Sample.fs ops Sample.process).fds fd =
        some (.dir [Sample.spaced])) ∧
    ¬∃ ops, StraightRun (table Sample.mounts) Sample.fs ops Sample.process ∧
      ∃ fd, (after (table Sample.mounts) Sample.fs ops Sample.process).fds fd =
        some (.dir [Sample.disk, Sample.srv]) := by
  constructor
  · have hl : Sample.fs.lookupAt Sample.process atFdcwd "/a b".toList true =
        .ok [Sample.spaced] := by decide +kernel
    have hallow : Allowed Sample.mounts (pathOf [Sample.spaced]) :=
      (xdevAllow_iff_allowed hl).1 (by decide +kernel)
    exact (can_hold_iff fun _ => rfl).2 ⟨by decide +kernel, hallow⟩
  · have hl : Sample.fs.lookupAt Sample.process atFdcwd "/srv/disk".toList true =
        .ok [Sample.disk, Sample.srv] := by decide +kernel
    intro h
    have hallow := ((can_hold_iff fun _ => rfl).1 h).2
    exact absurd ((xdevAllow_iff_allowed hl).2 hallow) (by decide +kernel)

/-- With a descriptor, the hook asks about a pathname that leads nowhere and opens `/srv`. -/
example : FileSystem.readlinkFd (after (table Sample.mounts) Sample.fs [.opendir "/".toList 3,
    .chdir "/srv2".toList, .openat2 3 "srv".toList oDirectory 4] Sample.process) 4 =
      .ok "/srv".toList := by
  decide +kernel

end YazzyPreload.Xdev

import YazzyPreload.CharArray
import YazzyPreload.Libc
import YazzyPreload.Place
import YazzyPreload.Update

/-!
# `unlinkat` of `saveunlinkedinode.so`

The function looks up the inode number of what is removed and the directory it is in, and after the
removal it appends both to a log, so that the file may be recovered.

`run_truthful` says that the log is right in every run in which no call reaches one of the defects:
the lookup has the flags of the removal and follows links, an absolute pathname is put after a
directory, and the pathname of a descriptor's directory is not terminated.
-/

namespace YazzyPreload.Saveunlinkedinode

open FileSystem Prog

/-- The arrays of `_POSIX_PATH_MAX` characters. -/
abbrev Chars : Type := CharArray Char 256

/-- What the process finds in its environment: `HOME`, how a file is opened for appending, and the
texts of errors. -/
structure Env where
  home : Option Str
  fopen : Str → Except Errno Unit
  strerror : Errno → Str

/-- The cast of an inode number to `long`. -/
def toLong (ino : ℕ) : ℤ := (ino : ℤ).bmod (2 ^ 64)

/-- A line of the log. -/
structure Record where
  time : Str
  ino : ℤ
  path : Str
  deriving DecidableEq

/-- What `unlinkat` returns and prints, and the line it appends to the log. -/
structure Outcome where
  retval : ℤ
  stderr : List Str
  record : Option Record
  deriving DecidableEq

section Code

variable (env : Env) (dirfd : ℤ) (pathname : Str) (flags : Flags) (timebuf : Str)

/-- Goes on with an array, unless the store has gone past its end. -/
def store (atdir : Option Chars) (next : Chars → Code (Option Outcome)) : Code (Option Outcome) :=
  match atdir with
  | some atdir => next atdir
  | none => .ret none

/-- The part of `unlinkat` after a removal with a directory in `atdir`.  There is no outcome when a
string has no end or does not fit. -/
def appendRecord (stderr : List Str) (st : Stat) (atdir bkfilename : Chars) : Option Outcome := do
  let home := env.home.getD "(null)".toList
  let bkfilename ← bkfilename.strcpy 0 (home ++ "/.unlinked_inodes".toList)
  match env.fopen (← bkfilename.stringAt 0) with
  | .error e => some ⟨0, stderr ++ [perror "fopen".toList (env.strerror e)], none⟩
  | .ok _ =>
    some ⟨0, stderr, some ⟨timebuf, toLong st.obj.ino, (← atdir.stringAt 0) ++ '/' :: pathname⟩⟩

/-- The part of `unlinkat` from the label `do_unlink` on; `st` is there when it was filled in. -/
def doUnlink (stderr : List Str) (st : Option Stat) (atdir bkfilename : Chars) :
    Code (Option Outcome) :=
  .call (.unlinkat dirfd pathname flags) fun
    | .error _ => .ret (some ⟨-1, stderr, none⟩)
    | .ok _ =>
      if atdir.stringAt 0 = some [] then .ret (some ⟨0, stderr, none⟩)
      else .ret (st.bind fun st => appendRecord env pathname timebuf stderr st atdir bkfilename)

/-- `unlinkat`.  The arrays are as the function finds them, and `timebuf` is the current time. -/
def unlinkat (atdir bkfilename : Chars) : Code (Option Outcome) :=
  let failed (func : Str) (e : Errno) (atdir : Chars) : Code (Option Outcome) :=
    doUnlink env dirfd pathname flags timebuf [perror func (env.strerror e)] none atdir bkfilename
  store (atdir.write 0 [none]) fun atdir =>
  .call (.fstatat dirfd pathname flags) fun
    | .error e => failed "fstatat".toList e atdir
    | .ok st =>
      if dirfd ≠ atFdcwd then
        .call (.readlinkFd dirfd) fun
          | .error e => failed "readlink".toList e atdir
          | .ok link =>
            -- `readlink` does not store a null character
            store (atdir.write 0 ((link.take 256).map some)) fun atdir =>
            doUnlink env dirfd pathname flags timebuf [] (some st) atdir bkfilename
      else
        .call .getcwd fun
          | .error e => failed "getcwd".toList e atdir
          | .ok cwd =>
            match atdir.strcpy 0 cwd with
            | none => failed "getcwd".toList .ERANGE atdir
            | some atdir =>
              doUnlink env dirfd pathname flags timebuf [] (some st) atdir bkfilename

end Code

/-! ## Runs -/

/-- A call: who makes it and how, the current time, and what is in the arrays before. -/
structure Removal where
  p : Process
  dirfd : ℤ
  pathname : Str
  flags : Flags
  timebuf : Str
  atdir : Chars
  bkfilename : Chars

/-- The file system and the log. -/
structure World where
  fs : FileSystem
  log : List Record

/-- What a call ends with. -/
def Removal.run (env : Env) (c : Removal) (fs : FileSystem) : Option Outcome × FileSystem :=
  (unlinkat env c.dirfd c.pathname c.flags c.timebuf c.atdir c.bkfilename).run (exec c.p) fs

/-- The state after a call. -/
def Removal.after (env : Env) (c : Removal) (w : World) : World where
  fs := (c.run env w.fs).2
  log := w.log ++ ((c.run env w.fs).1.bind Outcome.record).toList

/-- What happens on the machine: a call, or any other change of the file system, such as that the log
comes into being. -/
inductive Event
  | unlinkat (c : Removal)
  | other (change : FileSystem → FileSystem)

/-- The state after an event. -/
def Event.after (env : Env) : Event → World → World
  | .unlinkat c, w => c.after env w
  | .other change, w => { w with fs := change w.fs }

/-- Every call of a run, in the state it is made in, satisfies `P`. -/
def Throughout (env : Env) (P : World → Removal → Prop) : List Event → World → Prop
  | [], _ => True
  | e :: es, w => (∀ c, e = .unlinkat c → P w c) ∧ Throughout env P es (e.after env w)

/-! ## What the log says -/

/-- The call removes the entry `n` of the directory at `l`. -/
structure Removes (fs : FileSystem) (c : Removal) (l : Loc) (n : Name) (d : Dent) : Prop where
  target : fs.targetAt c.p c.dirfd c.pathname = .ok (.entry l n)
  dirent : fs.dirent (n :: l) = some d
  ok : (fs.unlinkat c.p c.dirfd c.pathname c.flags).1 = .ok ()

/-- A call that succeeds appends a record with the inode number of the entry it removes and with a
pathname that names this entry before the call, and one that fails appends nothing. -/
def Truthful (env : Env) (w : World) (c : Removal) : Prop :=
  ∃ outcome, (c.run env w.fs).1 = some outcome ∧
    (outcome.retval = 0 → ∃ l n d path, Removes w.fs c l n d ∧
      (c.after env w).log = w.log ++ [⟨c.timebuf, d.obj.ino, path⟩] ∧
      w.fs.targetAt c.p atFdcwd path = .ok (.entry l n)) ∧
    (outcome.retval ≠ 0 → (c.after env w).log = w.log)

/-- The directory that a descriptor stands for. -/
def dirOf (p : Process) (dirfd : ℤ) : Option Loc :=
  if dirfd = atFdcwd then some p.cwd
  else
    match p.fds dirfd with
    | some (.dir l) => some l
    | _ => none

/-- The call does not reach a defect when it removes the entry: `AT_REMOVEDIR` is not given, the entry
is not a symbolic link, unless one to something with its own inode number, the pathname of the
directory fits and is terminated, and an absolute pathname names the entry from there too. -/
structure Plain (fs : FileSystem) (c : Removal) (l : Loc) (n : Name) (d : Dent) : Prop where
  flags : c.flags = 0
  ino : d.obj.ino < 2 ^ 63
  link : ∀ t, (fs.inode d.obj).kind = .symlink t → ∃ st,
    fs.fstatat c.p c.dirfd c.pathname 0 = .ok st ∧ toLong st.obj.ino = d.obj.ino
  dir : ∃ dir, dirOf c.p c.dirfd = some dir ∧ (pathOf dir).length < 256 ∧
    (c.dirfd ≠ atFdcwd → c.atdir.cells[(pathOf dir).length]? = some none) ∧
    (isAbs c.pathname = true → target fs.kindAt dir c.pathname = .ok (.entry l n))

/-- The same for whatever entry the call removes. -/
def Recordable (w : World) (c : Removal) : Prop := ∀ l n d, Removes w.fs c l n d → Plain w.fs c l n d

variable {env : Env} {fs : FileSystem} {c : Removal} {l dir : Loc} {n : Name} {d : Dent} {st : Stat}
  {a b : Chars} {home : Str} {w : World}

/-! ## The directory -/

/-- What is in `atdir` when the directory has been found. -/
def found (fs : FileSystem) (c : Removal) : Option Chars :=
  (c.atdir.write 0 [none]).bind fun atdir =>
    if c.dirfd ≠ atFdcwd then
      (readlinkFd c.p c.dirfd).toOption.bind fun link => atdir.write 0 ((link.take 256).map some)
    else (fs.getcwd c.p).toOption.bind fun cwd => atdir.strcpy 0 cwd

theorem exists_clear (c : Removal) : ∃ a₀, c.atdir.write 0 [none] = some a₀ ∧ a₀.stringAt 0 = some [] := by
  obtain ⟨a₀, h⟩ : ∃ a₀, c.atdir.write 0 [none] = some a₀ := CharArray.exists_write_iff.2 (by decide)
  exact ⟨a₀, h, CharArray.stringAt_strcpy (s := []) h⟩

theorem exists_store (a₀ : Chars) (link : Str) :
    ∃ a, a₀.write 0 ((link.take 256).map some) = some a := by
  refine CharArray.exists_write_iff.2 ?_
  rw [List.length_map, List.length_take]
  omega

/-- The removal is made with the status and the directory, or without if one of them is missing. -/
theorem run_cases (env : Env) (fs : FileSystem) (c : Removal) :
    (∃ st a, fs.fstatat c.p c.dirfd c.pathname c.flags = .ok st ∧ found fs c = some a ∧
      c.run env fs = (doUnlink env c.dirfd c.pathname c.flags c.timebuf [] (some st) a
        c.bkfilename).run (exec c.p) fs) ∨
    ((∀ st, fs.fstatat c.p c.dirfd c.pathname c.flags = .ok st → found fs c = none) ∧
      ∃ stderr a, a.stringAt 0 = some [] ∧
        c.run env fs = (doUnlink env c.dirfd c.pathname c.flags c.timebuf stderr none a
          c.bkfilename).run (exec c.p) fs) := by
  obtain ⟨a₀, hclear, hempty⟩ := exists_clear c
  rw [Removal.run, unlinkat, found, hclear, Option.bind_some]
  dsimp only [store]
  rw [run_call, exec]
  cases hst : fs.fstatat c.p c.dirfd c.pathname c.flags with
  | error e => exact Or.inr ⟨fun st h => (by cases h), _, a₀, hempty, rfl⟩
  | ok st =>
    dsimp only
    by_cases hfd : c.dirfd = atFdcwd
    · rw [if_neg (not_not.2 hfd), if_neg (not_not.2 hfd), run_call, exec]
      cases hcwd : fs.getcwd c.p with
      | error e => exact Or.inr ⟨fun _ _ => rfl, _, a₀, hempty, rfl⟩
      | ok cwd =>
        dsimp only [Except.toOption, Option.bind_some]
        cases hstore : a₀.strcpy 0 cwd with
        | none => exact Or.inr ⟨fun _ _ => rfl, _, a₀, hempty, rfl⟩
        | some a => exact Or.inl ⟨st, a, rfl, rfl, rfl⟩
    · rw [if_pos hfd, if_pos hfd, run_call, exec]
      cases hlink : readlinkFd c.p c.dirfd with
      | error e => exact Or.inr ⟨fun _ _ => rfl, _, a₀, hempty, rfl⟩
      | ok link =>
        obtain ⟨a, hstore⟩ := exists_store a₀ link
        dsimp only [Except.toOption, Option.bind_some]
        rw [hstore]
        exact Or.inl ⟨st, a, rfl, rfl, rfl⟩

theorem readlinkFd_of_dirOf {p : Process} {dirfd : ℤ} (hfd : dirfd ≠ atFdcwd)
    (hdir : dirOf p dirfd = some dir) : readlinkFd p dirfd = .ok (pathOf dir) := by
  rw [dirOf, if_neg hfd] at hdir
  rw [readlinkFd]
  cases hdesc : p.fds dirfd with
  | none => rw [hdesc] at hdir; cases hdir
  | some desc =>
    rw [hdesc] at hdir
    cases desc with
    | file o link => cases hdir
    | dir l =>
      cases hdir
      rfl

/-- The directory is in `atdir` when its pathname fits, and is terminated by what was there before. -/
theorem found_of_dirOf (hdir : dirOf c.p c.dirfd = some dir) (hd : fs.IsDir dir)
    (hlen : (pathOf dir).length < 256)
    (hnull : c.dirfd ≠ atFdcwd → c.atdir.cells[(pathOf dir).length]? = some none) :
    ∃ a, found fs c = some a ∧ a.stringAt 0 = some (pathOf dir) := by
  obtain ⟨a₀, hclear, -⟩ := exists_clear c
  rw [found, hclear, Option.bind_some]
  by_cases hfd : c.dirfd = atFdcwd
  · rw [dirOf, if_pos hfd] at hdir
    cases hdir
    obtain ⟨a, hstore⟩ : ∃ a, a₀.strcpy 0 (pathOf c.p.cwd) = some a :=
      CharArray.exists_strcpy_iff.2 (by omega)
    rw [if_neg (not_not.2 hfd), getcwd, if_pos hd]
    exact ⟨a, hstore, CharArray.stringAt_strcpy hstore⟩
  · obtain ⟨a, hstore⟩ := exists_store a₀ (pathOf dir)
    rw [if_pos hfd, readlinkFd_of_dirOf hfd hdir]
    refine ⟨a, hstore, ?_⟩
    have hpos : 0 < (pathOf dir).length := List.length_pos_iff.2 (spells_pathOf dir).isAbs_ne_nil
    rw [List.take_of_length_le (by omega)] at hstore
    refine CharArray.stringAt_write hstore ?_
    rw [CharArray.getElem?_write hclear hpos]
    exact hnull hfd

/-! ## The entry -/

theorem Removes.kind (h : Removes fs c l n d) (hflags : c.flags = 0) :
    (fs.inode d.obj).kind ≠ .dir ∧ slashed c.pathname = false := by
  have hok := h.ok
  rw [FileSystem.unlinkat, hflags, if_neg (by decide), if_neg (by decide), unlinkEntry, h.target] at hok
  dsimp only at hok
  rw [h.dirent] at hok
  dsimp only at hok
  split_ifs at hok with hdir hslash
  exact ⟨hdir, by simpa using hslash⟩

/-- With a link followed, the status is that of the entry if it is not a link. -/
theorem Removes.fstatat (h : Removes fs c l n d) (hflags : c.flags = 0)
    (hlink : ∀ t, (fs.inode d.obj).kind ≠ .symlink t) :
    fs.fstatat c.p c.dirfd c.pathname 0 = .ok ⟨d.obj, fs.inode d.obj⟩ := by
  obtain ⟨-, hslash⟩ := h.kind hflags
  have ht := h.target
  have hne : c.pathname ≠ [] := by
    rintro he
    rw [targetAt, if_pos he] at ht
    cases ht
  rw [targetAt, if_neg hne] at ht
  rw [FileSystem.fstatat, if_neg (by decide), if_neg (fun he => hne he.1), lookupAt, if_neg hne]
  cases hb : base c.p c.dirfd c.pathname with
  | error e => rw [hb] at ht; cases ht
  | ok cur =>
    rw [hb] at ht
    obtain ⟨xs, hxs, hw, hl⟩ := target_eq_entry_iff.1 ht
    have hstep : step fs.kindAt maxSymlinks l (.name n) = .ok (n :: l) :=
      step_name_of_ne_symlink hl (kindAt_of_dirent h.dirent) hlink
    have hlookup : lookup fs.kindAt cur c.pathname true = .ok (n :: l) := by
      rw [lookup, if_neg hne, if_pos (by simp), lookupComps, hslash, hxs, if_neg (by simp),
        List.append_nil, walk_concat, hw]
      exact hstep
    have hfollow : decide ((0 : Flags) &&& atSymlinkNofollow = 0) = true := by decide
    rw [hfollow]
    exact (congrArg (Except.bind · fs.statLoc) hlookup).trans (statLoc_eq_ok.2 ⟨d, h.dirent, rfl⟩)

/-- A pathname put after a directory's is looked up in that directory. -/
theorem targetAt_pathOf_append {p : Process} {s : Str} {xs : List Comp} {x : Comp}
    (hs : comps s = xs ++ [x]) (hdir : fs.IsDir dir) :
    fs.targetAt p atFdcwd (pathOf dir ++ '/' :: s) = target fs.kindAt dir s := by
  have hroot := (descend_eq_ok.1 (descend_root hdir)).1
  have hc : comps (pathOf dir ++ '/' :: s) = (names dir ++ xs) ++ [x] := by
    rw [comps, segments_append, List.map_append, ← comps, ← comps, hs, (spells_pathOf dir).comps,
      List.map_nil, List.nil_append, List.append_assoc]
  have habs : isAbs (pathOf dir ++ '/' :: s) = true := by
    rw [isAbs_append (spells_pathOf dir).isAbs_ne_nil, (spells_pathOf dir).isAbs]
  rw [targetAt, if_neg (ne_nil_of_comps hc), base_atFdcwd, habs, Except.bind, target_of_comps hc,
    target_of_comps hs, walk_append]
  exact congrArg (Except.bind · _) (congrArg (Except.bind · _) hroot)

theorem dirOf_of_base {p : Process} {dirfd : ℤ} {s : Str} (hrel : isAbs s = false)
    (hb : base p dirfd s = .ok dir) : dirOf p dirfd = some dir := by
  rw [base, if_neg (by simp [hrel])] at hb
  rw [dirOf]
  split_ifs at hb ⊢
  · cases hb
    rfl
  · cases hdesc : p.fds dirfd with
    | none => rw [hdesc] at hb; cases hb
    | some desc =>
      rw [hdesc] at hb
      cases desc with
      | file o link => cases hb
      | dir l =>
        cases hb
        rfl

/-- The pathname names the entry from the directory. -/
theorem Removes.target_dir (h : Removes fs c l n d) (hdir : dirOf c.p c.dirfd = some dir)
    (habs : isAbs c.pathname = true → YazzyPreload.target fs.kindAt dir c.pathname = .ok (.entry l n)) :
    YazzyPreload.target fs.kindAt dir c.pathname = .ok (.entry l n) := by
  by_cases hrel : isAbs c.pathname = true
  · exact habs hrel
  · have ht := h.target
    rw [targetAt] at ht
    split_ifs at ht
    cases hb : base c.p c.dirfd c.pathname with
    | error e => rw [hb] at ht; cases ht
    | ok cur =>
      rw [hb] at ht
      cases (dirOf_of_base (by simpa using hrel) hb).symm.trans hdir
      exact ht

theorem toLong_lt (ino : ℕ) : toLong ino < 2 ^ 63 := Int.bmod_lt (by decide)

theorem toLong_of_lt {ino : ℕ} (h : ino < 2 ^ 63) : toLong ino = ino :=
  Int.bmod_eq_of_le_mul_two (by omega) (by omega)

/-- The inode number that is logged. -/
theorem Plain.fstatat (hp : Plain fs c l n d) (h : Removes fs c l n d) :
    ∃ st, fs.fstatat c.p c.dirfd c.pathname c.flags = .ok st ∧
      toLong st.obj.ino = d.obj.ino := by
  rw [hp.flags]
  by_cases hlink : ∃ t, (fs.inode d.obj).kind = .symlink t
  · obtain ⟨t, ht⟩ := hlink
    exact hp.link t ht
  · exact ⟨_, h.fstatat hp.flags fun t ht => hlink ⟨t, ht⟩, toLong_of_lt hp.ino⟩

/-! ## One call -/

theorem run_doUnlink_error {e : Errno} (stderr : List Str) (st : Option Stat) (a : Chars)
    (he : (fs.unlinkat c.p c.dirfd c.pathname c.flags).1 = .error e) :
    ((doUnlink env c.dirfd c.pathname c.flags c.timebuf stderr st a c.bkfilename).run
      (exec c.p) fs).1 = some ⟨-1, stderr, none⟩ := by
  rw [doUnlink, run_call, exec, he]
  rfl

theorem run_doUnlink_ok (stderr : List Str) (st : Option Stat) (a : Chars)
    (hok : (fs.unlinkat c.p c.dirfd c.pathname c.flags).1 = .ok ()) :
    ((doUnlink env c.dirfd c.pathname c.flags c.timebuf stderr st a c.bkfilename).run
      (exec c.p) fs).1 = if a.stringAt 0 = some [] then some ⟨0, stderr, none⟩
        else st.bind fun st => appendRecord env c.pathname c.timebuf stderr st a c.bkfilename := by
  rw [doUnlink, run_call, exec, hok]
  dsimp only
  split_ifs <;> rfl

/-- A call that fails appends nothing. -/
theorem truthful_of_error {e : Errno}
    (he : (w.fs.unlinkat c.p c.dirfd c.pathname c.flags).1 = .error e) : Truthful env w c := by
  have hrun : ∃ stderr, (c.run env w.fs).1 = some ⟨-1, stderr, none⟩ := by
    rcases run_cases env w.fs c with ⟨st, a, -, -, h⟩ | ⟨-, stderr, a, -, h⟩ <;> rw [h] <;>
      exact ⟨_, run_doUnlink_error _ _ _ he⟩
  obtain ⟨stderr, hrun⟩ := hrun
  refine ⟨_, hrun, fun h => (by cases h), fun _ => ?_⟩
  rw [Removal.after, hrun]
  exact List.append_nil _

theorem exists_removes (hok : (fs.unlinkat c.p c.dirfd c.pathname c.flags).1 = .ok ()) :
    ∃ l n d, Removes fs c l n d := by
  rcases fs.unlinkat_cases c.p c.dirfd c.pathname c.flags with ⟨e, h⟩ | ⟨l, n, ht, hd, -, -⟩
  · rw [h] at hok
    cases hok
  · obtain ⟨d, hd⟩ := Option.ne_none_iff_exists'.1 hd
    exact ⟨l, n, d, ht, hd, hok⟩

section LogOpen

variable (hhome : env.home = some home)
  (hopen : env.fopen (home ++ "/.unlinked_inodes".toList) = .ok ()) (hfits : home.length < 239)

include hhome hopen hfits

theorem appendRecord_eq (timebuf pathname : Str) (stderr : List Str) (st : Stat) (a b : Chars) :
    appendRecord env pathname timebuf stderr st a b = (a.stringAt 0).map fun s =>
      ⟨0, stderr, some ⟨timebuf, toLong st.obj.ino, s ++ '/' :: pathname⟩⟩ := by
  have hname : "/.unlinked_inodes".toList.length = 17 := by decide
  obtain ⟨b', hb⟩ := (CharArray.exists_strcpy_iff (a := b) (i := 0)
    (s := home ++ "/.unlinked_inodes".toList)).2 (by rw [List.length_append, hname]; omega)
  have hfile := CharArray.stringAt_strcpy hb
  rw [appendRecord, hhome, Option.getD_some]
  simp only [hb, hfile, hopen, Option.bind_eq_bind, Option.bind_some]
  cases a.stringAt 0 <;> rfl

/-- What a call appends when it has the status and the directory. -/
theorem run_of_found (hok : (fs.unlinkat c.p c.dirfd c.pathname c.flags).1 = .ok ())
    (hst : fs.fstatat c.p c.dirfd c.pathname c.flags = .ok st) (hf : found fs c = some a) {s : Str}
    (ha : a.stringAt 0 = some s) (hs : s ≠ []) : (c.run env fs).1 =
      some ⟨0, [], some ⟨c.timebuf, toLong st.obj.ino, s ++ '/' :: c.pathname⟩⟩ := by
  rcases run_cases env fs c with ⟨st', a', hst', hf', hrun⟩ | ⟨hnot, -⟩
  · cases hst.symm.trans hst'
    cases hf.symm.trans hf'
    have hne : a.stringAt 0 ≠ some [] := fun he => hs (Option.some.inj (ha.symm.trans he))
    rw [hrun, run_doUnlink_ok _ _ _ hok, if_neg hne, Option.bind_some,
      appendRecord_eq hhome hopen hfits, ha]
    rfl
  · cases hf.symm.trans (hnot st hst)

/-- A call that does not reach a defect leaves the log right. -/
theorem truthful_of_recordable (h : Recordable w c) : Truthful env w c := by
  cases hok : (w.fs.unlinkat c.p c.dirfd c.pathname c.flags).1 with
  | error e => exact truthful_of_error hok
  | ok _ =>
    obtain ⟨l, n, d, hrem⟩ := exists_removes hok
    have hp := h l n d hrem
    obtain ⟨st, hst, hino⟩ := hp.fstatat hrem
    obtain ⟨dir, hdir, hlen, hnull, habs⟩ := hp.dir
    have htarget := hrem.target_dir hdir habs
    obtain ⟨xs, hxs, hw, hl⟩ := target_eq_entry_iff.1 htarget
    have hd : w.fs.IsDir dir := walk_ok_dir hw hl
    obtain ⟨a, hf, ha⟩ := found_of_dirOf hdir hd hlen hnull
    have hrun := run_of_found hhome hopen hfits hok hst hf ha (spells_pathOf dir).isAbs_ne_nil
    refine ⟨_, hrun, fun _ => ⟨l, n, d, _, hrem, ?_, (targetAt_pathOf_append hxs hd).trans htarget⟩,
      fun h => absurd rfl h⟩
    rw [Removal.after, hrun, hino]
    rfl

/-- A record that is appended comes from the status and the directory. -/
theorem found_of_record {outcome : Outcome} {record : Record}
    (hok : (fs.unlinkat c.p c.dirfd c.pathname c.flags).1 = .ok ())
    (hrun : (c.run env fs).1 = some outcome) (hrecord : outcome.record = some record) :
    ∃ st a s, fs.fstatat c.p c.dirfd c.pathname c.flags = .ok st ∧ found fs c = some a ∧
      a.stringAt 0 = some s ∧ record.ino = toLong st.obj.ino ∧
      record.path = s ++ '/' :: c.pathname := by
  rcases run_cases env fs c with ⟨st, a, hst, hf, hrun'⟩ | ⟨-, stderr, a, hempty, hrun'⟩
  · rw [hrun', run_doUnlink_ok _ _ _ hok] at hrun
    split_ifs at hrun
    · cases hrun
      cases hrecord
    · rw [Option.bind_some, appendRecord_eq hhome hopen hfits] at hrun
      obtain ⟨s, ha, rfl⟩ := Option.map_eq_some_iff.1 hrun
      rw [← Option.some.inj hrecord]
      refine ⟨st, a, s, hst, hf, ha, ?_, ?_⟩ <;> dsimp only
  · rw [hrun', run_doUnlink_ok _ _ _ hok, if_pos hempty] at hrun
    cases hrun
    cases hrecord

end LogOpen

/-! ## Calls that reach a defect -/

/-- A directory other than the current one is there, fits and is terminated. -/
def Terminated (w : World) (c : Removal) : Prop :=
  c.dirfd ≠ atFdcwd → ∃ dir, dirOf c.p c.dirfd = some dir ∧ w.fs.IsDir dir ∧
    (pathOf dir).length < 256 ∧ c.atdir.cells[(pathOf dir).length]? = some none

/-- The flags that the lookup and the removal both take. -/
theorem flags_eq_zero (hrem : c.flags &&& ~~~atRemovedir = 0) (hst : c.flags &&& ~~~(atSymlinkNofollow |||
    atNoAutomount ||| atEmptyPath ||| atStatxSyncType) = 0) : c.flags = 0 := by
  have hall : ~~~(atSymlinkNofollow ||| atNoAutomount ||| atEmptyPath ||| atStatxSyncType) |||
      ~~~atRemovedir = BitVec.allOnes 32 := by decide
  rw [← BitVec.and_allOnes (x := c.flags), ← hall, BitVec.and_or_distrib_left, hst, hrem]
  rfl

theorem removes_unique {l' : Loc} {n' : Name} {d' : Dent} (h : Removes fs c l n d)
    (h' : Removes fs c l' n' d') : l = l' ∧ n = n' ∧ d = d' := by
  cases h.target.symm.trans h'.target
  exact ⟨rfl, rfl, Option.some.inj (h.dirent.symm.trans h'.dirent)⟩

theorem Removes.flags_eq_zero (h : Removes fs c l n d)
    (hst : fs.fstatat c.p c.dirfd c.pathname c.flags = .ok st) : c.flags = 0 := by
  have hok := h.ok
  rw [FileSystem.unlinkat] at hok
  rw [FileSystem.fstatat] at hst
  by_cases hrem : c.flags &&& ~~~atRemovedir = 0
  · refine Saveunlinkedinode.flags_eq_zero hrem ?_
    by_contra hne
    rw [if_pos hne] at hst
    cases hst
  · rw [if_pos hrem] at hok
    cases hok

/-- The directory that has been found. -/
theorem dirOf_of_found (hf : found w.fs c = some a) (hterm : Terminated w c) :
    ∃ dir, dirOf c.p c.dirfd = some dir ∧ w.fs.IsDir dir ∧ (pathOf dir).length < 256 ∧
      (c.dirfd ≠ atFdcwd → c.atdir.cells[(pathOf dir).length]? = some none) := by
  by_cases hfd : c.dirfd = atFdcwd
  · obtain ⟨a₀, -, hf⟩ := Option.bind_eq_some_iff.1 hf
    rw [if_neg (not_not.2 hfd), getcwd] at hf
    split_ifs at hf with hd
    · have hlen := CharArray.exists_strcpy_iff.1 ⟨a, hf⟩
      exact ⟨c.p.cwd, if_pos hfd, hd, by omega, fun hne => absurd hfd hne⟩
    · cases hf
  · obtain ⟨dir, hdir, hd, hlen, hnull⟩ := hterm hfd
    exact ⟨dir, hdir, hd, hlen, fun _ => hnull⟩

theorem Removes.comps (h : Removes fs c l n d) : ∃ xs, comps c.pathname = xs ++ [.name n] := by
  obtain ⟨cur, ys, -, hs, -, -⟩ := targetAt_entry h.target
  exact ⟨ys.map Comp.ofStr, by rw [YazzyPreload.comps, hs, List.map_append, List.map_singleton,
    Comp.ofStr_name]⟩

section LogOpen

variable (hhome : env.home = some home)
  (hopen : env.fopen (home ++ "/.unlinked_inodes".toList) = .ok ()) (hfits : home.length < 239)

include hhome hopen hfits

theorem retval_of_ok {outcome : Outcome}
    (hok : (fs.unlinkat c.p c.dirfd c.pathname c.flags).1 = .ok ())
    (hrun : (c.run env fs).1 = some outcome) : outcome.retval = 0 := by
  have hend : ∃ stderr st a, (c.run env fs).1 = if a.stringAt 0 = some [] then some ⟨0, stderr, none⟩
      else Option.bind st fun st =>
        appendRecord env c.pathname c.timebuf stderr st a c.bkfilename := by
    rcases run_cases env fs c with ⟨st, a, -, -, h⟩ | ⟨-, stderr, a, -, h⟩ <;> rw [h] <;>
      exact ⟨_, _, _, run_doUnlink_ok _ _ _ hok⟩
  obtain ⟨stderr, st, a, hend⟩ := hend
  rw [hend] at hrun
  split_ifs at hrun
  · cases hrun
    rfl
  · obtain ⟨st, -, hrun⟩ := Option.bind_eq_some_iff.1 hrun
    rw [appendRecord_eq hhome hopen hfits] at hrun
    obtain ⟨s, -, rfl⟩ := Option.map_eq_some_iff.1 hrun
    rfl

/-- The conditions are exact, apart from what an array without a null character happens to spell. -/
theorem truthful_iff (hterm : Terminated w c) : Truthful env w c ↔ Recordable w c := by
  refine ⟨?_, truthful_of_recordable hhome hopen hfits⟩
  rintro ⟨outcome, hrun, hsuccess, -⟩ l n d hrem
  obtain ⟨l', n', d', path, hrem', hlog, hpath⟩ :=
    hsuccess (retval_of_ok hhome hopen hfits hrem.ok hrun)
  obtain ⟨rfl, rfl, rfl⟩ := removes_unique hrem hrem'
  have hrecord : outcome.record = some ⟨c.timebuf, d.obj.ino, path⟩ := by
    rw [Removal.after, hrun] at hlog
    have htail := List.append_cancel_left hlog
    rw [Option.bind_some] at htail
    cases hr : outcome.record with
    | none => rw [hr] at htail; cases htail
    | some r => rw [hr] at htail; exact congrArg some (List.singleton_inj.1 htail)
  obtain ⟨st, a, s, hst, hf, ha, hino, hs⟩ := found_of_record hhome hopen hfits hrem.ok hrun hrecord
  have hflags := hrem.flags_eq_zero hst
  obtain ⟨dir, hdir, hd, hlen, hnull⟩ := dirOf_of_found hf hterm
  obtain ⟨a', hf', ha'⟩ := found_of_dirOf hdir hd hlen hnull
  cases hf.symm.trans hf'
  cases ha.symm.trans ha'
  dsimp only at hino hs
  refine ⟨hflags, ?_, fun t _ => ⟨st, hflags ▸ hst, hino.symm⟩, dir, hdir, hlen, hnull, fun _ => ?_⟩
  · have hlt := toLong_lt st.obj.ino
    omega
  · obtain ⟨xs, hxs⟩ := hrem.comps
    rw [hs] at hpath
    exact (targetAt_pathOf_append hxs hd).symm.trans hpath

end LogOpen

/-! ## Runs of calls -/

theorem Throughout.mono {P Q : World → Removal → Prop} (hPQ : ∀ w c, P w c → Q w c)
    {es : List Event} (h : Throughout env P es w) : Throughout env Q es w := by
  induction es generalizing w with
  | nil => trivial
  | cons e es ih => exact ⟨fun c hc => hPQ w c (h.1 c hc), ih h.2⟩

/-- With `HOME` set and the log writable, the log is right in every run whose calls reach no defect. -/
theorem run_truthful (hhome : env.home = some home)
    (hopen : env.fopen (home ++ "/.unlinked_inodes".toList) = .ok ()) (hfits : home.length < 239)
    {es : List Event} (h : Throughout env Recordable es w) : Throughout env (Truthful env) es w :=
  h.mono fun _ _ => truthful_of_recordable hhome hopen hfits

/-- A regular file with a pathname relative to a directory. -/
theorem recordable_of_reg {k : ℕ}
    (ht : w.fs.targetAt c.p c.dirfd c.pathname = .ok (.entry l n))
    (hd : w.fs.dirent (n :: l) = some d) (hk : (w.fs.inode d.obj).kind = .reg k)
    (hflags : c.flags = 0) (hino : d.obj.ino < 2 ^ 63) (hrel : isAbs c.pathname = false)
    (hdir : dirOf c.p c.dirfd = some dir) (hlen : (pathOf dir).length < 256)
    (hnull : c.atdir.cells[(pathOf dir).length]? = some none) : Recordable w c := by
  intro l' n' d' h
  cases ht.symm.trans h.target
  cases hd.symm.trans h.dirent
  refine ⟨hflags, hino, fun t hlink => ?_, dir, hdir, hlen, fun _ => hnull, fun habs => ?_⟩
  · cases hk.symm.trans hlink
  · cases hrel.symm.trans habs

namespace Sample

def name (s : String) (h : Ordinary s.toList := by decide) : Name := ⟨s.toList, h⟩

def directory : Inode := ⟨.dir, 0o755, 1000, 1000⟩

/-- The directory `/d` with a file, a link to it and an empty directory. -/
def tree : FileSystem :=
  ((((FileSystem.bare ⟨1, 2⟩).addChild [] (name "d") directory).addChild [name "d"] (name "r")
    ⟨.reg 10, 0o644, 1000, 1000⟩).addChild [name "d"] (name "s")
    ⟨.symlink "r".toList, 0o777, 1000, 1000⟩).addChild [name "d"] (name "e") directory

/-- A process in `/d`, which is also open as descriptor 5. -/
def process : Process where
  cwd := [name "d"]
  fds fd := if fd = 5 then some (.dir [name "d"]) else none
  umask := 0o022
  uid := 1000
  gid := 1000

def settings : Env := ⟨some "/home".toList, fun _ => .ok (), fun _ => []⟩

/-- An array in which every character is the same. -/
def filled (c : Option Char) : Chars := ⟨List.replicate 256 c, List.length_replicate⟩

/-- A call with what is left in the arrays. -/
def removal (dirfd : ℤ) (pathname : Str) (flags : Flags) (left : Option Char) : Removal :=
  ⟨process, dirfd, pathname, flags, "2024-01-01 00:00:00".toList, filled left, filled left⟩

def world : World := ⟨tree, []⟩

/-- The file is removed and cannot be removed again; then another one is made, and removed through the
descriptor. -/
def history : List Event :=
  [.unlinkat (removal atFdcwd "r".toList 0 none), .unlinkat (removal atFdcwd "r".toList 0 none),
    .other fun fs => fs.addChild [name "d"] (name "g") ⟨.reg 20, 0o644, 1000, 1000⟩,
    .unlinkat (removal 5 "g".toList 0 none)]

/-- The link is removed. -/
def dropLink : Removal := removal atFdcwd "s".toList 0 none

/-- The state before the last call. -/
def later : World := (history.take 3).foldl (fun w e => e.after settings w) world

end Sample

theorem run_truthful_history :
    Throughout Sample.settings (Truthful Sample.settings) Sample.history Sample.world := by
  have hhome : Sample.settings.home = some "/home".toList := rfl
  refine run_truthful hhome rfl (by decide) ⟨?_, ?_, ?_, ?_, trivial⟩
  · rintro c ⟨⟩
    exact recordable_of_reg (k := 10) (l := [Sample.name "d"]) (n := Sample.name "r")
      (d := ⟨⟨1, 4⟩, false⟩) (by decide) (by decide) (by decide) rfl (by decide) rfl rfl (by decide)
      (by decide)
  · rintro c ⟨⟩ l n d h
    exact absurd h.ok (by decide +kernel)
  · rintro c ⟨⟩
  · rintro c ⟨⟩
    exact recordable_of_reg (w := Sample.later) (k := 20) (l := [Sample.name "d"])
      (n := Sample.name "g") (d := ⟨⟨1, 7⟩, false⟩) (by decide +kernel) (by decide +kernel)
      (by decide +kernel) rfl (by decide) rfl rfl (by decide) (by decide)

/-- The empty directory, the link, the file with its absolute pathname, and the file in the directory
of the descriptor, with something left in `atdir`. -/
theorem unlinkat_misleads :
    ¬ Truthful Sample.settings Sample.world (Sample.removal atFdcwd "e".toList atRemovedir none) ∧
      ¬ Truthful Sample.settings Sample.world Sample.dropLink ∧
      ¬ Truthful Sample.settings Sample.world (Sample.removal atFdcwd "/d/r".toList 0 none) ∧
      ¬ Truthful Sample.settings Sample.world (Sample.removal 5 "r".toList 0 (some 'x')) := by
  have hrec : ∀ {c : Removal}, c.dirfd = atFdcwd → Truthful Sample.settings Sample.world c →
      Recordable Sample.world c := fun hfd h =>
    (truthful_iff rfl rfl (by decide) fun hne => absurd hfd hne).1 h
  refine ⟨fun h => ?_, fun h => ?_, fun h => ?_, fun h => ?_⟩
  · have hp := hrec rfl h [Sample.name "d"] (Sample.name "e") ⟨⟨1, 6⟩, false⟩
      ⟨by decide, by decide, by decide⟩
    exact absurd hp.flags (by decide)
  · have hp := hrec rfl h [Sample.name "d"] (Sample.name "s") ⟨⟨1, 5⟩, false⟩
      ⟨by decide, by decide, by decide⟩
    obtain ⟨st, hst, hino⟩ := hp.link _ rfl
    have hfile : Sample.world.fs.fstatat Sample.dropLink.p Sample.dropLink.dirfd
      Sample.dropLink.pathname 0 = .ok ⟨⟨1, 4⟩, ⟨.reg 10, 0o644, 1000, 1000⟩⟩ := by decide
    rw [hfile] at hst
    cases hst
    exact absurd hino (by decide)
  · have hp := hrec rfl h [Sample.name "d"] (Sample.name "r") ⟨⟨1, 4⟩, false⟩
      ⟨by decide, by decide, by decide⟩
    obtain ⟨dir, hdir, -, -, habs⟩ := hp.dir
    cases hdir
    exact absurd (habs rfl) (by decide)
  · obtain ⟨outcome, hrun, -⟩ := h
    have hnone : ((Sample.removal 5 "r".toList 0 (some 'x')).run Sample.settings
      Sample.world.fs).1 = none := by decide +kernel
    rw [hnone] at hrun
    cases hrun

end YazzyPreload.Saveunlinkedinode

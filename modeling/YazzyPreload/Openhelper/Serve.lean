import YazzyPreload.Inet
import YazzyPreload.OpenFiles
import YazzyPreload.Openhelper
import YazzyPreload.SharedFile

/-!
# What `openhelper.so` serves

A call for a path that is wanted is to give the output of the helper command.  The caller and the
child have the temporary file open through descriptions of their own, since the child opens it again
through `/dev/fd`: what the helper writes does not move the caller's stream.

`serves_iff` says when the output is what the caller finds.  The child closes the descriptors 0 and
1 before it opens the file again, so they must not be the temporary file's, which gets the lowest
one that is free.
-/

namespace YazzyPreload.Openhelper

/-! ## The child's system -/

/-- What is open at a descriptor: the temporary file through one of its descriptions, or another
file. -/
inductive Opened (Other : Type)
  | temp (description : ℕ)
  | other (f : Other)

/-- What the helper command does when it is run: the texts that it writes to its descriptors, and
its end. -/
structure Helper where
  writes : List (ℕ × Str)
  last : Final

/-- What is written to the standard output. -/
def Helper.output (h : Helper) : Str := sent (· = 1) h.writes

/-- The process at a call, and the results of the calls that it and its child make. -/
structure Scene (Other : Type) (limit : ℕ) where
  fds : OpenFiles Other limit
  children : Finset ℕ
  environ : Environ
  /-- The error of `tmpfile`, other than that no descriptor is free. -/
  tmpfile : Option ℕ
  fork : Except ℕ {pid : ℕ // pid ≠ 0 ∧ pid ∉ children}
  pauses : List Pause
  /-- The error of `waitpid`. -/
  wait : Option ℕ
  real : Request → Except ℕ ℕ
  /-- The error of opening a descriptor through `/dev/fd`, other than that it is not open. -/
  reopen : Option {e : ℕ // e % 256 ≠ 0}
  elsewhere : Str → Except ℕ Other
  exec : Option ℕ
  helper : List Str → Environ → Helper

/-- The child, with the temporary file and the description that it opens next. -/
structure Child (Other : Type) (limit : ℕ) where
  fds : OpenFiles (Opened Other) limit
  file : SharedFile Char ℕ
  next : ℕ
  environ : Environ

def ENOENT : ℕ := 2
def EBADF : ℕ := 9
def EMFILE : ℕ := 24

/-- The descriptor that a path in `/dev/fd` is for. -/
def devFd (pathname : Str) : Option ℕ :=
  (decimal (pathname.drop 8)).filter fun n => pathname = "/dev/fd/".toList ++ Nat.toDigits 10 n

/-- `unsetenv`. -/
def unsetenv (environ : Environ) (name : Str) : Environ :=
  fun key => if key.toList = name then none else environ key

/-- `setenv`. -/
def setenv (environ : Environ) (name value : Str) : Environ :=
  fun key => if key.toList = name then some value else environ key

variable {Other : Type} {limit : ℕ}

/-- The description of the temporary file that a descriptor has. -/
def Child.description (c : Child Other limit) (n : ℕ) : Option ℕ :=
  match c.fds.fileAt n with
  | some (.temp d) => some d
  | _ => none

/-- The temporary file after texts are written to the child's descriptors. -/
def Child.writes (c : Child Other limit) (ws : List (ℕ × Str)) : SharedFile Char ℕ :=
  c.file.writes '\x00' c.description ws

namespace Scene

section Calls

variable (t : Scene Other limit)

/-- What is opened for a path; the temporary file through a new description. -/
def opens (c : Child Other limit) (pathname mode : Str) :
    Except ℕ (Opened Other × Child Other limit) :=
  match devFd pathname with
  | none => (t.elsewhere pathname).map fun f => (.other f, c)
  | some n =>
    match t.reopen with
    | some e => .error e.1
    | none =>
      match c.fds.fileAt n with
      | none => .error ENOENT
      | some (.other f) => .ok (.other f, c)
      | some (.temp _) =>
        .ok (.temp c.next,
          { c with file := c.file.reopen c.next (mode.head? = some 'w'), next := c.next + 1 })

/-- The answers to the child's calls. -/
def childAnswer : Handler ChildCall ChildCall.Answer (Child Other limit)
  | .close fd, c => ((), { c with fds := c.fds.closeAt fd })
  | .fopen pathname mode, c =>
    match t.opens c pathname mode with
    | .error e => (.error e, c)
    | .ok (f, c') =>
      match c.fds.openFile f with
      | none => (.error EMFILE, c)
      | some (fd, fds) => (.ok fd.val, { c' with fds := fds })
  | .dup2 oldfd newfd, c =>
    match (OpenFiles.number limit oldfd).bind fun oldfd =>
      (OpenFiles.number limit newfd).bind (c.fds.dup2 oldfd) with
    | none => (.error EBADF, c)
    | some fds => (.ok (), { c with fds := fds })
  | .unsetenv name, c => ((), { c with environ := unsetenv c.environ name })
  | .setenv name value, c => ((), { c with environ := setenv c.environ name value })
  | .execvp _ _, c =>
    (match t.exec with
      | none => .ok ()
      | some e => .error e, c)
  | .eprint line, c => ((), { c with file := c.writes [(2, line ++ ['\n'])] })

/-! ## The caller and its child -/

/-- The child after `fork`. -/
def child (tmpf : Fin limit) : Child Other limit :=
  ⟨(t.fds.map .other).install tmpf (.temp 0), ⟨[], fun _ => 0⟩, 1, t.environ⟩

def command : Str := (t.environ "OPENHELPER_COMMAND").getD []

/-- The end of the child, which is the helper's if it comes to that, and the file that is left. -/
def outcome (strerror : ℕ → Str) (path : Str) (tmpf : Fin limit) : Final × SharedFile Char ℕ :=
  match (helperChild strerror t.command path tmpf).run t.childAnswer (t.child tmpf) with
  | (.exit status, c) => (.exited (status % 256), c.file)
  | (.exec args, c) => ((t.helper args c.environ).last, c.writes (t.helper args c.environ).writes)

def held : Held := ⟨t.fds.fds.map Fin.valEmbedding, t.children⟩

theorem notMem_held {fd : Fin limit} (h : t.fds.lowest = some fd) : fd.val ∉ t.held.fds := by
  rw [held, Finset.mem_map]
  rintro ⟨a, ha, hval⟩
  exact OpenFiles.lowest_notMem h (Fin.ext hval ▸ ha)

/-- The result of `tmpfile`. -/
def made : Except ℕ {fd : ℕ // fd ∉ t.held.fds} :=
  match t.tmpfile with
  | some e => .error e
  | none =>
    match hfd : t.fds.lowest with
    | none => .error EMFILE
    | some fd => .ok ⟨fd.val, t.notMem_held hfd⟩

/-- The answers to the caller's calls. -/
def answers (strerror : ℕ → Str) (path : Str) : Answers t.held where
  tmpfile := t.made
  fork := t.fork
  pauses := t.pauses
  last :=
    match t.wait, t.fds.lowest with
    | none, some tmpf => .ok (t.outcome strerror path tmpf).1
    | some e, _ => .error e
    | none, none => .error ECHILD
  real := t.real

/-! ## What is served -/

/-- The environment that the helper command is to have. -/
def helperEnviron (path : Str) : Environ :=
  Function.update (Function.update t.environ "OPENHELPER_COMMAND" none) "OPENHELPER_FILE"
    (some path)

/-- The helper command, run for a path. -/
def helps (path : Str) : Helper :=
  t.helper ["sh".toList, "-c".toList, t.command] (t.helperEnviron path)

/-- A call gives a stream at the beginning of a file, whose content is the output of the helper. -/
def Serves (fnmatch : Str → Str → ℤ) (strerror : ℕ → Str) (req : Request) : Prop :=
  ∃ fd : Fin limit,
    (∀ turns, t.pauses.length < turns →
      ((intercept t.environ fnmatch strerror turns req).run (answer (t.answers strerror req.path))
        (t.held, t.pauses)).1 = some (some fd.val)) ∧
    (t.outcome strerror req.path fd).2.offset 0 = 0 ∧
    (t.outcome strerror req.path fd).2.content = (t.helps req.path).output

/-- The calls that a helper needs succeed, and so does the helper. -/
structure Works (path : Str) : Prop where
  tmpfile : t.tmpfile = none
  fork : ∃ pid, t.fork = .ok pid
  reopen : t.reopen = none
  exec : t.exec = none
  wait : t.wait = none
  helper : (t.helps path).last = .exited 0

end Calls

variable {t : Scene Other limit} {fnmatch : Str → Str → ℤ} {strerror : ℕ → Str} {path : Str}
  {fd : Fin limit}

/-! ## The environment of the helper -/

theorem unsetenv_toList (environ : Environ) (key : String) :
    unsetenv environ key.toList = Function.update environ key none := by
  funext key'
  rw [unsetenv, Function.update_apply]
  simp only [String.toList_inj]

theorem setenv_toList (environ : Environ) (key : String) (value : Str) :
    setenv environ key.toList value = Function.update environ key (some value) := by
  funext key'
  rw [setenv, Function.update_apply]
  simp only [String.toList_inj]

/-- What the helper command opens is opened without a helper. -/
theorem intercept_helper (t : Scene Other limit) (path : Str) (turns : ℕ) (req : Request) :
    intercept (t.helperEnviron path) fnmatch strerror turns req =
      .call (.real req) fun fd => .ret (some fd.toOption) := by
  have hcommand : t.helperEnviron path "OPENHELPER_COMMAND" = none := by
    rw [helperEnviron, Function.update_of_ne (by decide), Function.update_self]
  rw [intercept, openhelper, hcommand]
  rfl

/-! ## What the child opens -/

theorem devFd_toDigits (n : ℕ) : devFd ("/dev/fd/".toList ++ Nat.toDigits 10 n) = some n := by
  have hdrop : ("/dev/fd/".toList ++ Nat.toDigits 10 n).drop 8 = Nat.toDigits 10 n :=
    List.drop_left' (by decide)
  rw [devFd, hdrop, decimal_toDigits, Option.filter_some, if_pos (by simp)]

theorem opens_temp {c : Child Other limit} {n d : ℕ} (hreopen : t.reopen = none)
    (hn : c.fds.fileAt n = some (.temp d)) :
    t.opens c ("/dev/fd/".toList ++ Nat.toDigits 10 n) "w+".toList =
      .ok (.temp c.next, { c with file := c.file.reopen c.next true, next := c.next + 1 }) := by
  rw [opens, devFd_toDigits, hreopen]
  dsimp only
  rw [hn]
  rfl

theorem childAnswer_fopen {c c' : Child Other limit} {pathname mode : Str} {f : Opened Other}
    {files : OpenFiles (Opened Other) limit} (hopens : t.opens c pathname mode = .ok (f, c'))
    (hfd : c.fds.openFile f = some (fd, files)) :
    t.childAnswer (.fopen pathname mode) c = (.ok fd.val, { c' with fds := files }) := by
  rw [childAnswer, hopens]
  dsimp only
  rw [hfd]

theorem childAnswer_dup2 {c : Child Other limit} {a b : Fin limit} {f : Opened Other}
    (ha : c.fds.file a = some f) :
    t.childAnswer (.dup2 a.val b.val) c = (.ok (), { c with fds := c.fds.install b f }) := by
  rw [childAnswer, OpenFiles.number_val, OpenFiles.number_val, Option.bind_some, Option.bind_some,
    OpenFiles.dup2, ha, Option.map_some]

/-- The child after it has closed its standard input and output. -/
def closed (t : Scene Other limit) (tmpf : Fin limit) : Child Other limit :=
  { t.child tmpf with fds := ((t.child tmpf).fds.closeAt 0).closeAt 1 }

theorem fileAt_closed (t : Scene Other limit) (fd : Fin limit) (n : ℕ) :
    (t.closed fd).fds.fileAt n = if n < 2 then none
      else if n = fd.val then some (.temp 0) else (t.fds.fileAt n).map .other := by
  rw [closed, OpenFiles.fileAt_closeAt, OpenFiles.fileAt_closeAt, child, OpenFiles.fileAt_install,
    OpenFiles.fileAt_map]
  split_ifs <;> first | rfl | omega

theorem childAnswer_closes (t : Scene Other limit) (fd : Fin limit) :
    (t.childAnswer (.close 1) (t.childAnswer (.close 0) (t.child fd)).2).2 = t.closed fd := rfl

/-! ## The run of the child -/

/-- A file that cannot be opened again is the end of the child. -/
theorem run_helperChild_of_error {e : ℕ} (strerror : ℕ → Str) (command path : Str)
    (h : t.opens (t.closed fd) ("/dev/fd/".toList ++ Nat.toDigits 10 fd.val) "w+".toList =
      .error e) :
    ((helperChild strerror command path fd.val).run t.childAnswer (t.child fd)).1 = .exit e := by
  have hfopen : t.childAnswer (.fopen ("/dev/fd/".toList ++ Nat.toDigits 10 fd.val) "w+".toList)
      (t.closed fd) = (.error e, t.closed fd) := by
    rw [childAnswer, h]
  rw [helperChild, Prog.run_call, Prog.run_call, childAnswer_closes, Prog.run_call, hfopen]
  rfl

/-- The child with the file opened again, at its standard input. -/
def reopened (t : Scene Other limit) (tmpf stdin : Fin limit) : Child Other limit where
  fds := (t.closed tmpf).fds.install stdin (.temp 1)
  file := ⟨[], fun _ => 0⟩
  next := 2
  environ := t.environ

/-- The child when it runs the command, with the file as its standard output as well. -/
def started (t : Scene Other limit) (path : Str) (tmpf stdin stdout : Fin limit) :
    Child Other limit :=
  { t.reopened tmpf stdin with
    fds := (t.reopened tmpf stdin).fds.install stdout (.temp 1)
    environ := t.helperEnviron path }

/-- The lowest descriptor is free for the file that is opened again. -/
theorem openFile_closed (t : Scene Other limit) (fd : Fin limit) {stdin : Fin limit}
    (hin : stdin.val = 0) (f : Opened Other) :
    (t.closed fd).fds.openFile f = some (stdin, (t.closed fd).fds.install stdin f) := by
  have hlowest : (t.closed fd).fds.lowest = some stdin := by
    refine OpenFiles.lowest_eq_some_iff.2 ⟨?_, fun a ha => ?_⟩
    · rw [OpenFiles.mem_fds, ← OpenFiles.fileAt_val, fileAt_closed, hin, if_pos Nat.two_pos]
      exact Bool.false_ne_true
    · rw [Fin.lt_def, hin] at ha
      exact absurd ha (Nat.not_lt_zero _)
  rw [OpenFiles.openFile, hlowest, Option.map_some]

theorem childAnswer_reopens (hreopen : t.reopen = none) (hfd : 2 ≤ fd.val) {stdin : Fin limit}
    (hin : stdin.val = 0) :
    t.childAnswer (.fopen ("/dev/fd/".toList ++ Nat.toDigits 10 fd.val) "w+".toList)
      (t.closed fd) = (.ok stdin.val, t.reopened fd stdin) := by
  have htemp : (t.closed fd).fds.fileAt fd.val = some (.temp 0) := by
    rw [fileAt_closed, if_neg (by omega), if_pos rfl]
  rw [childAnswer_fopen (opens_temp hreopen htemp) (openFile_closed t fd hin _), reopened]
  have hfile : (t.closed fd).file.reopen (t.closed fd).next true = ⟨[], fun _ => 0⟩ := by
    rw [SharedFile.reopen]
    exact congrArg _ (Function.update_eq_self 1 fun _ => 0)
  simp only [hfile]
  rfl

theorem run_helperChild (strerror : ℕ → Str) (path : Str) (hreopen : t.reopen = none)
    (hfd : 2 ≤ fd.val) (stdin stdout : Fin limit) (hin : stdin.val = 0) (hout : stdout.val = 1) :
    (helperChild strerror t.command path fd.val).run t.childAnswer (t.child fd) =
      (match t.exec with
        | none => .exec ["sh".toList, "-c".toList, t.command]
        | some _ => .exit 127, t.started path fd stdin stdout) := by
  have hdup : t.childAnswer (.dup2 stdin.val 1) (t.reopened fd stdin) =
      (.ok (), { t.reopened fd stdin with
        fds := (t.reopened fd stdin).fds.install stdout (.temp 1) }) := by
    have h := childAnswer_dup2 (t := t) (c := t.reopened fd stdin) (b := stdout)
      (OpenFiles.install_file_self (t.closed fd).fds stdin (.temp 1))
    rwa [hout] at h
  rw [helperChild, Prog.run_call, Prog.run_call, childAnswer_closes, Prog.run_call,
    childAnswer_reopens hreopen hfd hin]
  dsimp only
  rw [Prog.run_call, hdup, Prog.run_call, Prog.run_call, Prog.run_call]
  simp only [childAnswer, unsetenv_toList, setenv_toList]
  cases t.exec <;> rfl

theorem description_started (t : Scene Other limit) (path : Str) {stdin stdout : Fin limit}
    (hin : stdin.val = 0) (hout : stdout.val = 1) (n : ℕ) :
    (t.started path fd stdin stdout).description n =
      if n < 2 then some 1 else if n = fd.val then some 0 else none := by
  rw [Child.description, started, OpenFiles.fileAt_install, reopened, OpenFiles.fileAt_install,
    fileAt_closed, hin, hout]
  by_cases hn : n < 2
  · rw [if_pos hn]
    split_ifs <;> first | rfl | omega
  · rw [if_neg hn, if_neg hn, if_neg (by omega), if_neg (by omega)]
    by_cases hfd : n = fd.val
    · rw [if_pos hfd, if_pos hfd]
    · rw [if_neg hfd, if_neg hfd]
      cases t.fds.fileAt n <;> rfl

/-! ## How the child ends -/

/-- Without a file to open again, the child does not come to run the command. -/
theorem outcome_of_error {e : ℕ} (he : e % 256 ≠ 0)
    (h : t.opens (t.closed fd) ("/dev/fd/".toList ++ Nat.toDigits 10 fd.val) "w+".toList =
      .error e) :
    (t.outcome strerror path fd).1 ≠ .exited 0 := by
  have hrun := run_helperChild_of_error strerror t.command path h
  rw [outcome]
  rcases hsplit : (helperChild strerror t.command path fd.val).run t.childAnswer (t.child fd)
    with ⟨final, c⟩
  rw [hsplit] at hrun
  cases hrun
  exact fun heq => he (by injection heq)

theorem outcome_of_not_two_le (h : ¬ 2 ≤ fd.val) :
    (t.outcome strerror path fd).1 ≠ .exited 0 := by
  cases hreopen : t.reopen with
  | some e => exact outcome_of_error e.2 (by rw [opens, devFd_toDigits, hreopen])
  | none =>
    refine outcome_of_error (e := ENOENT) (by decide) ?_
    rw [opens, devFd_toDigits, hreopen]
    dsimp only
    rw [fileAt_closed, if_pos (by omega)]

theorem outcome_of_reopen {e : {e : ℕ // e % 256 ≠ 0}} (h : t.reopen = some e) :
    (t.outcome strerror path fd).1 ≠ .exited 0 :=
  outcome_of_error e.2 (by rw [opens, devFd_toDigits, h])

theorem outcome_of_exec {e : ℕ} (hreopen : t.reopen = none) (hfd : 2 ≤ fd.val)
    (h : t.exec = some e) : (t.outcome strerror path fd).1 ≠ .exited 0 := by
  rw [outcome, run_helperChild strerror path hreopen hfd ⟨0, by omega⟩ ⟨1, by omega⟩ rfl rfl, h]
  exact fun heq => nomatch heq

/-- Where nothing of that fails, the helper runs. -/
theorem outcome_eq (strerror : ℕ → Str) (path : Str) (hreopen : t.reopen = none)
    (hexec : t.exec = none) (hfd : 2 ≤ fd.val) (stdin stdout : Fin limit) (hin : stdin.val = 0)
    (hout : stdout.val = 1) : t.outcome strerror path fd =
      ((t.helps path).last, (t.started path fd stdin stdout).writes (t.helps path).writes) := by
  rw [outcome, run_helperChild strerror path hreopen hfd stdin stdout hin hout, hexec]
  rfl

/-! ## What is left in the file -/

/-- The helper writes nothing to the temporary file but through its standard output. -/
def OnlyOutput (t : Scene Other limit) (path : Str) : Prop :=
  ∀ w ∈ (t.helps path).writes, w.2 ≠ [] →
    w.1 ≠ 0 ∧ ∀ tmpf, t.fds.lowest = some tmpf → w.1 ≠ tmpf.val

instance : Decidable (t.OnlyOutput path) :=
  inferInstanceAs (Decidable (∀ w ∈ (t.helps path).writes, w.2 ≠ [] →
    w.1 ≠ 0 ∧ ∀ tmpf, t.fds.lowest = some tmpf → w.1 ≠ tmpf.val))

section Left

variable {stdin stdout : Fin limit} (hin : stdin.val = 0) (hout : stdout.val = 1)

include hin hout

theorem description_eq_one_iff (n : ℕ) :
    (t.started path fd stdin stdout).description n = some 1 ↔ n < 2 := by
  rw [description_started t path hin hout]
  split_ifs with h h'
  · exact iff_of_true rfl h
  · exact iff_of_false (nomatch ·) h
  · exact iff_of_false (nomatch ·) h

theorem description_eq_zero_iff (hfd : 2 ≤ fd.val) (n : ℕ) :
    (t.started path fd stdin stdout).description n = some 0 ↔ n = fd.val := by
  rw [description_started t path hin hout]
  split_ifs with h h'
  · exact iff_of_false (nomatch ·) (by omega)
  · exact iff_of_true rfl h'
  · exact iff_of_false (nomatch ·) h'

/-- The caller's stream stays where it was if nothing is written to the descriptor it has. -/
theorem offset_writes_iff (hfd : 2 ≤ fd.val) (ws : List (ℕ × Str)) :
    ((t.started path fd stdin stdout).writes ws).offset 0 = 0 ↔
      ∀ w ∈ ws, w.2 ≠ [] → w.1 ≠ fd.val := by
  rw [Child.writes, SharedFile.offset_writes]
  change 0 + _ = 0 ↔ _
  rw [Nat.zero_add, List.length_eq_zero_iff, sent_eq_nil_iff]
  simp only [decide_eq_true_eq, description_eq_zero_iff hin hout hfd]
  exact forall₂_congr fun w _ => ⟨fun h hne he => hne (h he), fun h he => by_contra (h · he)⟩

/-- The rest is added in order, also what is written to the standard input. -/
theorem content_writes_iff {ws : List (ℕ × Str)} (hws : ∀ w ∈ ws, w.2 ≠ [] → w.1 ≠ fd.val) :
    ((t.started path fd stdin stdout).writes ws).content = sent (· = 1) ws ↔
      ∀ w ∈ ws, w.2 ≠ [] → w.1 ≠ 0 := by
  have hcontent : ((t.started path fd stdin stdout).writes ws).content =
      sent ((t.started path fd stdin stdout).description · = some 1) ws := by
    refine SharedFile.content_writes (d := 1) rfl fun w hw e he hne => ?_
    rw [description_started t path hin hout] at he
    split_ifs at he with h h'
    · exact absurd (Option.some.inj he).symm hne
    · exact by_contra (hws w hw · h')
  rw [hcontent, sent_eq_iff]
  · simp only [decide_eq_true_eq, decide_eq_false_iff_not, description_eq_one_iff hin hout]
    refine forall₂_congr fun w _ => ⟨fun h hne he => hne (h (by omega) (by omega)), fun h _ _ => ?_⟩
    by_contra hne
    have := h hne
    omega
  · intro n hn
    rw [decide_eq_true_eq] at hn ⊢
    exact (description_eq_one_iff hin hout n).2 (by omega)

end Left

/-! ## What the caller gets -/

theorem made_eq_ok_iff {fd : {fd : ℕ // fd ∉ t.held.fds}} :
    t.made = .ok fd ↔ t.tmpfile = none ∧ ∃ tmpf, t.fds.lowest = some tmpf ∧ fd.1 = tmpf.val := by
  rw [made]
  cases t.tmpfile with
  | some e => exact iff_of_false (nomatch ·) (nomatch ·.1)
  | none =>
    dsimp only
    split
    · next hnone =>
      rw [hnone]
      exact iff_of_false (nomatch ·) fun ⟨_, _, h, _⟩ => nomatch h
    · next tmpf hsome =>
      constructor
      · rintro ⟨⟩
        exact ⟨rfl, tmpf, hsome, rfl⟩
      · rintro ⟨-, tmpf', h, hval⟩
        have heq : tmpf = tmpf' := Option.some.inj (hsome.symm.trans h)
        exact congrArg Except.ok (Subtype.ext (hval.trans (congrArg Fin.val heq.symm)).symm)

theorem last_answers_iff (hfd : t.fds.lowest = some fd) :
    (t.answers strerror path).last = .ok (.exited 0) ↔
      t.wait = none ∧ (t.outcome strerror path fd).1 = .exited 0 := by
  rw [answers, hfd]
  dsimp only
  cases t.wait with
  | some e => exact iff_of_false (nomatch ·) (nomatch ·.1)
  | none => exact ⟨fun h => ⟨rfl, Except.ok.inj h⟩, fun h => congrArg Except.ok h.2⟩

/-- The temporary file has another descriptor than the standard input and output just when these are
open in the caller. -/
theorem two_le_iff (hfd : t.fds.lowest = some fd) :
    2 ≤ fd.val ↔ t.fds.fileAt 0 ≠ none ∧ t.fds.fileAt 1 ≠ none := by
  obtain ⟨hfree, hbelow⟩ := OpenFiles.lowest_eq_some_iff.1 hfd
  have hopen : ∀ n < fd.val, t.fds.fileAt n ≠ none := fun n hn h => by
    obtain ⟨a, rfl⟩ := OpenFiles.exists_val_eq (hn.trans fd.2)
    have hmem := OpenFiles.mem_fds.1 (hbelow a hn)
    rw [OpenFiles.fileAt_val] at h
    rw [h] at hmem
    exact Bool.false_ne_true hmem
  have hnone : t.fds.fileAt fd.val = none := by
    rw [OpenFiles.fileAt_val]
    simpa using hfree
  constructor
  · exact fun h => ⟨hopen 0 (by omega), hopen 1 (by omega)⟩
  · rintro ⟨h0, h1⟩
    by_contra hlt
    have hval : fd.val = 0 ∨ fd.val = 1 := by omega
    rcases hval with hval | hval
    · exact h0 (hval ▸ hnone)
    · exact h1 (hval ▸ hnone)

end Scene

section Gives

variable {getenv : Environ} {fnmatch : Str → Str → ℤ} {strerror : ℕ → Str} {h h' : Held}
  {a : Answers h} {req : Request} {r : Return} {turns n : ℕ}

theorem run_intercept_of_error (hr : Returns getenv fnmatch strerror a req.path r h')
    (hturns : a.pauses.length < turns) (hretval : r.retval = -1) :
    ((intercept getenv fnmatch strerror turns req).run (answer a) (h, a.pauses)).1 = some none := by
  obtain ⟨ps, hrun⟩ := hr turns hturns
  rw [intercept, Prog.run_bind, hrun]
  dsimp only
  rw [hretval]
  rfl

theorem run_intercept_of_stream {errno : Option ℕ}
    (hr : Returns getenv fnmatch strerror a req.path ⟨0, some n, errno⟩ h')
    (hturns : a.pauses.length < turns) :
    ((intercept getenv fnmatch strerror turns req).run (answer a) (h, a.pauses)).1 =
      some (some n) := by
  obtain ⟨ps, hrun⟩ := hr turns hturns
  rw [intercept, Prog.run_bind, hrun]
  rfl

/-- A call for a path that is wanted gives the temporary file when a helper exits with status 0, and
an error otherwise. -/
theorem run_intercept_iff (hw : Wanted getenv fnmatch req.path) (hturns : a.pauses.length < turns) :
    ((intercept getenv fnmatch strerror turns req).run (answer a) (h, a.pauses)).1 =
        some (some n) ↔
      (∃ fd, a.tmpfile = .ok fd ∧ fd.1 = n) ∧ (∃ pid, a.fork = .ok pid) ∧
        a.last = .ok (.exited 0) := by
  cases ht : a.tmpfile with
  | error e =>
    rw [run_intercept_of_error (returns_of_tmpfile_error hw ht) hturns rfl]
    exact iff_of_false (nomatch ·) fun ⟨⟨_, h, _⟩, _⟩ => nomatch h
  | ok fd =>
    cases hf : a.fork with
    | error e =>
      rw [run_intercept_of_error (returns_of_fork_error hw ht hf) hturns rfl]
      exact iff_of_false (nomatch ·) fun ⟨_, ⟨_, h⟩, _⟩ => nomatch h
    | ok pid =>
      have hr := returns_of_started strerror hw ht hf
      by_cases hlast : a.last = .ok (.exited 0)
      · rw [hlast] at hr ⊢
        rw [run_intercept_of_stream hr hturns]
        constructor
        · rintro ⟨⟩
          exact ⟨⟨fd, rfl, rfl⟩, ⟨pid, rfl⟩, rfl⟩
        · rintro ⟨⟨fd', ⟨⟩, rfl⟩, -⟩
          rfl
      · rw [run_intercept_of_error hr hturns (retval_verdict hlast)]
        exact iff_of_false (nomatch ·) fun h => hlast h.2.2

end Gives

/-- A call for a path that is wanted serves the output of the helper if and only if everything
works, the caller has its standard input and output open, and the helper writes to the file only
through its standard output. -/
theorem serves_iff (t : Scene Other limit) (fnmatch : Str → Str → ℤ) (strerror : ℕ → Str)
    (req : Request) (hw : Wanted t.environ fnmatch req.path) :
    t.Serves fnmatch strerror req ↔
      t.Works req.path ∧ (∃ tmpf, t.fds.lowest = some tmpf) ∧
        (t.fds.fileAt 0 ≠ none ∧ t.fds.fileAt 1 ≠ none) ∧ t.OnlyOutput req.path := by
  constructor
  · rintro ⟨fd, hrun, hoffset, hcontent⟩
    obtain ⟨⟨fd', hmade, hval⟩, hfork, hlast⟩ :=
      (run_intercept_iff hw (Nat.lt_succ_self _)).1 (hrun _ (Nat.lt_succ_self _))
    obtain ⟨htmpfile, tmpf, hlowest, hval'⟩ := Scene.made_eq_ok_iff.1 hmade
    obtain rfl : tmpf = fd := Fin.ext (hval'.symm.trans hval)
    obtain ⟨hwait, hexited⟩ := (Scene.last_answers_iff hlowest).1 hlast
    have hfd : 2 ≤ tmpf.val := by_contra (Scene.outcome_of_not_two_le · hexited)
    have hreopen : t.reopen = none := Option.eq_none_iff_forall_ne_some.2 fun e he =>
      Scene.outcome_of_reopen he hexited
    have hexec : t.exec = none := Option.eq_none_iff_forall_ne_some.2 fun e he =>
      Scene.outcome_of_exec hreopen hfd he hexited
    have houtcome := Scene.outcome_eq strerror req.path hreopen hexec hfd ⟨0, by omega⟩
      ⟨1, by omega⟩ rfl rfl
    rw [houtcome] at hexited hoffset hcontent
    have hkept := (Scene.offset_writes_iff rfl rfl hfd _).1 hoffset
    have houtput := (Scene.content_writes_iff rfl rfl hkept).1 hcontent
    refine ⟨⟨htmpfile, hfork, hreopen, hexec, hwait, hexited⟩, ⟨tmpf, hlowest⟩,
      (Scene.two_le_iff hlowest).1 hfd, fun w hw hne => ⟨houtput w hw hne, fun tmpf' h => ?_⟩⟩
    cases hlowest.symm.trans h
    exact hkept w hw hne
  · rintro ⟨hworks, ⟨tmpf, hlowest⟩, hstd, honly⟩
    have hfd := (Scene.two_le_iff hlowest).2 hstd
    have houtcome := Scene.outcome_eq strerror req.path hworks.reopen hworks.exec hfd
      ⟨0, by omega⟩ ⟨1, by omega⟩ rfl rfl
    have hkept : ∀ w ∈ (t.helps req.path).writes, w.2 ≠ [] → w.1 ≠ tmpf.val :=
      fun w hw hne => (honly w hw hne).2 tmpf hlowest
    refine ⟨tmpf, fun turns hturns => (run_intercept_iff hw hturns).2 ⟨?_, hworks.fork, ?_⟩, ?_, ?_⟩
    · exact ⟨⟨tmpf.val, t.notMem_held hlowest⟩,
        Scene.made_eq_ok_iff.2 ⟨hworks.tmpfile, tmpf, hlowest, rfl⟩, rfl⟩
    · exact (Scene.last_answers_iff hlowest).2 ⟨hworks.wait, by rw [houtcome]; exact hworks.helper⟩
    · rw [houtcome]
      exact (Scene.offset_writes_iff rfl rfl hfd _).2 hkept
    · rw [houtcome]
      exact (Scene.content_writes_iff rfl rfl hkept).2 fun w hw hne => (honly w hw hne).1

namespace Sample

/-- A caller with its standard streams, and a helper that prints the path that it is run for and
reports so. -/
def scene : Scene Unit 8 where
  fds := ⟨fun fd => if fd.val < 3 then some () else none⟩
  children := ∅
  environ := environ
  tmpfile := none
  fork := .ok ⟨100, by decide⟩
  pauses := [.stopped 19, .continued]
  wait := none
  real _ := .error ENOENT
  reopen := none
  elsewhere _ := .error ENOENT
  exec := none
  helper _ environ :=
    ⟨[(1, (environ "OPENHELPER_FILE").getD []), (2, "printed".toList), (1, ['\n'])], .exited 0⟩

end Sample

theorem serves_iff_scene :
    Sample.scene.Serves (fun _ _ => 0) (fun _ => []) (.open_ "/etc/motd".toList 0 0) :=
  (serves_iff Sample.scene _ _ _ ⟨_, _, rfl, rfl, rfl⟩).2
    ⟨⟨rfl, ⟨_, rfl⟩, rfl, rfl, rfl, rfl⟩, ⟨3, by decide⟩, by decide, by decide +kernel⟩

end YazzyPreload.Openhelper

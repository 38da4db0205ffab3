import Mathlib.Data.Finset.Basic
import YazzyPreload.Libc
import YazzyPreload.Program

/-!
# `openhelper.so`

`openhelper` starts a helper command that writes a temporary file, and waits for it.  The functions
that open files return that file in place of the one that was asked for.

`cleansUp_iff` says when a call leaves nothing behind on failure: the temporary file is closed after a
`fork` that fails, but after the helper is started only success is handled.
-/

namespace YazzyPreload.Openhelper

/-! ## The calls -/

/-- What a child that has not ended is reported for. -/
inductive Pause
  | stopped (sig : ℕ)
  | continued
  deriving DecidableEq

/-- How a child has ended. -/
inductive Final
  | exited (code : ℕ)
  | signaled (sig : ℕ)
  deriving DecidableEq

/-- What `waitpid` reports. -/
inductive Status
  | paused (p : Pause)
  | ended (f : Final)
  deriving DecidableEq

/-- A call to one of the functions that open files. -/
inductive Request
  | open_ (pathname : Str) (flags : ℤ) (mode : ℕ)
  | open64 (pathname : Str) (flags : ℤ) (mode : ℕ)
  | fopen (pathname mode : Str)
  | fopen64 (pathname mode : Str)
  deriving DecidableEq

/-- The calls of the process. -/
inductive Call
  | tmpfile
  | fork
  | waitpid (pid : ℕ)
  | fclose (fp : ℕ)
  | eprint (line : Str)
  | real (r : Request)
  deriving DecidableEq

/-- The answer to a call.  An error is its number, and a stream is named by its descriptor. -/
abbrev Call.Answer : Call → Type
  | tmpfile => Except ℕ ℕ
  | fork => Except ℕ ℕ
  | waitpid _ => Except ℕ Status
  | fclose _ => Unit
  | eprint _ => Unit
  | real _ => Except ℕ ℕ

/-- What `openhelper` returns, and the `errno` that it sets or that it has got from a call. -/
structure Return where
  retval : ℤ
  resulted_fh : Option ℕ
  errno : Option ℕ
  deriving DecidableEq

def EIO : ℕ := 5
def ECHILD : ℕ := 10

section Code

variable (getenv : Environ) (fnmatch : Str → Str → ℤ) (strerror : ℕ → Str)

/-- A line that starts with `MYNAME`. -/
def note (s : Str) : Str := "openhelper.so: ".toList ++ s

/-- The loop over the reports of `waitpid`; none when it is not done after some turns. -/
def waitHelper (child tmpf : ℕ) : ℕ → Prog Call Call.Answer (Option Return)
  | 0 => .ret none
  | turns + 1 =>
    .call (.waitpid child) fun
      | .error e =>
        .call (.eprint (note ("waitpid for helper command: ".toList ++ strerror e))) fun _ =>
        .ret (some ⟨-1, none, some e⟩)
      | .ok (.ended (.exited code)) =>
        if code = 0 then .ret (some ⟨0, some tmpf, none⟩)
        else
          .call (.eprint (note ("helper command exited ".toList ++ Nat.toDigits 10 code ++
            ": ".toList ++ strerror code))) fun _ =>
          .ret (some ⟨-1, none, some code⟩)
      | .ok (.ended (.signaled sig)) =>
        .call (.eprint (note ("helper command process is killed by signal ".toList ++
          Nat.toDigits 10 sig))) fun _ =>
        .ret (some ⟨-1, none, some EIO⟩)
      | .ok (.paused _) => waitHelper child tmpf turns

/-- The part of `openhelper` after the path has matched, in the process that calls it. -/
def startHelper (turns : ℕ) : Prog Call Call.Answer (Option Return) :=
  .call .tmpfile fun
    | .error e =>
      .call (.eprint (note ("tmpfile: ".toList ++ strerror e))) fun _ =>
      .ret (some ⟨-1, none, some e⟩)
    | .ok tmpf =>
      .call .fork fun
        | .error e =>
          .call (.eprint (note ("fork: ".toList ++ strerror e))) fun _ =>
          .call (.fclose tmpf) fun _ =>
          .ret (some ⟨-1, none, some e⟩)
        | .ok child => waitHelper strerror child tmpf turns

/-- `openhelper`. -/
def openhelper (turns : ℕ) (requested_path : Str) : Prog Call Call.Answer (Option Return) :=
  match getenv "OPENHELPER_COMMAND", getenv "OPENHELPER_FNMATCH" with
  | none, _ => .ret (some ⟨0, none, none⟩)
  | some _, none =>
    .call (.eprint (note "not set: OPENHELPER_FNMATCH".toList)) fun _ =>
    .ret (some ⟨0, none, none⟩)
  | some _, some only_pattern =>
    if fnmatch only_pattern requested_path ≠ 0 then .ret (some ⟨0, none, none⟩)
    else startHelper strerror turns

/-- The path of a request. -/
def Request.path : Request → Str
  | .open_ path _ _ | .open64 path _ _ | .fopen path _ | .fopen64 path _ => path

/-- An intercepted call: it gives a descriptor, or none where it returns -1 or the null pointer. -/
def intercept (turns : ℕ) (r : Request) : Prog Call Call.Answer (Option (Option ℕ)) :=
  openhelper getenv fnmatch strerror turns r.path >>= fun
    | none => .ret none
    | some helped =>
      if helped.retval ≠ 0 then .ret (some none)
      else
        match helped.resulted_fh with
        | some replacement_fh => .ret (some (some replacement_fh))
        | none => .call (.real r) fun fd => .ret (some fd.toOption)

/-- `open`. -/
def open_ (turns : ℕ) (pathname : Str) (flags : ℤ) (mode : ℕ) :
    Prog Call Call.Answer (Option (Option ℕ)) :=
  intercept getenv fnmatch strerror turns (.open_ pathname flags mode)

/-- `open64`. -/
def open64 (turns : ℕ) (pathname : Str) (flags : ℤ) (mode : ℕ) :
    Prog Call Call.Answer (Option (Option ℕ)) :=
  intercept getenv fnmatch strerror turns (.open64 pathname flags mode)

/-- `fopen`. -/
def fopen (turns : ℕ) (pathname mode : Str) : Prog Call Call.Answer (Option (Option ℕ)) :=
  intercept getenv fnmatch strerror turns (.fopen pathname mode)

/-- `fopen64`. -/
def fopen64 (turns : ℕ) (pathname mode : Str) : Prog Call Call.Answer (Option (Option ℕ)) :=
  intercept getenv fnmatch strerror turns (.fopen64 pathname mode)

end Code

/-! ## The child -/

/-- The calls of the child. -/
inductive ChildCall
  | close (fd : ℕ)
  | fopen (pathname mode : Str)
  | dup2 (oldfd newfd : ℕ)
  | unsetenv (name : Str)
  | setenv (name value : Str)
  | execvp (file : Str) (args : List Str)
  | eprint (line : Str)
  deriving DecidableEq

/-- The answer to a call of the child. -/
abbrev ChildCall.Answer : ChildCall → Type
  | fopen _ _ => Except ℕ ℕ
  | dup2 _ _ => Except ℕ Unit
  | execvp _ _ => Except ℕ Unit
  | _ => Unit

/-- How the child leaves `openhelper`. -/
inductive ChildEnd
  | exit (status : ℕ)
  | exec (args : List Str)
  deriving DecidableEq

/-- The branch of `openhelper` for the child. -/
def helperChild (strerror : ℕ → Str) (helper_command requested_path : Str) (tmpf : ℕ) :
    Prog ChildCall ChildCall.Answer ChildEnd :=
  let args := ["sh".toList, "-c".toList, helper_command]
  .call (.close 0) fun _ =>
  .call (.close 1) fun _ =>
  .call (.fopen ("/dev/fd/".toList ++ Nat.toDigits 10 tmpf) "w+".toList) fun
    | .error e =>
      .call (.eprint (note ("reopen temp file: ".toList ++ strerror e))) fun _ =>
      .ret (.exit e)
    | .ok tmpf2 =>
      .call (.dup2 tmpf2 1) fun _ =>
      .call (.unsetenv "OPENHELPER_COMMAND".toList) fun _ =>
      .call (.setenv "OPENHELPER_FILE".toList requested_path) fun _ =>
      .call (.execvp "sh".toList args) fun
        | .ok _ => .ret (.exec args)
        | .error _ => .ret (.exit 127)

/-- The child does not return from `openhelper`: it runs the command, or exits with a status that the
caller does not take for success. -/
theorem helperChild_ends {S : Type} {sys : System ChildCall ChildCall.Answer S}
    (herrno : ∀ s path mode s', ¬ sys s (.fopen path mode) (.error 0) s') (strerror : ℕ → Str)
    (helper_command requested_path : Str) (tmpf : ℕ) (s : S) :
    Prog.wp sys (helperChild strerror helper_command requested_path tmpf) s fun _ e _ =>
      e = .exec ["sh".toList, "-c".toList, helper_command] ∨
      ∃ status, status ≠ 0 ∧ e = .exit status := by
  intro _ s₁ _ _ s₂ _ tmpf2 s₃ hopen
  cases tmpf2 with
  | error e =>
    intro _ _ _
    exact Or.inr ⟨e, fun he => herrno _ _ _ _ (he ▸ hopen), rfl⟩
  | ok tmpf2 =>
    intro _ _ _ _ _ _ _ _ _ r _ _
    cases r with
    | ok _ => exact Or.inl rfl
    | error _ => exact Or.inr ⟨127, by decide, rfl⟩

/-! ## The process -/

/-- The descriptors that a process has open, and the children that it has not waited for. -/
structure Held where
  fds : Finset ℕ
  children : Finset ℕ
  deriving DecidableEq

/-- The results of the calls in a process that holds `h`.  Those of `waitpid` are any number of pauses
and then an error or the end of the child. -/
structure Answers (h : Held) where
  tmpfile : Except ℕ {fd : ℕ // fd ∉ h.fds}
  fork : Except ℕ {pid : ℕ // pid ≠ 0 ∧ pid ∉ h.children}
  pauses : List Pause
  last : Except ℕ Final
  real : Request → Except ℕ ℕ

/-- What is held after the last result of `waitpid`.  The error `ECHILD` says that there is nothing
to wait for. -/
def Held.waited (h : Held) (pid : ℕ) : Except ℕ Final → Held
  | .ok _ => { h with children := h.children.erase pid }
  | .error e => if e = ECHILD then { h with children := h.children.erase pid } else h

/-- The answers to the calls, in a state with the pauses that are still to be reported. -/
def answer {h₀ : Held} (a : Answers h₀) : Handler Call Call.Answer (Held × List Pause)
  | .tmpfile, (h, ps) =>
    match a.tmpfile with
    | .ok fd => (.ok fd.1, ({ h with fds := insert fd.1 h.fds }, ps))
    | .error e => (.error e, (h, ps))
  | .fork, (h, ps) =>
    match a.fork with
    | .ok pid => (.ok pid.1, ({ h with children := insert pid.1 h.children }, ps))
    | .error e => (.error e, (h, ps))
  | .waitpid pid, (h, ps) =>
    if pid ∉ h.children then (.error ECHILD, (h, ps))
    else
      match ps with
      | p :: ps => (.ok (.paused p), (h, ps))
      | [] => (a.last.map .ended, (h.waited pid a.last, []))
  | .fclose fp, (h, ps) => ((), ({ h with fds := h.fds.erase fp }, ps))
  | .eprint _, s => ((), s)
  | .real r, (h, ps) =>
    match a.real r with
    | .ok fd => (.ok fd, ({ h with fds := insert fd h.fds }, ps))
    | .error e => (.error e, (h, ps))

/-! ## What a call leaves -/

section Leaves

variable (getenv : Environ) (fnmatch : Str → Str → ℤ) (strerror : ℕ → Str) {h : Held}
  (a : Answers h) (path : Str)

/-- The call returns `r` and leaves `h'`, in any number of turns that is enough for the pauses. -/
def Returns (r : Return) (h' : Held) : Prop :=
  ∀ turns, a.pauses.length < turns → ∃ ps,
    (openhelper getenv fnmatch strerror turns path).run (answer a) (h, a.pauses) = (some r, (h', ps))

/-- A helper is configured for the path. -/
def Wanted : Prop :=
  ∃ helper_command only_pattern, getenv "OPENHELPER_COMMAND" = some helper_command ∧
    getenv "OPENHELPER_FNMATCH" = some only_pattern ∧ fnmatch only_pattern path = 0

/-- A helper is started for the path. -/
def Starts : Prop :=
  Wanted getenv fnmatch path ∧ (∃ fd, a.tmpfile = .ok fd) ∧ ∃ pid, a.fork = .ok pid

/-- The call returns; it returns 0 with the temporary file just when a helper has exited with status
0, and when it returns -1 there is no stream, and nothing is held that was not held before. -/
def CleansUp : Prop :=
  ∃ r h', Returns getenv fnmatch strerror a path r h' ∧
    ((∃ fd, a.tmpfile = .ok fd ∧ r.retval = 0 ∧ r.resulted_fh = some fd.1) ↔
      Starts getenv fnmatch a path ∧ a.last = .ok (.exited 0)) ∧
    (r.retval = -1 → r.resulted_fh = none ∧ h'.fds ⊆ h.fds ∧ h'.children ⊆ h.children)

end Leaves

variable {getenv : Environ} {fnmatch : Str → Str → ℤ} {strerror : ℕ → Str} {h₀ h h' : Held}
  {a : Answers h} {path : Str} {r : Return} {turns child tmpf : ℕ}

/-! ## Running it -/

/-- What is returned after the last result of `waitpid`. -/
def verdict (tmpf : ℕ) : Except ℕ Final → Return
  | .error e => ⟨-1, none, some e⟩
  | .ok (.exited code) => if code = 0 then ⟨0, some tmpf, none⟩ else ⟨-1, none, some code⟩
  | .ok (.signaled _) => ⟨-1, none, some EIO⟩

/-- The loop passes over the pauses and ends with the last result, without closing the file. -/
theorem run_waitHelper (a : Answers h₀) (hchild : child ∈ h.children) {ps : List Pause}
    (hturns : ps.length < turns) :
    (waitHelper strerror child tmpf turns).run (answer a) (h, ps) =
      (some (verdict tmpf a.last), (h.waited child a.last, [])) := by
  induction turns generalizing ps with
  | zero => exact absurd hturns (Nat.not_lt_zero _)
  | succ turns ih =>
    cases ps with
    | cons p ps =>
      rw [waitHelper, Prog.run_call, answer, if_neg (not_not.2 hchild)]
      exact ih (Nat.lt_of_succ_lt_succ hturns)
    | nil =>
      rw [waitHelper, Prog.run_call, answer, if_neg (not_not.2 hchild)]
      cases a.last with
      | error e => rfl
      | ok f =>
        cases f with
        | signaled sig => rfl
        | exited code =>
          dsimp only [Except.map, verdict]
          split_ifs <;> rfl

theorem returns_of_not_wanted (hw : ¬ Wanted getenv fnmatch path) :
    Returns getenv fnmatch strerror a path ⟨0, none, none⟩ h := by
  intro turns _
  refine ⟨a.pauses, ?_⟩
  rw [openhelper]
  cases hcommand : getenv "OPENHELPER_COMMAND" with
  | none => rfl
  | some command =>
    cases hpattern : getenv "OPENHELPER_FNMATCH" with
    | none => rfl
    | some pattern =>
      have hne : fnmatch pattern path ≠ 0 := fun he => hw ⟨_, _, hcommand, hpattern, he⟩
      dsimp only
      rw [if_pos hne]
      rfl

theorem openhelper_of_wanted (hw : Wanted getenv fnmatch path) :
    openhelper getenv fnmatch strerror turns path = startHelper strerror turns := by
  obtain ⟨command, pattern, hcommand, hpattern, hmatch⟩ := hw
  rw [openhelper, hcommand, hpattern]
  exact if_neg (not_not.2 hmatch)

theorem returns_of_tmpfile_error {e : ℕ} (hw : Wanted getenv fnmatch path)
    (ht : a.tmpfile = .error e) :
    Returns getenv fnmatch strerror a path ⟨-1, none, some e⟩ h := by
  intro turns _
  refine ⟨a.pauses, ?_⟩
  rw [openhelper_of_wanted hw, startHelper, Prog.run_call, answer, ht]
  rfl

/-- The temporary file is closed when there is no helper. -/
theorem returns_of_fork_error {fd : {fd : ℕ // fd ∉ h.fds}} {e : ℕ}
    (hw : Wanted getenv fnmatch path) (ht : a.tmpfile = .ok fd) (hf : a.fork = .error e) :
    Returns getenv fnmatch strerror a path ⟨-1, none, some e⟩ h := by
  intro turns _
  refine ⟨a.pauses, ?_⟩
  rw [openhelper_of_wanted hw, startHelper, Prog.run_call, answer, ht]
  dsimp only
  rw [Prog.run_call, answer, hf]
  dsimp only [Prog.run_call, Prog.run_ret, answer]
  rw [Finset.erase_insert fd.2]

/-- After a `fork` the last result of `waitpid` decides, and the temporary file stays open. -/
theorem returns_of_started (strerror : ℕ → Str) {fd : {fd : ℕ // fd ∉ h.fds}}
    {pid : {pid : ℕ // pid ≠ 0 ∧ pid ∉ h.children}} (hw : Wanted getenv fnmatch path)
    (ht : a.tmpfile = .ok fd) (hf : a.fork = .ok pid) :
    Returns getenv fnmatch strerror a path (verdict fd.1 a.last)
      (Held.waited ⟨insert fd.1 h.fds, insert pid.1 h.children⟩ pid.1 a.last) := by
  intro turns hturns
  refine ⟨[], ?_⟩
  rw [openhelper_of_wanted hw, startHelper, Prog.run_call, answer, ht]
  dsimp only
  rw [Prog.run_call, answer, hf]
  exact run_waitHelper a (Finset.mem_insert_self _ _) hturns

/-! ## When nothing is left behind -/

theorem Returns.unique {r' : Return} {h'' : Held}
    (hr : Returns getenv fnmatch strerror a path r h')
    (hr' : Returns getenv fnmatch strerror a path r' h'') : r = r' ∧ h' = h'' := by
  obtain ⟨ps, hrun⟩ := hr _ (Nat.lt_succ_self _)
  obtain ⟨ps', hrun'⟩ := hr' _ (Nat.lt_succ_self _)
  cases hrun.symm.trans hrun'
  exact ⟨rfl, rfl⟩

theorem fds_waited (h : Held) (pid : ℕ) (last : Except ℕ Final) :
    (h.waited pid last).fds = h.fds := by
  cases last with
  | ok f => rfl
  | error e =>
    rw [Held.waited]
    split_ifs <;> rfl

theorem retval_verdict {last : Except ℕ Final} (hlast : last ≠ .ok (.exited 0)) :
    (verdict tmpf last).retval = -1 := by
  cases last with
  | error e => rfl
  | ok f =>
    cases f with
    | signaled sig => rfl
    | exited code =>
      have hcode : code ≠ 0 := fun hc => hlast (by rw [hc])
      rw [verdict, if_neg hcode]

/-- Without a helper the call returns with nothing more than before. -/
theorem cleansUp_of_not_starts {retval : ℤ} {errno : Option ℕ}
    (hs : ¬ Starts getenv fnmatch a path)
    (hr : Returns getenv fnmatch strerror a path ⟨retval, none, errno⟩ h) :
    CleansUp getenv fnmatch strerror a path := by
  refine ⟨_, _, hr, iff_of_false ?_ fun hh => hs hh.1, fun _ => ⟨rfl, subset_rfl, subset_rfl⟩⟩
  rintro ⟨fd, -, -, hfd⟩
  cases hfd

/-- A call cleans up unless a helper is started that does anything but exit with status 0. -/
theorem cleansUp_iff (getenv : Environ) (fnmatch : Str → Str → ℤ) (strerror : ℕ → Str) {h : Held}
    (a : Answers h) (path : Str) :
    CleansUp getenv fnmatch strerror a path ↔
      (Starts getenv fnmatch a path → a.last = .ok (.exited 0)) := by
  constructor
  · rintro ⟨r, h', hr, -, hfailed⟩ ⟨hw, ⟨fd, ht⟩, ⟨pid, hf⟩⟩
    obtain ⟨rfl, rfl⟩ := hr.unique (returns_of_started strerror hw ht hf)
    by_contra hlast
    obtain ⟨-, hfds, -⟩ := hfailed (retval_verdict hlast)
    rw [fds_waited] at hfds
    exact fd.2 (hfds (Finset.mem_insert_self _ _))
  · intro hlast
    by_cases hs : Starts getenv fnmatch a path
    · obtain ⟨hw, ⟨fd, ht⟩, ⟨pid, hf⟩⟩ := hs
      have hr := returns_of_started strerror hw ht hf
      rw [hlast ⟨hw, ⟨fd, ht⟩, ⟨pid, hf⟩⟩] at hr
      refine ⟨_, _, hr, ?_, fun hret => by cases hret⟩
      exact iff_of_true ⟨fd, ht, rfl, rfl⟩ ⟨⟨hw, ⟨fd, ht⟩, ⟨pid, hf⟩⟩, hlast ⟨hw, ⟨fd, ht⟩, ⟨pid, hf⟩⟩⟩
    · by_cases hw : Wanted getenv fnmatch path
      · cases ht : a.tmpfile with
        | error e => exact cleansUp_of_not_starts hs (returns_of_tmpfile_error hw ht)
        | ok fd =>
          cases hf : a.fork with
          | error e => exact cleansUp_of_not_starts hs (returns_of_fork_error hw ht hf)
          | ok pid => exact absurd ⟨hw, ⟨fd, ht⟩, ⟨pid, hf⟩⟩ hs
      · exact cleansUp_of_not_starts hs (returns_of_not_wanted hw)

/-- An intercepted call whose helper fails returns an error, and leaves the temporary file open. -/
theorem intercept_of_failed {req : Request} (hs : Starts getenv fnmatch a req.path)
    (hlast : a.last ≠ .ok (.exited 0)) (hturns : a.pauses.length < turns) :
    ∃ fd s, a.tmpfile = .ok fd ∧ fd.1 ∈ s.1.fds ∧
      (intercept getenv fnmatch strerror turns req).run (answer a) (h, a.pauses) =
        (some none, s) := by
  obtain ⟨hw, ⟨fd, ht⟩, ⟨pid, hf⟩⟩ := hs
  obtain ⟨ps, hrun⟩ := returns_of_started strerror hw ht hf turns hturns
  refine ⟨fd, (Held.waited ⟨insert fd.1 h.fds, insert pid.1 h.children⟩ pid.1 a.last, ps), ht, ?_, ?_⟩
  · rw [fds_waited]
    exact Finset.mem_insert_self _ _
  · rw [intercept, Prog.run_bind, hrun]
    dsimp only
    rw [retval_verdict hlast]
    rfl

namespace Sample

/-- A helper for every path. -/
def environ : Environ
  | "OPENHELPER_COMMAND" => some "cat".toList
  | "OPENHELPER_FNMATCH" => some "*".toList
  | _ => none

/-- A process with the three standard streams. -/
def held : Held := ⟨{0, 1, 2}, ∅⟩

/-- The helper is started, and its end is reported after it was stopped and continued. -/
def answers (last : Except ℕ Final) : Answers held where
  tmpfile := .ok ⟨3, by decide⟩
  fork := .ok ⟨100, by decide⟩
  pauses := [.stopped 19, .continued]
  last := last
  real _ := .error 2

end Sample

/-- A helper that exits with status 1 leaves its descriptor open, and a `waitpid` that is interrupted
by a signal leaves the helper as well. -/
theorem openhelper_leaks :
    ¬ CleansUp Sample.environ (fun _ _ => 0) (fun _ => []) (Sample.answers (.ok (.exited 1)))
        "/etc/passwd".toList ∧
      ¬ CleansUp Sample.environ (fun _ _ => 0) (fun _ => []) (Sample.answers (.error 4))
        "/etc/passwd".toList := by
  constructor
  · rintro ⟨r, h', hr, -, hfailed⟩
    obtain ⟨ps, hrun⟩ := hr 3 (by decide)
    cases hrun
    exact absurd (hfailed rfl).2.1 (by decide)
  · rintro ⟨r, h', hr, -, hfailed⟩
    obtain ⟨ps, hrun⟩ := hr 3 (by decide)
    cases hrun
    exact absurd (hfailed rfl).2.2 (by decide)

end YazzyPreload.Openhelper

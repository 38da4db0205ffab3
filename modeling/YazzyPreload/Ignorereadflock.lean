import YazzyPreload.Libc
import YazzyPreload.Program
import YazzyPreload.RecordLocks

/-!
# `ignore_read_flock.so`

A lock for reading that `F_SETLK` does not get is reported as got.  The system here is a number of
processes with the library that lock, unlock, open and close files in any order; `told` is what they
have got from what their calls returned.

Locks for writing still exclude each other (`writers_exclude`), and `told_exclusive_iff` says when
those for reading do as well.
-/

namespace YazzyPreload.Ignorereadflock

open Prog

/-! ## The function -/

/-- `l_type` of `struct flock`. -/
inductive LockType
  | rdlck
  | wrlck
  | unlck
  deriving DecidableEq

/-- What the lock is set to. -/
def LockType.mode : LockType → Option LockMode
  | rdlck => some .read
  | wrlck => some .write
  | unlck => none

/-- `struct flock`, with the bytes that `l_whence`, `l_start` and `l_len` stand for. -/
structure Flock where
  l_type : LockType
  range : ByteRange
  deriving DecidableEq

/-- `F_SETLK64` on a 64-bit machine, where it is `F_SETLK`. -/
def F_SETLK64 : ℤ := 6

/-- `F_SETLKW64`. -/
def F_SETLKW64 : ℤ := 7

def EAGAIN : ℕ := 11

inductive Call
  | orig_fcntl (fd cmd : ℤ) (arg : Option Flock)
  | readlink (path : Str)
  | warnx (line : Str)
  deriving DecidableEq

/-- The answer to a call.  An error is its number. -/
abbrev Call.Answer : Call → Type
  | orig_fcntl _ _ _ => Except ℕ ℤ
  | readlink _ => Except ℕ Str
  | warnx _ => Unit

/-- How a call ends: it returns, it follows a null pointer, or it stores before the start of `path`. -/
inductive Outcome
  | returned (result : Except ℕ ℤ)
  | segfault
  | overrun
  deriving DecidableEq

/-- The part of `fcntl` after the real one has returned. -/
def report (fd cmd : ℤ) (arg : Option Flock) (result : Except ℕ ℤ) : Prog Call Call.Answer Outcome :=
  if cmd ≠ F_SETLK64 then .ret (.returned result)
  else
    match arg with
    | none => .ret .segfault
    | some lk =>
      if lk.l_type = .rdlck ∧ result = .error EAGAIN then
        .call (.readlink ("/proc/self/fd/".toList ++ showInt fd)) fun
          -- the index is -1 then
          | .error _ => .ret .overrun
          | .ok path =>
            .call (.warnx (path.take 4095 ++ ": failed to acquire read lock, passing by".toList))
              fun _ => .ret (.returned (.ok 0))
      else .ret (.returned result)

/-- `fcntl`. -/
def fcntl (fd cmd : ℤ) (arg : Option Flock) : Prog Call Call.Answer Outcome :=
  .call (.orig_fcntl fd cmd arg) (report fd cmd arg)

/-! ## The system -/

section System

variable (P F : Type)

/-- The open files of the processes, and the locks. -/
structure Kernel where
  fds : P → ℤ → Option F
  locks : RecordLocks F P

/-- With `told`: the locks that the processes have by what they were told. -/
structure World where
  kernel : Kernel P F
  told : RecordLocks F P

/-- What a process does.  The library has one call in a `fcntl` that has to do with what is shared, so
that it is one step. -/
inductive Act
  | fcntl (p : P) (fd cmd : ℤ) (lk : Flock) (result : Except ℕ ℤ)
  | openFile (p : P) (fd : ℤ) (f : F)
  | close (p : P) (fd : ℤ)

end System

variable {P F : Type} [DecidableEq P] [DecidableEq F]

/-- The calls of a process.  A lock is set or refused; the call that waits has no answer while there is a
conflict.  The links in `/proc` are there. -/
inductive Sys (p : P) : System Call Call.Answer (Kernel P F)
  | granted {s : Kernel P F} {fd cmd : ℤ} {f : F} {lk : Flock}
      (hcmd : cmd = F_SETLK64 ∨ cmd = F_SETLKW64) (hf : s.fds p fd = some f)
      (hfree : ¬ s.locks.Conflict f p lk.range lk.l_type.mode) :
      Sys p s (.orig_fcntl fd cmd (some lk)) (.ok 0)
        { s with locks := s.locks.set f p lk.range lk.l_type.mode }
  | refused {s : Kernel P F} {fd : ℤ} {f : F} {lk : Flock} (hf : s.fds p fd = some f)
      (hconflict : s.locks.Conflict f p lk.range lk.l_type.mode) :
      Sys p s (.orig_fcntl fd F_SETLK64 (some lk)) (.error EAGAIN) s
  | failed {s : Kernel P F} {fd cmd : ℤ} {arg : Option Flock} {e : ℕ} (he : e ≠ EAGAIN) :
      Sys p s (.orig_fcntl fd cmd arg) (.error e) s
  | other {s : Kernel P F} {fd cmd : ℤ} {arg : Option Flock} {result : Except ℕ ℤ}
      (hcmd : cmd ≠ F_SETLK64) (hcmdw : cmd ≠ F_SETLKW64) :
      Sys p s (.orig_fcntl fd cmd arg) result s
  | readlink {s : Kernel P F} {path link : Str} : Sys p s (.readlink path) (.ok link) s
  | warnx {s : Kernel P F} {line : Str} : Sys p s (.warnx line) () s

/-- What a process has been told after a call: when it succeeds, that the lock is set. -/
def tell (w : World P F) (p : P) (fd cmd : ℤ) (lk : Flock) (result : Except ℕ ℤ) :
    RecordLocks F P :=
  match w.kernel.fds p fd with
  | none => w.told
  | some f =>
    if (cmd = F_SETLK64 ∨ cmd = F_SETLKW64) ∧ result = .ok 0 then
      w.told.set f p lk.range lk.l_type.mode
    else w.told

/-- One step of the system.  A process that closes a file gives up its locks on it. -/
inductive Step : World P F → Act P F → World P F → Prop
  | fcntl {w : World P F} {p : P} {fd cmd : ℤ} {lk : Flock} {es : List (Event Call Call.Answer (Kernel P F))}
      {result : Except ℕ ℤ} {s : Kernel P F}
      (hrun : Runs (Sys p) (fcntl fd cmd (some lk)) w.kernel es (.returned result) s) :
      Step w (.fcntl p fd cmd lk result) ⟨s, tell w p fd cmd lk result⟩
  | openFile {w : World P F} {p : P} {fd : ℤ} (f : F) (hfd : w.kernel.fds p fd = none) :
      Step w (.openFile p fd f) { w with kernel := { w.kernel with
        fds := Function.update w.kernel.fds p (Function.update (w.kernel.fds p) fd (some f)) } }
  | close {w : World P F} {p : P} {fd : ℤ} {f : F} (hfd : w.kernel.fds p fd = some f) :
      Step w (.close p fd) ⟨⟨Function.update w.kernel.fds p (Function.update (w.kernel.fds p) fd none),
        w.kernel.locks.clear f p⟩, w.told.clear f p⟩

/-- The steps of a run, each with the state it leads to. -/
def Trace (w : World P F) : List (Act P F × World P F) → Prop
  | [] => True
  | (a, w') :: t => Step w a w' ∧ Trace w' t

/-- A lock for reading is passed by: it is reported as got though another process is in the way. -/
def PassedBy (w : World P F) : Act P F → Prop
  | .fcntl p fd cmd lk result => cmd = F_SETLK64 ∧ lk.l_type = .rdlck ∧ result = .ok 0 ∧
      ∃ f, w.kernel.fds p fd = some f ∧ w.kernel.locks.Conflict f p lk.range (some .read)
  | _ => False

/-- No step of a run passes a lock by. -/
def NonePassedBy (w : World P F) : List (Act P F × World P F) → Prop
  | [] => True
  | (a, w') :: t => ¬ PassedBy w a ∧ NonePassedBy w' t

variable {w w' : World P F} {a : Act P F} {p q : P} {f : F} {fd cmd : ℤ} {lk : Flock}
  {s s' : Kernel P F} {es : List (Event Call Call.Answer (Kernel P F))} {result : Except ℕ ℤ}

/-! ## One step -/

theorem report_of_not_refused (h : ¬ (cmd = F_SETLK64 ∧ lk.l_type = .rdlck ∧ result = .error EAGAIN)) :
    report fd cmd (some lk) result = .ret (.returned result) := by
  unfold report
  by_cases hcmd : cmd = F_SETLK64
  · rw [if_neg (not_not.2 hcmd)]
    exact if_neg fun hrefused => h ⟨hcmd, hrefused⟩
  · rw [if_pos hcmd]

/-- A lock for reading that is refused is reported as got. -/
theorem runs_report_refused (hread : lk.l_type = .rdlck)
    (hrun : Runs (Sys p) (report fd F_SETLK64 (some lk) (.error EAGAIN)) s es (.returned result) s') :
    result = .ok 0 ∧ s' = s := by
  rw [report, if_neg (not_not.2 rfl), if_pos ⟨hread, rfl⟩] at hrun
  cases hrun with
  | call step rest =>
    cases step with
    | readlink =>
      cases rest with
      | call step rest =>
        cases step with
        | warnx =>
          cases rest
          exact ⟨rfl, rfl⟩

/-- The ways through `fcntl` with a lock. -/
theorem runs_fcntl (hrun : Runs (Sys p) (fcntl fd cmd (some lk)) s es (.returned result) s') :
    (∃ f, (cmd = F_SETLK64 ∨ cmd = F_SETLKW64) ∧ s.fds p fd = some f ∧
      ¬ s.locks.Conflict f p lk.range lk.l_type.mode ∧ result = .ok 0 ∧
      s' = { s with locks := s.locks.set f p lk.range lk.l_type.mode }) ∨
    (∃ f, cmd = F_SETLK64 ∧ lk.l_type = .rdlck ∧ s.fds p fd = some f ∧
      s.locks.Conflict f p lk.range (some .read) ∧ result = .ok 0 ∧ s' = s) ∨
    s' = s ∧ ((∃ e, result = .error e) ∨ cmd ≠ F_SETLK64 ∧ cmd ≠ F_SETLKW64) := by
  rw [fcntl] at hrun
  cases hrun with
  | call step rest =>
    cases step with
    | granted hcmd hf hfree =>
      rw [report_of_not_refused fun h => (by cases h.2.2)] at rest
      cases rest
      exact Or.inl ⟨_, hcmd, hf, hfree, rfl, rfl⟩
    | refused hf hconflict =>
      by_cases hread : lk.l_type = .rdlck
      · obtain ⟨rfl, rfl⟩ := runs_report_refused hread rest
        rw [hread] at hconflict
        exact Or.inr (Or.inl ⟨_, rfl, hread, hf, hconflict, rfl, rfl⟩)
      · rw [report_of_not_refused fun h => hread h.2.1] at rest
        cases rest
        exact Or.inr (Or.inr ⟨rfl, Or.inl ⟨_, rfl⟩⟩)
    | failed he =>
      rw [report_of_not_refused fun h => he (Except.error.inj h.2.2)] at rest
      cases rest
      exact Or.inr (Or.inr ⟨rfl, Or.inl ⟨_, rfl⟩⟩)
    | other hcmd hcmdw =>
      rw [report_of_not_refused fun h => hcmd h.1] at rest
      cases rest
      exact Or.inr (Or.inr ⟨rfl, Or.inr ⟨hcmd, hcmdw⟩⟩)

/-- What one step does to the locks, and to what the processes have been told. -/
theorem step_cases (h : Step w a w') :
    ¬ PassedBy w a ∧
      (w'.kernel.locks = w.kernel.locks ∧ w'.told = w.told ∨
      (∃ f p r m, ¬ w.kernel.locks.Conflict f p r m ∧
        w'.kernel.locks = w.kernel.locks.set f p r m ∧ w'.told = w.told.set f p r m) ∨
      ∃ f p, w'.kernel.locks = w.kernel.locks.clear f p ∧ w'.told = w.told.clear f p) ∨
    PassedBy w a ∧ ∃ f p r, w.kernel.locks.Conflict f p r (some .read) ∧
      w'.kernel.locks = w.kernel.locks ∧ w'.told = w.told.set f p r (some .read) := by
  cases h with
  | openFile f hfd => exact Or.inl ⟨id, Or.inl ⟨rfl, rfl⟩⟩
  | close hfd => exact Or.inl ⟨id, Or.inr (Or.inr ⟨_, _, rfl, rfl⟩)⟩
  | @fcntl p fd cmd lk es result s hrun =>
    rcases runs_fcntl hrun with ⟨f, hcmd, hf, hfree, rfl, rfl⟩ | ⟨f, rfl, hread, hf, hconflict, rfl, rfl⟩ |
      ⟨rfl, hres⟩
    · refine Or.inl ⟨?_, Or.inr (Or.inl ⟨f, p, lk.range, lk.l_type.mode, hfree, rfl, ?_⟩)⟩
      · rintro ⟨-, hread, -, f', hf', hconflict⟩
        cases hf.symm.trans hf'
        rw [hread] at hfree
        exact hfree hconflict
      · rw [tell, hf]
        exact if_pos ⟨hcmd, rfl⟩
    · refine Or.inr ⟨⟨rfl, hread, rfl, f, hf, hconflict⟩, f, p, lk.range, hconflict, rfl, ?_⟩
      rw [tell, hf, hread]
      dsimp only
      rw [if_pos ⟨Or.inl rfl, rfl⟩]
      rfl
    · have hno : ¬ ((cmd = F_SETLK64 ∨ cmd = F_SETLKW64) ∧ result = .ok 0) := by
        rintro ⟨hcmd, rfl⟩
        rcases hres with ⟨e, he⟩ | ⟨hne, hnew⟩
        · cases he
        · exact hcmd.elim hne hnew
      refine Or.inl ⟨fun hp => hno ⟨Or.inl hp.1, hp.2.2.1⟩, Or.inl ⟨rfl, ?_⟩⟩
      rw [tell]
      cases w.kernel.fds p fd with
      | none => rfl
      | some f => exact if_neg hno

/-! ## Runs -/

/-- The processes with their open files, and without locks. -/
def World.initial (fds : P → ℤ → Option F) : World P F :=
  ⟨⟨fds, fun _ _ _ => none⟩, fun _ _ _ => none⟩

/-- The locks exclude each other, and what the processes have been told goes beyond them in locks for
reading only. -/
structure Sound (w : World P F) : Prop where
  exclusive : w.kernel.locks.Exclusive
  overstates : w.kernel.locks.Overstates w.told

omit [DecidableEq P] [DecidableEq F] in
theorem sound_initial (fds : P → ℤ → Option F) : Sound (World.initial fds) :=
  ⟨fun _ _ _ _ _ _ => rfl, RecordLocks.Overstates.refl _⟩

theorem Sound.step (hw : Sound w) (h : Step w a w') : Sound w' := by
  obtain ⟨hex, hover⟩ := hw
  rcases step_cases h with ⟨-, ⟨hl, ht⟩ | ⟨f, p, r, m, hfree, hl, ht⟩ | ⟨f, p, hl, ht⟩⟩ |
    ⟨-, f, p, r, -, hl, ht⟩ <;> refine ⟨?_, ?_⟩ <;> rw [hl]
  · exact hex
  · rwa [ht]
  · exact hex.set hfree
  · rw [ht]
    exact hover.set f p r m
  · exact hex.clear f p
  · rw [ht]
    exact hover.clear f p
  · exact hex
  · rw [ht]
    exact hover.set_read f p r

theorem Sound.trace {t : List (Act P F × World P F)} (hw : Sound w) (ht : Trace w t) :
    ∀ x ∈ t, Sound x.2 := by
  induction t generalizing w with
  | nil => exact fun x hx => absurd hx List.not_mem_nil
  | cons x t ih =>
    have hx := hw.step ht.1
    exact List.forall_mem_cons.2 ⟨hx, ih hx ht.2⟩

/-- No two processes are told, at any time, that they have a byte locked for writing. -/
theorem writers_exclude (fds : P → ℤ → Option F) {t : List (Act P F × World P F)}
    (ht : Trace (World.initial fds) t) : ∀ x ∈ t, ∀ f p q b, x.2.told f p b = some .write →
      x.2.told f q b = some .write → p = q := by
  intro x hx f p q b hp hq
  obtain ⟨hex, hover⟩ := (sound_initial fds).trace ht x hx
  exact hex.unique (hover.write hp) (hover.write hq)

namespace Sample

/-- Both processes have the file open as descriptor 3. -/
def files : Bool → ℤ → Option Unit := fun _ fd => if fd = 3 then some () else none

def whole (t : LockType) : Flock := ⟨t, ⟨0, 0⟩⟩

/-- The first process locks the file for writing. -/
def locked : World Bool Unit :=
  let locks := RecordLocks.set (fun _ _ _ => none) () false ⟨0, 0⟩ (some .write)
  ⟨⟨files, locks⟩, locks⟩

/-- The second one is told that it has a lock for reading. -/
def passed : World Bool Unit :=
  { locked with told := locked.told.set () true ⟨0, 0⟩ (some .read) }

def run : List (Act Bool Unit × World Bool Unit) :=
  [(.fcntl false 3 F_SETLK64 (whole .wrlck) (.ok 0), locked),
    (.fcntl true 3 F_SETLK64 (whole .rdlck) (.ok 0), passed)]

theorem conflict_locked :
    locked.kernel.locks.Conflict () true ⟨0, 0⟩ (some .read) :=
  ⟨false, 0, .write, by decide, by decide, by decide, Or.inr ⟨rfl, rfl⟩⟩

theorem trace_run : Trace (World.initial files) run := by
  refine ⟨?_, ?_, trivial⟩
  · refine Step.fcntl (.call (.granted (Or.inl rfl) (f := ()) rfl ?_) (.ret _ _))
    rintro ⟨q, b, m, -, -, h, -⟩
    cases h
  · exact Step.fcntl (.call (.refused rfl conflict_locked)
      (.call (@Sys.readlink _ _ _ _ _ _ _ []) (.call .warnx (.ret _ _))))

end Sample

theorem writers_exclude_run : Sample.passed.told () false 0 = some .write ∧
    Sample.passed.told () true 0 ≠ some .write := by
  have hwrite : Sample.passed.told () false 0 = some .write := by decide
  refine ⟨hwrite, fun h => ?_⟩
  have heq := writers_exclude Sample.files Sample.trace_run _ (List.mem_of_getLast? rfl) () false
    true 0 hwrite h
  cases heq

/-- Without a lock that is passed by, a step keeps what the processes have been told right. -/
theorem told_eq_of_step (h : Step w a w') (hp : ¬ PassedBy w a) (ht : w.told = w.kernel.locks) :
    w'.told = w'.kernel.locks := by
  rcases step_cases h with ⟨-, ⟨hl', ht'⟩ | ⟨f, p, r, m, -, hl', ht'⟩ | ⟨f, p, hl', ht'⟩⟩ | ⟨hp', -⟩
  · rw [hl', ht', ht]
  · rw [hl', ht', ht]
  · rw [hl', ht', ht]
  · exact absurd hp' hp

/-- The first lock that is passed by is one that does not go with another. -/
theorem not_exclusive_of_passedBy (h : Step w a w') (hp : PassedBy w a)
    (ht : w.told = w.kernel.locks) : ¬ w'.told.Exclusive := by
  rcases step_cases h with ⟨hp', -⟩ | ⟨-, f, p, r, ⟨q, b, m, hne, hcov, hq, hm⟩, -, ht'⟩
  · exact absurd hp hp'
  · obtain rfl : m = .write := hm.elim (fun hm => by cases hm) fun hm => hm.2
    intro hex
    have hwrite : w'.told f q b = some .write := by
      rw [ht', ht, RecordLocks.set, if_neg fun hcase => hne hcase.2.1, hq]
    have hread : w'.told f p b = some .read := by rw [ht', RecordLocks.set_of_covers _ _ _ _ hcov]
    rw [hex f q p b hne hwrite] at hread
    cases hread

/-- The locks that the processes have been told of exclude each other at any time if and only if no
lock is passed by. -/
theorem told_exclusive_iff (fds : P → ℤ → Option F) {t : List (Act P F × World P F)}
    (ht : Trace (World.initial fds) t) :
    (∀ x ∈ t, x.2.told.Exclusive) ↔ NonePassedBy (World.initial fds) t := by
  suffices h : ∀ w : World P F, Sound w → w.told = w.kernel.locks → Trace w t →
      ((∀ x ∈ t, x.2.told.Exclusive) ↔ NonePassedBy w t) from
    h _ (sound_initial fds) rfl ht
  clear ht
  induction t with
  | nil => exact fun w _ _ _ => iff_of_true (fun x hx => absurd hx List.not_mem_nil) trivial
  | cons x t ih =>
    obtain ⟨a, w'⟩ := x
    intro w hw htold ht
    rw [List.forall_mem_cons]
    by_cases hp : PassedBy w a
    · exact iff_of_false (fun h => not_exclusive_of_passedBy ht.1 hp htold h.1) fun h => h.1 hp
    · have htold' := told_eq_of_step ht.1 hp htold
      have hw' := hw.step ht.1
      rw [ih w' hw' htold' ht.2]
      exact ⟨fun h => ⟨hp, h.2⟩, fun h => ⟨htold' ▸ hw'.exclusive, h.2⟩⟩

theorem told_exclusive_iff_run : ¬ ∀ x ∈ Sample.run, x.2.told.Exclusive := by
  rw [told_exclusive_iff Sample.files Sample.trace_run]
  exact fun h => h.2.1 ⟨rfl, rfl, rfl, (), rfl, Sample.conflict_locked⟩

end YazzyPreload.Ignorereadflock

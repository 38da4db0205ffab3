import YazzyPreload.Autossl.Connect
import YazzyPreload.OpenFiles
import YazzyPreload.Program

/-!
# The socket pairs of `autossl.so`

`connect` duplicates its end of a socket pair to the caller's socket, and does not close the first
descriptor of it.  So the process has a descriptor more than the caller knows of for each connection
that was upgraded, and two for each one whose `fork` has failed (`card_fds_after`).

Two consequences: the TLS program does not see the end of its input while the process runs
(`upgraded_stays_open`), and at some point no connection is upgraded any more (`visits_upgraded`).
-/

namespace YazzyPreload.Autossl

/-! ## The system calls -/

/-- The system calls of `connect` in the process that calls it. -/
inductive Call
  | socketpair
  | fork
  | close (fd : ℕ)
  | dup2 (oldfd : ℕ) (newfd : ℤ)
  deriving DecidableEq

/-- The answer to a call.  A call that fails gives the text of its error. -/
abbrev Call.Answer : Call → Type
  | socketpair => Except Str (ℕ × ℕ)
  | fork => Except Str Unit
  | close _ => Unit
  | dup2 _ _ => Except Str Unit

section Calls

variable (getenv : Environ) (sockfd : ℤ) (orig_sockaddr : SockaddrIn) (addrlen : ℕ)

/-- `upgrade` with the calls that it makes. -/
def upgradeCalls : Prog Call Call.Answer Outcome :=
  let error_case := errorCase getenv sockfd orig_sockaddr addrlen
  match getenv "AUTOSSL_TLS_CMD" with
  | none => .ret ⟨[], none, .orig_connect sockfd orig_sockaddr addrlen⟩
  | some tls_cmd =>
    .call .socketpair fun
      | .error e => .ret ⟨[perror "autossl: sockpair".toList e], none, error_case⟩
      | .ok sockpair =>
        .call .fork fun
          | .error e => .ret ⟨[perror "autossl: fork".toList e], none, error_case⟩
          | .ok _ =>
            let child := tlsArgs orig_sockaddr tls_cmd
            .call (.close sockpair.2) fun _ =>
            .call (.dup2 sockpair.1 sockfd) fun
              | .error e =>
                .call (.close sockpair.1) fun _ =>
                .ret ⟨[perror "autossl: dup2".toList e], some child, error_case⟩
              | .ok _ =>
                let note := "autossl: redirecting ".toList ++ showAddr orig_sockaddr ++
                  " -> fd#".toList ++ Nat.toDigits 10 sockpair.1
                .ret ⟨if getenv "AUTOSSL_SILENT" = none then [note] else [], some child, .success⟩

/-- `checkIps` with the calls that it makes. -/
def checkIpsCalls : Prog Call Call.Answer Outcome :=
  match getenv "AUTOSSL_UPGRADE_IPS" with
  | none => upgradeCalls getenv sockfd orig_sockaddr addrlen
  | some upgrade_ip_str =>
    match scan inetAton orig_sockaddr.sin_addr (rests ' ' upgrade_ip_str) with
    | .malformed s =>
      .ret ⟨["autossl: failed to parse ip address '".toList ++ entry ' ' s ++ "'".toList], none,
        errorCase getenv sockfd orig_sockaddr addrlen⟩
    | .missing => .ret ⟨[], none, .orig_connect sockfd orig_sockaddr addrlen⟩
    | .found => upgradeCalls getenv sockfd orig_sockaddr addrlen

/-- `connect` with the calls that it makes. -/
def connectCalls : Prog Call Call.Answer Outcome :=
  if orig_sockaddr.sin_family ≠ AF_INET then
    .ret ⟨[], none, .orig_connect sockfd orig_sockaddr addrlen⟩
  else
    match getenv "AUTOSSL_UPGRADE_PORTS" with
    | none => .ret ⟨[], none, .orig_connect sockfd orig_sockaddr addrlen⟩
    | some upgrade_port_str =>
      match scan readPort orig_sockaddr.sin_port (rests ' ' upgrade_port_str) with
      | .malformed s =>
        .ret ⟨["autossl: failed to parse port number(s): ".toList ++ s], none,
          errorCase getenv sockfd orig_sockaddr addrlen⟩
      | .missing => .ret ⟨[], none, .orig_connect sockfd orig_sockaddr addrlen⟩
      | .found => checkIpsCalls getenv sockfd orig_sockaddr addrlen

end Calls

section Answers

variable {S : Type} (h : Handler Call Call.Answer S) (s : S) (sockfd : ℤ)

/-- The answers that a system gives to the calls. -/
def answersOf : Answers where
  socketpair := (h .socketpair s).1
  fork := (h .fork (h .socketpair s).2).1
  dup2 :=
    match (h .socketpair s).1 with
    | .error e => .error e
    | .ok sockpair =>
      (h (.dup2 sockpair.1 sockfd) (h (.close sockpair.2) (h .fork (h .socketpair s).2).2).2).1

theorem run_upgradeCalls (getenv : Environ) (addr : SockaddrIn) (addrlen : ℕ) :
    ((upgradeCalls getenv sockfd addr addrlen).run h s).1 =
      upgrade getenv (answersOf h s sockfd) sockfd addr addrlen := by
  unfold upgradeCalls upgrade answersOf
  cases getenv "AUTOSSL_TLS_CMD" with
  | none => rfl
  | some tls_cmd =>
    dsimp only
    rw [Prog.run_call]
    cases (h .socketpair s).1 with
    | error e => rfl
    | ok sockpair =>
      dsimp only
      rw [Prog.run_call]
      cases (h .fork (h .socketpair s).2).1 with
      | error e => rfl
      | ok _ =>
        dsimp only
        rw [Prog.run_call, Prog.run_call]
        cases (h (.dup2 sockpair.1 sockfd)
            (h (.close sockpair.2) (h .fork (h .socketpair s).2).2).2).1 with
        | error e => rfl
        | ok _ => rfl

/-- With the answers of the system the outcome is that of `connect`. -/
theorem run_connectCalls (getenv : Environ) (addr : SockaddrIn) (addrlen : ℕ) :
    ((connectCalls getenv sockfd addr addrlen).run h s).1 =
      connect getenv (answersOf h s sockfd) sockfd addr addrlen := by
  have hips : ((checkIpsCalls getenv sockfd addr addrlen).run h s).1 =
      checkIps getenv (answersOf h s sockfd) sockfd addr addrlen := by
    unfold checkIpsCalls checkIps
    cases getenv "AUTOSSL_UPGRADE_IPS" with
    | none => exact run_upgradeCalls h s sockfd getenv addr addrlen
    | some upgrade_ip_str =>
      dsimp only
      cases scan inetAton addr.sin_addr (rests ' ' upgrade_ip_str) with
      | found => exact run_upgradeCalls h s sockfd getenv addr addrlen
      | _ => rfl
  unfold connectCalls connect
  split_ifs with hf
  · rfl
  · cases getenv "AUTOSSL_UPGRADE_PORTS" with
    | none => rfl
    | some upgrade_port_str =>
      dsimp only
      cases scan readPort addr.sin_port (rests ' ' upgrade_port_str) with
      | found => exact hips
      | _ => rfl

end Answers

/-! ## The process -/

/-- An open file of the process: one that the caller has opened, or an end of a socket pair. -/
inductive File
  | own
  | near (pair : ℕ)
  | far (pair : ℕ)
  deriving DecidableEq

/-- The open files of a process, and the number of socket pairs that it has got. -/
structure Kernel (limit : ℕ) where
  files : OpenFiles File limit
  pairs : ℕ

/-- The calls that fail whatever is open. -/
structure Errors where
  socketpair : Option Str
  fork : Option Str

/-- No call fails but for want of descriptors. -/
def Errors.none : Errors := ⟨.none, .none⟩

/-- The system calls on the open files. -/
def kernel {limit : ℕ} (errors : Errors) : Handler Call Call.Answer (Kernel limit)
  | .socketpair, s =>
    match errors.socketpair with
    | some e => (.error e, s)
    | none =>
      match s.files.openPair (.near s.pairs) (.far s.pairs) with
      | none => (.error "Too many open files".toList, s)
      | some ((near, far), files) => (.ok (near.val, far.val), ⟨files, s.pairs + 1⟩)
  | .fork, s =>
    match errors.fork with
    | some e => (.error e, s)
    | none => (.ok (), s)
  | .close fd, s =>
    match OpenFiles.number limit fd with
    | none => ((), s)
    | some fd => ((), { s with files := s.files.close fd })
  | .dup2 oldfd newfd, s =>
    match (OpenFiles.number limit oldfd).bind fun oldfd =>
      (OpenFiles.number limit newfd).bind (s.files.dup2 oldfd) with
    | none => (.error "Bad file descriptor".toList, s)
    | some files => (.ok (), { s with files := files })

/-- A program that opens files, connects sockets and closes what it has opened; `own` are the
descriptors that it has got. -/
structure Caller (limit : ℕ) where
  kernel : Kernel limit
  own : Finset (Fin limit)

namespace Caller

variable {limit : ℕ}

/-- What the program does. -/
inductive Op (limit : ℕ)
  | socket
  | close (fd : Fin limit)
  | connect (fd : Fin limit) (addr : SockaddrIn) (addrlen : ℕ) (errors : Errors)

/-- An intercepted `connect`: the outcome, and the calls that were made. -/
structure Report where
  outcome : Outcome
  calls : List Call

/-- The connection was upgraded. -/
def Report.upgraded (r : Report) : Bool := decide (r.outcome.ends = .success)

/-- The last of the calls is `fork`: it has failed. -/
def Report.forkFailed (r : Report) : Bool := decide (r.calls.getLast? = some .fork)

section Run

variable (getenv : Environ)

/-- `connect` on a socket of the program. -/
def intercepted (fd : Fin limit) (addr : SockaddrIn) (addrlen : ℕ) (errors : Errors)
    (s : Kernel limit) : Report × Kernel limit :=
  let p := connectCalls getenv fd.val addr addrlen
  (⟨(p.run (Autossl.kernel errors) s).1, p.calls (Autossl.kernel errors) s⟩,
    (p.run (Autossl.kernel errors) s).2)

/-- One step of the program, on descriptors of its own. -/
def step : Op limit → Caller limit → Option Report × Caller limit
  | .socket, c =>
    match c.kernel.files.openFile .own with
    | none => (none, c)
    | some (fd, files) => (none, ⟨{ c.kernel with files := files }, insert fd c.own⟩)
  | .close fd, c =>
    if fd ∈ c.own then
      (none, ⟨{ c.kernel with files := c.kernel.files.close fd }, c.own.erase fd⟩)
    else (none, c)
  | .connect fd addr addrlen errors, c =>
    if fd ∈ c.own then
      let (r, s) := intercepted getenv fd addr addrlen errors c.kernel
      (some r, ⟨s, c.own⟩)
    else (none, c)

/-- The program after some steps. -/
def after (ops : List (Op limit)) (c : Caller limit) : Caller limit :=
  ops.foldl (fun c op => (step getenv op c).2) c

/-- The intercepted calls of some steps. -/
def reports : List (Op limit) → Caller limit → List Report
  | [], _ => []
  | op :: ops, c => (step getenv op c).1.toList ++ reports ops (step getenv op c).2

end Run

variable {getenv : Environ} {fd : Fin limit} {addr : SockaddrIn} {addrlen : ℕ} {errors : Errors}
  {s : Kernel limit} {c : Caller limit}

/-! ## One call -/

/-- Both scans come to the destination, and there is a TLS command. -/
structure Wanted (getenv : Environ) (addr : SockaddrIn) : Prop where
  family : addr.sin_family = AF_INET
  port : ∃ s, getenv "AUTOSSL_UPGRADE_PORTS" = some s ∧
    scan readPort addr.sin_port (rests ' ' s) = .found
  ip : ∀ s, getenv "AUTOSSL_UPGRADE_IPS" = some s →
    scan inetAton addr.sin_addr (rests ' ' s) = .found
  cmd : (getenv "AUTOSSL_TLS_CMD").isSome = true

theorem errorCase_ne_success (getenv : Environ) (sockfd : ℤ) (addr : SockaddrIn) (addrlen : ℕ) :
    errorCase getenv sockfd addr addrlen ≠ .success := by
  unfold errorCase
  cases getenv "AUTOSSL_ERRNO" <;> exact fun h => by cases h

theorem connectCalls_of_wanted (h : Wanted getenv addr) (sockfd : ℤ) (addrlen : ℕ) :
    connectCalls getenv sockfd addr addrlen = upgradeCalls getenv sockfd addr addrlen := by
  obtain ⟨ports, hports, hscan⟩ := h.port
  rw [connectCalls, if_neg (not_not.2 h.family), hports]
  dsimp only
  rw [hscan]
  unfold checkIpsCalls
  cases hips : getenv "AUTOSSL_UPGRADE_IPS" with
  | none => rfl
  | some ips =>
    dsimp only
    rw [h.ip ips hips]

/-- Without a match there are no calls, and the connection is not upgraded. -/
theorem connectCalls_of_not_wanted (h : ¬ Wanted getenv addr) (sockfd : ℤ) (addrlen : ℕ) :
    ∃ o : Outcome, connectCalls getenv sockfd addr addrlen = .ret o ∧ o.ends ≠ .success := by
  have herr := errorCase_ne_success getenv sockfd addr addrlen
  have hpass : Ends.orig_connect sockfd addr addrlen ≠ .success := fun he => by cases he
  unfold connectCalls
  split_ifs with hf
  · exact ⟨_, rfl, hpass⟩
  rw [not_not] at hf
  cases hports : getenv "AUTOSSL_UPGRADE_PORTS" with
  | none => exact ⟨_, rfl, hpass⟩
  | some ports =>
    dsimp only
    cases hscan : scan readPort addr.sin_port (rests ' ' ports) with
    | malformed => exact ⟨_, rfl, herr⟩
    | missing => exact ⟨_, rfl, hpass⟩
    | found =>
      dsimp only
      unfold checkIpsCalls upgradeCalls
      cases hcmd : getenv "AUTOSSL_TLS_CMD" with
      | none =>
        cases getenv "AUTOSSL_UPGRADE_IPS" with
        | none => exact ⟨_, rfl, hpass⟩
        | some ips =>
          dsimp only
          cases scan inetAton addr.sin_addr (rests ' ' ips) with
          | malformed => exact ⟨_, rfl, herr⟩
          | _ => exact ⟨_, rfl, hpass⟩
      | some cmd =>
        have hip : ¬ ∀ s, getenv "AUTOSSL_UPGRADE_IPS" = some s →
            scan inetAton addr.sin_addr (rests ' ' s) = .found :=
          fun hip => h ⟨hf, ⟨ports, hports, hscan⟩, hip, by rw [hcmd]; rfl⟩
        push Not at hip
        obtain ⟨ips, hips, hne⟩ := hip
        rw [hips]
        dsimp only
        cases hscan' : scan inetAton addr.sin_addr (rests ' ' ips) with
        | malformed => exact ⟨_, rfl, herr⟩
        | missing => exact ⟨_, rfl, hpass⟩
        | found => exact absurd hscan' hne

/-- A socket pair is two more descriptors, or there is none. -/
theorem kernel_socketpair (errors : Errors) (s : Kernel limit) :
    (∃ e, Autossl.kernel errors .socketpair s = (.error e, s)) ∨
    ∃ a b t, s.files.openPair (.near s.pairs) (.far s.pairs) = some ((a, b), t) ∧
      Autossl.kernel errors .socketpair s = (.ok (a.val, b.val), ⟨t, s.pairs + 1⟩) := by
  rw [Autossl.kernel]
  cases errors.socketpair with
  | some e => exact Or.inl ⟨e, rfl⟩
  | none =>
    cases hpair : s.files.openPair (.near s.pairs) (.far s.pairs) with
    | none => exact Or.inl ⟨_, rfl⟩
    | some x =>
      obtain ⟨⟨a, b⟩, t⟩ := x
      exact Or.inr ⟨a, b, t, rfl, rfl⟩

section Wanted

variable (hw : Wanted getenv addr) (addrlen : ℕ)

include hw

/-- Without a socket pair there is nothing else. -/
theorem intercepted_of_unpaired {e : Str}
    (hpair : Autossl.kernel errors .socketpair s = (.error e, s)) :
    intercepted getenv fd addr addrlen errors s =
      (⟨⟨[perror "autossl: sockpair".toList e], none, errorCase getenv fd.val addr addrlen⟩,
        [.socketpair]⟩, s) := by
  obtain ⟨cmd, hcmd⟩ := Option.isSome_iff_exists.1 hw.cmd
  rw [intercepted, connectCalls_of_wanted hw, upgradeCalls, hcmd]
  dsimp only
  rw [Prog.run_call, Prog.calls_call, hpair]
  rfl

variable {a b : Fin limit} {t : OpenFiles File limit}
  (hpair : Autossl.kernel errors .socketpair s = (.ok (a.val, b.val), ⟨t, s.pairs + 1⟩))

include hpair

/-- Both ends stay open after a `fork` that fails. -/
theorem intercepted_of_unforked {e : Str} (hfork : errors.fork = some e) :
    intercepted getenv fd addr addrlen errors s =
      (⟨⟨[perror "autossl: fork".toList e], none, errorCase getenv fd.val addr addrlen⟩,
        [.socketpair, .fork]⟩, ⟨t, s.pairs + 1⟩) := by
  obtain ⟨cmd, hcmd⟩ := Option.isSome_iff_exists.1 hw.cmd
  have hfail : Autossl.kernel errors .fork (⟨t, s.pairs + 1⟩ : Kernel limit) =
      (.error e, ⟨t, s.pairs + 1⟩) := by
    rw [Autossl.kernel, hfork]
  rw [intercepted, connectCalls_of_wanted hw, upgradeCalls, hcmd]
  dsimp only
  rw [Prog.run_call, Prog.calls_call, hpair]
  dsimp only
  rw [Prog.run_call, Prog.calls_call, hfail]
  rfl

/-- The near end is open twice after an upgrade. -/
theorem intercepted_of_forked
    (hopen : s.files.openPair (.near s.pairs) (.far s.pairs) = some ((a, b), t))
    (hfork : errors.fork = none) : ∃ stderr child,
    intercepted getenv fd addr addrlen errors s =
      (⟨⟨stderr, some child, .success⟩,
        [.socketpair, .fork, .close b.val, .dup2 a.val fd.val]⟩,
        ⟨(t.close b).install fd (.near s.pairs), s.pairs + 1⟩) := by
  obtain ⟨cmd, hcmd⟩ := Option.isSome_iff_exists.1 hw.cmd
  have hok : Autossl.kernel errors .fork (⟨t, s.pairs + 1⟩ : Kernel limit) =
      (.ok (), ⟨t, s.pairs + 1⟩) := by
    rw [Autossl.kernel, hfork]
  have hclose : Autossl.kernel errors (.close b.val) (⟨t, s.pairs + 1⟩ : Kernel limit) =
      ((), ⟨t.close b, s.pairs + 1⟩) := by
    rw [Autossl.kernel, OpenFiles.number_val]
  have hnear : (t.close b).file a = some (.near s.pairs) := by
    obtain ⟨-, -, hne, rfl⟩ := OpenFiles.openPair_eq_some hopen
    rw [OpenFiles.close_file_of_ne hne.symm, OpenFiles.install_file_of_ne hne.symm,
      OpenFiles.install_file_self]
  have hdup : Autossl.kernel errors (.dup2 a.val fd.val)
      (⟨t.close b, s.pairs + 1⟩ : Kernel limit) =
      (.ok (), ⟨(t.close b).install fd (.near s.pairs), s.pairs + 1⟩) := by
    rw [Autossl.kernel, OpenFiles.number_val, OpenFiles.number_val, Option.bind_some,
      Option.bind_some, OpenFiles.dup2, hnear]
    rfl
  rw [intercepted, connectCalls_of_wanted hw, upgradeCalls, hcmd]
  dsimp only
  rw [Prog.run_call, Prog.calls_call, hpair]
  dsimp only
  rw [Prog.run_call, Prog.calls_call, hok]
  dsimp only
  rw [Prog.run_call, Prog.calls_call, hclose]
  dsimp only
  rw [Prog.run_call, Prog.calls_call, hdup]
  exact ⟨_, _, rfl⟩

end Wanted

/-- What the ways through `connect` do to the open files. -/
theorem intercepted_cases (getenv : Environ) (fd : Fin limit) (addr : SockaddrIn) (addrlen : ℕ)
    (errors : Errors) (s : Kernel limit) :
    let (r, s') := intercepted getenv fd addr addrlen errors s
    (s' = s ∧ r.upgraded = false ∧ r.forkFailed = false) ∨
    ∃ a b t, s.files.openPair (.near s.pairs) (.far s.pairs) = some ((a, b), t) ∧
      (s' = ⟨t, s.pairs + 1⟩ ∧ r.upgraded = false ∧ r.forkFailed = true ∨
        s' = ⟨(t.close b).install fd (.near s.pairs), s.pairs + 1⟩ ∧ r.upgraded = true ∧
          r.forkFailed = false) := by
  have herr := errorCase_ne_success getenv fd.val addr addrlen
  by_cases hw : Wanted getenv addr
  · rcases kernel_socketpair errors s with ⟨e, hpair⟩ | ⟨a, b, t, hopen, hpair⟩
    · rw [intercepted_of_unpaired hw addrlen hpair]
      exact Or.inl ⟨rfl, decide_eq_false herr, rfl⟩
    · cases hfork : errors.fork with
      | some e =>
        rw [intercepted_of_unforked hw addrlen hpair hfork]
        exact Or.inr ⟨a, b, t, hopen, Or.inl ⟨rfl, decide_eq_false herr, rfl⟩⟩
      | none =>
        obtain ⟨stderr, child, h⟩ := intercepted_of_forked hw addrlen hpair hopen hfork
        rw [h]
        exact Or.inr ⟨a, b, t, hopen, Or.inr ⟨rfl, rfl, rfl⟩⟩
  · obtain ⟨o, ho, hends⟩ := connectCalls_of_not_wanted hw fd.val addrlen
    rw [intercepted, ho]
    exact Or.inl ⟨rfl, decide_eq_false hends, rfl⟩

/-! ## What is left open -/

/-- The descriptors that are open and that the program has not got. -/
def leaked (c : Caller limit) : Finset (Fin limit) := c.kernel.files.fds \ c.own

/-- What the program has got is open. -/
def Sound (c : Caller limit) : Prop := c.own ⊆ c.kernel.files.fds

/-- The descriptors that calls have cost. -/
def cost (rs : List Report) : ℕ := rs.countP Report.upgraded + 2 * rs.countP Report.forkFailed

theorem cost_append (rs rs' : List Report) : cost (rs ++ rs') = cost rs + cost rs' := by
  rw [cost, cost, cost, List.countP_append, List.countP_append]
  omega

theorem cost_singleton (r : Report) : cost [r] =
    (if r.upgraded = true then 1 else 0) + 2 * if r.forkFailed = true then 1 else 0 := by
  rw [cost, List.countP_singleton, List.countP_singleton]

/-- Between two states what was left open stays so, and there is as much more as is said. -/
structure Leaves (c c' : Caller limit) (cost : ℕ) : Prop where
  sound : c'.Sound
  mem : ∀ d ∈ c.leaked, d ∈ c'.leaked
  file : ∀ d ∈ c.leaked, c'.kernel.files.file d = c.kernel.files.file d
  card : c'.leaked.card = c.leaked.card + cost

theorem Leaves.refl (hc : c.Sound) : Leaves c c 0 := ⟨hc, fun _ => id, fun _ _ => rfl, rfl⟩

theorem Leaves.trans {c' c'' : Caller limit} {m n : ℕ} (h : Leaves c c' m) (h' : Leaves c' c'' n) :
    Leaves c c'' (m + n) :=
  ⟨h'.sound, fun d hd => h'.mem d (h.mem d hd),
    fun d hd => (h'.file d (h.mem d hd)).trans (h.file d hd),
    by rw [h'.card, h.card, Nat.add_assoc]⟩

/-- A state with the same descriptors left over. -/
theorem Leaves.of_eq {c' : Caller limit} (hs : c'.Sound) (hl : c'.leaked = c.leaked)
    (hf : ∀ d ∈ c.leaked, c'.kernel.files.file d = c.kernel.files.file d) : Leaves c c' 0 :=
  ⟨hs, fun _ hd => hl ▸ hd, hf, congrArg Finset.card hl⟩

theorem mem_leaked {d : Fin limit} : d ∈ c.leaked ↔ d ∈ c.kernel.files.fds ∧ d ∉ c.own :=
  Finset.mem_sdiff

theorem leaves_socket (hc : c.Sound) (getenv : Environ) : Leaves c (step getenv .socket c).2 0 := by
  rw [step]
  cases hopen : c.kernel.files.openFile .own with
  | none => exact Leaves.refl hc
  | some x =>
    obtain ⟨fd, t⟩ := x
    obtain ⟨hfd, rfl⟩ := OpenFiles.openFile_eq_some hopen
    refine Leaves.of_eq ?_ ?_ fun d hd => ?_
    · rw [Sound, OpenFiles.fds_install]
      exact Finset.insert_subset_insert fd hc
    · rw [leaked, leaked, OpenFiles.fds_install, Finset.insert_sdiff_insert,
        Finset.sdiff_insert_of_notMem hfd]
    · have hne : d ≠ fd := fun e => hfd (e ▸ (mem_leaked.1 hd).1)
      exact OpenFiles.install_file_of_ne hne

theorem leaves_close (hc : c.Sound) (getenv : Environ) (fd : Fin limit) :
    Leaves c (step getenv (.close fd) c).2 0 := by
  rw [step]
  split_ifs with hfd
  · refine Leaves.of_eq ?_ ?_ fun d hd => ?_
    · rw [Sound, OpenFiles.fds_close]
      exact Finset.erase_subset_erase fd hc
    · have hnot : fd ∉ c.kernel.files.fds \ c.own := fun h => (Finset.mem_sdiff.1 h).2 hfd
      rw [leaked, leaked, OpenFiles.fds_close, ← Finset.erase_sdiff_distrib,
        Finset.erase_eq_of_notMem hnot]
    · have hne : d ≠ fd := fun e => (mem_leaked.1 hd).2 (e ▸ hfd)
      exact OpenFiles.close_file_of_ne hne
  · exact Leaves.refl hc

/-- A socket pair whose ends both stay open costs two descriptors. -/
theorem leaves_pair (hc : c.Sound) {a b : Fin limit} {t : OpenFiles File limit} {n : ℕ}
    (hopen : c.kernel.files.openPair (.near c.kernel.pairs) (.far c.kernel.pairs) =
      some ((a, b), t)) : Leaves c ⟨⟨t, n⟩, c.own⟩ 2 := by
  obtain ⟨ha, hb, hne, rfl⟩ := OpenFiles.openPair_eq_some hopen
  have hown {x : Fin limit} (hx : x ∉ c.kernel.files.fds) : x ∉ c.own := fun h => hx (hc h)
  have hleaked : leaked ⟨⟨(c.kernel.files.install a (.near c.kernel.pairs)).install b
      (.far c.kernel.pairs), n⟩, c.own⟩ = insert b (insert a c.leaked) := by
    rw [leaked, OpenFiles.fds_install, OpenFiles.fds_install,
      Finset.insert_sdiff_of_notMem _ (hown hb), Finset.insert_sdiff_of_notMem _ (hown ha)]
    rfl
  have hal : a ∉ c.leaked := fun h => ha (mem_leaked.1 h).1
  have hbl : b ∉ insert a c.leaked := by
    rw [Finset.mem_insert, not_or]
    exact ⟨hne, fun h => hb (mem_leaked.1 h).1⟩
  refine ⟨?_, fun d hd => ?_, fun d hd => ?_, ?_⟩
  · rw [Sound, OpenFiles.fds_install, OpenFiles.fds_install]
    exact hc.trans ((Finset.subset_insert _ _).trans (Finset.subset_insert _ _))
  · rw [hleaked]
    exact Finset.mem_insert_of_mem (Finset.mem_insert_of_mem hd)
  · have hda : d ≠ a := fun e => hal (e ▸ hd)
    have hdb : d ≠ b := fun e => hb (e ▸ (mem_leaked.1 hd).1)
    exact (OpenFiles.install_file_of_ne hdb).trans (OpenFiles.install_file_of_ne hda)
  · rw [hleaked, Finset.card_insert_of_notMem hbl, Finset.card_insert_of_notMem hal]

/-- An upgraded connection costs one, which is the near end. -/
theorem leaves_upgrade (hc : c.Sound) (hfd : fd ∈ c.own) {a b : Fin limit}
    {t : OpenFiles File limit} {n : ℕ}
    (hopen : c.kernel.files.openPair (.near c.kernel.pairs) (.far c.kernel.pairs) =
      some ((a, b), t)) :
    Leaves c ⟨⟨(t.close b).install fd (.near c.kernel.pairs), n⟩, c.own⟩ 1 ∧
      ∃ d ∈ leaked ⟨⟨(t.close b).install fd (.near c.kernel.pairs), n⟩, c.own⟩,
        ((t.close b).install fd (.near c.kernel.pairs)).file d = some (.near c.kernel.pairs) := by
  obtain ⟨ha, hb, hne, rfl⟩ := OpenFiles.openPair_eq_some hopen
  have hown {x : Fin limit} (hx : x ∉ c.kernel.files.fds) : x ∉ c.own := fun h => hx (hc h)
  have hafd : a ≠ fd := fun e => hown ha (e ▸ hfd)
  have hfds : ((((c.kernel.files.install a (.near c.kernel.pairs)).install b
      (.far c.kernel.pairs)).close b).install fd (.near c.kernel.pairs)).fds =
        insert a c.kernel.files.fds := by
    rw [OpenFiles.fds_install, OpenFiles.fds_close, OpenFiles.fds_install, OpenFiles.fds_install,
      Finset.erase_insert (by simpa [hne] using hb), Finset.insert_eq_of_mem]
    exact Finset.mem_insert_of_mem (hc hfd)
  have hleaked : leaked ⟨⟨(((c.kernel.files.install a (.near c.kernel.pairs)).install b
      (.far c.kernel.pairs)).close b).install fd (.near c.kernel.pairs), n⟩, c.own⟩ =
        insert a c.leaked := by
    rw [leaked, hfds, Finset.insert_sdiff_of_notMem _ (hown ha)]
    rfl
  have hal : a ∉ c.leaked := fun h => ha (mem_leaked.1 h).1
  refine ⟨⟨?_, fun d hd => ?_, fun d hd => ?_, ?_⟩, a, ?_, ?_⟩
  · rw [Sound, hfds]
    exact hc.trans (Finset.subset_insert _ _)
  · rw [hleaked]
    exact Finset.mem_insert_of_mem hd
  · have hda : d ≠ a := fun e => hal (e ▸ hd)
    have hdb : d ≠ b := fun e => hb (e ▸ (mem_leaked.1 hd).1)
    have hdfd : d ≠ fd := fun e => (mem_leaked.1 hd).2 (e ▸ hfd)
    exact (OpenFiles.install_file_of_ne hdfd).trans ((OpenFiles.close_file_of_ne hdb).trans
      ((OpenFiles.install_file_of_ne hdb).trans (OpenFiles.install_file_of_ne hda)))
  · rw [hleaked, Finset.card_insert_of_notMem hal]
  · rw [hleaked]
    exact Finset.mem_insert_self _ _
  · rw [OpenFiles.install_file_of_ne hafd, OpenFiles.close_file_of_ne hne.symm,
      OpenFiles.install_file_of_ne hne.symm, OpenFiles.install_file_self]

/-- What one step leaves is what its call has cost. -/
theorem leaves_step (hc : c.Sound) (getenv : Environ) (op : Op limit) :
    Leaves c (step getenv op c).2 (cost (step getenv op c).1.toList) := by
  cases op with
  | socket =>
    have h := leaves_socket hc getenv
    rw [step] at h ⊢
    cases hopen : c.kernel.files.openFile .own with
    | none => exact Leaves.refl hc
    | some x =>
      rw [hopen] at h
      exact h
  | close fd =>
    have h := leaves_close hc getenv fd
    rw [step] at h ⊢
    split_ifs at h ⊢
    · exact h
    · exact h
  | connect fd addr addrlen errors =>
    rw [step]
    split_ifs with hfd
    · have hcases := intercepted_cases getenv fd addr addrlen errors c.kernel
      generalize intercepted getenv fd addr addrlen errors c.kernel = x at hcases ⊢
      obtain ⟨r, s⟩ := x
      dsimp only at hcases ⊢
      rw [Option.toList_some, cost_singleton]
      rcases hcases with ⟨rfl, hup, hfork⟩ | ⟨a, b, t, hopen, ⟨rfl, hup, hfork⟩ | ⟨rfl, hup, hfork⟩⟩
      · rw [hup, hfork]
        exact Leaves.refl hc
      · rw [hup, hfork]
        exact leaves_pair hc hopen
      · rw [hup, hfork]
        exact (leaves_upgrade hc hfd hopen).1
    · exact Leaves.refl hc

theorem leaves_after (getenv : Environ) (ops : List (Op limit)) (hc : c.Sound) :
    Leaves c (after getenv ops c) (cost (reports getenv ops c)) := by
  induction ops generalizing c with
  | nil => exact Leaves.refl hc
  | cons op ops ih =>
    have h := leaves_step hc getenv op
    rw [reports, cost_append, after, List.foldl_cons]
    exact h.trans (ih h.sound)

namespace Sample

/-- A program that may have eight files open and has the three standard streams. -/
def program : Caller 8 :=
  ⟨⟨⟨fun fd => if fd < 3 then some .own else none⟩, 0⟩, {0, 1, 2}⟩

/-- A connection to port 80 is wanted. -/
def web : SockaddrIn := ⟨AF_INET, 80, 0xC0000201⟩

theorem wanted_web : Wanted Autossl.Sample.environ web :=
  ⟨rfl, ⟨"80x".toList, rfl, by decide +kernel⟩, fun s hs => (by cases hs), rfl⟩

/-- Two connections, of which one has no child. -/
def ops : List (Op 8) :=
  [.socket, .connect 3 web 16 Errors.none, .connect 3 web 16 ⟨.none, "out of memory".toList⟩]

end Sample

/-- Whatever a program does, it has one descriptor open that it has not got for each connection that
was upgraded and two for each one whose `fork` has failed, so that their number has a bound. -/
theorem card_fds_after (getenv : Environ) (ops : List (Op limit)) {c : Caller limit}
    (hown : c.own = c.kernel.files.fds) :
    (after getenv ops c).kernel.files.fds.card =
        (after getenv ops c).own.card + (reports getenv ops c).countP Report.upgraded +
          2 * (reports getenv ops c).countP Report.forkFailed ∧
      (reports getenv ops c).countP Report.upgraded +
        2 * (reports getenv ops c).countP Report.forkFailed ≤ limit := by
  have hstart : c.leaked = ∅ := by rw [leaked, hown, Finset.sdiff_self]
  have h := leaves_after getenv ops hown.le
  have hcard := h.card
  rw [hstart, Finset.card_empty, Nat.zero_add, cost] at hcard
  have hsplit := Finset.card_sdiff_add_card_eq_card h.sound
  have hle := (after getenv ops c).kernel.files.card_fds_le
  unfold leaked at hcard
  omega

theorem card_fds_after_sample :
    (after Autossl.Sample.environ Sample.ops Sample.program).kernel.files.fds.card =
      (after Autossl.Sample.environ Sample.ops Sample.program).own.card + 1 + 2 * 1 := by
  have h := (card_fds_after Autossl.Sample.environ Sample.ops
    (show Sample.program.own = Sample.program.kernel.files.fds by decide +kernel)).1
  have hup : (reports Autossl.Sample.environ Sample.ops Sample.program).countP Report.upgraded = 1 := by
    decide +kernel
  have hfork : (reports Autossl.Sample.environ Sample.ops Sample.program).countP Report.forkFailed =
      1 := by
    decide +kernel
  rw [hup, hfork] at h
  exact h

/-- The process has the near end of an upgraded connection open, at a descriptor that the program has
not got, whatever the program does afterwards. -/
theorem upgraded_stays_open (getenv : Environ) {c : Caller limit} (hc : c.Sound) {fd : Fin limit}
    {addr : SockaddrIn} {addrlen : ℕ} {errors : Errors} {r : Report}
    (hr : (step getenv (.connect fd addr addrlen errors) c).1 = some r)
    (hup : r.upgraded = true) (ops : List (Op limit)) :
    ∃ d, d ∉ (after getenv (.connect fd addr addrlen errors :: ops) c).own ∧
      (after getenv (.connect fd addr addrlen errors :: ops) c).kernel.files.file d =
        some (.near c.kernel.pairs) := by
  have hstep := leaves_step hc getenv (.connect fd addr addrlen errors)
  have hrun := leaves_after getenv ops hstep.sound
  rw [after, List.foldl_cons, ← after]
  suffices h : ∃ d ∈ (step getenv (.connect fd addr addrlen errors) c).2.leaked,
      (step getenv (.connect fd addr addrlen errors) c).2.kernel.files.file d =
        some (.near c.kernel.pairs) by
    obtain ⟨d, hd, hfile⟩ := h
    exact ⟨d, (mem_leaked.1 (hrun.mem d hd)).2, (hrun.file d hd).trans hfile⟩
  rw [step] at hr ⊢
  split_ifs at hr ⊢ with hfd
  have hcases := intercepted_cases getenv fd addr addrlen errors c.kernel
  generalize intercepted getenv fd addr addrlen errors c.kernel = x at hcases hr ⊢
  obtain ⟨r', s⟩ := x
  cases hr
  dsimp only at hcases ⊢
  rcases hcases with ⟨-, hno, -⟩ | ⟨a, b, t, hopen, ⟨-, hno, -⟩ | ⟨rfl, -, -⟩⟩
  · exact absurd (hup.symm.trans hno) (by decide)
  · exact absurd (hup.symm.trans hno) (by decide)
  · exact (leaves_upgrade hc hfd hopen).2

/-- The socket is closed after the connection, and the near end of the pair is still open. -/
theorem upgraded_stays_open_closed : ∃ d,
    d ∉ (after Autossl.Sample.environ [.connect 3 Sample.web 16 Errors.none, .close 3]
      (step Autossl.Sample.environ .socket Sample.program).2).own ∧
    (after Autossl.Sample.environ [.connect 3 Sample.web 16 Errors.none, .close 3]
      (step Autossl.Sample.environ .socket Sample.program).2).kernel.files.file d =
        some (.near 0) := by
  have hc : (step Autossl.Sample.environ .socket Sample.program).2.Sound := by
    unfold Sound
    decide +kernel
  have hsome : (step Autossl.Sample.environ (.connect 3 Sample.web 16 Errors.none)
      (step Autossl.Sample.environ .socket Sample.program).2).1.isSome = true := by
    decide +kernel
  obtain ⟨r, hr⟩ := Option.isSome_iff_exists.1 hsome
  have hup : (step Autossl.Sample.environ (.connect 3 Sample.web 16 Errors.none)
      (step Autossl.Sample.environ .socket Sample.program).2).1.map Report.upgraded = some true := by
    decide +kernel
  rw [hr] at hup
  exact upgraded_stays_open Autossl.Sample.environ hc hr (Option.some.inj hup) [.close 3]

/-! ## One connection after another -/

/-- The steps of a program that opens a socket, connects it and closes it again. -/
def visit (addr : SockaddrIn) (addrlen : ℕ) (c : Caller limit) : List (Op limit) :=
  match c.kernel.files.lowest with
  | none => [.socket]
  | some fd => [.socket, .connect fd addr addrlen Errors.none, .close fd]

/-- The intercepted calls of `n` visits, one after another. -/
def visits (getenv : Environ) (addr : SockaddrIn) (addrlen : ℕ) : ℕ → Caller limit → List Report
  | 0, _ => []
  | n + 1, c => reports getenv (visit addr addrlen c) c ++
      visits getenv addr addrlen n (after getenv (visit addr addrlen c) c)

theorem card_fds (hc : c.Sound) : c.kernel.files.fds.card = c.own.card + c.leaked.card := by
  have h := Finset.card_sdiff_add_card_eq_card hc
  rw [leaked]
  omega

/-- A visit is one call, and the program has closed what it has opened. -/
theorem visit_spec (hc : c.Sound) (hlow : c.kernel.files.lowest = some fd) :
    reports getenv (visit addr addrlen c) c =
        [(intercepted getenv fd addr addrlen Errors.none
          { c.kernel with files := c.kernel.files.install fd .own }).1] ∧
      (after getenv (visit addr addrlen c) c).own = c.own := by
  have hopen : c.kernel.files.openFile .own = some (fd, c.kernel.files.install fd .own) := by
    rw [OpenFiles.openFile, hlow]
    rfl
  have hfd : fd ∉ c.own := fun h => OpenFiles.lowest_notMem hlow (hc h)
  have hmem : fd ∈ insert fd c.own := Finset.mem_insert_self _ _
  unfold visit
  rw [hlow]
  constructor
  · simp [reports, step, hopen]
  · simp [after, step, hopen, Finset.erase_insert hfd]

/-- What a visit leaves open is the cost of its call. -/
theorem card_visit (hc : c.Sound) (hlow : c.kernel.files.lowest = some fd) :
    (after getenv (visit addr addrlen c) c).Sound ∧
      (after getenv (visit addr addrlen c) c).kernel.files.fds.card =
        c.kernel.files.fds.card + cost (reports getenv (visit addr addrlen c) c) := by
  have h := leaves_after getenv (visit addr addrlen c) hc
  refine ⟨h.sound, ?_⟩
  rw [card_fds h.sound, card_fds hc, h.card, (visit_spec hc hlow).2, Nat.add_assoc]

section Visits

variable (hw : Wanted getenv addr) (addrlen : ℕ)

include hw

/-- A visit is upgraded while three descriptors are free. -/
theorem visit_upgraded (hc : c.Sound) (hroom : c.kernel.files.fds.card + 3 ≤ limit) :
    (after getenv (visit addr addrlen c) c).Sound ∧
      (after getenv (visit addr addrlen c) c).kernel.files.fds.card =
        c.kernel.files.fds.card + 1 ∧
      ∃ r, reports getenv (visit addr addrlen c) c = [r] ∧ r.upgraded = true := by
  obtain ⟨fd, hlow⟩ := OpenFiles.exists_lowest_iff.2 (show c.kernel.files.fds.card < limit by omega)
  obtain ⟨hsound, hcard⟩ := @card_visit limit getenv fd addr addrlen c hc hlow
  rw [(visit_spec hc hlow).1] at hcard ⊢
  have hfds : (c.kernel.files.install fd .own).fds.card + 2 ≤ limit := by
    rw [OpenFiles.fds_install, Finset.card_insert_of_notMem (OpenFiles.lowest_notMem hlow)]
    omega
  obtain ⟨⟨a, b⟩, t, hopen⟩ :=
    (OpenFiles.exists_openPair_iff (.near c.kernel.pairs) (.far c.kernel.pairs)).2 hfds
  have hpair : Autossl.kernel Errors.none .socketpair
      { c.kernel with files := c.kernel.files.install fd .own } =
        (.ok (a.val, b.val), ⟨t, c.kernel.pairs + 1⟩) := by
    rw [Autossl.kernel, Errors.none]
    dsimp only
    rw [hopen]
  obtain ⟨stderr, child, h⟩ :=
    @intercepted_of_forked limit getenv fd addr Errors.none
      { c.kernel with files := c.kernel.files.install fd .own } hw addrlen a b t hpair hopen rfl
  rw [h] at hcard ⊢
  exact ⟨hsound, hcard, _, rfl, rfl⟩

/-- With one or two free descriptors there is no socket pair. -/
theorem visit_refused (hc : c.Sound) (hroom : c.kernel.files.fds.card < limit)
    (hfull : limit < c.kernel.files.fds.card + 3) :
    (after getenv (visit addr addrlen c) c).Sound ∧
      (after getenv (visit addr addrlen c) c).kernel.files.fds.card = c.kernel.files.fds.card ∧
      ∃ (r : Report) (fd : Fin limit), reports getenv (visit addr addrlen c) c = [r] ∧
        r.upgraded = false ∧ r.outcome.ends = errorCase getenv fd.val addr addrlen := by
  obtain ⟨fd, hlow⟩ := OpenFiles.exists_lowest_iff.2 hroom
  obtain ⟨hsound, hcard⟩ := @card_visit limit getenv fd addr addrlen c hc hlow
  rw [(visit_spec hc hlow).1] at hcard ⊢
  have hfds : limit < (c.kernel.files.install fd .own).fds.card + 2 := by
    rw [OpenFiles.fds_install, Finset.card_insert_of_notMem (OpenFiles.lowest_notMem hlow)]
    omega
  have hopen : (c.kernel.files.install fd .own).openPair (.near c.kernel.pairs)
      (.far c.kernel.pairs) = none := by
    rw [Option.eq_none_iff_forall_ne_some]
    rintro ⟨fds, t⟩ h
    exact absurd ((OpenFiles.exists_openPair_iff _ _).1 ⟨fds, t, h⟩) (Nat.not_le.2 hfds)
  have hpair : Autossl.kernel Errors.none .socketpair
      { c.kernel with files := c.kernel.files.install fd .own } =
        (.error "Too many open files".toList,
          { c.kernel with files := c.kernel.files.install fd .own }) := by
    rw [Autossl.kernel, Errors.none]
    dsimp only
    rw [hopen]
  rw [intercepted_of_unpaired hw addrlen hpair] at hcard ⊢
  have hno : (⟨⟨[perror "autossl: sockpair".toList "Too many open files".toList], none,
      errorCase getenv fd.val addr addrlen⟩, [.socketpair]⟩ : Report).upgraded = false :=
    decide_eq_false (errorCase_ne_success getenv fd.val addr addrlen)
  refine ⟨hsound, hcard.trans ?_, _, fd, rfl, hno, rfl⟩
  rw [cost_singleton, hno]
  rfl

/-- Of any number of connections one after another those are upgraded for which three descriptors are
still free; all others end in the error case. -/
theorem visits_upgraded (hc : c.Sound) (hroom : c.kernel.files.fds.card < limit) (n : ℕ) :
    (visits getenv addr addrlen n c).map Report.upgraded =
        List.replicate (min n (limit - c.kernel.files.fds.card - 2)) true ++
          List.replicate (n - (limit - c.kernel.files.fds.card - 2)) false ∧
      ∀ r ∈ visits getenv addr addrlen n c, r.upgraded = true ∨
        ∃ fd : Fin limit, r.outcome.ends = errorCase getenv fd.val addr addrlen := by
  induction n generalizing c with
  | zero => simp [visits]
  | succ n ih =>
    rw [visits]
    by_cases hfree : c.kernel.files.fds.card + 3 ≤ limit
    · obtain ⟨hsound, hcard, r, hr, hup⟩ := visit_upgraded hw addrlen hc hfree
      obtain ⟨hmap, hends⟩ := ih hsound (by omega)
      rw [hr, List.singleton_append]
      constructor
      · rw [List.map_cons, hmap, hup, hcard]
        have hmin : min (n + 1) (limit - c.kernel.files.fds.card - 2) =
            min n (limit - (c.kernel.files.fds.card + 1) - 2) + 1 := by omega
        have hsub : n + 1 - (limit - c.kernel.files.fds.card - 2) =
            n - (limit - (c.kernel.files.fds.card + 1) - 2) := by omega
        rw [hmin, hsub, List.replicate_succ, List.cons_append]
      · exact List.forall_mem_cons.2 ⟨Or.inl hup, hends⟩
    · obtain ⟨hsound, hcard, r, fd, hr, hno, hend⟩ := visit_refused hw addrlen hc hroom (by omega)
      obtain ⟨hmap, hends⟩ := ih hsound (by omega)
      have hzero : limit - c.kernel.files.fds.card - 2 = 0 := by omega
      rw [hr, List.singleton_append]
      constructor
      · rw [List.map_cons, hmap, hno, hcard, hzero]
        simp [List.replicate_succ]
      · exact List.forall_mem_cons.2 ⟨Or.inr ⟨fd, hend⟩, hends⟩

end Visits

/-- Of five connections the first three are upgraded. -/
theorem visits_upgraded_five :
    (visits Autossl.Sample.environ Sample.web 16 5 Sample.program).map Report.upgraded =
      [true, true, true, false, false] := by
  have hc : Sample.program.Sound := by
    unfold Sound
    decide +kernel
  have hcard : Sample.program.kernel.files.fds.card = 3 := by decide +kernel
  have h := (visits_upgraded Sample.wanted_web 16 hc (by rw [hcard]; decide) 5).1
  rw [hcard] at h
  exact h

end Caller

end YazzyPreload.Autossl

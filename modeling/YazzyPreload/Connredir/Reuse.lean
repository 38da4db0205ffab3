import YazzyPreload.Connredir
import YazzyPreload.OpenFiles

/-!
# Redirections to a descriptor, one after another

`connect` redirects to a descriptor by `dup2`, so the file at `CONNREDIR_TO_FD` stays open there and
serves the connections that follow, also after the redirected ones are closed.  But the number is
what counts: `redirected_iff` says that it leads to the file which the process was given just as
long as the program does not close it.  No call leaves more open than there was (`fds_after`).
-/

namespace YazzyPreload.Connredir

/-- An open file: one that the process was started with, or one that the program has opened. -/
inductive File
  | given (n : ℕ)
  | opened (n : ℕ)
  deriving DecidableEq

/-- A program with its open files, and the number of files that it has opened. -/
structure Caller (limit : ℕ) where
  files : OpenFiles File limit
  opened : ℕ

namespace Caller

variable {limit : ℕ}

/-- What the program does, on any descriptors. -/
inductive Op (limit : ℕ)
  | socket
  | close (fd : Fin limit)
  | connect (fd : Fin limit) (addr : SockaddrIn) (addrlen : ℕ)
  deriving DecidableEq

section Run

variable (getenv : Environ) (hlimit : limit ≤ 2 ^ 31)

/-- The open descriptors, which have numbers of type `int`. -/
def descriptors (c : Caller limit) : Descriptors where
  isOpen n := (c.files.fileAt n).isSome
  lt_of_isOpen n h := by
    by_contra hn
    rw [OpenFiles.fileAt_eq_none (by omega)] at h
    cases h

/-- An intercepted `connect`: how it ends and what is open then. -/
def intercepted (fd : Fin limit) (addr : SockaddrIn) (addrlen : ℕ) (c : Caller limit) :
    Ends × Caller limit :=
  match (Connredir.connect getenv (c.descriptors hlimit) fd.val addr addrlen).ends with
  | .redirected to_fd =>
    (.redirected to_fd,
      { c with
        files := ((OpenFiles.number limit to_fd).bind (c.files.dup2 · fd)).getD c.files })
  | ends => (ends, c)

/-- One step of the program. -/
def step : Op limit → Caller limit → Caller limit
  | .socket, c =>
    match c.files.openFile (.opened c.opened) with
    | none => c
    | some (_, files) => ⟨files, c.opened + 1⟩
  | .close fd, c => { c with files := c.files.close fd }
  | .connect fd addr addrlen, c => (intercepted getenv hlimit fd addr addrlen c).2

/-- The program after some steps. -/
def after (ops : List (Op limit)) (c : Caller limit) : Caller limit :=
  ops.foldl (fun c op => step getenv hlimit op c) c

end Run

/-- The destination is the one that is to be redirected. -/
def Matches (getenv : Environ) (addr : SockaddrIn) : Prop :=
  addr.sin_family = AF_INET ∧
    (∃ s, getenv "CONNREDIR_ORIG_IP" = some s ∧ inetAton s = some addr.sin_addr) ∧
    (portVar (getenv "CONNREDIR_ORIG_PORT") = 0 ∨
      portVar (getenv "CONNREDIR_ORIG_PORT") = addr.sin_port)

/-- A `connect` is redirected to the descriptor `to_fd`, and leaves the socket with the file `f`. -/
def LeadsTo (getenv : Environ) (hlimit : limit ≤ 2 ^ 31) (c : Caller limit) (fd : Fin limit)
    (addr : SockaddrIn) (addrlen : ℕ) (to_fd : Fin limit) (f : File) : Prop :=
  (intercepted getenv hlimit fd addr addrlen c).1 = .redirected to_fd.val ∧
    (intercepted getenv hlimit fd addr addrlen c).2.files.file fd = some f

variable {getenv : Environ} {hlimit : limit ≤ 2 ^ 31} {c : Caller limit} {fd to_fd : Fin limit}
  {addr : SockaddrIn} {addrlen : ℕ} {text : Str} {n : ℕ} {f : File} {ops : List (Op limit)}

/-! ## One connection -/

theorem opens_iff :
    (c.descriptors hlimit).Opens to_fd.val ↔ (c.files.file to_fd).isSome = true := by
  rw [← OpenFiles.fileAt_val]
  exact and_iff_right (Int.natCast_nonneg _)

theorem connect_of_matches (fds : Descriptors) (hm : Matches getenv addr) (sockfd : ℤ) :
    Connredir.connect getenv fds sockfd addr addrlen = redirect getenv fds sockfd addr addrlen := by
  obtain ⟨hf, ⟨s, hs, hip⟩, hport⟩ := hm
  rw [connect_of_match hf hs hip, if_neg (by tauto)]

/-- Only a destination that matches is redirected. -/
theorem ends_of_not_matches (fds : Descriptors) (hm : ¬ Matches getenv addr) (sockfd k : ℤ) :
    (Connredir.connect getenv fds sockfd addr addrlen).ends ≠ .redirected k := by
  by_cases hf : addr.sin_family = AF_INET
  · cases hs : getenv "CONNREDIR_ORIG_IP" with
    | none =>
      rw [connect_of_unset hf hs]
      exact fun h => nomatch h
    | some s =>
      cases hip : inetAton s with
      | none =>
        rw [connect_of_malformed hf hs hip]
        exact errorCase_ne_redirected k
      | some orig_ip =>
        by_cases heq : orig_ip = addr.sin_addr
        · subst heq
          have hport : portVar (getenv "CONNREDIR_ORIG_PORT") ≠ 0 ∧
              portVar (getenv "CONNREDIR_ORIG_PORT") ≠ addr.sin_port :=
            not_or.1 fun h => hm ⟨hf, ⟨s, hs, hip⟩, h⟩
          rw [connect_of_match hf hs hip, if_pos hport]
          exact fun h => nomatch h
        · rw [connect_of_other hf hs hip heq]
          exact fun h => nomatch h
  · rw [Connredir.connect, if_pos hf]
    exact fun h => nomatch h

/-- A call that does not redirect changes no descriptor. -/
theorem intercepted_of_ends
    (h : ∀ k, (Connredir.connect getenv (c.descriptors hlimit) fd.val addr addrlen).ends ≠
      .redirected k) :
    (∀ k, (intercepted getenv hlimit fd addr addrlen c).1 ≠ .redirected k) ∧
      (intercepted getenv hlimit fd addr addrlen c).2 = c := by
  rw [intercepted]
  split
  · next k hk => exact absurd hk (h k)
  · next ends => exact ⟨h, rfl⟩

section ToFd

variable (htext : getenv "CONNREDIR_TO_FD" = some text) (hto : atoi text = to_fd.val)

include htext hto

/-- A destination that matches is redirected to what is open at the descriptor. -/
theorem intercepted_of_open (hm : Matches getenv addr) (hf : c.files.file to_fd = some f) :
    intercepted getenv hlimit fd addr addrlen c =
      (.redirected to_fd.val, { c with files := c.files.install fd f }) := by
  have hends : (Connredir.connect getenv (c.descriptors hlimit) fd.val addr addrlen).ends =
      .redirected to_fd.val := by
    rw [connect_of_matches _ hm, redirect_fd htext, hto, if_pos (opens_iff.2 (by rw [hf]; rfl))]
  rw [intercepted, hends]
  dsimp only
  rw [OpenFiles.number_val, Option.bind_some, OpenFiles.dup2, hf, Option.map_some,
    Option.getD_some]

theorem intercepted_of_closed (hf : c.files.file to_fd = none) :
    (∀ k, (intercepted getenv hlimit fd addr addrlen c).1 ≠ .redirected k) ∧
      (intercepted getenv hlimit fd addr addrlen c).2 = c := by
  refine intercepted_of_ends fun k => ?_
  by_cases hm : Matches getenv addr
  · have hclosed : ¬ (c.descriptors hlimit).Opens to_fd.val := fun h => by
      rw [opens_iff, hf] at h
      cases h
    rw [connect_of_matches _ hm, redirect_fd htext, hto, if_neg hclosed]
    exact errorCase_ne_redirected k
  · exact ends_of_not_matches _ hm _ k

/-- No call changes what is open at the descriptor itself. -/
theorem file_intercepted :
    (intercepted getenv hlimit fd addr addrlen c).2.files.file to_fd = c.files.file to_fd := by
  by_cases hm : Matches getenv addr
  · cases hf : c.files.file to_fd with
    | none => rw [(intercepted_of_closed htext hto hf).2, hf]
    | some f =>
      rw [intercepted_of_open htext hto hm hf]
      by_cases he : to_fd = fd
      · subst he
        exact OpenFiles.install_file_self ..
      · exact (OpenFiles.install_file_of_ne he).trans hf
  · rw [(intercepted_of_ends (ends_of_not_matches _ hm _)).2]

theorem leadsTo_iff (hm : Matches getenv addr) :
    LeadsTo getenv hlimit c fd addr addrlen to_fd f ↔ c.files.file to_fd = some f := by
  cases hf : c.files.file to_fd with
  | none =>
    exact iff_of_false (fun h => (intercepted_of_closed htext hto hf).1 _ h.1) fun h => nomatch h
  | some g =>
    rw [LeadsTo, intercepted_of_open htext hto hm hf, and_iff_right rfl]
    dsimp only
    rw [OpenFiles.install_file_self]

/-! ## A run -/

/-- A step that does not close the descriptor leaves a given file there. -/
theorem file_step_of_ne {op : Op limit} (hop : op ≠ .close to_fd)
    (hf : c.files.file to_fd = some f) : (step getenv hlimit op c).files.file to_fd = some f := by
  cases op with
  | socket =>
    rw [step]
    cases hopen : c.files.openFile (.opened c.opened) with
    | none => exact hf
    | some x =>
      obtain ⟨fd, files⟩ := x
      obtain ⟨hfd, rfl⟩ := OpenFiles.openFile_eq_some hopen
      have hne : to_fd ≠ fd := fun h => hfd (h ▸ OpenFiles.mem_fds.2 (by rw [hf]; rfl))
      exact (OpenFiles.install_file_of_ne hne).trans hf
  | close fd =>
    have hne : to_fd ≠ fd := fun h => hop (h ▸ rfl)
    exact (OpenFiles.close_file_of_ne hne).trans hf
  | connect fd addr addrlen => exact (file_intercepted htext hto).trans hf

/-- A given file that is not there does not come back. -/
theorem file_step_ne (op : Op limit) (hf : c.files.file to_fd ≠ some (.given n)) :
    (step getenv hlimit op c).files.file to_fd ≠ some (.given n) := by
  cases op with
  | socket =>
    rw [step]
    cases hopen : c.files.openFile (.opened c.opened) with
    | none => exact hf
    | some x =>
      obtain ⟨fd, files⟩ := x
      obtain ⟨-, rfl⟩ := OpenFiles.openFile_eq_some hopen
      by_cases he : to_fd = fd
      · subst he
        dsimp only
        rw [OpenFiles.install_file_self]
        exact fun h => nomatch h
      · rwa [OpenFiles.install_file_of_ne he]
  | close fd =>
    by_cases he : to_fd = fd
    · subst he
      exact fun h => by simp [step, OpenFiles.close] at h
    · rw [step, OpenFiles.close_file_of_ne he]
      exact hf
  | connect fd addr addrlen =>
    rw [step, file_intercepted htext hto]
    exact hf

theorem file_after_ne (ops : List (Op limit)) (hf : c.files.file to_fd ≠ some (.given n)) :
    (after getenv hlimit ops c).files.file to_fd ≠ some (.given n) := by
  induction ops generalizing c with
  | nil => exact hf
  | cons op ops ih => exact ih (file_step_ne htext hto op hf)

/-- A given file is at its descriptor until this is closed. -/
theorem file_after_iff (hf : c.files.file to_fd = some (.given n)) :
    (after getenv hlimit ops c).files.file to_fd = some (.given n) ↔ .close to_fd ∉ ops := by
  induction ops generalizing c with
  | nil => exact iff_of_true hf List.not_mem_nil
  | cons op ops ih =>
    rw [List.mem_cons, not_or]
    by_cases hop : op = .close to_fd
    · subst hop
      refine iff_of_false (file_after_ne htext hto ops ?_) fun h => h.1 rfl
      exact fun h => by simp [step, OpenFiles.close] at h
    · rw [and_iff_right (Ne.symm hop)]
      exact ih (file_step_of_ne htext hto hop hf)

end ToFd

/-- After any steps, a destination that matches is redirected to the file that was given at
`CONNREDIR_TO_FD` if and only if the program has not closed that descriptor. -/
theorem redirected_iff (getenv : Environ) (hlimit : limit ≤ 2 ^ 31) (c : Caller limit)
    (ops : List (Op limit)) (fd to_fd : Fin limit) (addr : SockaddrIn) (addrlen : ℕ) (text : Str)
    (n : ℕ) (htext : getenv "CONNREDIR_TO_FD" = some text) (hto : atoi text = to_fd.val)
    (hfile : c.files.file to_fd = some (.given n)) (hm : Matches getenv addr) :
    LeadsTo getenv hlimit (after getenv hlimit ops c) fd addr addrlen to_fd (.given n) ↔
      .close to_fd ∉ ops :=
  (leadsTo_iff htext hto hm).trans (file_after_iff htext hto hfile)

namespace Sample

/-- Connections to the local mail server go to the standard output. -/
def mail : Environ
  | "CONNREDIR_ORIG_IP" => some "127.0.0.1".toList
  | "CONNREDIR_ORIG_PORT" => some "25".toList
  | "CONNREDIR_TO_FD" => some "1".toList
  | _ => none

def smtp : SockaddrIn := ⟨AF_INET, 25, 0x7F000001⟩

/-- A program with its standard streams. -/
def sendmail : Caller 16 := ⟨⟨fun fd => if fd.val < 3 then some (.given fd.val) else none⟩, 0⟩

/-- A connection that is made and closed, and a new socket. -/
def delivery : List (Op 16) := [.socket, .connect 3 smtp 16, .close 3, .socket]

end Sample

theorem redirected_iff_mail :
    LeadsTo Sample.mail (by decide)
      (after Sample.mail (by decide) Sample.delivery Sample.sendmail) 3 Sample.smtp 16 1
      (.given 1) :=
  (redirected_iff Sample.mail (by decide) Sample.sendmail Sample.delivery 3 1 Sample.smtp 16
    "1".toList 1 rfl (by decide +kernel) rfl
    ⟨rfl, ⟨_, rfl, by decide +kernel⟩, Or.inr (by decide +kernel)⟩).2 (by decide)

/-! ## What is open -/

/-- The step is a `connect`. -/
def Op.isConnect : Op limit → Bool
  | .connect .. => true
  | _ => false

/-- Every `connect` of the steps is on a descriptor that is open then. -/
def OnOpen (getenv : Environ) (hlimit : limit ≤ 2 ^ 31) : List (Op limit) → Caller limit → Prop
  | [], _ => True
  | .connect fd addr addrlen :: ops, c =>
    fd ∈ c.files.fds ∧ OnOpen getenv hlimit ops (step getenv hlimit (.connect fd addr addrlen) c)
  | op :: ops, c => OnOpen getenv hlimit ops (step getenv hlimit op c)

/-- A `connect` on an open descriptor opens no other one. -/
theorem fds_intercepted (hfd : fd ∈ c.files.fds) :
    (intercepted getenv hlimit fd addr addrlen c).2.files.fds = c.files.fds := by
  rw [intercepted]
  split
  · next to_fd hk =>
    dsimp only
    cases hdup : (OpenFiles.number limit to_fd).bind (c.files.dup2 · fd) with
    | none => rfl
    | some files =>
      obtain ⟨to_fd, -, hfiles⟩ := Option.bind_eq_some_iff.1 hdup
      obtain ⟨f, -, rfl⟩ := Option.map_eq_some_iff.1 hfiles
      rw [Option.getD_some, OpenFiles.fds_install, Finset.insert_eq_of_mem hfd]
  · rfl

/-- A step that is no `connect` opens and closes the same descriptors whatever the files are. -/
theorem fds_step_congr {op : Op limit} {d : Caller limit} (hop : op.isConnect = false)
    (h : c.files.fds = d.files.fds) :
    (step getenv hlimit op c).files.fds = (step getenv hlimit op d).files.fds := by
  cases op with
  | socket =>
    rw [step, step, OpenFiles.openFile, OpenFiles.openFile, OpenFiles.lowest_congr h]
    cases d.files.lowest with
    | none => exact h
    | some fd =>
      dsimp only [Option.map_some]
      rw [OpenFiles.fds_install, OpenFiles.fds_install, h]
  | close fd =>
    rw [step, step, OpenFiles.fds_close, OpenFiles.fds_close, h]
  | connect fd addr addrlen => cases hop

theorem fds_after_congr {d : Caller limit} (hops : OnOpen getenv hlimit ops c)
    (h : c.files.fds = d.files.fds) :
    (after getenv hlimit ops c).files.fds =
      (after getenv hlimit (ops.filter (!·.isConnect)) d).files.fds := by
  induction ops generalizing c d with
  | nil => exact h
  | cons op ops ih =>
    by_cases hop : op.isConnect = true
    · rw [List.filter_cons_of_neg (by simp [hop])]
      cases op with
      | connect fd addr addrlen => exact ih hops.2 ((fds_intercepted hops.1).trans h)
      | socket => cases hop
      | close fd => cases hop
    · rw [List.filter_cons_of_pos (by simpa using hop)]
      have hops' : OnOpen getenv hlimit ops (step getenv hlimit op c) := by
        cases op with
        | connect fd addr addrlen => exact absurd rfl hop
        | socket => exact hops
        | close fd => exact hops
      exact ih hops' (fds_step_congr (by simpa using hop) h)

/-- After any steps that connect open descriptors, the same descriptors are open as without the
calls of `connect`. -/
theorem fds_after (getenv : Environ) (hlimit : limit ≤ 2 ^ 31) (c : Caller limit)
    (ops : List (Op limit)) (hops : OnOpen getenv hlimit ops c) :
    (after getenv hlimit ops c).files.fds =
      (after getenv hlimit (ops.filter (!·.isConnect)) c).files.fds :=
  fds_after_congr hops rfl

theorem fds_after_mail :
    (after Sample.mail (by decide) Sample.delivery Sample.sendmail).files.fds =
      (after Sample.mail (by decide) (Sample.delivery.filter (!·.isConnect))
        Sample.sendmail).files.fds :=
  fds_after Sample.mail (by decide) Sample.sendmail Sample.delivery ⟨by decide, trivial⟩

end Caller

end YazzyPreload.Connredir

import YazzyPreload.Inet

/-!
# `connect` of `connredir.so`

The function redirects a connection to `CONNREDIR_ORIG_IP` and `CONNREDIR_ORIG_PORT` either to an
open descriptor or to another address and port.  A port that is zero is one that is not set.

`documented` is the documented behaviour, in which a malformed value is an error.  The code reads
`abc` as zero and `65616` as 80, and `connect_documented_iff` says when that makes no difference.
-/

namespace YazzyPreload.Connredir

/-- The open descriptors of a process; their numbers are of type `int`. -/
structure Descriptors where
  isOpen : ℕ → Bool
  lt_of_isOpen : ∀ n, isOpen n = true → n < 2 ^ 31

/-- `fd` is an open descriptor. -/
def Descriptors.Opens (fds : Descriptors) (fd : ℤ) : Prop := 0 ≤ fd ∧ fds.isOpen fd.toNat = true

instance (fds : Descriptors) (fd : ℤ) : Decidable (fds.Opens fd) :=
  inferInstanceAs (Decidable (_ ∧ _))

/-- `dup2` onto the socket of the caller, which is taken to be a valid descriptor. -/
def Descriptors.dup2 (fds : Descriptors) (fd : ℤ) : Except Str Unit :=
  if fds.Opens fd then .ok () else .error "Bad file descriptor".toList

/-- How `connect` ends. -/
inductive Ends
  | redirected (to_fd : ℤ)
  | failure (errno : ℤ)
  | orig_connect (sockfd : ℤ) (addr : SockaddrIn) (addrlen : ℕ)
  deriving DecidableEq

/-- The lines that `connect` prints to `stderr` and how it ends. -/
structure Outcome where
  stderr : List Str
  ends : Ends

/-- A variable that holds a port, zero when it is not set. -/
def portVar : Option Str → Port
  | some s => atoport s
  | none => 0

/-- `to_port == 0 ? orig_sockaddr->sin_port : htons(to_port)`. -/
def targetPort (orig : Port) (to_port_str : Option Str) : Port :=
  if portVar to_port_str = 0 then orig else portVar to_port_str

section Connect

variable (getenv : Environ) (fds : Descriptors) (sockfd : ℤ) (orig_sockaddr : SockaddrIn)
  (addrlen : ℕ)

/-- The label `error_case`. -/
def errorCase : Ends :=
  match getenv "CONNREDIR_ERRNO" with
  | some connredir_errno_str => .failure (atoi connredir_errno_str)
  | none => .orig_connect sockfd orig_sockaddr addrlen

/-- `_connredir_ip_parse_error`. -/
def ipParseError (s : Str) : Str := "connredir: failed to parse ip address: ".toList ++ s

/-- The part of `connect` after the address and port have matched. -/
def redirect : Outcome :=
  let redirecting := "connredir: redirecting ".toList ++ showAddr orig_sockaddr ++ " -> ".toList
  match getenv "CONNREDIR_TO_FD" with
  | some to_fd_str =>
    match fds.dup2 (atoi to_fd_str) with
    | .error e =>
      ⟨[perror "connredir: dup2".toList e], errorCase getenv sockfd orig_sockaddr addrlen⟩
    | .ok _ =>
      ⟨[redirecting ++ "fd#".toList ++ Nat.toDigits 10 (atoi to_fd_str).toNat],
        .redirected (atoi to_fd_str)⟩
  | none =>
    match getenv "CONNREDIR_TO_IP" with
    | none => ⟨[], .orig_connect sockfd orig_sockaddr addrlen⟩
    | some to_ip_str =>
      match inetAton to_ip_str with
      | none => ⟨[ipParseError to_ip_str], errorCase getenv sockfd orig_sockaddr addrlen⟩
      | some to_ip =>
        let to_port := targetPort orig_sockaddr.sin_port (getenv "CONNREDIR_TO_PORT")
        let to_sockaddr : SockaddrIn := ⟨AF_INET, to_port, to_ip⟩
        ⟨[redirecting ++ showAddr to_sockaddr], .orig_connect sockfd to_sockaddr addrlen⟩

/-- `connect`. -/
def connect : Outcome :=
  if orig_sockaddr.sin_family ≠ AF_INET then ⟨[], .orig_connect sockfd orig_sockaddr addrlen⟩
  else
    match getenv "CONNREDIR_ORIG_IP" with
    | none => ⟨[], .orig_connect sockfd orig_sockaddr addrlen⟩
    | some orig_ip_str =>
      match inetAton orig_ip_str with
      | none => ⟨[ipParseError orig_ip_str], errorCase getenv sockfd orig_sockaddr addrlen⟩
      | some orig_ip =>
        if orig_sockaddr.sin_addr ≠ orig_ip then ⟨[], .orig_connect sockfd orig_sockaddr addrlen⟩
        else
          let orig_port := portVar (getenv "CONNREDIR_ORIG_PORT")
          if orig_port ≠ 0 ∧ orig_port ≠ orig_sockaddr.sin_port then
            ⟨[], .orig_connect sockfd orig_sockaddr addrlen⟩
          else redirect getenv fds sockfd orig_sockaddr addrlen

end Connect

/-! ## The documented behaviour -/

/-- The open descriptor that a text is the number of. -/
def Descriptors.number (fds : Descriptors) (s : Str) : Option ℕ :=
  (decimal s).filter fds.isOpen

section Documented

variable (getenv : Environ) (fds : Descriptors) (sockfd : ℤ) (addr : SockaddrIn) (addrlen : ℕ)

/-- Where a connection that is to be redirected goes: to the descriptor `CONNREDIR_TO_FD` if that is
set, else to `CONNREDIR_TO_IP`, at the same port unless `CONNREDIR_TO_PORT` is set. -/
def documentedTarget : Ends :=
  match getenv "CONNREDIR_TO_FD", getenv "CONNREDIR_TO_IP" with
  | some fd, _ =>
    match fds.number fd with
    | some n => .redirected n
    | none => errorCase getenv sockfd addr addrlen
  | none, none => .orig_connect sockfd addr addrlen
  | none, some ip =>
    match inetAton ip, (getenv "CONNREDIR_TO_PORT").map portNumber with
    | none, _ | some _, some none => errorCase getenv sockfd addr addrlen
    | some ip, none => .orig_connect sockfd ⟨AF_INET, addr.sin_port, ip⟩ addrlen
    | some ip, some (some port) => .orig_connect sockfd ⟨AF_INET, port, ip⟩ addrlen

/-- A connection is redirected if its address is `CONNREDIR_ORIG_IP` and its port is
`CONNREDIR_ORIG_PORT`, when that is set.  A value that is consulted and malformed is an error. -/
def documented : Ends :=
  match (getenv "CONNREDIR_ORIG_IP").map inetAton with
  | none => .orig_connect sockfd addr addrlen
  | some none => errorCase getenv sockfd addr addrlen
  | some (some ip) =>
    if ip ≠ addr.sin_addr then .orig_connect sockfd addr addrlen
    else
      match (getenv "CONNREDIR_ORIG_PORT").map portNumber with
      | none => documentedTarget getenv fds sockfd addr addrlen
      | some none => errorCase getenv sockfd addr addrlen
      | some (some port) =>
        if port = addr.sin_port then documentedTarget getenv fds sockfd addr addrlen
        else .orig_connect sockfd addr addrlen

end Documented

/-! ## When the behaviour is the documented one -/

section Condition

variable (getenv : Environ) (fds : Descriptors) (addr : SockaddrIn)

/-- The text is read as no port at all or as the port of the destination. -/
def Keeps (s : Str) : Prop := atoport s = 0 ∨ atoport s = addr.sin_port

/-- The target is one that `connect` reports as an error. -/
def Fails : Prop :=
  (∃ fd, getenv "CONNREDIR_TO_FD" = some fd ∧ ¬ fds.Opens (atoi fd)) ∨
  getenv "CONNREDIR_TO_FD" = none ∧ ∃ s, getenv "CONNREDIR_TO_IP" = some s ∧ inetAton s = none

/-- There is no target, or it is the destination itself. -/
def LeavesAlone : Prop :=
  getenv "CONNREDIR_TO_FD" = none ∧
  ∀ s, getenv "CONNREDIR_TO_IP" = some s → inetAton s = some addr.sin_addr ∧
    ∀ t, getenv "CONNREDIR_TO_PORT" = some t → Keeps addr t

/-- A text in `CONNREDIR_TO_FD` that is read as an open descriptor is its number, and one in
`CONNREDIR_TO_PORT` is a port number unless nothing is redirected anyway. -/
def TargetRead : Prop :=
  (∀ fd, getenv "CONNREDIR_TO_FD" = some fd → fds.Opens (atoi fd) →
    (fds.number fd).isSome = true) ∧
  (getenv "CONNREDIR_TO_FD" = none → ∀ s ip t, getenv "CONNREDIR_TO_IP" = some s →
    inetAton s = some ip → getenv "CONNREDIR_TO_PORT" = some t → portNumber t = none →
    getenv "CONNREDIR_ERRNO" = none ∧ ip = addr.sin_addr ∧ Keeps addr t)

/-- The text `s` in `CONNREDIR_ORIG_PORT`, which is no port number, makes no difference. -/
def PortHarmless (s : Str) : Prop :=
  Keeps addr s ∧ Fails getenv fds ∨
  getenv "CONNREDIR_ERRNO" = none ∧ (Keeps addr s → LeavesAlone getenv addr)

/-- The values that are consulted are port numbers and descriptors, or make no difference. -/
def WellRead : Prop :=
  ∀ s, getenv "CONNREDIR_ORIG_IP" = some s → inetAton s = some addr.sin_addr →
    match getenv "CONNREDIR_ORIG_PORT" with
    | none => TargetRead getenv fds addr
    | some t =>
      (portNumber t = some addr.sin_port → TargetRead getenv fds addr) ∧
      (portNumber t = none → PortHarmless getenv fds addr t)

end Condition

variable {getenv : Environ} {fds : Descriptors} {sockfd : ℤ} {addr : SockaddrIn} {addrlen : ℕ}

theorem Descriptors.number_eq_some {s : Str} {n : ℕ} (h : fds.number s = some n) :
    atoi s = n ∧ fds.Opens (atoi s) := by
  obtain ⟨hn, hopen⟩ := Option.filter_eq_some_iff.1 h
  obtain ⟨hne, hd, hv⟩ := decimal_eq_some hn
  have hlt := fds.lt_of_isOpen n hopen
  have hatoi := atoi_digits (s := []) hne hd rfl (by omega)
  rw [List.append_nil, hv] at hatoi
  refine ⟨hatoi, ?_⟩
  rw [hatoi]
  exact ⟨Int.natCast_nonneg n, by simpa using hopen⟩

theorem errorCase_ne_redirected (fd : ℤ) :
    errorCase getenv sockfd addr addrlen ≠ .redirected fd := by
  unfold errorCase
  cases getenv "CONNREDIR_ERRNO" <;> simp

theorem connect_eq_errorCase_iff (ip : InAddr) (port : Port) (hf : addr.sin_family = AF_INET) :
    Ends.orig_connect sockfd ⟨AF_INET, port, ip⟩ addrlen = errorCase getenv sockfd addr addrlen ↔
      getenv "CONNREDIR_ERRNO" = none ∧ ip = addr.sin_addr ∧ port = addr.sin_port := by
  obtain ⟨family, port', ip'⟩ := addr
  dsimp only at hf
  subst hf
  unfold errorCase
  cases getenv "CONNREDIR_ERRNO" <;> simp [and_comm]

theorem self_eq_errorCase_iff :
    Ends.orig_connect sockfd addr addrlen = errorCase getenv sockfd addr addrlen ↔
      getenv "CONNREDIR_ERRNO" = none := by
  unfold errorCase
  cases getenv "CONNREDIR_ERRNO" <;> simp

theorem portVar_of_portNumber {s : Str} {p : Port} (h : portNumber s = some p) :
    portVar (some s) = p := by
  have hread := atoport_of_portNumber (t := []) h rfl
  rwa [List.append_nil] at hread

@[simp] theorem targetPort_none (orig : Port) : targetPort orig none = orig := rfl

theorem targetPort_of_portNumber {s : Str} {p : Port} (h : portNumber s = some p) (orig : Port) :
    targetPort orig (some s) = p := by
  rw [targetPort, portVar_of_portNumber h, if_neg (portNumber_ne_zero h)]

/-- A text keeps the port if that is where the connection then goes. -/
theorem targetPort_eq_iff {s : Str} :
    targetPort addr.sin_port (some s) = addr.sin_port ↔ Keeps addr s := by
  unfold targetPort Keeps
  by_cases h : atoport s = 0 <;> simp_all [portVar]

theorem redirect_fd {fd : Str} (h : getenv "CONNREDIR_TO_FD" = some fd) :
    (redirect getenv fds sockfd addr addrlen).ends =
      if fds.Opens (atoi fd) then .redirected (atoi fd)
      else errorCase getenv sockfd addr addrlen := by
  unfold redirect Descriptors.dup2
  rw [h]
  dsimp only
  split_ifs with ho <;> rfl

theorem redirect_ip (h : getenv "CONNREDIR_TO_FD" = none) :
    (redirect getenv fds sockfd addr addrlen).ends =
      match (getenv "CONNREDIR_TO_IP").map inetAton with
      | none => .orig_connect sockfd addr addrlen
      | some none => errorCase getenv sockfd addr addrlen
      | some (some ip) =>
        .orig_connect sockfd
          ⟨AF_INET, targetPort addr.sin_port (getenv "CONNREDIR_TO_PORT"), ip⟩ addrlen := by
  unfold redirect
  rw [h]
  cases getenv "CONNREDIR_TO_IP" with
  | none => rfl
  | some s =>
    dsimp only [Option.map]
    cases inetAton s <;> rfl

/-- The target is the documented one. -/
theorem redirect_eq_target_iff (hf : addr.sin_family = AF_INET) :
    (redirect getenv fds sockfd addr addrlen).ends =
        documentedTarget getenv fds sockfd addr addrlen ↔
      TargetRead getenv fds addr := by
  unfold TargetRead documentedTarget
  cases hfd : getenv "CONNREDIR_TO_FD" with
  | some fd =>
    rw [redirect_fd hfd]
    cases hn : fds.number fd with
    | some n =>
      obtain ⟨hatoi, hopen⟩ := Descriptors.number_eq_some hn
      simp [hatoi ▸ hopen, hatoi, hn]
    | none =>
      by_cases hopen : fds.Opens (atoi fd)
      · simp [hopen, hn, (errorCase_ne_redirected _).symm]
      · simp [hopen, hn]
  | none =>
    rw [redirect_ip hfd]
    cases hip : getenv "CONNREDIR_TO_IP" with
    | none => simp
    | some s =>
      cases hs : inetAton s with
      | none => grind
      | some ip =>
        cases hport : getenv "CONNREDIR_TO_PORT" with
        | none => simp [hs]
        | some t =>
          cases ht : portNumber t with
          | some p => simp [hs, ht, targetPort_of_portNumber ht]
          | none =>
            simp only [Option.map_some, hs, ht, connect_eq_errorCase_iff _ _ hf, targetPort_eq_iff]
            grind

/-- The target is as good as the error case. -/
theorem redirect_eq_errorCase_iff (hf : addr.sin_family = AF_INET) :
    (redirect getenv fds sockfd addr addrlen).ends = errorCase getenv sockfd addr addrlen ↔
      Fails getenv fds ∨ getenv "CONNREDIR_ERRNO" = none ∧ LeavesAlone getenv addr := by
  unfold Fails LeavesAlone
  cases hfd : getenv "CONNREDIR_TO_FD" with
  | some fd =>
    rw [redirect_fd hfd]
    by_cases hopen : fds.Opens (atoi fd)
    · simp [hopen, (errorCase_ne_redirected _).symm]
    · simp [hopen]
  | none =>
    rw [redirect_ip hfd]
    cases hip : getenv "CONNREDIR_TO_IP" with
    | none => simp [self_eq_errorCase_iff]
    | some s =>
      cases hs : inetAton s with
      | none => simp [hs]
      | some ip =>
        cases hport : getenv "CONNREDIR_TO_PORT" with
        | none => simp [hs, connect_eq_errorCase_iff _ _ hf]
        | some t => simp [hs, connect_eq_errorCase_iff _ _ hf, targetPort_eq_iff]

theorem connect_of_unset (hf : addr.sin_family = AF_INET)
    (hs : getenv "CONNREDIR_ORIG_IP" = none) :
    connect getenv fds sockfd addr addrlen = ⟨[], .orig_connect sockfd addr addrlen⟩ := by
  rw [connect, if_neg (not_not.2 hf), hs]

theorem connect_of_malformed {s : Str} (hf : addr.sin_family = AF_INET)
    (hs : getenv "CONNREDIR_ORIG_IP" = some s) (hip : inetAton s = none) :
    (connect getenv fds sockfd addr addrlen).ends = errorCase getenv sockfd addr addrlen := by
  rw [connect, if_neg (not_not.2 hf), hs]
  dsimp only
  rw [hip]

theorem connect_of_other {s : Str} {orig_ip : InAddr} (hf : addr.sin_family = AF_INET)
    (hs : getenv "CONNREDIR_ORIG_IP" = some s) (hip : inetAton s = some orig_ip)
    (hne : orig_ip ≠ addr.sin_addr) :
    connect getenv fds sockfd addr addrlen = ⟨[], .orig_connect sockfd addr addrlen⟩ := by
  rw [connect, if_neg (not_not.2 hf), hs]
  dsimp only
  rw [hip]
  exact if_pos hne.symm

theorem connect_of_match {s : Str} (hf : addr.sin_family = AF_INET)
    (hs : getenv "CONNREDIR_ORIG_IP" = some s) (hip : inetAton s = some addr.sin_addr) :
    connect getenv fds sockfd addr addrlen =
      if portVar (getenv "CONNREDIR_ORIG_PORT") ≠ 0 ∧
          portVar (getenv "CONNREDIR_ORIG_PORT") ≠ addr.sin_port then
        ⟨[], .orig_connect sockfd addr addrlen⟩
      else redirect getenv fds sockfd addr addrlen := by
  rw [connect, if_neg (not_not.2 hf), hs]
  dsimp only
  rw [hip]
  exact if_neg (not_not.2 rfl)

/-- A port that is no port number makes no difference. -/
theorem portHarmless_iff {s t : Str} (hf : addr.sin_family = AF_INET)
    (hs : getenv "CONNREDIR_ORIG_IP" = some s) (hip : inetAton s = some addr.sin_addr)
    (ht : getenv "CONNREDIR_ORIG_PORT" = some t) :
    (connect getenv fds sockfd addr addrlen).ends = errorCase getenv sockfd addr addrlen ↔
      PortHarmless getenv fds addr t := by
  have hkeeps : ¬ (portVar (some t) ≠ 0 ∧ portVar (some t) ≠ addr.sin_port) ↔ Keeps addr t := by
    unfold Keeps portVar
    tauto
  rw [connect_of_match hf hs hip, ht, PortHarmless]
  by_cases hk : Keeps addr t
  · rw [if_neg (hkeeps.2 hk), redirect_eq_errorCase_iff hf]
    simp [hk]
  · rw [if_pos (not_not.1 fun h => hk (hkeeps.1 h)), self_eq_errorCase_iff]
    simp [hk]

/-- The connection is redirected, refused or left alone as documented exactly when the values that
are consulted are well formed, or are malformed to no effect. -/
theorem connect_documented_iff (getenv : Environ) (fds : Descriptors) (sockfd : ℤ) (port : Port)
    (ip : InAddr) (addrlen : ℕ) :
    let addr : SockaddrIn := ⟨AF_INET, port, ip⟩
    (connect getenv fds sockfd addr addrlen).ends = documented getenv fds sockfd addr addrlen ↔
      WellRead getenv fds addr := by
  generalize haddr : (⟨AF_INET, port, ip⟩ : SockaddrIn) = addr
  have hf : addr.sin_family = AF_INET := haddr ▸ rfl
  unfold documented WellRead
  cases hs : getenv "CONNREDIR_ORIG_IP" with
  | none => simp [connect_of_unset hf hs]
  | some s =>
    cases hip : inetAton s with
    | none => simp [connect_of_malformed hf hs hip, hip]
    | some orig_ip =>
      by_cases heq : orig_ip = addr.sin_addr
      · subst heq
        have hmatch := @connect_of_match getenv fds sockfd addr addrlen s hf hs hip
        have hall (P : Prop) :
            (∀ s', some s = some s' → inetAton s' = some addr.sin_addr → P) ↔ P :=
          ⟨fun h => h s rfl hip, fun h _ _ _ => h⟩
        simp only [Option.map_some, hip, hall]
        rw [if_neg (not_not.2 rfl)]
        cases ht : getenv "CONNREDIR_ORIG_PORT" with
        | none =>
          rw [ht, if_neg (fun h => h.1 rfl)] at hmatch
          rw [hmatch]
          exact redirect_eq_target_iff hf
        | some t =>
          cases hport : portNumber t with
          | none =>
            simp only [Option.map_some, hport, reduceCtorEq, false_imp_iff, true_and, true_imp_iff]
            exact portHarmless_iff hf hs hip ht
          | some p =>
            have hvar := portVar_of_portNumber hport
            have hne := portNumber_ne_zero hport
            simp only [Option.map_some, hport, Option.some.injEq, reduceCtorEq, false_imp_iff,
              and_true]
            rw [hmatch, ht, hvar]
            by_cases hp : p = addr.sin_port
            · rw [if_neg fun h => h.2 hp, if_pos hp, redirect_eq_target_iff hf]
              simp [hp]
            · rw [if_pos ⟨hne, hp⟩, if_neg hp]
              simp [hp]
      · simp [connect_of_other hf hs hip heq, hip, heq]

/-- A text in `CONNREDIR_TO_FD` that is no number. -/
def Sample.environ : Environ
  | "CONNREDIR_ORIG_IP" => some "192.0.2.1".toList
  | "CONNREDIR_TO_FD" => some "abc".toList
  | "CONNREDIR_ERRNO" => some "5".toList
  | _ => none

/-- A process with its standard streams only. -/
def Sample.stdio : Descriptors := ⟨fun n => decide (n < 3), fun n hn => by
  have hlt : n < 3 := of_decide_eq_true hn
  omega⟩

/-- The text `abc` is the number of no descriptor, yet the connection is redirected to one. -/
theorem connect_redirects_malformed :
    let addr : SockaddrIn := ⟨AF_INET, 25, 0xC0000201⟩
    (connect Sample.environ Sample.stdio 3 addr 16).ends ≠
      documented Sample.environ Sample.stdio 3 addr 16 := by
  decide +kernel

end YazzyPreload.Connredir

import YazzyPreload.Inet
import YazzyPreload.Scan

/-!
# `connect` of `autossl.so`

The function compares the destination with `AUTOSSL_UPGRADE_PORTS` and `AUTOSSL_UPGRADE_IPS`, and
either starts `AUTOSSL_TLS_CMD` on a socket pair that takes the place of the caller's socket, or
calls the `connect` of the system.

`decision` is the documented decision, on the entries of the two lists.  The code reads the texts in
place, and an entry that is not a port number may then be read as one all the same: the decision is
the documented one exactly when this makes no difference (`connect_decides_iff`).
-/

namespace YazzyPreload.Autossl

/-- How `connect` ends. -/
inductive Ends
  | success
  | failure (errno : ℤ)
  | orig_connect (sockfd : ℤ) (addr : SockaddrIn) (addrlen : ℕ)
  deriving DecidableEq

/-- What `connect` does: the lines it prints to `stderr`, the program that its child runs, and how it
ends. -/
structure Outcome where
  stderr : List Str
  exec : Option (List Str)
  ends : Ends

/-- The answers of the system.  A call that fails gives the text of its error. -/
structure Answers where
  socketpair : Except Str (ℕ × ℕ)
  fork : Except Str Unit
  dup2 : Except Str Unit

/-- The port that an entry of `AUTOSSL_UPGRADE_PORTS` is read as; zero is the error. -/
def readPort (s : Str) : Option Port := if atoport s = 0 then none else some (atoport s)

section Connect

variable (getenv : Environ) (sys : Answers) (sockfd : ℤ) (orig_sockaddr : SockaddrIn) (addrlen : ℕ)

/-- The label `error_case`. -/
def errorCase : Ends :=
  match getenv "AUTOSSL_ERRNO" with
  | some autossl_errno_str => .failure (atoi autossl_errno_str)
  | none => .orig_connect sockfd orig_sockaddr addrlen

/-- The arguments of the TLS command. -/
def tlsArgs (tls_cmd : Str) : List Str :=
  [tls_cmd, (inetNtoa orig_sockaddr.sin_addr).take 39,
    (Nat.toDigits 10 orig_sockaddr.sin_port.toNat).take 5]

/-- The part of `connect` after both lists have matched. -/
def upgrade : Outcome :=
  let error_case := errorCase getenv sockfd orig_sockaddr addrlen
  match getenv "AUTOSSL_TLS_CMD" with
  | none => ⟨[], none, .orig_connect sockfd orig_sockaddr addrlen⟩
  | some tls_cmd =>
    match sys.socketpair with
    | .error e => ⟨[perror "autossl: sockpair".toList e], none, error_case⟩
    | .ok sockpair =>
      match sys.fork with
      | .error e => ⟨[perror "autossl: fork".toList e], none, error_case⟩
      | .ok _ =>
        let child := tlsArgs orig_sockaddr tls_cmd
        match sys.dup2 with
        | .error e => ⟨[perror "autossl: dup2".toList e], some child, error_case⟩
        | .ok _ =>
          let note := "autossl: redirecting ".toList ++ showAddr orig_sockaddr ++ " -> fd#".toList ++
            Nat.toDigits 10 sockpair.1
          ⟨if getenv "AUTOSSL_SILENT" = none then [note] else [], some child, .success⟩

/-- The part of `connect` after a port has matched. -/
def checkIps : Outcome :=
  match getenv "AUTOSSL_UPGRADE_IPS" with
  | none => upgrade getenv sys sockfd orig_sockaddr addrlen
  | some upgrade_ip_str =>
    match scan inetAton orig_sockaddr.sin_addr (rests ' ' upgrade_ip_str) with
    | .malformed s =>
      ⟨["autossl: failed to parse ip address '".toList ++ entry ' ' s ++ "'".toList], none,
        errorCase getenv sockfd orig_sockaddr addrlen⟩
    | .missing => ⟨[], none, .orig_connect sockfd orig_sockaddr addrlen⟩
    | .found => upgrade getenv sys sockfd orig_sockaddr addrlen

/-- `connect`. -/
def connect : Outcome :=
  if orig_sockaddr.sin_family ≠ AF_INET then
    ⟨[], none, .orig_connect sockfd orig_sockaddr addrlen⟩
  else
    match getenv "AUTOSSL_UPGRADE_PORTS" with
    | none => ⟨[], none, .orig_connect sockfd orig_sockaddr addrlen⟩
    | some upgrade_port_str =>
      match scan readPort orig_sockaddr.sin_port (rests ' ' upgrade_port_str) with
      | .malformed s =>
        ⟨["autossl: failed to parse port number(s): ".toList ++ s], none,
          errorCase getenv sockfd orig_sockaddr addrlen⟩
      | .missing => ⟨[], none, .orig_connect sockfd orig_sockaddr addrlen⟩
      | .found => checkIps getenv sys sockfd orig_sockaddr addrlen

end Connect

/-! ## The documented decision -/

section Decision

variable (getenv : Environ) (sockfd : ℤ) (addr : SockaddrIn) (addrlen : ℕ)

/-- The scan of the port entries comes to the port. -/
def PortListed : Prop :=
  ∃ s, getenv "AUTOSSL_UPGRADE_PORTS" = some s ∧
    Finds portNumber addr.sin_port (s.splitOn ' ')

/-- The scan of the port entries comes to one that is not a port number. -/
def PortMalformed : Prop :=
  ∃ s, getenv "AUTOSSL_UPGRADE_PORTS" = some s ∧
    Trips portNumber addr.sin_port (s.splitOn ' ')

/-- The scan of the address entries, if there are any, comes to the address. -/
def IpListed : Prop :=
  ∀ s, getenv "AUTOSSL_UPGRADE_IPS" = some s →
    Finds inetAton addr.sin_addr (s.splitOn ' ')

/-- The scan of the address entries comes to one that is not an address. -/
def IpMalformed : Prop :=
  ∃ s, getenv "AUTOSSL_UPGRADE_IPS" = some s ∧
    Trips inetAton addr.sin_addr (s.splitOn ' ')

/-- The connection is to be upgraded. -/
def Upgrades : Prop :=
  PortListed getenv addr ∧ IpListed getenv addr ∧ (getenv "AUTOSSL_TLS_CMD").isSome = true

/-- The error case: a scan comes to a malformed entry. -/
def Malformed : Prop := PortMalformed getenv addr ∨ PortListed getenv addr ∧ IpMalformed getenv addr

/-- `connect` does what is documented. -/
structure Decides (o : Outcome) : Prop where
  exec_iff : o.exec.isSome = true ↔ Upgrades getenv addr
  upgraded : Upgrades getenv addr → ∀ cmd, getenv "AUTOSSL_TLS_CMD" = some cmd →
    o.exec = some (tlsArgs addr cmd) ∧ o.ends = .success
  malformed : Malformed getenv addr → o.ends = errorCase getenv sockfd addr addrlen
  otherwise : ¬ Upgrades getenv addr → ¬ Malformed getenv addr →
    o.ends = .orig_connect sockfd addr addrlen

end Decision

/-! ## The two readings -/

/-- The port that an entry is. -/
def portEntry (s : Str) : Option Port := portNumber (entry ' ' s)

theorem readPort_of_portEntry {s : Str} {p : Port} (h : portEntry s = some p) :
    readPort s = some p := by
  have hread : atoport s = p := by
    rcases eq_entry_or ' ' s with hs | ⟨t, hs⟩
    · rw [hs]
      have h0 := atoport_of_portNumber (t := []) h rfl
      rwa [List.append_nil] at h0
    · rw [hs]
      exact atoport_of_portNumber h rfl
  rw [readPort, hread, if_neg (portNumber_ne_zero h)]

theorem inetAton_entry (s : Str) : inetAton (entry ' ' s) = inetAton s := by
  rcases eq_entry_or ' ' s with hs | ⟨t, hs⟩
  · exact congrArg inetAton hs.symm
  · rw [congrArg inetAton hs, inetAton_append]

theorem finds_ports {p : Port} {s : Str} :
    Finds portNumber p (s.splitOn ' ') ↔ Finds portEntry p (rests ' ' s) := by
  rw [← entry_rests, finds_map]
  rfl

theorem trips_ports {p : Port} {s : Str} :
    Trips portNumber p (s.splitOn ' ') ↔ Trips portEntry p (rests ' ' s) := by
  rw [← entry_rests, trips_map]
  rfl

theorem finds_ips {ip : InAddr} {s : Str} :
    Finds inetAton ip (s.splitOn ' ') ↔ scan inetAton ip (rests ' ' s) = .found := by
  rw [← entry_rests, finds_map, funext inetAton_entry, scan_eq_found]

theorem trips_ips {ip : InAddr} {s : Str} :
    Trips inetAton ip (s.splitOn ' ') ↔ ∃ r, scan inetAton ip (rests ' ' s) = .malformed r := by
  rw [← entry_rests, trips_map, funext inetAton_entry, trips_iff]

/-! ## When the decision is the documented one -/

section Decides

variable {getenv : Environ} {sockfd : ℤ} {addr : SockaddrIn} {addrlen : ℕ} {o : Outcome}
  {s : Str} {sockpair : ℕ × ℕ}

theorem portListed_iff (hs : getenv "AUTOSSL_UPGRADE_PORTS" = some s) :
    PortListed getenv addr ↔ scan portEntry addr.sin_port (rests ' ' s) = .found := by
  rw [scan_eq_found, ← finds_ports]
  unfold PortListed
  simp [hs]

theorem portMalformed_iff (hs : getenv "AUTOSSL_UPGRADE_PORTS" = some s) :
    PortMalformed getenv addr ↔ ∃ r, scan portEntry addr.sin_port (rests ' ' s) = .malformed r := by
  rw [← trips_iff, ← trips_ports]
  unfold PortMalformed
  simp [hs]

theorem decides_error_iff (hm : Malformed getenv addr) (hu : ¬ Upgrades getenv addr) :
    Decides getenv sockfd addr addrlen o ↔
      o.exec = none ∧ o.ends = errorCase getenv sockfd addr addrlen := by
  constructor
  · exact fun h => ⟨Option.not_isSome_iff_eq_none.1 fun he => hu (h.exec_iff.1 he), h.malformed hm⟩
  · rintro ⟨he, hends⟩
    refine ⟨?_, fun h => absurd h hu, fun _ => hends, fun _ h => absurd hm h⟩
    simp [he, hu]

theorem decides_pass_iff (hm : ¬ Malformed getenv addr) (hu : ¬ Upgrades getenv addr) :
    Decides getenv sockfd addr addrlen o ↔
      o.exec = none ∧ o.ends = .orig_connect sockfd addr addrlen := by
  constructor
  · exact fun h => ⟨Option.not_isSome_iff_eq_none.1 fun he => hu (h.exec_iff.1 he),
      h.otherwise hu hm⟩
  · rintro ⟨he, hends⟩
    refine ⟨?_, fun h => absurd h hu, fun h => absurd h hm, fun _ _ => hends⟩
    simp [he, hu]

/-- The two ways on after both lists have matched. -/
theorem upgrade_spec (getenv : Environ) (sockfd : ℤ) (addr : SockaddrIn) (addrlen : ℕ)
    (sockpair : ℕ × ℕ) :
    let o := upgrade getenv ⟨.ok sockpair, .ok (), .ok ()⟩ sockfd addr addrlen
    (getenv "AUTOSSL_TLS_CMD" = none ∧ o.exec = none ∧ o.ends = .orig_connect sockfd addr addrlen) ∨
    ∃ cmd, getenv "AUTOSSL_TLS_CMD" = some cmd ∧ o.exec = some (tlsArgs addr cmd) ∧
      o.ends = .success := by
  unfold upgrade
  cases getenv "AUTOSSL_TLS_CMD" with
  | none => exact .inl ⟨rfl, rfl, rfl⟩
  | some cmd => exact .inr ⟨cmd, rfl, rfl, rfl⟩

theorem checkIps_of_none {sys : Answers} (h : getenv "AUTOSSL_UPGRADE_IPS" = none) :
    checkIps getenv sys sockfd addr addrlen = upgrade getenv sys sockfd addr addrlen := by
  rw [checkIps, h]

theorem exec_upgrade {cmd : Str} (h : getenv "AUTOSSL_TLS_CMD" = some cmd) :
    (upgrade getenv ⟨.ok sockpair, .ok (), .ok ()⟩ sockfd addr addrlen).exec =
      some (tlsArgs addr cmd) := by
  rw [upgrade, h]

/-- The three ways on after a port has matched. -/
theorem checkIps_spec (getenv : Environ) (sockfd : ℤ) (addr : SockaddrIn) (addrlen : ℕ)
    (sockpair : ℕ × ℕ) :
    let o := checkIps getenv ⟨.ok sockpair, .ok (), .ok ()⟩ sockfd addr addrlen
    let listed := IpListed getenv addr ∧ (getenv "AUTOSSL_TLS_CMD").isSome = true
    (IpMalformed getenv addr ∧ ¬ listed ∧ o.exec = none ∧
      o.ends = errorCase getenv sockfd addr addrlen) ∨
    (¬ IpMalformed getenv addr ∧ ¬ listed ∧ o.exec = none ∧
      o.ends = .orig_connect sockfd addr addrlen) ∨
    (¬ IpMalformed getenv addr ∧ listed ∧ ∃ cmd, getenv "AUTOSSL_TLS_CMD" = some cmd ∧
      o.exec = some (tlsArgs addr cmd) ∧ o.ends = .success) := by
  have hup := upgrade_spec getenv sockfd addr addrlen sockpair
  unfold IpListed IpMalformed checkIps
  cases hips : getenv "AUTOSSL_UPGRADE_IPS" with
  | none =>
    rcases hup with ⟨htls, ho⟩ | ⟨cmd, htls, ho⟩
    · exact .inr (.inl ⟨by simp, by simp [htls], ho⟩)
    · exact .inr (.inr ⟨by simp, by simp [htls], cmd, htls, ho⟩)
  | some s =>
    simp only [Option.some.injEq, forall_eq', exists_eq_left', finds_ips, trips_ips]
    cases hscan : scan inetAton addr.sin_addr (rests ' ' s) with
    | malformed r => exact .inl ⟨⟨r, rfl⟩, by simp, rfl, rfl⟩
    | missing => exact .inr (.inl ⟨by simp, by simp, rfl, rfl⟩)
    | found =>
      rcases hup with ⟨htls, ho⟩ | ⟨cmd, htls, ho⟩
      · exact .inr (.inl ⟨by simp, by simp [htls], ho⟩)
      · exact .inr (.inr ⟨by simp, by simp [htls], cmd, htls, ho⟩)

/-- An entry that is misread makes no difference to how `connect` ends; `l` begins with it. -/
def Harmless (getenv : Environ) (addr : SockaddrIn) (l : List Str) : Prop :=
  match getenv "AUTOSSL_ERRNO" with
  | some _ => Trips readPort addr.sin_port l ∨
      Finds readPort addr.sin_port l ∧ IpMalformed getenv addr
  | none => ¬ (Finds readPort addr.sin_port l ∧ IpListed getenv addr ∧
      (getenv "AUTOSSL_TLS_CMD").isSome = true)

variable {sys : Answers} {r : Str} {l : List Str}

theorem connect_of_ports (hf : addr.sin_family = AF_INET)
    (hs : getenv "AUTOSSL_UPGRADE_PORTS" = some s) :
    connect getenv sys sockfd addr addrlen =
      match scan readPort addr.sin_port (rests ' ' s) with
      | .malformed s =>
        ⟨["autossl: failed to parse port number(s): ".toList ++ s], none,
          errorCase getenv sockfd addr addrlen⟩
      | .missing => ⟨[], none, .orig_connect sockfd addr addrlen⟩
      | .found => checkIps getenv sys sockfd addr addrlen := by
  rw [connect, if_neg (not_not.2 hf), hs]

/-- Without a list of addresses the command is started for the ports that the scan finds. -/
theorem exec_connect_of_ports {cmd : Str} (hf : addr.sin_family = AF_INET)
    (hs : getenv "AUTOSSL_UPGRADE_PORTS" = some s) (hips : getenv "AUTOSSL_UPGRADE_IPS" = none)
    (hcmd : getenv "AUTOSSL_TLS_CMD" = some cmd) :
    (connect getenv ⟨.ok sockpair, .ok (), .ok ()⟩ sockfd addr addrlen).exec =
        some (tlsArgs addr cmd) ↔
      Finds readPort addr.sin_port (rests ' ' s) := by
  rw [connect_of_ports hf hs, ← scan_eq_found]
  cases scan readPort addr.sin_port (rests ' ' s) with
  | malformed r => simp
  | missing => simp
  | found =>
    dsimp only
    rw [checkIps_of_none hips, exec_upgrade hcmd]
    exact iff_of_true rfl rfl

/-- The error case is taken after a misread entry, or looks as if it was. -/
theorem harmless_iff (hf : addr.sin_family = AF_INET)
    (hs : getenv "AUTOSSL_UPGRADE_PORTS" = some s)
    (hr : Misread portEntry readPort addr.sin_port (rests ' ' s) r l) :
    let o := connect getenv ⟨.ok sockpair, .ok (), .ok ()⟩ sockfd addr addrlen
    o.exec = none ∧ o.ends = errorCase getenv sockfd addr addrlen ↔
      Harmless getenv addr (r :: l) := by
  have hips := checkIps_spec getenv sockfd addr addrlen sockpair
  rw [connect_of_ports hf hs, (scan_of_misread (fun _ _ => readPort_of_portEntry) hr).2, Harmless,
    trips_iff, ← scan_eq_found]
  cases hE : getenv "AUTOSSL_ERRNO" with
  | none =>
    have herr : errorCase getenv sockfd addr addrlen = .orig_connect sockfd addr addrlen := by
      rw [errorCase, hE]
    rw [herr] at hips ⊢
    cases scan readPort addr.sin_port (r :: l) with
    | malformed b => simp
    | missing => simp
    | found =>
      rcases hips with ⟨-, hl, ho⟩ | ⟨-, hl, ho⟩ | ⟨-, hl, cmd, -, he, -⟩
      · simp [ho, hl]
      · simp [ho, hl]
      · simp [he, hl]
  | some e =>
    have herr : errorCase getenv sockfd addr addrlen = .failure (atoi e) := by rw [errorCase, hE]
    rw [herr] at hips ⊢
    cases scan readPort addr.sin_port (r :: l) with
    | malformed b => simp
    | missing => simp
    | found =>
      rcases hips with ⟨hm, -, ho⟩ | ⟨hm, -, ho⟩ | ⟨hm, -, cmd, -, he, -⟩
      · simp [ho, hm]
      · simp [ho, hm]
      · simp [he, hm]

/-- Where the two readings of the ports lead to the same end of the scan, the decision is right. -/
theorem decides_of_scan_eq (hf : addr.sin_family = AF_INET)
    (hs : getenv "AUTOSSL_UPGRADE_PORTS" = some s)
    (heq : scan readPort addr.sin_port (rests ' ' s) = scan portEntry addr.sin_port (rests ' ' s)) :
    Decides getenv sockfd addr addrlen
      (connect getenv ⟨.ok sockpair, .ok (), .ok ()⟩ sockfd addr addrlen) := by
  have hlisted : PortListed getenv addr ↔ _ := portListed_iff hs
  have hmalformed : PortMalformed getenv addr ↔ _ := portMalformed_iff hs
  rw [connect_of_ports hf hs, heq]
  cases hscan : scan portEntry addr.sin_port (rests ' ' s) with
  | malformed r =>
    refine (decides_error_iff (.inl (hmalformed.2 ⟨r, hscan⟩)) fun h => ?_).2 ⟨rfl, rfl⟩
    cases hscan.symm.trans (hlisted.1 h.1)
  | missing =>
    refine (decides_pass_iff ?_ fun h => ?_).2 ⟨rfl, rfl⟩
    · rintro (h | h)
      · obtain ⟨r, hr⟩ := hmalformed.1 h
        cases hscan.symm.trans hr
      · cases hscan.symm.trans (hlisted.1 h.1)
    · cases hscan.symm.trans (hlisted.1 h.1)
  | found =>
    have hport := hlisted.2 hscan
    have hno : ¬ PortMalformed getenv addr := fun h => by
      obtain ⟨r, hr⟩ := hmalformed.1 h
      cases hscan.symm.trans hr
    rcases checkIps_spec getenv sockfd addr addrlen sockpair with
      ⟨hm, hl, ho⟩ | ⟨hm, hl, ho⟩ | ⟨hm, hl, cmd, hcmd, he, hends⟩
    · exact (decides_error_iff (.inr ⟨hport, hm⟩) fun h => hl h.2).2 ho
    · exact (decides_pass_iff (fun h => h.elim hno fun h => hm h.2) fun h => hl h.2).2 ho
    · refine ⟨by simp [he, Upgrades, hport, hl], fun _ cmd' hcmd' => ?_,
        fun h => absurd h fun h => h.elim hno fun h => hm h.2, fun h => absurd ⟨hport, hl⟩ h⟩
      cases hcmd.symm.trans hcmd'
      exact ⟨he, hends⟩

end Decides

/-- The decision is the documented one unless the scan of the ports comes to an entry that is no
port number but is read as one, and the rest of the scan then makes a difference. -/
theorem connect_decides_iff (getenv : Environ) (sockfd : ℤ) (port : Port) (ip : InAddr)
    (addrlen : ℕ) (sockpair : ℕ × ℕ) :
    let addr : SockaddrIn := ⟨AF_INET, port, ip⟩
    Decides getenv sockfd addr addrlen
        (connect getenv ⟨.ok sockpair, .ok (), .ok ()⟩ sockfd addr addrlen) ↔
      ∀ s r l, getenv "AUTOSSL_UPGRADE_PORTS" = some s →
        Misread portEntry readPort port (rests ' ' s) r l → Harmless getenv addr (r :: l) := by
  intro addr
  cases hs : getenv "AUTOSSL_UPGRADE_PORTS" with
  | none =>
    have hport : ¬ PortListed getenv addr := fun ⟨s, h, _⟩ => by cases hs.symm.trans h
    have hno : ¬ PortMalformed getenv addr := fun ⟨s, h, _⟩ => by cases hs.symm.trans h
    have ho : connect getenv ⟨.ok sockpair, .ok (), .ok ()⟩ sockfd addr addrlen =
        ⟨[], none, .orig_connect sockfd addr addrlen⟩ := by
      rw [connect, if_neg (not_not.2 rfl), hs]
    rw [ho]
    refine iff_of_true ((decides_pass_iff (fun h => h.elim hno fun h => hport h.1)
      fun h => hport h.1).2 ⟨rfl, rfl⟩) fun s r l h => ?_
    cases h
  | some s =>
    by_cases hmis : ∃ r l, Misread portEntry readPort port (rests ' ' s) r l
    · obtain ⟨r, l, hr⟩ := hmis
      have hscan := (scan_of_misread (fun _ _ => readPort_of_portEntry) hr).1
      have hm : Malformed getenv addr := .inl ((portMalformed_iff hs).2 ⟨r, hscan⟩)
      have hu : ¬ Upgrades getenv addr := fun h => by
        cases hscan.symm.trans ((portListed_iff hs).1 h.1)
      rw [decides_error_iff hm hu]
      constructor
      · rintro ho s' r' l' ⟨⟩ hr'
        exact (harmless_iff rfl hs hr').1 ho
      · exact fun h => (harmless_iff rfl hs hr).2 (h s r l rfl hr)
    · refine iff_of_true (decides_of_scan_eq rfl hs ?_) fun s' r l h hr => ?_
      · exact (scan_eq_or_misread (fun _ _ => readPort_of_portEntry) _ _).resolve_right hmis
      · cases h
        exact absurd ⟨r, l, hr⟩ hmis

/-- An entry with letters after its number. -/
def Sample.environ : Environ
  | "AUTOSSL_UPGRADE_PORTS" => some "80x".toList
  | "AUTOSSL_TLS_CMD" => some "autossl-conn".toList
  | _ => none

/-- The entry `80x` is no port number, yet the connection is upgraded. -/
theorem connect_upgrades_malformed :
    let addr : SockaddrIn := ⟨AF_INET, 80, 0xC0000201⟩
    ¬ Decides Sample.environ 3 addr 16
      (connect Sample.environ ⟨.ok (4, 5), .ok (), .ok ()⟩ 3 addr 16) := by
  intro addr h
  have hm : Malformed Sample.environ addr :=
    .inl ⟨_, rfl, [], "80x".toList, [], by decide +kernel, by simp [Passes], by decide +kernel⟩
  have hends : (connect Sample.environ ⟨.ok (4, 5), .ok (), .ok ()⟩ 3 addr 16).ends = .success := by
    decide +kernel
  cases hends.symm.trans (h.malformed hm)

end YazzyPreload.Autossl

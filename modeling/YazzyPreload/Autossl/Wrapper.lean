import YazzyPreload.Autossl.Connect
import YazzyPreload.Bash

/-!
# The scripts `autossl` and `autossl-conn`

`autossl` runs a command under `autossl.so` and turns its `https:` arguments into `http:`; the
command then connects in the clear, `connect` starts `autossl-conn`, and that opens a TLS connection
to the port that is paired with the one the command meant to connect to.

`StartsTls` is this, up to the TLS program, and `starts_iff` says when it happens: the port must be
listed, and the last of the caller's pairs for it, or else the common one, must lead to the port that
the URL means.
-/

namespace YazzyPreload.Autossl

open Bash

/-! ## `autossl` -/

/-- The characters of `[^/ :]`. -/
def isHostChar (c : Char) : Bool := c ≠ '/' ∧ c ≠ ' ' ∧ c ≠ ':'

/-- The group `([^/ :]+)` of a match of `^https://([^@/]*@)?([^/ :]+)`.  A match with the first
group is never the shorter one. -/
def servername (arg : Str) : Option Str :=
  if "https://".toList.isPrefixOf arg = true then
    let text := arg.drop 8
    let host (s : Str) : Option Str :=
      if s.takeWhile isHostChar = [] then none else s.takeWhile isHostChar
    match text.dropWhile (fun c => c ≠ '@' ∧ c ≠ '/') with
    | '@' :: s => (host s).orElse fun _ => host text
    | _ => host text
  else none

/-- The argument that the command is run with. -/
def rewrite (arg : Str) : Str :=
  if arg.take 6 = "https:".toList then replaceFirst "https:".toList "http:".toList arg else arg

/-- What `autossl` does: it prints its usage, or it gives the words to `exec`. -/
inductive Wrapped
  | usage (status : ℕ)
  | exec (stderr : List Str) (args : List Str) (result : Except ℕ Command)

section Wrapper

variable (bash : Bash) (env : Environ)

/-- The exported value of `OPENSSL_EXTRA_ARGS`. -/
def opensslExtraArgs (server : Option Str) : Option Str :=
  let join (s t : Str) : Str := s ++ sep s ++ t
  let extra := match server with
    | some name => some (join (var env "OPENSSL_EXTRA_ARGS") ("-servername ".toList ++ name))
    | none => env "OPENSSL_EXTRA_ARGS"
  if bash.test (bash.expand (var env "AUTOSSL_SILENT")) = true then
    extra.map (join · "-quiet".toList)
  else extra

/-- The port pairs of common protocols. -/
def commonPorts : Str :=
  "21:990 23:992 25:465 80:443 110:995 119:563 143:993 194:994 389:636".toList

/-- The value of `AUTOSSL_UPGRADE_PORTS` for the command. -/
def upgradePorts : Str :=
  "80".toList ++ sep (var env "AUTOSSL_UPGRADE_PORTS") ++ var env "AUTOSSL_UPGRADE_PORTS"

/-- The value of `AUTOSSL_TLS_PORT_MAP` for the command. -/
def tlsPortMap : Str := commonPorts ++ ' ' :: var env "AUTOSSL_TLS_PORT_MAP"

/-- The environment that is exported to the command. -/
def exported (server : Option Str) : Environ
  | "LD_PRELOAD" => some "/usr/lib/tool/preload/autossl.so".toList
  | "AUTOSSL_UPGRADE_PORTS" => some (upgradePorts env)
  | "AUTOSSL_TLS_CMD" => some "autossl-conn".toList
  | "AUTOSSL_TLS_PORT_MAP" => some (tlsPortMap env)
  | "AUTOSSL_ERRNO" => some "5".toList
  | "OPENSSL_EXTRA_ARGS" => opensslExtraArgs bash env server
  | name => env name

/-- `autossl`. -/
def wrapper (args : List Str) : Wrapped :=
  if args = [] then .usage 255
  else if args.head? = some "--help".toList then .usage 0
  else
    let off : Bool := var env "AUTOSSL_CONVENIENCE" = "off".toList
    let args' := if off then args else args.map rewrite
    let server := if off then none else (args.filterMap servername).getLast?
    let note := "autossl: run: ".toList ++ List.intercalate [' '] args'
    let quiet := bash.test ("!".toList :: bash.expand (var env "AUTOSSL_SILENT")) = false
    .exec (if quiet then [] else [note]) args' (Bash.exec (exported bash env server) args')

/-! ## `autossl-conn` -/

/-- The program that `autossl-conn` becomes, with the address and port it connects to. -/
inductive Channel
  | nc (ip port : Str)
  | stunnel (ip port : Str) (extra : List Str)
  | openssl (ip port : Str) (extra : List Str)

/-- Where a TLS connection is opened to. -/
def Channel.tls : Channel → Option (Str × Str)
  | .nc _ _ => none
  | .stunnel ip port _ | .openssl ip port _ => some (ip, port)

/-- The array `tls_ports`. -/
def tlsPorts : Str → Option Str :=
  assignPairs (fun _ => none) (bash.expand (var env "AUTOSSL_TLS_PORT_MAP"))

/-- `autossl-conn`. -/
def conn (ip plaintext_port : Str) : Channel :=
  let tls_port := (tlsPorts bash env plaintext_port).getD []
  if bash.test ("-z".toList :: bash.expand tls_port) = true then .nc ip plaintext_port
  else if var env "AUTOSSL_BACKEND" = "stunnel".toList then
    .stunnel ip tls_port (bash.expand (var env "STUNNEL_EXTRA_ARGS"))
  else .openssl ip tls_port (bash.expand (var env "OPENSSL_EXTRA_ARGS"))

end Wrapper

/-! ## What an upgrade is -/

/-- A URL without its scheme, as a command line has it. -/
structure Url where
  userinfo : Option Str
  host : Str
  port : Option {d : Str // (portNumber d).isSome = true}
  path : Str
  userinfo_ok : ∀ u ∈ userinfo, '@' ∉ u ∧ '/' ∉ u
  host_ok : host ≠ [] ∧ ∀ c ∈ host, c ∉ ['/', ':', '@', ' ']
  path_ok : path.head?.all (· = '/') = true

/-- The text of a URL. -/
def Url.text (scheme : Str) (u : Url) : Str :=
  scheme ++ "://".toList ++ (u.userinfo.elim [] (· ++ ['@'])) ++ u.host ++
    (u.port.elim [] (':' :: ·.1)) ++ u.path

/-- The port of a URL. -/
def Url.explicit (u : Url) : Option Port := u.port.bind fun d => portNumber d.1

/-- A port as `connect` passes it on. -/
def portText (p : Port) : Str := Nat.toDigits 10 p.toNat

section Upgrade

variable (bash : Bash) (service : Str → Option Port) (env : Environ)

/-- A connection to the port `p` starts `autossl-conn`, and that becomes a TLS program for the port
`q`.  `service` is how the TLS program reads the text of a port. -/
def StartsTls (ip : InAddr) (p q : Port) : Prop :=
  (∀ (sockpair : ℕ × ℕ) (sockfd : ℤ) (addrlen : ℕ),
    (connect env ⟨.ok sockpair, .ok (), .ok ()⟩ sockfd ⟨AF_INET, p, ip⟩ addrlen).exec =
      some ["autossl-conn".toList, inetNtoa ip, portText p]) ∧
  ∃ t, (conn bash env (inetNtoa ip) (portText p)).tls = some (inetNtoa ip, t) ∧ service t = some q

/-- The text is read as the port, and not as nothing. -/
def LeadsTo (t : Str) (p : Port) : Prop :=
  service t = some p ∧ bash.test ("-z".toList :: bash.expand t) = false

/-- The pairs of the caller. -/
def callerPairs : List Str := bash.expand (var env "AUTOSSL_TLS_PORT_MAP")

end Upgrade

/-! ### The arguments of the TLS command -/

theorem tlsArgs_eq (port : Port) (ip : InAddr) (cmd : Str) :
    tlsArgs ⟨AF_INET, port, ip⟩ cmd = [cmd, inetNtoa ip, portText port] := by
  have hip := length_inetNtoa_le ip
  rw [tlsArgs]
  dsimp only
  rw [List.take_of_length_le (by omega), List.take_of_length_le (length_portDigits_le port), portText]

/-! ### The rewritten argument -/

theorem rewrite_text (u : Url) : rewrite (u.text "https".toList) = u.text "http".toList := by
  obtain ⟨rest, hs, hp⟩ : ∃ rest, u.text "https".toList = "https:".toList ++ rest ∧
      u.text "http".toList = "http:".toList ++ rest := by
    refine ⟨"//".toList ++ (u.userinfo.elim [] (· ++ ['@']) ++ (u.host ++
      (u.port.elim [] (':' :: ·.1) ++ u.path))), ?_, ?_⟩ <;> simp [Url.text]
  rw [hs, hp, rewrite, if_pos (by simp)]
  exact replaceFirst_append (by simp) _ rest

/-! ### The port check -/

section Check

variable {bash : Bash} {service : Str → Option Port} {env : Environ} {p : Port}

theorem finds_upgradePorts : Finds readPort p (rests ' ' (upgradePorts env)) ↔
    p = 80 ∨ Finds readPort p (rests ' ' (var env "AUTOSSL_UPGRADE_PORTS")) := by
  have heighty (s : Str) (hs : entry ' ' s = "80".toList) : readPort s = some 80 :=
    readPort_of_portEntry (by rw [portEntry, hs]; decide)
  unfold upgradePorts sep
  generalize var env "AUTOSSL_UPGRADE_PORTS" = s
  split_ifs with hs
  · subst hs
    have hempty : ¬ Finds readPort p (rests ' ' []) := finds_cons_of_none (by decide)
    have hone : rests ' ' ("80".toList ++ [] ++ []) = ["80".toList] := rfl
    rw [hone, finds_cons (heighty _ rfl), eq_comm]
    simp [hempty, not_finds_nil]
  · rw [List.append_assoc, List.singleton_append, rests, restsAfter_append (by decide),
      finds_cons (heighty _ (by simp [entry])), eq_comm]

@[simp] theorem exported_ports (server : Option Str) :
    exported bash env server "AUTOSSL_UPGRADE_PORTS" = some (upgradePorts env) := by
  simp [exported]

@[simp] theorem exported_ips (server : Option Str) :
    exported bash env server "AUTOSSL_UPGRADE_IPS" = env "AUTOSSL_UPGRADE_IPS" := by
  simp [exported]

@[simp] theorem exported_cmd (server : Option Str) :
    exported bash env server "AUTOSSL_TLS_CMD" = some "autossl-conn".toList := by
  simp [exported]

@[simp] theorem exported_map (server : Option Str) :
    exported bash env server "AUTOSSL_TLS_PORT_MAP" = some (tlsPortMap env) := by
  simp [exported]

/-- `autossl-conn` is started for a port that the caller listed, or port 80. -/
theorem exec_connect_iff {server : Option Str} (hips : env "AUTOSSL_UPGRADE_IPS" = none)
    (sockpair : ℕ × ℕ) (sockfd : ℤ) (addrlen : ℕ) (ip : InAddr) :
    (connect (exported bash env server) ⟨.ok sockpair, .ok (), .ok ()⟩ sockfd ⟨AF_INET, p, ip⟩
        addrlen).exec = some ["autossl-conn".toList, inetNtoa ip, portText p] ↔
      p = 80 ∨ Finds readPort p (rests ' ' (var env "AUTOSSL_UPGRADE_PORTS")) := by
  rw [← tlsArgs_eq, ← finds_upgradePorts]
  exact exec_connect_of_ports rfl (exported_ports server) ((exported_ips server).trans hips)
    (exported_cmd server)

/-! ### The port map -/

/-- The pairs of `commonPorts`. -/
def commonPairs : List (Port × Port) :=
  [(21, 990), (23, 992), (25, 465), (80, 443), (110, 995), (119, 563), (143, 993), (194, 994),
    (389, 636)]

theorem words_commonPorts :
    words commonPorts = commonPairs.map fun x => portText x.1 ++ ':' :: portText x.2 := by
  decide

theorem isDigit_of_mem_portText {c : Char} (hc : c ∈ portText p) : c.isDigit = true :=
  isDigit_of_mem_toDigits hc

theorem colon_notMem_portText (p : Port) : ':' ∉ portText p := fun h =>
  absurd (isDigit_of_mem_portText h) (by decide)

theorem portText_injective {p q : Port} (h : portText p = portText q) : p = q := by
  have hn := congrArg decimal h
  rw [portText, portText, decimal_toDigits, decimal_toDigits] at hn
  exact BitVec.eq_of_toNat_eq (Option.some.inj hn)

theorem mem_words_commonPorts {w : Str} (hw : w ∈ words commonPorts) :
    ∃ a : Port, beforeColon w = portText a := by
  rw [words_commonPorts] at hw
  obtain ⟨x, -, rfl⟩ := List.mem_map.1 hw
  exact ⟨x.1, beforeColon_append (colon_notMem_portText _) _⟩

/-- The array when only the common pairs are assigned. -/
def commonTls : Str → Option Str := assignPairs (fun _ => none) (words commonPorts)

theorem commonTls_eighty : commonTls (portText 80) = some (portText 443) := by
  rw [commonTls, words_commonPorts]
  decide

theorem expand_commonPorts (bash : Bash) : bash.expand commonPorts = words commonPorts := by
  refine bash.expand_of_literal fun w hw c hc => ?_
  rw [words_commonPorts] at hw
  obtain ⟨x, -, rfl⟩ := List.mem_map.1 hw
  rcases List.mem_append.1 hc with hc | hc
  · exact .inl (isDigit_of_mem_portText hc)
  · rcases List.mem_cons.1 hc with rfl | hc
    · exact .inr rfl
    · exact .inl (isDigit_of_mem_portText hc)

theorem portText_ne_nil (p : Port) : portText p ≠ [] := Nat.toDigits_ne_nil

/-- The pairs of the caller come after the common ones. -/
theorem tlsPorts_exported (server : Option Str) :
    tlsPorts bash (exported bash env server) = assignPairs commonTls (callerPairs bash env) := by
  rw [tlsPorts, var, exported_map, Option.getD_some, tlsPortMap, expand_append_space,
    expand_commonPorts]
  refine assignPairs_append (fun w hw => ?_) _ _
  obtain ⟨a, hbefore⟩ := mem_words_commonPorts hw
  rw [hbefore]
  exact portText_ne_nil a

theorem conn_tls (ip k : Str) :
    (conn bash env ip k).tls =
      if bash.test ("-z".toList :: bash.expand ((tlsPorts bash env k).getD [])) = true then none
      else some (ip, (tlsPorts bash env k).getD []) := by
  unfold conn
  dsimp only
  split_ifs <;> rfl

variable (bash service env) in
/-- `autossl-conn` opens a TLS connection to what the array holds. -/
theorem conn_tls_iff (ip k : Str) (q : Port) :
    (∃ t, (conn bash env ip k).tls = some (ip, t) ∧ service t = some q) ↔
      ∃ t, tlsPorts bash env k = some t ∧ LeadsTo bash service t q := by
  rw [conn_tls]
  unfold LeadsTo
  cases tlsPorts bash env k with
  | none =>
    rw [if_pos (show bash.test ("-z".toList :: bash.expand (none.getD [])) = true from bash.test_z)]
    constructor
    · rintro ⟨t, ⟨⟩, -⟩
    · rintro ⟨t, ⟨⟩, -⟩
  | some t =>
    rw [Option.getD_some]
    cases htest : bash.test ("-z".toList :: bash.expand t) with
    | true =>
      constructor
      · rintro ⟨t, ⟨⟩, -⟩
      · rintro ⟨t', ⟨⟩, -, hf⟩
        cases htest.symm.trans hf
    | false =>
      constructor
      · rintro ⟨t', ⟨⟩, hq⟩
        exact ⟨t, rfl, hq, htest⟩
      · rintro ⟨t', ⟨⟩, hq, -⟩
        exact ⟨t, rfl, hq⟩

theorem leadsTo_portText (hservice : ∀ p, service (portText p) = some p) (p : Port) :
    LeadsTo bash service (portText p) p := by
  refine ⟨hservice p, ?_⟩
  rw [bash.expand_word (portText_ne_nil p) fun c hc => isDigit_of_mem_portText hc]
  exact bash.test_z_word _ (portText_ne_nil p)

/-! ### The whole way -/

theorem off_eq_false (hconv : env "AUTOSSL_CONVENIENCE" ≠ some "off".toList) :
    decide (var env "AUTOSSL_CONVENIENCE" = "off".toList) = false :=
  decide_eq_false (var_ne (by decide) hconv)

variable (bash) in
theorem exec_wrapper {args : List Str} (hne : args ≠ [])
    (hhelp : args.head? ≠ some "--help".toList)
    (hconv : env "AUTOSSL_CONVENIENCE" ≠ some "off".toList) :
    ∃ stderr server, wrapper bash env args =
      .exec stderr (args.map rewrite) (Bash.exec (exported bash env server) (args.map rewrite)) := by
  unfold wrapper
  rw [if_neg hne, if_neg hhelp, off_eq_false hconv]
  exact ⟨_, _, rfl⟩

/-- What is run, is run with the exported environment, and that has the name of the last URL. -/
theorem result_eq_exec {args args' stderr : List Str} {result : Except ℕ Command}
    (hrun : wrapper bash env args = .exec stderr args' result) :
    ∃ server, result = Bash.exec (exported bash env server) args' ∧
      (env "AUTOSSL_CONVENIENCE" ≠ some "off".toList →
        server = (args.filterMap servername).getLast?) := by
  unfold wrapper at hrun
  split_ifs at hrun
  dsimp only at hrun
  injection hrun with _ hargs hresult
  rw [hargs] at hresult
  refine ⟨_, hresult.symm, fun hconv => ?_⟩
  rw [off_eq_false hconv]
  rfl

/-- A command has the exported environment, or none. -/
theorem env_of_wrapper {args args' stderr : List Str} {cmd : Command}
    (hrun : wrapper bash env args = .exec stderr args' (.ok cmd)) :
    ∃ server, (cmd.env = exported bash env server ∨ cmd.env = fun _ => none) ∧
      (env "AUTOSSL_CONVENIENCE" ≠ some "off".toList →
        server = (args.filterMap servername).getLast?) := by
  obtain ⟨server, hexec, hserver⟩ := result_eq_exec hrun
  obtain ⟨o, file, words, -, rfl⟩ := exec_eq_ok.1 hexec.symm
  refine ⟨server, ?_, hserver⟩
  dsimp only
  split_ifs
  · exact .inr rfl
  · exact .inl rfl

variable (bash service env) in
/-- Under the wrapper the TLS program is started when the port is listed and the array leads to the
other port. -/
theorem starts_iff (server : Option Str) (hips : env "AUTOSSL_UPGRADE_IPS" = none) (ip : InAddr)
    (q : Port) :
    StartsTls bash service (exported bash env server) ip p q ↔
      (p = 80 ∨ Finds readPort p (rests ' ' (var env "AUTOSSL_UPGRADE_PORTS"))) ∧
      ∃ t, assignPairs commonTls (callerPairs bash env) (portText p) = some t ∧
        LeadsTo bash service t q := by
  rw [StartsTls, conn_tls_iff, tlsPorts_exported]
  refine and_congr_left fun _ => ?_
  constructor
  · exact fun h => (exec_connect_iff hips (0, 0) 0 0 ip).1 (h (0, 0) 0 0)
  · exact fun h sockpair sockfd addrlen => (exec_connect_iff hips sockpair sockfd addrlen ip).2 h

end Check

/-! ## A shell and two URLs -/

/-- File name expansion in an empty directory, and `[` with at most two operands. -/
def Sample.bash : Bash where
  glob w := [w]
  test
    | [w] => w ≠ []
    | [op, w] => (op = "-z".toList ∨ op = "!".toList) ∧ w = []
    | _ => false
  glob_literal _ _ := rfl
  test_z := rfl
  test_z_word w hw := by simp [hw]

/-- Ports are given by their numbers. -/
def Sample.service (s : Str) : Option Port := (decimal s).map (BitVec.ofNat 16)

theorem Sample.service_portText (p : Port) : Sample.service (portText p) = some p := by
  rw [service, portText, decimal_toDigits]
  simp

/-- `//example.org/`, with a port or without. -/
def Sample.url (port : Option {d : Str // (portNumber d).isSome = true}) : Url where
  userinfo := none
  host := "example.org".toList
  port := port
  path := "/".toList
  userinfo_ok := by simp
  host_ok := by simp
  path_ok := by decide

/-- The URL with the port 8443. -/
def Sample.url8443 : Url := Sample.url (some ⟨"8443".toList, by decide⟩)

/-- `autossl wget URL`. -/
theorem Sample.wrapper_wget (env : Environ) (hconv : env "AUTOSSL_CONVENIENCE" = none) (u : Url) :
    ∃ stderr server file argv,
      wrapper Sample.bash env ["wget".toList, u.text "https".toList] =
        .exec stderr ["wget".toList, u.text "http".toList]
          (.ok ⟨file, argv, exported Sample.bash env server⟩) := by
  obtain ⟨stderr, server, hrun⟩ := @exec_wrapper Sample.bash env
    ["wget".toList, u.text "https".toList] (by simp) (by simp)
    (fun h => by cases hconv.symm.trans h)
  have hargs : ["wget".toList, u.text "https".toList].map rewrite =
      ["wget".toList, u.text "http".toList] := by
    rw [List.map_cons, List.map_cons, rewrite_text]
    rfl
  rw [hargs] at hrun
  have hwget : "wget".toList.head? ≠ some '-' := by decide
  rw [exec_of_head hwget] at hrun
  exact ⟨stderr, server, _, _, hrun⟩

end YazzyPreload.Autossl

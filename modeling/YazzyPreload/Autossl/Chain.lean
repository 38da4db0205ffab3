import YazzyPreload.Autossl.Wrapper
import YazzyPreload.Halting
import YazzyPreload.Ntop

/-!
# The programs between the command and its server

The program that `autossl-conn` becomes inherits `LD_PRELOAD`, so its own connection goes through
`connect` of `autossl.so` too.  Only `nc` is run without `AUTOSSL_UPGRADE_PORTS`: a TLS program
whose port is listed is given another TLS program, and so on.

`chain_ends_iff` says when the chain of programs ends at all.  This is a matter of the ports: no
port may lead, pair by pair, back to itself.  `clear_iff` is about the last connection, the one that
is made in the clear, and `wrapper_serves` puts the two together for the port pairs of `autossl`.
-/

namespace YazzyPreload.Autossl

open Bash Relation StateTransition

/-- How the programs read the address and the port they are given. -/
structure Resolver where
  host : Str → Option InAddr
  service : Str → Option Port
  host_ntoa : ∀ ip, host (inetNtoa ip) = some ip
  service_port : ∀ p, service (portText p) = some p

/-- A program that is about to connect. -/
structure Client where
  env : Environ
  addr : SockaddrIn

/-- The program that the child of `connect` runs when the calls before that succeed.  Which
descriptors there are makes no difference (`exec_connect`). -/
def Client.helper (c : Client) : Option (List Str) :=
  (connect c.env ⟨.ok (0, 0), .ok (), .ok ()⟩ 0 c.addr 0).exec

/-- The environment that `autossl-conn` leaves to the program it becomes. -/
def Channel.env (getenv : Environ) : Channel → Environ
  | .nc _ _ => fun name => if name = "AUTOSSL_UPGRADE_PORTS" then none else getenv name
  | .stunnel .. | .openssl .. => getenv

/-- Where the program connects to. -/
def Channel.dest : Channel → Str × Str
  | .nc ip port | .stunnel ip port _ | .openssl ip port _ => (ip, port)

/-- The program as a client. -/
def Channel.client (resolver : Resolver) (getenv : Environ) (ch : Channel) : Option Client :=
  match resolver.host ch.dest.1, resolver.service ch.dest.2 with
  | some ip, some port => some ⟨ch.env getenv, ⟨AF_INET, port, ip⟩⟩
  | _, _ => none

section Chain

variable (bash : Bash) (resolver : Resolver)

/-- The program that opens a connection in place of the client, when `AUTOSSL_TLS_CMD` is
`autossl-conn`. -/
def Client.channel (c : Client) : Option Channel :=
  c.helper.map fun args => conn bash c.env (args.getD 1 []) (args.getD 2 [])

/-- The client that connects in place of this one. -/
def Client.next (c : Client) : Option Client :=
  (c.channel bash).bind (Channel.client resolver c.env)

/-- The connection to the address is handed to the TLS command. -/
def Intercepted (env : Environ) (addr : SockaddrIn) : Prop :=
  (∃ s, env "AUTOSSL_UPGRADE_PORTS" = some s ∧ Finds readPort addr.sin_port (rests ' ' s)) ∧
    IpListed env addr ∧ (env "AUTOSSL_TLS_CMD").isSome = true

/-- A scan comes to an entry that it cannot read. -/
def Unreadable (env : Environ) (addr : SockaddrIn) : Prop :=
  ∃ s, env "AUTOSSL_UPGRADE_PORTS" = some s ∧ (Trips readPort addr.sin_port (rests ' ' s) ∨
    Finds readPort addr.sin_port (rests ' ' s) ∧ IpMalformed env addr)

/-- The client's own call is passed on to the system. -/
def Client.Connects (c : Client) : Prop :=
  ∀ sys sockfd addrlen,
    (connect c.env sys sockfd c.addr addrlen).ends = .orig_connect sockfd c.addr addrlen

/-- A connection to the port `p` of the address is replaced by a TLS connection to the port `q`. -/
def Paired (env : Environ) (ip : InAddr) (p q : Port) : Prop :=
  Intercepted env ⟨AF_INET, p, ip⟩ ∧
    ∃ t, tlsPorts bash env (portText p) = some t ∧ LeadsTo bash resolver.service t q

end Chain

variable {bash : Bash} {resolver : Resolver} {env : Environ} {addr : SockaddrIn} {ip : InAddr}
  {p q : Port}

/-! ## One step -/

theorem exec_connect (sockpair : ℕ × ℕ) (sockfd : ℤ) (addrlen : ℕ) (hf : addr.sin_family = AF_INET)
    {args : List Str} :
    (connect env ⟨.ok sockpair, .ok (), .ok ()⟩ sockfd addr addrlen).exec = some args ↔
      Intercepted env addr ∧ ∃ cmd, env "AUTOSSL_TLS_CMD" = some cmd ∧ args = tlsArgs addr cmd := by
  unfold Intercepted
  cases hs : env "AUTOSSL_UPGRADE_PORTS" with
  | none =>
    rw [connect, if_neg (not_not.2 hf), hs]
    simp
  | some s =>
    rw [connect_of_ports hf hs]
    simp only [Option.some.injEq, exists_eq_left', ← scan_eq_found]
    cases scan readPort addr.sin_port (rests ' ' s) with
    | malformed r => simp
    | missing => simp
    | found =>
      rcases checkIps_spec env sockfd addr addrlen sockpair with
        ⟨-, hl, he, -⟩ | ⟨-, hl, he, -⟩ | ⟨-, hl, cmd, hcmd, he, -⟩
      · simp [he, hl]
      · simp [he, hl]
      · simp [he, hl, hcmd, eq_comm]

theorem helper_eq_some (hf : addr.sin_family = AF_INET) {args : List Str} :
    Client.helper ⟨env, addr⟩ = some args ↔
      Intercepted env addr ∧ ∃ cmd, env "AUTOSSL_TLS_CMD" = some cmd ∧ args = tlsArgs addr cmd :=
  exec_connect (0, 0) 0 0 hf

theorem helper_eq_none (hf : addr.sin_family = AF_INET) :
    Client.helper ⟨env, addr⟩ = none ↔ ¬ Intercepted env addr := by
  rw [Option.eq_none_iff_forall_ne_some]
  simp only [ne_eq, helper_eq_some hf]
  constructor
  · intro h hi
    obtain ⟨cmd, hcmd⟩ := Option.isSome_iff_exists.1 hi.2.2
    exact h _ ⟨hi, cmd, hcmd, rfl⟩
  · exact fun h args ha => h ha.1

theorem ends_checkIps {sys : Answers} {sockfd : ℤ} {addrlen : ℕ}
    (hl : ¬ (IpListed env addr ∧ (env "AUTOSSL_TLS_CMD").isSome = true))
    (hm : ¬ IpMalformed env addr) :
    (checkIps env sys sockfd addr addrlen).ends = .orig_connect sockfd addr addrlen := by
  have hupgrade (hip : IpListed env addr) :
      (upgrade env sys sockfd addr addrlen).ends = .orig_connect sockfd addr addrlen := by
    have hcmd : env "AUTOSSL_TLS_CMD" = none := by simpa [hip] using hl
    rw [upgrade, hcmd]
  unfold checkIps
  cases hips : env "AUTOSSL_UPGRADE_IPS" with
  | none => exact hupgrade fun s hs => by cases hips.symm.trans hs
  | some s =>
    dsimp only
    cases hscan : scan inetAton addr.sin_addr (rests ' ' s) with
    | malformed r => exact absurd ⟨s, hips, trips_ips.2 ⟨r, hscan⟩⟩ hm
    | missing => rfl
    | found =>
      refine hupgrade fun s' hs' => ?_
      cases hips.symm.trans hs'
      exact finds_ips.2 hscan

/-- A call that is not handed to the TLS command is passed on when every entry can be read. -/
theorem connects_of_readable (hf : addr.sin_family = AF_INET) (hi : ¬ Intercepted env addr)
    (hr : ¬ Unreadable env addr) : Client.Connects ⟨env, addr⟩ := by
  intro sys sockfd addrlen
  dsimp only
  cases hs : env "AUTOSSL_UPGRADE_PORTS" with
  | none => rw [connect, if_neg (not_not.2 hf), hs]
  | some s =>
    rw [connect_of_ports hf hs]
    cases hscan : scan readPort addr.sin_port (rests ' ' s) with
    | malformed r => exact absurd ⟨s, hs, .inl (trips_iff.2 ⟨r, hscan⟩)⟩ hr
    | missing => rfl
    | found =>
      have hfinds := scan_eq_found.1 hscan
      exact ends_checkIps (fun h => hi ⟨⟨s, hs, hfinds⟩, h⟩)
        fun h => hr ⟨s, hs, .inr ⟨hfinds, h⟩⟩

/-- With `AUTOSSL_ERRNO` a call that comes to such an entry fails. -/
theorem not_connects {e : Str} (hf : addr.sin_family = AF_INET)
    (herrno : env "AUTOSSL_ERRNO" = some e) (hu : Unreadable env addr) :
    ¬ Client.Connects ⟨env, addr⟩ := by
  intro h
  have hends := h ⟨.ok (0, 0), .ok (), .ok ()⟩ 0 0
  have herr : errorCase env 0 addr 0 = .failure (atoi e) := by rw [errorCase, herrno]
  obtain ⟨s, hs, htrips | ⟨hfinds, hm⟩⟩ := hu
  · obtain ⟨r, hr⟩ := trips_iff.1 htrips
    rw [connect_of_ports hf hs, hr] at hends
    cases herr.symm.trans hends
  · rw [connect_of_ports hf hs, scan_eq_found.2 hfinds] at hends
    rcases checkIps_spec env 0 addr 0 (0, 0) with ⟨-, -, -, ho⟩ | ⟨hno, -⟩ | ⟨hno, -⟩
    · cases (ho.trans herr).symm.trans hends
    · exact hno hm
    · exact hno hm

theorem channel_eq (hi : Intercepted env ⟨AF_INET, p, ip⟩) :
    Client.channel bash ⟨env, ⟨AF_INET, p, ip⟩⟩ = some (conn bash env (inetNtoa ip) (portText p)) := by
  obtain ⟨cmd, hcmd⟩ := Option.isSome_iff_exists.1 hi.2.2
  have hh := (helper_eq_some rfl).2 ⟨hi, cmd, hcmd, rfl⟩
  rw [Client.channel, hh, tlsArgs_eq]
  rfl

theorem next_eq_none (h : ¬ Intercepted env ⟨AF_INET, p, ip⟩) :
    Client.next bash resolver ⟨env, ⟨AF_INET, p, ip⟩⟩ = none := by
  rw [Client.next, Client.channel, (helper_eq_none rfl).2 h]
  rfl

theorem conn_eq (bash : Bash) (env : Environ) (ip k : Str) :
    (∃ t, tlsPorts bash env k = some t ∧ bash.test ("-z".toList :: bash.expand t) = false ∧
      (conn bash env ip k).tls = some (ip, t) ∧ (conn bash env ip k).dest = (ip, t) ∧
        (conn bash env ip k).env env = env) ∨
    (∀ t, tlsPorts bash env k = some t → bash.test ("-z".toList :: bash.expand t) = true) ∧
      conn bash env ip k = .nc ip k := by
  unfold conn
  cases tlsPorts bash env k with
  | none =>
    right
    constructor
    · rintro t ⟨⟩
    · exact if_pos bash.test_z
  | some t =>
    dsimp only [Option.getD_some]
    cases htest : bash.test ("-z".toList :: bash.expand t) with
    | true =>
      right
      refine ⟨fun t' h => ?_, if_pos rfl⟩
      cases h
      exact htest
    | false =>
      left
      refine ⟨t, rfl, htest, ?_⟩
      rw [if_neg Bool.false_ne_true]
      split_ifs <;> exact ⟨rfl, rfl, rfl⟩

/-- A TLS connection to the port `q` takes the place of the connection. -/
theorem next_of_paired (h : Paired bash resolver env ip p q) :
    Client.next bash resolver ⟨env, ⟨AF_INET, p, ip⟩⟩ = some ⟨env, ⟨AF_INET, q, ip⟩⟩ := by
  obtain ⟨hi, t, ht, hq, hz⟩ := h
  rw [Client.next, channel_eq hi, Option.bind_some, Channel.client]
  rcases conn_eq bash env (inetNtoa ip) (portText p) with ⟨t', ht', -, -, hd, henv⟩ | ⟨hno, -⟩
  · obtain rfl := Option.some.inj (ht.symm.trans ht')
    rw [hd, henv]
    dsimp only
    rw [resolver.host_ntoa, hq]
  · rw [hno t ht] at hz
    cases hz

/-- Otherwise there is at most `nc`, and nothing takes the place of that. -/
theorem dom_of_unpaired (h : ∀ q, ¬ Paired bash resolver env ip p q) :
    (eval (Client.next bash resolver) ⟨env, ⟨AF_INET, p, ip⟩⟩).Dom := by
  by_cases hi : Intercepted env ⟨AF_INET, p, ip⟩
  · rcases conn_eq bash env (inetNtoa ip) (portText p) with ⟨t, ht, hz, -, hd, -⟩ | ⟨-, hnc⟩
    · -- the text of the port cannot be read
      refine dom_eval_of_none ?_
      have hserv : resolver.service t = none := by
        cases hs : resolver.service t with
        | none => rfl
        | some q => exact absurd ⟨hi, t, ht, hs, hz⟩ (h q)
      rw [Client.next, channel_eq hi, Option.bind_some, Channel.client, hd]
      dsimp only
      rw [resolver.host_ntoa, hserv]
    · have hnext : Client.next bash resolver ⟨env, ⟨AF_INET, p, ip⟩⟩ =
          some ⟨(Channel.nc (inetNtoa ip) (portText p)).env env, ⟨AF_INET, p, ip⟩⟩ := by
        rw [Client.next, channel_eq hi, Option.bind_some, hnc, Channel.client]
        dsimp only [Channel.dest]
        rw [resolver.host_ntoa, resolver.service_port]
      rw [dom_eval_of_some hnext]
      refine dom_eval_of_none (next_eq_none ?_)
      rintro ⟨⟨s, hs, -⟩, -⟩
      cases hs
  · exact dom_eval_of_none (next_eq_none hi)

/-! ## When the server is reached -/

open Classical in
/-- The port that takes the place of a port. -/
noncomputable def pairOf (bash : Bash) (resolver : Resolver) (env : Environ) (ip : InAddr)
    (p : Port) : Option Port :=
  if h : ∃ q, Paired bash resolver env ip p q then some h.choose else none

theorem Paired.unique {q' : Port} (h : Paired bash resolver env ip p q)
    (h' : Paired bash resolver env ip p q') : q = q' := by
  have := (next_of_paired h).symm.trans (next_of_paired h')
  injection this with this
  injection this with _ this
  injection this

theorem mem_pairOf : q ∈ pairOf bash resolver env ip p ↔ Paired bash resolver env ip p q := by
  rw [pairOf, Option.mem_def]
  by_cases h : ∃ q, Paired bash resolver env ip p q
  · rw [dif_pos h, Option.some.injEq]
    exact ⟨fun e => e ▸ h.choose_spec, fun hq => h.choose_spec.unique hq⟩
  · rw [dif_neg h]
    constructor
    · rintro ⟨⟩
    · exact fun hq => absurd ⟨q, hq⟩ h

theorem not_paired_of_none (h : pairOf bash resolver env ip p = none) (q : Port) :
    ¬ Paired bash resolver env ip p q := by
  intro hq
  rw [mem_pairOf.2 hq] at h
  cases h

/-- A server is reached unless the port leads, pair by pair, to one that leads back to itself. -/
theorem chain_ends_iff (bash : Bash) (resolver : Resolver) (env : Environ) (ip : InAddr) (p : Port) :
    (eval (Client.next bash resolver) ⟨env, ⟨AF_INET, p, ip⟩⟩).Dom ↔
      ∀ q, ReflTransGen (Paired bash resolver env ip) p q →
        ¬ TransGen (Paired bash resolver env ip) q q := by
  have hpaired : (fun p q => q ∈ pairOf bash resolver env ip p) = Paired bash resolver env ip :=
    funext₂ fun _ _ => propext mem_pairOf
  have hfollows := dom_eval_follows (f := Client.next bash resolver)
    (fun p => ⟨env, ⟨AF_INET, p, ip⟩⟩)
    (fun p q h => next_of_paired (mem_pairOf.1 h))
    (fun p h => dom_of_unpaired (not_paired_of_none h)) p
  have : Finite Port := Finite.of_injective BitVec.toFin fun _ _ => BitVec.eq_of_toFin_eq
  rw [hfollows, dom_eval_iff_no_cycle]
  unfold Reaches Reaches₁
  rw [hpaired]

/-! ## The last connection -/

/-- From the first client on the programs are started one after the other, each to connect in place
of the one before, and no program is started for the last one. -/
inductive Between (bash : Bash) (resolver : Resolver) : Client → List Channel → Client → Prop
  | last {c : Client} : c.helper = none → Between bash resolver c [] c
  | through {c c' c'' : Client} {ch : Channel} {chs : List Channel} : c.channel bash = some ch →
      ch.client resolver c.env = some c' → Between bash resolver c' chs c'' →
      Between bash resolver c (ch :: chs) c''

section Last

variable (bash : Bash) (resolver : Resolver)

/-- The connection is made in the clear, by the client or by `nc`. -/
def Clear (env : Environ) (addr : SockaddrIn) : Prop :=
  ∃ chs c, Between bash resolver ⟨env, addr⟩ chs c ∧ chs.filterMap Channel.tls = [] ∧
    c.addr = addr ∧ c.Connects

/-- The connection to the port `p` is made by one TLS program, to the port `q`, and that one's own
connection is made in the clear. -/
def Carried (env : Environ) (ip : InAddr) (p q : Port) : Prop :=
  ∃ chs t c, Between bash resolver ⟨env, ⟨AF_INET, p, ip⟩⟩ chs c ∧
    chs.filterMap Channel.tls = [(inetNtoa ip, t)] ∧ resolver.service t = some q ∧
    c.addr = ⟨AF_INET, q, ip⟩ ∧ c.Connects

end Last

theorem between_of_intercepted {c : Client} {chs : List Channel}
    (hi : Intercepted env ⟨AF_INET, p, ip⟩)
    (h : Between bash resolver ⟨env, ⟨AF_INET, p, ip⟩⟩ chs c) :
    ∃ c' chs', Client.next bash resolver ⟨env, ⟨AF_INET, p, ip⟩⟩ = some c' ∧
      chs = conn bash env (inetNtoa ip) (portText p) :: chs' ∧ Between bash resolver c' chs' c := by
  cases h with
  | last h => exact absurd hi ((helper_eq_none rfl).1 h)
  | through hch hc' h =>
    rw [Client.next, hch]
    cases (channel_eq hi).symm.trans hch
    exact ⟨_, _, hc', rfl, h⟩

theorem tls_of_paired {t : Str} (h : Paired bash resolver env ip p q)
    (ht : tlsPorts bash env (portText p) = some t) :
    (conn bash env (inetNtoa ip) (portText p)).tls = some (inetNtoa ip, t) := by
  obtain ⟨-, t', ht', -, hz⟩ := h
  cases ht.symm.trans ht'
  rw [conn_tls, ht, if_neg (by simpa using hz)]
  rfl

/-- The TLS program is a client in turn. -/
theorem carried_iff (h : Paired bash resolver env ip p q) :
    Carried bash resolver env ip p q ↔ Clear bash resolver env ⟨AF_INET, q, ip⟩ := by
  have hnext := next_of_paired h
  obtain ⟨t, ht, hq, -⟩ := h.2
  have hi := h.1
  have htls := tls_of_paired h ht
  constructor
  · rintro ⟨chs, t', c, hb, hone, -, haddr, hc⟩
    obtain ⟨c', chs', hc', rfl, hb'⟩ := between_of_intercepted hi hb
    cases hnext.symm.trans hc'
    rw [List.filterMap_cons, htls] at hone
    exact ⟨chs', c, hb', (List.cons.inj hone).2, haddr, hc⟩
  · rintro ⟨chs, c, hb, hnone, haddr, hc⟩
    rw [Client.next, channel_eq hi, Option.bind_some] at hnext
    refine ⟨_, t, c, .through (channel_eq hi) hnext hb, ?_, hq, haddr, hc⟩
    rw [List.filterMap_cons, htls, hnone]

/-- A connection that no TLS program takes over is made in the clear, by the client or by `nc`. -/
theorem between_clear (h : ∀ t, tlsPorts bash env (portText p) = some t →
      bash.test ("-z".toList :: bash.expand t) = true) :
    ∃ chs c, Between bash resolver ⟨env, ⟨AF_INET, p, ip⟩⟩ chs c ∧ c.addr = ⟨AF_INET, p, ip⟩ ∧
      chs.filterMap Channel.tls = [] ∧ (¬ Unreadable env ⟨AF_INET, p, ip⟩ → c.Connects) := by
  by_cases hi : Intercepted env ⟨AF_INET, p, ip⟩
  · rcases conn_eq bash env (inetNtoa ip) (portText p) with ⟨t, ht, hz, -⟩ | ⟨-, hnc⟩
    · rw [h t ht] at hz
      cases hz
    · have hclient : (Channel.nc (inetNtoa ip) (portText p)).client resolver env =
          some ⟨(Channel.nc (inetNtoa ip) (portText p)).env env, ⟨AF_INET, p, ip⟩⟩ := by
        rw [Channel.client]
        dsimp only [Channel.dest]
        rw [resolver.host_ntoa, resolver.service_port]
      -- `nc` has no list of ports
      have hports :
          (Channel.nc (inetNtoa ip) (portText p)).env env "AUTOSSL_UPGRADE_PORTS" = none := rfl
      have hnone : ¬ Intercepted ((Channel.nc (inetNtoa ip) (portText p)).env env)
          ⟨AF_INET, p, ip⟩ := by
        rintro ⟨⟨s, hs, -⟩, -⟩
        cases hports.symm.trans hs
      have hhelper := (helper_eq_none rfl).2 hnone
      refine ⟨_, _, .through (hnc ▸ channel_eq hi) hclient (.last hhelper), rfl, rfl,
        fun _ => connects_of_readable rfl hnone ?_⟩
      rintro ⟨s, hs, -⟩
      cases hports.symm.trans hs
  · exact ⟨[], _, .last ((helper_eq_none rfl).2 hi), rfl, rfl, connects_of_readable rfl hi⟩

theorem not_unreadable (hi : Intercepted env addr) : ¬ Unreadable env addr := by
  obtain ⟨⟨s, hs, hfinds⟩, hip, -⟩ := hi
  rintro ⟨s', hs', htrips | ⟨-, l, hl, htrips⟩⟩
  · cases hs.symm.trans hs'
    obtain ⟨r, hr⟩ := trips_iff.1 htrips
    cases (scan_eq_found.2 hfinds).symm.trans hr
  · obtain ⟨r, hr⟩ := trips_ips.1 htrips
    cases (finds_ips.1 (hip l hl)).symm.trans hr

/-- A connection is made in the clear when every entry that the scans come to can be read, and the
port, if it is handed on, is paired with nothing. -/
theorem clear_iff {e : Str} (herrno : env "AUTOSSL_ERRNO" = some e) :
    Clear bash resolver env ⟨AF_INET, p, ip⟩ ↔ ¬ Unreadable env ⟨AF_INET, p, ip⟩ ∧
      (Intercepted env ⟨AF_INET, p, ip⟩ → ∀ t, tlsPorts bash env (portText p) = some t →
        bash.test ("-z".toList :: bash.expand t) = true) := by
  by_cases hi : Intercepted env ⟨AF_INET, p, ip⟩
  · refine Iff.trans ?_ (and_iff_right (not_unreadable hi)).symm
    constructor
    · rintro ⟨chs, c, hb, hnone, -⟩ -
      obtain ⟨c', chs', -, rfl, -⟩ := between_of_intercepted hi hb
      rcases conn_eq bash env (inetNtoa ip) (portText p) with ⟨t, -, -, htls, -⟩ | ⟨hno, -⟩
      · rw [List.filterMap_cons, htls] at hnone
        cases hnone
      · exact hno
    · intro h
      obtain ⟨chs, c, hb, haddr, hnone, hc⟩ := between_clear (h hi)
      exact ⟨chs, c, hb, hnone, haddr, hc (not_unreadable hi)⟩
  · refine Iff.trans ?_ (and_iff_left fun h => absurd h hi).symm
    constructor
    · rintro ⟨chs, c, hb, -, -, hc⟩ hu
      cases hb with
      | last => exact not_connects rfl herrno hu hc
      | through hch =>
        rw [Client.channel, (helper_eq_none rfl).2 hi] at hch
        cases hch
    · exact fun h => ⟨[], _, .last ((helper_eq_none rfl).2 hi), rfl, rfl,
        connects_of_readable rfl hi h⟩

/-! ## The pairs of `autossl` -/

/-- The port that a port is paired with in `commonPorts`. -/
def commonPort (p : Port) : Option Port := (commonPairs.reverse.find? (·.1 = p)).map Prod.snd

theorem assignPairs_portText (l : List (Port × Port)) (array : Str → Option Str) (p : Port) :
    assignPairs array (l.map fun x => portText x.1 ++ ':' :: portText x.2) (portText p) =
      ((l.reverse.find? (·.1 = p)).map fun x => portText x.2).or (array (portText p)) := by
  induction l generalizing array with
  | nil => rfl
  | cons x l ih =>
    have hbefore := beforeColon_append (colon_notMem_portText x.1) (portText x.2)
    have hafter := afterColon_append (portText x.1) (colon_notMem_portText x.2)
    rw [List.map_cons, assignPairs, hbefore, hafter, if_neg (portText_ne_nil x.1), ih,
      List.reverse_cons, List.find?_append]
    cases l.reverse.find? (·.1 = p) with
    | some y => rfl
    | none =>
      by_cases hx : x.1 = p
      · simp [hx]
      · have hne : portText p ≠ portText x.1 := fun h => hx (portText_injective h).symm
        simp [hx, Function.update_of_ne hne]

theorem commonTls_portText (p : Port) : commonTls (portText p) = (commonPort p).map portText := by
  rw [commonTls, words_commonPorts, assignPairs_portText, commonPort, Option.map_map, Option.or_none]
  rfl

/-- No port of the second column is in the first one. -/
theorem commonPort_commonPort (h : commonPort p = some q) : commonPort q = none := by
  obtain ⟨x, hx, rfl⟩ := Option.map_eq_some_iff.1 h
  have hmem := List.mem_reverse.1 (List.mem_of_find?_eq_some hx)
  have hall : (commonPairs.all fun x => commonPairs.all fun y => y.1 != x.2) = true := by decide
  have hne := List.all_eq_true.1 (List.all_eq_true.1 hall x hmem)
  rw [commonPort, Option.map_eq_none_iff, List.find?_eq_none]
  intro y hy
  simpa using hne y (List.mem_reverse.1 hy)

/-- Without pairs of the caller every connection comes to a last client: through one TLS program,
which connects to the port that is paired with its own, if it is upgraded, and otherwise to its own
port in the clear. -/
theorem wrapper_serves (bash : Bash) (resolver : Resolver) {env : Environ}
    (hpairs : callerPairs bash env = []) {args stderr args' : List Str} {cmd : Command}
    (hrun : wrapper bash env args = .exec stderr args' (.ok cmd)) (p : Port) (ip : InAddr) :
    ∃ chs c, Between bash resolver ⟨cmd.env, ⟨AF_INET, p, ip⟩⟩ chs c ∧
      ((∃ q, Intercepted cmd.env ⟨AF_INET, p, ip⟩ ∧ commonPort p = some q ∧
          c.addr = ⟨AF_INET, q, ip⟩ ∧ chs.filterMap Channel.tls = [(inetNtoa ip, portText q)]) ∨
        (Intercepted cmd.env ⟨AF_INET, p, ip⟩ → commonPort p = none) ∧
          c.addr = ⟨AF_INET, p, ip⟩ ∧ chs.filterMap Channel.tls = []) ∧
      (¬ Unreadable cmd.env c.addr → c.Connects) := by
  obtain ⟨server, henv | henv, -⟩ := env_of_wrapper hrun
  · have hports : ∀ p, tlsPorts bash cmd.env (portText p) = (commonPort p).map portText := by
      intro p
      rw [henv, tlsPorts_exported, hpairs, assignPairs, commonTls_portText]
    have hclear : ∀ p, commonPort p = none → ∀ t, tlsPorts bash cmd.env (portText p) = some t →
        bash.test ("-z".toList :: bash.expand t) = true := by
      intro p hp t ht
      rw [hports, hp] at ht
      cases ht
    by_cases hi : Intercepted cmd.env ⟨AF_INET, p, ip⟩
    · cases hq : commonPort p with
      | none =>
        obtain ⟨chs, c, hb, haddr, htls, hc⟩ := between_clear (hclear p hq)
        exact ⟨chs, c, hb, .inr ⟨fun _ => rfl, haddr, htls⟩, by rwa [haddr]⟩
      | some q =>
        obtain ⟨chs, c, hb, haddr, htls, hc⟩ := between_clear (hclear q (commonPort_commonPort hq))
        have ht : tlsPorts bash cmd.env (portText p) = some (portText q) := by
          rw [hports, hq]
          rfl
        have hpaired : Paired bash resolver cmd.env ip p q :=
          ⟨hi, _, ht, leadsTo_portText resolver.service_port q⟩
        have hnext := next_of_paired hpaired
        rw [Client.next, channel_eq hi, Option.bind_some] at hnext
        refine ⟨_, c, .through (channel_eq hi) hnext hb, .inl ⟨q, hi, rfl, haddr, ?_⟩,
          by rwa [haddr]⟩
        rw [List.filterMap_cons, tls_of_paired hpaired ht, htls]
    · exact ⟨[], _, .last ((helper_eq_none rfl).2 hi), .inr ⟨fun h => absurd h hi, rfl, rfl⟩,
        connects_of_readable rfl hi⟩
  · have hi : ¬ Intercepted cmd.env ⟨AF_INET, p, ip⟩ := by
      rw [henv]
      rintro ⟨⟨s, ⟨⟩, -⟩, -⟩
    exact ⟨[], _, .last ((helper_eq_none rfl).2 hi), .inr ⟨fun h => absurd h hi, rfl, rfl⟩,
      connects_of_readable rfl hi⟩

namespace Sample

/-- Texts are read as numbers. -/
def numeric : Resolver := ⟨inetPton4, Sample.service, inetPton4_inetNtoa, Sample.service_portText⟩

end Sample

/-- `autossl wget https://example.org/` without a port map of the caller. -/
theorem wrapper_serves_eighty : ∃ stderr args' cmd,
    wrapper Sample.bash (fun _ => none) ["wget".toList, (Sample.url none).text "https".toList] =
      .exec stderr args' (.ok cmd) ∧
    ∃ chs c, Between Sample.bash Sample.numeric ⟨cmd.env, ⟨AF_INET, 80, 0xC0000201⟩⟩ chs c ∧
      c.addr = ⟨AF_INET, 443, 0xC0000201⟩ ∧
      chs.filterMap Channel.tls = [("192.0.2.1".toList, "443".toList)] ∧ c.Connects := by
  obtain ⟨stderr, server, file, argv, hrun⟩ :=
    Sample.wrapper_wget (fun _ => none) rfl (Sample.url none)
  refine ⟨_, _, _, hrun, ?_⟩
  have hports : exported Sample.bash (fun _ => none) server "AUTOSSL_UPGRADE_PORTS" =
      some "80".toList := exported_ports server
  obtain ⟨chs, c, hb, ⟨q, -, hq, haddr, htls⟩ | ⟨hno, -⟩, hc⟩ := wrapper_serves Sample.bash
    Sample.numeric rfl hrun 80 0xC0000201
  · obtain rfl : 443 = q := Option.some.inj hq
    refine ⟨chs, c, hb, haddr, htls, hc ?_⟩
    rw [haddr]
    rintro ⟨s, hs, hu⟩
    cases hports.symm.trans hs
    have hscan : scan readPort 443 (rests ' ' "80".toList) = .missing := by decide +kernel
    rcases hu with hu | ⟨hu, -⟩
    · obtain ⟨r, hr⟩ := trips_iff.1 hu
      cases hscan.symm.trans hr
    · cases hscan.symm.trans (scan_eq_found.2 hu)
  · have hips : exported Sample.bash (fun _ => none) server "AUTOSSL_UPGRADE_IPS" = none :=
      exported_ips server
    have hi : Intercepted (exported Sample.bash (fun _ => none) server)
        ⟨AF_INET, 80, 0xC0000201⟩ := by
      refine ⟨⟨"80".toList, hports, scan_eq_found.1 (by decide +kernel)⟩, fun s hs => ?_, rfl⟩
      cases hips.symm.trans hs
    cases hno hi

end YazzyPreload.Autossl

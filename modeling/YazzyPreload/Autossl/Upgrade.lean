import YazzyPreload.Autossl.Chain

/-!
# What becomes of an `https:` argument

`autossl` rewrites the argument, and the command then connects to the port of the URL, or to port
80.  `Starts` is that a TLS program is started for that connection.  `Upgraded` is more: the TLS
program has to connect in turn, through the same `connect` and with the same list of ports.

`wrapper_upgrades_iff` says which arguments are upgraded.  One with a port never is: for a TLS program
to be started its port must be listed and paired with itself, and then there is one TLS program after
the other (`upgraded_ends_iff`).
-/

namespace YazzyPreload.Autossl

open Bash Relation StateTransition

section Upgrade

variable (bash : Bash) (resolver : Resolver) (env : Environ)

/-- The `https:` argument is rewritten, and the command, if one is run, has such an environment. -/
def Rewritten (args : List Str) (u : Url) (P : Environ → Prop) : Prop :=
  ∃ stderr args' result, wrapper bash env args = .exec stderr args' result ∧
    u.text "http".toList ∈ args' ∧ ∀ cmd, result = .ok cmd → P cmd.env

/-- Where the command then connects to, whatever the address, a TLS program is started for the port
that the argument designated. -/
def Starts (args : List Str) (u : Url) : Prop :=
  Rewritten bash env args u fun env' => ∀ ip,
    StartsTls bash resolver.service env' ip (u.explicit.getD 80) (u.explicit.getD 443)

/-- Where the command then connects to, whatever the address, a TLS program is started for the port
that the argument designated, it is the only one, and its own connection to that port is made. -/
def Upgraded (args : List Str) (u : Url) : Prop :=
  Rewritten bash env args u fun env' => ∀ ip,
    StartsTls bash resolver.service env' ip (u.explicit.getD 80) (u.explicit.getD 443) ∧
      Carried bash resolver env' ip (u.explicit.getD 80) (u.explicit.getD 443)

/-- What the URL and the variables of the caller must be like. -/
structure Undiverted (service : Str → Option Port) (u : Url) : Prop where
  plain : u.explicit = none
  /-- The last pair of the caller for port 80 leads to port 443. -/
  eighty : ∀ t, LastPair (callerPairs bash env) (portText 80) t → LeadsTo bash service t 443
  /-- The scan for port 443 does not come to an entry that is no port. -/
  readable : ¬ Trips readPort 443 (rests ' ' (upgradePorts env))
  /-- If it comes to port 443, the caller does not pair that with anything. -/
  unpaired : Finds readPort 443 (rests ' ' (upgradePorts env)) →
    ∀ t, LastPair (callerPairs bash env) (portText 443) t →
      bash.test ("-z".toList :: bash.expand t) = true

end Upgrade

variable {bash : Bash} {resolver : Resolver} {env : Environ} {ip : InAddr} {p q : Port} {u : Url}
  {args : List Str}

theorem paired_of_starts (h : StartsTls bash resolver.service env ip p q) :
    Paired bash resolver env ip p q := by
  obtain ⟨hexec, ht⟩ := h
  exact ⟨((exec_connect _ _ _ rfl).1 (hexec (0, 0) 0 0)).1,
    (conn_tls_iff bash resolver.service env (inetNtoa ip) _ _).1 ht⟩

/-! ## Under the exported environment -/

section Exported

variable {server : Option Str}

theorem intercepted_exported (hips : env "AUTOSSL_UPGRADE_IPS" = none) :
    Intercepted (exported bash env server) ⟨AF_INET, p, ip⟩ ↔
      Finds readPort p (rests ' ' (upgradePorts env)) := by
  unfold Intercepted IpListed
  simp [hips]

theorem unreadable_exported (hips : env "AUTOSSL_UPGRADE_IPS" = none) :
    Unreadable (exported bash env server) ⟨AF_INET, p, ip⟩ ↔
      Trips readPort p (rests ' ' (upgradePorts env)) := by
  unfold Unreadable IpMalformed
  simp [hips]

/-- Only a pair of the caller leads from port 443 to another port. -/
theorem tlsPorts_443 {t : Str} : tlsPorts bash (exported bash env server) (portText 443) = some t ↔
    LastPair (callerPairs bash env) (portText 443) t := by
  have hcommon : commonTls (portText 443) = none := by
    rw [commonTls_portText]
    rfl
  rw [tlsPorts_exported, assignPairs_eq_some, hcommon]
  exact or_iff_left fun h => by cases h.2

/-- A pair leads from port 80 to port 443 unless the caller has another one. -/
theorem eighty_iff : (∃ t, assignPairs commonTls (callerPairs bash env) (portText 80) = some t ∧
      LeadsTo bash resolver.service t 443) ↔
    ∀ t, LastPair (callerPairs bash env) (portText 80) t → LeadsTo bash resolver.service t 443 := by
  constructor
  · rintro ⟨t, ht, hlead⟩ t' ht'
    cases ht.symm.trans (assignPairs_eq_some.2 (.inl ht'))
    exact hlead
  · intro h
    have hsome : (assignPairs commonTls (callerPairs bash env) (portText 80)).isSome = true :=
      assignPairs_isSome (by rw [commonTls_eighty]; rfl)
    obtain ⟨t, ht⟩ := Option.isSome_iff_exists.1 hsome
    refine ⟨t, ht, ?_⟩
    rcases assignPairs_eq_some.1 ht with hlast | ⟨-, hcommon⟩
    · exact h t hlast
    · cases commonTls_eighty.symm.trans hcommon
      exact leadsTo_portText resolver.service_port 443

/-- The TLS program is started, and its own connection made in the clear. -/
theorem carried_exported_iff (hips : env "AUTOSSL_UPGRADE_IPS" = none) :
    (∀ ip, StartsTls bash resolver.service (exported bash env server) ip (u.explicit.getD 80)
        (u.explicit.getD 443) ∧
      Carried bash resolver (exported bash env server) ip (u.explicit.getD 80)
        (u.explicit.getD 443)) ↔
      Undiverted bash env resolver.service u := by
  have herrno : exported bash env server "AUTOSSL_ERRNO" = some "5".toList := by simp [exported]
  constructor
  · intro h
    obtain ⟨hstarts, hcarried⟩ := h 0
    have hpaired := paired_of_starts hstarts
    obtain ⟨hread, hnc⟩ := (clear_iff herrno).1 ((carried_iff hpaired).1 hcarried)
    -- a port that is paired with itself is not made in the clear
    have hplain : u.explicit = none := by
      cases hu : u.explicit with
      | none => rfl
      | some p =>
        rw [hu] at hpaired hnc
        obtain ⟨hi, t, ht, -, hz⟩ := hpaired
        cases (hnc hi t ht).symm.trans hz
    rw [hplain] at hstarts hread hnc
    have hlead := ((starts_iff bash resolver.service env server hips 0 443).1 hstarts).2
    refine ⟨hplain, eighty_iff.1 hlead, fun ht => hread ((unreadable_exported hips).2 ht),
      fun hf t ht => ?_⟩
    exact hnc ((intercepted_exported hips).2 hf) t (tlsPorts_443.2 ht)
  · intro h ip
    rw [h.plain]
    have hstarts : StartsTls bash resolver.service (exported bash env server) ip 80 443 :=
      (starts_iff bash resolver.service env server hips ip 443).2 ⟨.inl rfl, eighty_iff.2 h.eighty⟩
    refine ⟨hstarts, (carried_iff (paired_of_starts hstarts)).2 ((clear_iff herrno).2 ⟨?_, ?_⟩)⟩
    · exact fun hu => h.readable ((unreadable_exported hips).1 hu)
    · exact fun hi t ht => h.unpaired ((intercepted_exported hips).1 hi) t (tlsPorts_443.1 ht)

end Exported

/-! ## The whole way -/

/-- If a TLS program is started for an `https:` argument, the connection is never served if the URL has
a port: the TLS program connects to the same port, and another one is started in turn.  Without a
port it is served if port 443 is. -/
theorem upgraded_ends_iff (hup : Starts bash resolver env args u) {stderr args' : List Str}
    {cmd : Command} (hrun : wrapper bash env args = .exec stderr args' (.ok cmd)) (ip : InAddr) :
    (eval (Client.next bash resolver) ⟨cmd.env, ⟨AF_INET, u.explicit.getD 80, ip⟩⟩).Dom ↔
      u.explicit = none ∧ (eval (Client.next bash resolver) ⟨cmd.env, ⟨AF_INET, 443, ip⟩⟩).Dom := by
  obtain ⟨_, _, _, hrun', -, hstarts⟩ := hup
  rw [hrun] at hrun'
  cases hrun'
  have hnext := next_of_paired (paired_of_starts (hstarts cmd rfl ip))
  rw [dom_eval_of_some hnext]
  cases hu : u.explicit with
  | none => simp
  | some p =>
    rw [hu] at hnext
    refine iff_of_false ?_ fun h => by cases h.1
    exact not_dom_eval_of_cycle (TransGen.single hnext) ReflTransGen.refl

/-- The caller lists the port 8443 and pairs it with itself. -/
def Sample.listed : Environ
  | "AUTOSSL_UPGRADE_PORTS" => some "8443".toList
  | "AUTOSSL_TLS_PORT_MAP" => some "8443:8443".toList
  | _ => none

/-- With `AUTOSSL_UPGRADE_PORTS=8443 AUTOSSL_TLS_PORT_MAP=8443:8443`, `autossl wget
https://example.org:8443/` starts one TLS program after the other. -/
theorem upgraded_ends_iff_listed : ∃ stderr args' cmd,
    wrapper Sample.bash Sample.listed ["wget".toList, Sample.url8443.text "https".toList] =
      .exec stderr args' (.ok cmd) ∧
    Starts Sample.bash Sample.numeric Sample.listed
      ["wget".toList, Sample.url8443.text "https".toList] Sample.url8443 ∧
    ¬ (eval (Client.next Sample.bash Sample.numeric)
      ⟨cmd.env, ⟨AF_INET, 8443, 0xC0000201⟩⟩).Dom := by
  have hport : Sample.url8443.explicit = some 8443 := by decide
  obtain ⟨stderr, server, file, argv, hrun⟩ := Sample.wrapper_wget Sample.listed rfl Sample.url8443
  have hstarts : Starts Sample.bash Sample.numeric Sample.listed
      ["wget".toList, Sample.url8443.text "https".toList] Sample.url8443 := by
    refine ⟨_, _, _, hrun, by simp, fun cmd hcmd ip => ?_⟩
    cases hcmd
    rw [hport]
    refine (starts_iff Sample.bash Sample.service _ server rfl ip 8443).2
      ⟨.inr (scan_eq_found.1 (by decide +kernel)), portText 8443, by decide +kernel, ?_⟩
    exact leadsTo_portText Sample.service_portText 8443
  have hiff := upgraded_ends_iff hstarts hrun 0xC0000201
  rw [hport] at hiff
  exact ⟨_, _, _, hrun, hstarts, fun h => by cases (hiff.1 h).1⟩

end YazzyPreload.Autossl

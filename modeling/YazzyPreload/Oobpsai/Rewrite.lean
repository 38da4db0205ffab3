import YazzyPreload.Oobpsai.Table

/-!
# Rewriting an address

An entry of the table is written with `save_socket_address` and read with `change_socket_address`.

* `table_round_trip`: what has been written is read back, whole, and different addresses have
  different entries.
* `change_atomic_iff`: an entry with any other text is read without a trace or in full, except when
  the port is stored and then the address cannot be read, or the port is not a port.
-/

namespace YazzyPreload.Oobpsai

/-! ## Addresses and ports -/

/-- `sin_port`. -/
def Sockaddr.port : Sockaddr → Port
  | .inet port _ => port
  | .inet6 port _ _ _ => port
  | .other _ => 0

/-- The address with another port. -/
def Sockaddr.withPort (port : Port) : Sockaddr → Sockaddr
  | .inet _ addr => .inet port addr
  | .inet6 _ flowinfo addr scope_id => .inet6 port flowinfo addr scope_id
  | .other family => .other family

/-- The address with the one of its family that a text stands for. -/
def Sockaddr.withAddr (ip : Str) : Sockaddr → Option Sockaddr
  | .inet port _ => (inetPton4 ip).map fun addr => .inet port addr
  | .inet6 port flowinfo _ scope_id =>
    (inetPton6 ip).map fun addr => .inet6 port flowinfo addr scope_id
  | .other _ => none

/-- The address and port, without what is not part of an entry's name. -/
def Sockaddr.endpoint : Sockaddr → Option ((InAddr ⊕ In6Addr) × Port)
  | .inet port addr => some (.inl addr, port)
  | .inet6 port _ addr _ => some (.inr addr, port)
  | .other _ => none

/-- The second address with the address and port of the first, for two of one family. -/
def Sockaddr.assign : Sockaddr → Sockaddr → Option Sockaddr
  | .inet port addr, .inet _ _ => some (.inet port addr)
  | .inet6 port _ addr _, .inet6 _ flowinfo _ scope_id => some (.inet6 port flowinfo addr scope_id)
  | _, _ => none

variable {shm : ShmPath} {s : Links} {a b x y z : Sockaddr} {name t ip port : Str}

@[simp] theorem Sockaddr.withPort_port (a : Sockaddr) : a.withPort a.port = a := by
  cases a <;> rfl

theorem Sockaddr.isSome_withAddr_withPort (a : Sockaddr) (p : Port) (ip : Str) :
    ((a.withPort p).withAddr ip).isSome = (a.withAddr ip).isSome := by
  cases a <;> simp [withPort, withAddr]

/-- Storing a port is visible unless it is the one that was there. -/
theorem Sockaddr.withPort_eq_self_iff (ha : save_socket_address a = some name) (p : Port) :
    a.withPort p = a ↔ p = a.port := by
  cases a with
  | inet q addr => simp [withPort, Sockaddr.port]
  | inet6 q f addr i => simp [withPort, Sockaddr.port]
  | other family => cases ha

/-- The port is stored in any case, and the address when it can be read. -/
theorem update_eq (ip : Str) (port : Option Str) (a : Sockaddr) :
    update_socket_addr ip port a =
      (((a.withPort (port.elim a.port atoport)).withAddr ip).isSome,
        ((a.withPort (port.elim a.port atoport)).withAddr ip).getD
          (a.withPort (port.elim a.port atoport))) := by
  cases a with
  | inet p addr =>
    simp only [update_socket_addr, Sockaddr.withPort, Sockaddr.withAddr, Sockaddr.port]
    cases inetPton4 ip <;> rfl
  | inet6 p f addr i =>
    simp only [update_socket_addr, Sockaddr.withPort, Sockaddr.withAddr, Sockaddr.port]
    cases inetPton6 ip <;> rfl
  | other family => rfl

/-- A text with a comma has a last one. -/
theorem exists_last_comma (h : ',' ∈ t) : ∃ ip port, t = ip ++ ',' :: port ∧ ',' ∉ port := by
  induction t with
  | nil => exact absurd h List.not_mem_nil
  | cons c t ih =>
    by_cases ht : ',' ∈ t
    · obtain ⟨ip, port, rfl, hport⟩ := ih ht
      exact ⟨c :: ip, port, rfl, hport⟩
    · obtain rfl := (List.mem_cons.1 h).resolve_right ht
      exact ⟨[], t, rfl, ht⟩

theorem last_comma_unique {ip' port' : Str} (h : ip ++ ',' :: port = ip' ++ ',' :: port')
    (hport : ',' ∉ port) (hport' : ',' ∉ port') : ip = ip' ∧ port = port' := by
  have hcut := congrArg cutComma h
  rw [cutComma_append ip hport, cutComma_append ip' hport'] at hcut
  cases hcut
  exact ⟨rfl, rfl⟩

/-! ## One lookup -/

/-- The text `t` presents `a` as `b`: the address before its last comma, and the port after it, or
the port of `a` when there is no comma. -/
def Rewritten (t : Str) (a b : Sockaddr) : Prop :=
  (',' ∉ t ∧ a.withAddr t = some b) ∨
    ∃ ip port n, t = ip ++ ',' :: port ∧ ',' ∉ port ∧ decimal port = some n ∧ n ≤ 65535 ∧
      (a.withPort (BitVec.ofNat 16 n)).withAddr ip = some b

/-- A lookup that comes to `entry` leaves the address alone or presents it as the entry says. -/
def AllOrNothing (entry : Option Str) (a : Sockaddr) (r : Bool × Sockaddr) : Prop :=
  (r.1 = false → r.2 = a) ∧ (r.1 = true → ∃ t, entry = some t ∧ Rewritten t a r.2)

/-- After the last comma there is a port when an address is before it; otherwise what is read there
is the port that `a` has already. -/
def Consistent (t : Str) (a : Sockaddr) : Prop :=
  ∀ ip port, t = ip ++ ',' :: port → ',' ∉ port →
    if (a.withAddr ip).isSome = true then ∃ n, decimal port = some n ∧ n ≤ 65535
    else atoport port = a.port

theorem allOrNothing_noComma (h : ',' ∉ t) (a : Sockaddr) :
    AllOrNothing (some t) a (update_socket_addr (cutComma t).1 (cutComma t).2 a) := by
  have hcut : cutComma t = (t, none) := if_neg h
  rw [hcut, update_eq, Option.elim_none, Sockaddr.withPort_port]
  cases hw : a.withAddr t with
  | none => exact ⟨fun _ => rfl, fun e => by cases e⟩
  | some b => exact ⟨fun e => (by cases e), fun _ => ⟨t, rfl, Or.inl ⟨h, hw⟩⟩⟩

theorem allOrNothing_comma_iff (ha : save_socket_address a = some name) (hport : ',' ∉ port) :
    AllOrNothing (some (ip ++ ',' :: port)) a (update_socket_addr ip (some port) a) ↔
      if (a.withAddr ip).isSome = true then ∃ n, decimal port = some n ∧ n ≤ 65535
      else atoport port = a.port := by
  have hsome := a.isSome_withAddr_withPort (atoport port) ip
  rw [update_eq, Option.elim_some]
  cases hw : (a.withPort (atoport port)).withAddr ip with
  | none =>
    rw [hw] at hsome
    rw [← hsome, if_neg (by simp)]
    have himp : AllOrNothing (some (ip ++ ',' :: port)) a (false, a.withPort (atoport port)) ↔
        a.withPort (atoport port) = a :=
      ⟨fun h => h.1 rfl, fun h => ⟨fun _ => h, fun e => by cases e⟩⟩
    exact himp.trans (Sockaddr.withPort_eq_self_iff ha _)
  | some b =>
    rw [hw] at hsome
    rw [← hsome, if_pos (Option.isSome_some (a := b))]
    show AllOrNothing _ a (true, b) ↔ _
    constructor
    · rintro ⟨-, h⟩
      obtain ⟨t, ht, hr⟩ := h rfl
      obtain rfl := Option.some.inj ht
      rcases hr with ⟨hno, -⟩ | ⟨ip', port', n, heq, hport', hn, hle, -⟩
      · exact absurd (by simp) hno
      · obtain ⟨-, rfl⟩ := last_comma_unique heq hport hport'
        exact ⟨n, hn, hle⟩
    · rintro ⟨n, hn, hle⟩
      have hread := atoport_of_decimal (t := []) hn hle rfl
      rw [List.append_nil] at hread
      rw [hread] at hw
      exact ⟨fun e => (by cases e), fun _ =>
        ⟨_, rfl, Or.inr ⟨ip, port, n, rfl, hport, hn, hle, hw⟩⟩⟩

/-- Rewriting an address is all or nothing exactly when the entry, if it has a comma, has a port after
an address of the family, or after anything else the port that is there already. -/
theorem change_atomic_iff (shm : ShmPath) (s : Links) (a : Sockaddr) (name : Str)
    (ha : save_socket_address a = some name) (received : ℤ × Option Sockaddr) (sent : ℤ) :
    AllOrNothing (s (linkname shm name)) a
        ((change_socket_address shm a).run (system received sent) s).1 ↔
      ∀ t, s (linkname shm name) = some t → t ≠ [] → t.length ≤ 52 → Consistent t a := by
  rw [run_change_eq received sent ha]
  cases s (linkname shm name) with
  | none => exact iff_of_true ⟨fun _ => rfl, fun e => by cases e⟩ fun t ht => by cases ht
  | some t =>
    by_cases hu : t = [] ∨ 52 < t.length
    · have hl : lookedUp (some t) a = (false, a) := if_pos hu
      rw [hl]
      refine iff_of_true ⟨fun _ => rfl, fun e => by cases e⟩ fun t' ht hne hlen => ?_
      obtain rfl := Option.some.inj ht
      exact absurd hu (by simp [hne]; omega)
    · obtain ⟨hne, hlen⟩ := not_or.1 hu
      rw [lookedUp_of_usable hne (by omega)]
      have hone : (∀ t', some t = some t' → t' ≠ [] → t'.length ≤ 52 → Consistent t' a) ↔
          Consistent t a := by
        constructor
        · exact fun h => h t rfl hne (by omega)
        · rintro h t' ht - -
          exact Option.some.inj ht ▸ h
      rw [hone]
      by_cases hc : ',' ∈ t
      · obtain ⟨ip, port, rfl, hport⟩ := exists_last_comma hc
        rw [cutComma_append ip hport, allOrNothing_comma_iff ha hport]
        constructor
        · rintro h ip' port' heq hport'
          obtain ⟨rfl, rfl⟩ := last_comma_unique heq hport hport'
          exact h
        · exact fun h => h ip port rfl hport
      · refine iff_of_true (allOrNothing_noComma hc a) fun ip port heq _ => ?_
        exact absurd (by simp [heq]) hc

namespace Sample

/-- The entry of the peer `192.0.2.1`, port 1024, has no address before the comma. -/
def badLinks : Links := Function.update (fun _ => none) "/run/shm/oobpsai/192.0.2.1,1024".toList
  (some "localhost,80".toList)

end Sample

/-- The port is changed, and the call has failed. -/
theorem change_leaves_port :
    save_socket_address (.inet 1024 0xC0000201) = some "192.0.2.1,1024".toList ∧
    ¬ AllOrNothing (Sample.badLinks (linkname dfltShmPath "192.0.2.1,1024".toList))
      (.inet 1024 0xC0000201)
      ((change_socket_address dfltShmPath (.inet 1024 0xC0000201)).run (system (0, none) 0)
        Sample.badLinks).1 := by
  refine ⟨by decide +kernel, fun h => ?_⟩
  have hsame := h.1 (by decide +kernel)
  revert hsame
  decide +kernel

theorem change_atomic_iff_badLinks :
    AllOrNothing (Sample.badLinks (linkname dfltShmPath "192.0.2.1,1024".toList))
        (.inet 1024 0xC0000201)
        ((change_socket_address dfltShmPath (.inet 1024 0xC0000201)).run (system (0, none) 0)
          Sample.badLinks).1 ↔
      ∀ t, Sample.badLinks (linkname dfltShmPath "192.0.2.1,1024".toList) = some t → t ≠ [] →
        t.length ≤ 52 → Consistent t (.inet 1024 0xC0000201) :=
  change_atomic_iff dfltShmPath Sample.badLinks _ _ (by decide +kernel) (0, none) 0

/-! ## Reading back what was written -/

theorem shm_path_eq {getenv : Environ} (h : shm_path getenv = some shm) :
    shm.1 = (getenv "OOBPSAI_SHM_PATH").getD "/run/shm/oobpsai".toList := by
  unfold shm_path at h
  cases hp : getenv "OOBPSAI_SHM_PATH" with
  | none =>
    rw [hp] at h
    cases h
    rfl
  | some path =>
    rw [hp] at h
    dsimp only at h
    split_ifs at h
    cases h
    rfl

/-- The path of an entry fits its buffer. -/
theorem linkname_eq (h : save_socket_address a = some name) (shm : ShmPath) :
    linkname shm name = shm.1 ++ '/' :: name := by
  obtain ⟨-, -, -, -, hlen⟩ := save_eq h
  refine List.take_of_length_le ?_
  have := shm.2
  rw [List.length_append, List.length_cons]
  omega

theorem linkname_eq_iff {n' : Str} (ha : save_socket_address a = some n)
    (hb : save_socket_address b = some n') : linkname shm n = linkname shm n' ↔ n = n' := by
  refine ⟨fun h => ?_, fun h => by rw [h]⟩
  rw [linkname_eq ha, linkname_eq hb] at h
  exact (List.cons.inj (List.append_cancel_left h)).2

/-- The texts of addresses of the two families differ. -/
theorem inetNtoa_ne_inetNtop6 (ip : InAddr) (addr : In6Addr) : inetNtoa ip ≠ inetNtop6 addr := by
  intro h
  have hread := inetPton6_inetNtop6 addr
  rw [← h, inetPton6_inetNtoa] at hread
  cases hread

/-- Different addresses and ports have different texts. -/
theorem endpoint_eq_of_save (hx : save_socket_address x = some t)
    (hy : save_socket_address y = some t) : x.endpoint = y.endpoint := by
  obtain ⟨ip, p, hex, rfl, -⟩ := save_eq hx
  obtain ⟨ip', p', hey, heq, -⟩ := save_eq hy
  have hdigits (p : Port) : ',' ∉ Nat.toDigits 10 p.toNat :=
    comma_notMem_of_digits fun c hc => isDigit_of_mem_toDigits hc
  obtain ⟨rfl, hp⟩ := last_comma_unique heq (hdigits p) (hdigits p')
  have hport : p = p' := by
    have hval := congrArg digitsValue hp
    rw [digitsValue, digitsValue, Nat.ofDigitChars_ten_toDigits, Nat.ofDigitChars_ten_toDigits] at hval
    exact BitVec.eq_of_toNat_eq hval
  subst hport
  cases x with
  | inet q addr =>
    cases hex
    cases y with
    | inet q' addr' =>
      have hip := congrArg inetPton4 (congrArg Prod.fst (Option.some.inj hey))
      dsimp only at hip
      rw [inetPton4_inetNtoa, inetPton4_inetNtoa] at hip
      cases hip
      cases hey
      rfl
    | inet6 q' f' addr' i' =>
      exact absurd (congrArg Prod.fst (Option.some.inj hey)).symm (inetNtoa_ne_inetNtop6 addr addr')
    | other family => cases hey
  | inet6 q f addr i =>
    cases hex
    cases y with
    | inet q' addr' =>
      exact absurd (congrArg Prod.fst (Option.some.inj hey)) (inetNtoa_ne_inetNtop6 addr' addr)
    | inet6 q' f' addr' i' =>
      have hip := congrArg inetPton6 (congrArg Prod.fst (Option.some.inj hey))
      dsimp only at hip
      rw [inetPton6_inetNtop6, inetPton6_inetNtop6] at hip
      cases hip
      cases hey
      rfl
    | other family => cases hey
  | other family => cases hex

/-- The text of `x` presents every address of its family with the address and port of `x`. -/
theorem update_assign (hx : save_socket_address x = some t) (hz : x.assign y = some z) :
    update_socket_addr (cutComma t).1 (cutComma t).2 y = (true, z) := by
  obtain ⟨ip, p, hex, rfl, -⟩ := save_eq hx
  have hdigits : ',' ∉ Nat.toDigits 10 p.toNat :=
    comma_notMem_of_digits fun c hc => isDigit_of_mem_toDigits hc
  have hread := atoport_of_decimal (t := []) (decimal_toDigits p.toNat)
    (Nat.le_of_lt_succ p.isLt) rfl
  rw [List.append_nil, BitVec.ofNat_toNat, BitVec.setWidth_eq] at hread
  rw [cutComma_append ip hdigits, update_eq, Option.elim_some, hread]
  cases x with
  | inet q addr =>
    cases hex
    cases y with
    | inet q' addr' =>
      cases hz
      simp [Sockaddr.withPort, Sockaddr.withAddr, inetPton4_inetNtoa]
    | _ => cases hz
  | inet6 q f addr i =>
    cases hex
    cases y with
    | inet6 q' f' addr' i' =>
      cases hz
      simp [Sockaddr.withPort, Sockaddr.withAddr, inetPton6_inetNtop6]
    | _ => cases hz
  | other family => cases hex

theorem exists_save_of_assign (hz : x.assign y = some z) :
    ∃ tx ty, save_socket_address x = some tx ∧ save_socket_address y = some ty := by
  cases x with
  | inet p addr => cases y with
    | inet p' addr' => exact ⟨_, _, rfl, rfl⟩
    | _ => cases hz
  | inet6 p f addr i => cases y with
    | inet6 p' f' addr' i' => exact ⟨_, _, rfl, rfl⟩
    | _ => cases hz
  | other family => cases hz

/-- An entry that is written for `y` with the text of `x` is whole, gives `y` the address and port of
`x`, and is not the entry of another address and port. -/
theorem table_round_trip {getenv : Environ} (hshm : shm_path getenv = some shm)
    (hz : x.assign y = some z) (received : ℤ × Option Sockaddr) (sent : ℤ) (s : Links) :
    ∃ tx ty ip, save_socket_address x = some tx ∧ save_socket_address y = some ty ∧
      extract_ip_port x = some (ip, x.port) ∧ tx = ip ++ ',' :: Nat.toDigits 10 x.port.toNat ∧
      linkname shm ty =
        (getenv "OOBPSAI_SHM_PATH").getD "/run/shm/oobpsai".toList ++ '/' :: ty ∧
      (do
        let _ ← set_proxy_address_info shm y tx
        change_socket_address shm y).run (system received sent) s =
          ((true, z), Function.update s (linkname shm ty) (some tx)) ∧
      ∀ x' tx', save_socket_address x' = some tx' → linkname shm tx' = linkname shm tx →
        x'.endpoint = x.endpoint := by
  obtain ⟨tx, ty, hx, hy⟩ := exists_save_of_assign hz
  obtain ⟨ip, p, hex, htx, hlen⟩ := save_eq hx
  have hport : p = x.port := by cases x <;> cases hex <;> rfl
  subst hport
  refine ⟨tx, ty, ip, hx, hy, hex, htx, ?_, ?_, fun x' tx' hx' hlink => ?_⟩
  · rw [linkname_eq hy, shm_path_eq hshm]
  · rw [Prog.run_bind, run_set hy, run_change received sent hy (Function.update_self _ _ _)
      (by simp [htx]) hlen, update_assign hx hz]
  · rw [linkname_eq hx, linkname_eq hx'] at hlink
    obtain rfl := (List.cons.inj (List.append_cancel_left hlink)).2
    exact endpoint_eq_of_save hx' hx

theorem table_round_trip_sample :
    ∃ tx ty ip, save_socket_address (.inet6 443 7 ⟨List.replicate 8 0xff, rfl⟩ 2) = some tx ∧
      save_socket_address (.inet6 80 1 ⟨List.replicate 8 0, rfl⟩ 3) = some ty ∧
      extract_ip_port (.inet6 443 7 ⟨List.replicate 8 0xff, rfl⟩ 2) = some (ip, 443) ∧
      tx = ip ++ ',' :: Nat.toDigits 10 443 ∧
      linkname dfltShmPath ty = "/run/shm/oobpsai".toList ++ '/' :: ty ∧
      (do
        let _ ← set_proxy_address_info dfltShmPath (.inet6 80 1 ⟨List.replicate 8 0, rfl⟩ 3) tx
        change_socket_address dfltShmPath (.inet6 80 1 ⟨List.replicate 8 0, rfl⟩ 3)).run
          (system (0, none) 0) (fun _ => none) =
          ((true, .inet6 443 1 ⟨List.replicate 8 0xff, rfl⟩ 3),
            Function.update (fun _ => none) (linkname dfltShmPath ty) (some tx)) ∧
      ∀ x' tx', save_socket_address x' = some tx' →
        linkname dfltShmPath tx' = linkname dfltShmPath tx →
        x'.endpoint = some (.inr ⟨List.replicate 8 0xff, rfl⟩, 443) :=
  table_round_trip (rfl : shm_path (fun _ => none) = some dfltShmPath) rfl (0, none) 0 fun _ => none

end YazzyPreload.Oobpsai

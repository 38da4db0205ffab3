import YazzyPreload.Oobpsai.Reply
import YazzyPreload.Oobpsai.Rewrite

/-!
# Hooks with nothing to translate

A call may fail, or come without an internet address: the name in the header is then the null
pointer, an address of another family, or what was in the buffer before.  The hooks look at the name
in every case.  `hooks_inert_iff` says for all runs of such calls when they leave everything as the
system calls have left it: when a name is given, and what is in it by chance is not in the table, or
presented as itself.
-/

namespace YazzyPreload.Oobpsai

/-- The text presents `a` as itself, as far as it can be read. -/
def Fixes (t : Str) (a : Sockaddr) : Prop :=
  (∀ port, (cutComma t).2 = some port → atoport port = a.port) ∧
    ∀ b, a.withAddr (cutComma t).1 = some b → b = a

/-- How a system call ends: it fails, or it returns a number of bytes, and `recvmsg` may have stored
the address of the peer. -/
inductive Outcome
  | failed
  | done (n : ℕ) (name : Option Sockaddr)

namespace Outcome

/-- The value that is returned. -/
def ret : Outcome → ℤ
  | failed => -1
  | done n _ => n

/-- The address that is stored. -/
def name : Outcome → Option Sockaddr
  | failed => none
  | done _ name => name

end Outcome

/-- A call to one of the hooks.  The header that is passed may be the one that the call before has
left. -/
inductive HookCall
  | recvmsg (msg : Option Msghdr → Option Msghdr) (outcome : Outcome)
  | sendmsg (msg : Option Msghdr → Option Msghdr) (outcome : Outcome)

namespace HookCall

variable (shm : ShmPath) (left : Option Msghdr) (s : Links)

/-- The value that the system call returns. -/
def ret : HookCall → ℤ
  | recvmsg _ outcome => outcome.ret
  | sendmsg _ outcome => outcome.ret

/-- The header as the system call leaves it.  There is no place for the address of the peer where the
name is the null pointer. -/
def header : HookCall → Option Msghdr
  | recvmsg msg outcome => (msg left).map fun m => ⟨m.msg_name.map outcome.name.getD⟩
  | sendmsg msg _ => msg left

/-- What the hook does. -/
def run : HookCall → Result (ℤ × Option Msghdr) × Links
  | recvmsg msg outcome =>
    (Oobpsai.recvmsg shm (msg left)).run
      (system (outcome.ret, ((recvmsg msg outcome).header left).bind Msghdr.msg_name) 0) s
  | sendmsg msg outcome => (Oobpsai.sendmsg shm (msg left)).run (system (0, none) outcome.ret) s

/-- The call fails, or no internet address is delivered. -/
def Idle : HookCall → Prop
  | recvmsg _ outcome => ∀ a, outcome.name = some a → save_socket_address a = none
  | sendmsg msg outcome =>
    outcome = .failed ∨ ∀ a, (msg left).bind Msghdr.msg_name = some a → save_socket_address a = none

/-- The hook returns, and leaves the header and the table as the system call has left them. -/
def Inert (c : HookCall) : Prop := c.run shm left s = (.returned (c.ret, c.header left), s)

/-- The name is given, and if there is an internet address in it, the table presents it as itself;
for `sendmsg` it is enough that the table does not present it as another one. -/
def Quiet (c : HookCall) : Prop :=
  ∀ m, c.header left = some m → ∃ a, m.msg_name = some a ∧
    ∀ name, save_socket_address a = some name →
      match c with
      | recvmsg _ _ => s (linkname shm name) = some name
      | sendmsg _ _ => ∀ t, s (linkname shm name) = some t → t ≠ [] → t.length ≤ 52 → Fixes t a

/-- Every call of a run, in the state it is made in, satisfies `P`. -/
def Every (P : Option Msghdr → Links → HookCall → Prop) :
    List HookCall → Option Msghdr → Links → Prop
  | [], _, _ => True
  | c :: cs, left, s => P left s c ∧ Every P cs (c.run shm left s).1.header (c.run shm left s).2

/-- The table after a run. -/
def table : List HookCall → Option Msghdr → Links → Links
  | [], _, s => s
  | c :: cs, left, s => table cs (c.run shm left s).1.header (c.run shm left s).2

end HookCall

/-! ## One call -/

section Call

variable {shm : ShmPath} {left : Option Msghdr} {s : Links} {a : Sockaddr} {name t : Str}

theorem update_snd_eq_iff (ha : save_socket_address a = some name) (ip : Str) (port : Option Str) :
    (update_socket_addr ip port a).2 = a ↔
      (∀ p, port = some p → atoport p = a.port) ∧ ∀ b, a.withAddr ip = some b → b = a := by
  have hport : (∀ p, port = some p → atoport p = a.port) ↔ port.elim a.port atoport = a.port := by
    cases port <;> simp
  rw [update_eq, hport]
  generalize port.elim a.port atoport = q
  cases a with
  | inet p addr =>
    cases hip : inetPton4 ip <;>
      simp [Sockaddr.withPort, Sockaddr.withAddr, Sockaddr.port, hip]
  | inet6 p f addr i =>
    cases hip : inetPton6 ip <;>
      simp [Sockaddr.withPort, Sockaddr.withAddr, Sockaddr.port, hip]
  | other family => cases ha

/-- A lookup leaves the address alone when a usable entry presents it as itself. -/
theorem lookedUp_snd_eq_iff (ha : save_socket_address a = some name) (entry : Option Str) :
    (lookedUp entry a).2 = a ↔ ∀ t, entry = some t → t ≠ [] → t.length ≤ 52 → Fixes t a := by
  cases entry with
  | none => exact iff_of_true rfl fun t ht => by cases ht
  | some t =>
    by_cases hu : t = [] ∨ 52 < t.length
    · have hl : lookedUp (some t) a = (false, a) := if_pos hu
      rw [hl]
      refine iff_of_true rfl fun t' ht hne hlen => ?_
      obtain rfl := Option.some.inj ht
      exact absurd hu (by simp [hne]; omega)
    · obtain ⟨hne, hlen⟩ := not_or.1 hu
      rw [lookedUp_of_usable hne (by omega), update_snd_eq_iff ha]
      constructor
      · rintro h t' ht - -
        exact Option.some.inj ht ▸ h
      · exact fun h => h t rfl hne (by omega)

/-- A lookup does not change the family. -/
theorem exists_save_lookedUp (ha : save_socket_address a = some name) (entry : Option Str) :
    ∃ name', save_socket_address (lookedUp entry a).2 = some name' := by
  have hfamily : ∀ ip port, ∃ name', save_socket_address (update_socket_addr ip port a).2 =
      some name' := by
    intro ip port
    cases a with
    | inet p addr => cases hip : inetPton4 ip <;> exact ⟨_, by rw [update_socket_addr, hip]; rfl⟩
    | inet6 p f addr i =>
      cases hip : inetPton6 ip <;> exact ⟨_, by rw [update_socket_addr, hip]; rfl⟩
    | other family => cases ha
  cases entry with
  | none => exact ⟨name, ha⟩
  | some t =>
    rw [lookedUp]
    split_ifs
    · exact ⟨name, ha⟩
    · exact hfamily _ _

/-- An address that is linked to its own text is presented as itself. -/
theorem lookedUp_saved (ha : save_socket_address a = some name) :
    lookedUp (some name) a = (true, a) := by
  obtain ⟨ip, port, -, hname, hlen⟩ := save_eq ha
  rw [lookedUp_of_usable (by simp [hname]) hlen, update_saved ha]

theorem run_recvmsg_of_save (ha : save_socket_address a = some name) {name' : Str}
    (ha' : save_socket_address (lookedUp (s (linkname shm name)) a).2 = some name') (msg : Msghdr)
    (ret sent : ℤ) :
    (recvmsg shm (some msg)).run (system (ret, some a) sent) s =
      (.returned (ret, some ⟨some (lookedUp (s (linkname shm name)) a).2⟩),
        Function.update s (linkname shm name') (some name)) := by
  rw [recvmsg, Prog.run_call]
  dsimp only [system]
  rw [Prog.run_bind, run_change_eq _ _ ha]
  dsimp only
  rw [Prog.run_bind, ha, Option.getD_some, run_set ha']
  rfl

theorem run_recvmsg_of_other (ha : save_socket_address a = none) (msg : Msghdr) (ret sent : ℤ) :
    (recvmsg shm (some msg)).run (system (ret, some a) sent) s =
      (.returned (ret, some ⟨some a⟩), s) := by
  simp [recvmsg, system, change_socket_address, set_proxy_address_info, ha]

theorem run_sendmsg_of_save (ha : save_socket_address a = some name)
    (received : ℤ × Option Sockaddr) (ret : ℤ) :
    (sendmsg shm (some ⟨some a⟩)).run (system received ret) s =
      (.returned (ret, some ⟨some (lookedUp (s (linkname shm name)) a).2⟩), s) := by
  rw [sendmsg, Prog.run_call]
  dsimp only [system]
  rw [Prog.run_bind, run_change_eq _ _ ha]
  rfl

theorem run_sendmsg_of_other (ha : save_socket_address a = none) (received : ℤ × Option Sockaddr)
    (ret : ℤ) :
    (sendmsg shm (some ⟨some a⟩)).run (system received ret) s =
      (.returned (ret, some ⟨some a⟩), s) := by
  simp [sendmsg, system, change_socket_address, ha]

end Call

namespace HookCall

variable {shm : ShmPath} {left : Option Msghdr} {s : Links}

/-- `recvmsg` puts its own link in the place of any other. -/
theorem inert_recvmsg_iff {msg : Option Msghdr → Option Msghdr} {outcome : Outcome} :
    (recvmsg msg outcome).Inert shm left s ↔ (recvmsg msg outcome).Quiet shm left s := by
  rw [Inert, Quiet, run]
  cases hm : msg left with
  | none => simp [header, hm, Oobpsai.recvmsg, system, ret]
  | some m =>
    have hheader : (recvmsg msg outcome).header left =
        some ⟨m.msg_name.map outcome.name.getD⟩ := by rw [header, hm, Option.map_some]
    rw [hheader, Option.bind_some]
    dsimp only
    cases m.msg_name.map outcome.name.getD with
    | none => simp [Oobpsai.recvmsg, system]
    | some a =>
      simp only [Option.some.injEq, forall_eq', exists_eq_left']
      cases ha : save_socket_address a with
      | none => simp [run_recvmsg_of_other ha, ret]
      | some name =>
        obtain ⟨name', ha'⟩ := exists_save_lookedUp ha (s (linkname shm name))
        rw [run_recvmsg_of_save ha ha']
        simp only [Prod.mk.injEq, Result.returned.injEq, Option.some.injEq, Msghdr.mk.injEq,
          forall_eq', ret, true_and]
        constructor
        · rintro ⟨hsame, hs⟩
          rw [hsame, ha] at ha'
          cases ha'
          exact (Function.update_eq_self_iff.1 hs).symm
        · intro hs
          rw [hs, lookedUp_saved ha] at ha' ⊢
          rw [ha] at ha'
          cases ha'
          exact ⟨rfl, Function.update_eq_self_iff.2 hs.symm⟩

/-- `sendmsg` only looks the address up. -/
theorem inert_sendmsg_iff {msg : Option Msghdr → Option Msghdr} {outcome : Outcome} :
    (sendmsg msg outcome).Inert shm left s ↔ (sendmsg msg outcome).Quiet shm left s := by
  rw [Inert, Quiet, run, header]
  cases msg left with
  | none => simp [Oobpsai.sendmsg, system, ret]
  | some m =>
    obtain ⟨_ | a⟩ := m
    · simp [Oobpsai.sendmsg, system]
    · simp only [Option.some.injEq, forall_eq', exists_eq_left']
      cases ha : save_socket_address a with
      | none => simp [run_sendmsg_of_other ha, ret]
      | some name =>
        simp only [Option.some.injEq, forall_eq']
        rw [run_sendmsg_of_save ha, ← lookedUp_snd_eq_iff ha]
        simp [ret]

theorem inert_iff (c : HookCall) : c.Inert shm left s ↔ c.Quiet shm left s := by
  cases c with
  | recvmsg msg outcome => exact inert_recvmsg_iff
  | sendmsg msg outcome => exact inert_sendmsg_iff

/-- Calls that are inert do not change the table between them. -/
theorem table_of_inert {cs : List HookCall} (h : Every shm (Inert shm) cs left s) :
    table shm cs left s = s := by
  induction cs generalizing left with
  | nil => rfl
  | cons c cs ih =>
    obtain ⟨hc, hcs⟩ := h
    rw [Inert] at hc
    rw [table]
    rw [hc] at hcs ⊢
    exact ih hcs

end HookCall

/-- In every run of calls, the hooks leave the headers and the table as the system calls have left
them exactly when the name is always given, and never holds an address that the table does not
present as itself. -/
theorem hooks_inert_iff (shm : ShmPath) (cs : List HookCall) (left : Option Msghdr) (s : Links) :
    (HookCall.Every shm (HookCall.Inert shm) cs left s ∧ HookCall.table shm cs left s = s) ↔
      HookCall.Every shm (HookCall.Quiet shm) cs left s := by
  rw [and_iff_left_of_imp HookCall.table_of_inert]
  induction cs generalizing left s with
  | nil => rfl
  | cons c cs ih => exact and_congr c.inert_iff (ih _ _)

namespace Sample

/-- A call that fails, with the address in the buffer that an earlier call has left there. -/
def staleCall : HookCall := .recvmsg id .failed

/-- A message on a connected socket, without a place for the address of the peer. -/
def namelessCall : HookCall := .recvmsg (fun _ => some ⟨none⟩) (.done 1 none)

end Sample

/-- An entry is added to the table when a call has failed, and without a name the hook reads through
the null pointer. -/
theorem hooks_disturb :
    (HookCall.Every dfltShmPath (fun left _ c => c.Idle left) [Sample.staleCall]
        (some ⟨some (.inet 1024 0xC0000201)⟩) (fun _ => none) ∧
      ¬ HookCall.Every dfltShmPath (HookCall.Inert dfltShmPath) [Sample.staleCall]
        (some ⟨some (.inet 1024 0xC0000201)⟩) (fun _ => none)) ∧
    (HookCall.Every dfltShmPath (fun left _ c => c.Idle left) [Sample.namelessCall] none
        (fun _ => none) ∧
      (Sample.namelessCall.run dfltShmPath none (fun _ => none)).1 = .segfault) := by
  refine ⟨⟨⟨fun a ha => (by cases ha), trivial⟩, fun h => ?_⟩, ⟨fun a ha => (by cases ha), trivial⟩,
    by decide +kernel⟩
  have htable := congrFun (HookCall.table_of_inert h) "/run/shm/oobpsai/192.0.2.1,1024".toList
  revert htable
  decide +kernel

end YazzyPreload.Oobpsai

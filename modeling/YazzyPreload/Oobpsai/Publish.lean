import YazzyPreload.Oobpsai.Rewrite
import YazzyPreload.Pool
import YazzyPreload.Slot

/-!
# A publication among hooks

A proxy publishes the entry of an address while any number of servers run the hook of `recvmsg`.
Publishing is to remove the link and to make it anew, and every hook does the same to the address
that it presents, which is the peer itself when its lookup has found nothing.

So a server can put its own link in the place that the proxy has made free, or remove the link of
the proxy afterwards.  Which link that is depends on what its lookup has found: by
`publication_stays_iff` the entry stays unless a hook has looked its peer up and found that it is to
be presented as the published address, and then comes in between or later.
-/

namespace YazzyPreload.Oobpsai

open Prog

variable {κ : Type} [DecidableEq κ]

/-- The hook of `recvmsg` in a server. -/
def hook (shm : ShmPath) (msg : Option Msghdr) : Act Bool := do
  let _ ← recvmsg shm msg
  .ret true

/-- What the calls of a thread are answered with: the thread `none` is the proxy, and the thread
`some k` a hook that receives `received k`. -/
def handlers (received : κ → ℤ × Option Sockaddr) (i : Option κ) : Handler Call Answer Links :=
  system (i.elim (0, none) received) 0

/-- A proxy that publishes `target_str` for `a`, and a hook for each `k`. -/
def publishing (shm : ShmPath) (a : Sockaddr) (target_str : Str) (msgs : κ → Option Msghdr)
    (s : Links) : Pool (Option κ) Call Answer Links Bool where
  state := s
  thread
    | none => set_proxy_address_info shm a target_str
    | some k => hook shm (msgs k)

/-- From the moment the proxy is done, the link at `path` has the target `t`. -/
def Stays (h : Option κ → Handler Call Answer Links) (P : Pool (Option κ) Call Answer Links Bool)
    (path t : Str) (sched : List (Option κ)) : Prop :=
  ∀ n, ((P.run h (sched.take n)).result none).isSome = true →
    (P.run h (sched.take n)).state path = some t

/-! ## When it stays -/

def Call.isReadlink : Call → Bool
  | .readlink .. => true
  | _ => false

def Call.isUnlink : Call → Bool
  | .unlink _ => true
  | _ => false

def Call.isSymlink : Call → Bool
  | .symlink .. => true
  | _ => false

/-- By these links the peer that has been received is presented under the name: as itself, or as
its entry says. -/
def PresentedAs (shm : ShmPath) (received : ℤ × Option Sockaddr) (name : Str) (s : Links) : Prop :=
  ∃ peer peerName, received.2 = some peer ∧ save_socket_address peer = some peerName ∧
    save_socket_address (lookedUp (s (linkname shm peerName)) peer).2 = some name

section Spared

variable (shm : ShmPath) (received : κ → ℤ × Option Sockaddr) (name t : Str)
  (log : List (Option κ × Event Call Answer Links))

omit [DecidableEq κ]

/-- The hook has made its lookup when its peer was presented under the name. -/
def Aims (k : κ) : Prop :=
  ∃ x ∈ log, x.1 = some k ∧ x.2.call.isReadlink = true ∧
    PresentedAs shm (received k) name x.2.before

/-- The proxy or a hook that aims at the name unlinks. -/
def Clears (x : Option κ × Event Call Answer Links) : Prop :=
  x.2.call.isUnlink = true ∧ ∀ k, x.1 = some k → Aims shm received name log k

/-- A hook that aims at the name makes a link to its peer. -/
def Makes (x : Option κ × Event Call Answer Links) (u : Str) : Prop :=
  x.2.call.isSymlink = true ∧ ∃ k peer, x.1 = some k ∧ Aims shm received name log k ∧
    (received k).2 = some peer ∧ save_socket_address peer = some u

/-- The hooks that aim at the name do no harm to the link of the proxy: none has left a link to
another peer when the proxy makes it, and none unlinks after that. -/
structure Spared : Prop where
  until_made : ∀ l₁ x l₂, log = l₁ ++ x :: l₂ → x.1 = none → x.2.call.isSymlink = true → ∀ u,
    Slot.Left (Clears shm received name log) (Makes shm received name log) l₁ u → u = t
  afterwards : ∀ l₁ x l₂, log = l₁ ++ x :: l₂ → x.1 = none → x.2.call.isSymlink = true →
    ∀ y ∈ l₂, ¬Clears shm received name log y

end Spared

omit [DecidableEq κ] in
/-- When the proxy makes the link, no other link is in its place, and no call removes the link after
that. -/
def Undisturbed (path t : Str) (log : List (Option κ × Event Call Answer Links)) : Prop :=
  ∀ l₁ x l₂, log = l₁ ++ x :: l₂ → x.1 = none → x.2.call = .symlink t path →
    (x.2.before path = none ∨ x.2.before path = some t) ∧ ∀ y ∈ l₂, y.2.call ≠ .unlink path

section PresentedAs

variable {shm : ShmPath} {received : ℤ × Option Sockaddr} {peer b : Sockaddr} {name peerName t : Str}
  {s : Links} (hpeer : received.2 = some peer) (hname : save_socket_address peer = some peerName)

include hpeer hname

theorem presentedAs_iff : PresentedAs shm received name s ↔
    save_socket_address (lookedUp (s (linkname shm peerName)) peer).2 = some name := by
  simp [PresentedAs, hpeer, hname]

/-- A peer without an entry is presented as itself. -/
theorem presentedAs_of_none (hs : s (linkname shm peerName) = none) :
    PresentedAs shm received name s ↔ peerName = name := by
  rw [presentedAs_iff hpeer hname, hs, lookedUp, hname, Option.some_inj]

/-- A peer with an entry is presented as the entry says. -/
theorem presentedAs_of_presents (hs : s (linkname shm peerName) = some t) (ht : Presents t peer b) :
    PresentedAs shm received name s ↔ save_socket_address b = some name := by
  have hne : t ≠ [] := by
    obtain ⟨-, ip, port, n, rfl, -⟩ := ht
    simp
  rw [presentedAs_iff hpeer hname, hs, lookedUp_of_usable hne ht.1, update_of_presents ht]

end PresentedAs

/-! ## One call -/

section Call

variable {received : ℤ × Option Sockaddr} {sent : ℤ} {c : Call} {s : Links} {path t : Str}

/-- The only call that takes a link away is to unlink it. -/
theorem system_keeps_iff (h : s path = some t) :
    (system received sent c s).2 path = some t ↔ c ≠ .unlink path := by
  cases c with
  | recvmsg => simp [system, h]
  | sendmsg d => simp [system, h]
  | readlink q n => simp [system, h]
  | unlink q =>
    by_cases hq : q = path
    · simp [system, hq]
    · simp [system, Function.update_of_ne (Ne.symm hq), h, hq]
  | symlink u q =>
    rw [system]
    split_ifs with hs
    · simp [h]
    · have hq : path ≠ q := by
        rintro rfl
        simp [h] at hs
      simp [Function.update_of_ne hq, h]

/-- A link is made only where there is none. -/
theorem system_symlink_iff :
    (system received sent (.symlink t path) s).2 path = some t ↔
      s path = none ∨ s path = some t := by
  cases hs : s path with
  | none => simp [system, hs]
  | some u => simp [system, hs]

end Call

/-! ## A step of the pool -/

section Step

variable {received : κ → ℤ × Option Sockaddr} {P : Pool (Option κ) Call Answer Links Bool}
  {path t : Str} {sched : List (Option κ)} {i : Option κ} {a : Bool} {c : Call}
  {k : Answer c → Act Bool}

omit [DecidableEq κ] in
theorem undisturbed_cons {x : Option κ × Event Call Answer Links}
    {log : List (Option κ × Event Call Answer Links)} :
    Undisturbed path t (x :: log) ↔
      (x.1 = none → x.2.call = .symlink t path →
        (x.2.before path = none ∨ x.2.before path = some t) ∧
          ∀ y ∈ log, y.2.call ≠ .unlink path) ∧
      Undisturbed path t log := by
  constructor
  · exact fun h => ⟨h [] x log rfl, fun l₁ y l₂ hl => h (x :: l₁) y l₂ (congrArg (x :: ·) hl)⟩
  · rintro ⟨hx, hlog⟩ l₁ y l₂ hl
    cases l₁ with
    | nil =>
      obtain ⟨rfl, rfl⟩ := List.cons.inj hl
      exact hx
    | cons z l₁ => exact hlog l₁ y l₂ (List.cons.inj hl).2

theorem stays_cons {h : Option κ → Handler Call Answer Links} :
    Stays h P path t (i :: sched) ↔
      ((P.result none).isSome = true → P.state path = some t) ∧
      Stays h (P.step h i) path t sched := by
  constructor
  · exact fun hs => ⟨hs 0, fun n => hs (n + 1)⟩
  · rintro ⟨h0, hs⟩ n
    cases n with
    | zero => exact h0
    | succ n => exact hs n

omit [DecidableEq κ] in
theorem result_of_call (hn : P.thread none = .call c k) : P.result none = none := by
  rw [Pool.result, hn]

/-- A hook has its turn before the proxy is done. -/
theorem stays_iff_of_hook (hn : P.thread none = .call c k) (hi : i ≠ none)
    (ih : Stays (handlers received) (P.step (handlers received) i) path t sched ↔
      Undisturbed path t ((P.step (handlers received) i).log (handlers received) sched)) :
    Stays (handlers received) P path t (i :: sched) ↔
      Undisturbed path t (P.log (handlers received) (i :: sched)) := by
  rw [stays_cons, result_of_call hn, ih]
  cases ht : P.thread i with
  | ret b =>
    rw [Pool.log_cons_of_ret ht]
    simp
  | call c' k' =>
    rw [Pool.log_cons_of_call ht, undisturbed_cons]
    simp [hi]

/-- After the proxy is done its link stays as long as it is not removed. -/
theorem stays_iff_of_ret (hn : P.thread none = .ret a) :
    Stays (handlers received) P path t sched ↔
      P.state path = some t ∧
      ∀ y ∈ P.log (handlers received) sched, y.2.call ≠ .unlink path := by
  induction sched generalizing P with
  | nil =>
    have hsome : (P.result none).isSome = true := by rw [Pool.result_eq_some.2 hn]; rfl
    simp [Stays, Pool.log, Pool.run, hsome]
  | cons i sched ih =>
    have hsome : (P.result none).isSome = true := by rw [Pool.result_eq_some.2 hn]; rfl
    rw [stays_cons, hsome]
    cases ht : P.thread i with
    | ret b =>
      rw [Pool.log_cons_of_ret ht, Pool.step_of_ret ht, ih hn]
      simp
    | call c k =>
      have hi : none ≠ i := by
        rintro rfl
        cases hn.symm.trans ht
      rw [ih ((Pool.thread_step_of_ne hi).trans hn), Pool.log_cons_of_call ht,
        Pool.step_of_call ht]
      simp only [true_imp_iff, List.forall_mem_cons]
      refine and_congr_right fun hs => ?_
      rw [handlers, system_keeps_iff hs]

/-- The proxy is about to make its link. -/
theorem stays_iff_of_symlink (hn : P.thread none = .call (.symlink t path) fun ok => .ret ok) :
    Stays (handlers received) P path t sched ↔
      Undisturbed path t (P.log (handlers received) sched) := by
  induction sched generalizing P with
  | nil => simp [Stays, Undisturbed, Pool.log, Pool.run, result_of_call hn]
  | cons i sched ih =>
    by_cases hi : i = none
    · subst hi
      have hret : ((P.step (handlers received) none).thread none) =
          .ret (handlers received none (.symlink t path) P.state).1 :=
        Pool.thread_step_of_call hn
      have hrest : Undisturbed path t ((P.step (handlers received) none).log
          (handlers received) sched) := fun l₁ x l₂ hl hx => by
        have hmem : x ∈ (P.step (handlers received) none).log (handlers received) sched := by
          rw [hl]
          simp
        exact absurd hx (Pool.ne_of_mem_log hret hmem)
      rw [stays_cons, result_of_call hn, stays_iff_of_ret hret, Pool.log_cons_of_call hn,
        undisturbed_cons, and_iff_left hrest, Pool.step_of_call hn]
      simp only [handlers, system_symlink_iff]
      simp
    · exact stays_iff_of_hook hn hi (ih ((Pool.thread_step_of_ne (Ne.symm hi)).trans hn))

/-- The proxy is about to remove the link that is there. -/
theorem stays_iff_of_unlink
    (hn : P.thread none = .call (.unlink path) fun _ => .call (.symlink t path) fun ok => .ret ok) :
    Stays (handlers received) P path t sched ↔
      Undisturbed path t (P.log (handlers received) sched) := by
  induction sched generalizing P with
  | nil => simp [Stays, Undisturbed, Pool.log, Pool.run, result_of_call hn]
  | cons i sched ih =>
    by_cases hi : i = none
    · subst hi
      have hnext : ((P.step (handlers received) none).thread none) =
          .call (.symlink t path) fun ok => .ret ok :=
        Pool.thread_step_of_call hn
      rw [stays_cons, result_of_call hn, stays_iff_of_symlink hnext, Pool.log_cons_of_call hn,
        undisturbed_cons]
      simp
    · exact stays_iff_of_hook hn hi (ih ((Pool.thread_step_of_ne (Ne.symm hi)).trans hn))

end Step

theorem stays_iff_undisturbed (shm : ShmPath) (a : Sockaddr) (name t : Str)
    (ha : save_socket_address a = some name) (received : κ → ℤ × Option Sockaddr)
    (msgs : κ → Option Msghdr) (s : Links) (sched : List (Option κ)) :
    Stays (handlers received) (publishing shm a t msgs s) (linkname shm name) t sched ↔
      Undisturbed (linkname shm name) t
        ((publishing shm a t msgs s).log (handlers received) sched) := by
  refine stays_iff_of_unlink ?_
  show set_proxy_address_info shm a t = _
  rw [set_proxy_address_info, ha]

/-! ## The calls of a hook -/

section Hook

variable {shm : ShmPath} {received : ℤ × Option Sockaddr} {sent : ℤ} {msg : Option Msghdr}
  {a : Sockaddr} {name nm : Str} {es : List (Event Call Answer Links)}

/-- The calls that write an entry. -/
theorem traces_set {t : Str} {α : Type} {v : α}
    (h : (set_proxy_address_info shm a t >>= fun _ => .ret v).Traces (system received sent) es) :
    ∀ e ∈ es, ∃ name, save_socket_address a = some name ∧
      (e.call = .unlink (linkname shm name) ∨ e.call = .symlink t (linkname shm name)) := by
  rw [set_proxy_address_info] at h
  cases ha : save_socket_address a with
  | none =>
    rw [ha] at h
    rw [traces_ret.1 h]
    exact fun e he => absurd he List.not_mem_nil
  | some name =>
    rw [ha] at h
    rcases traces_call.1 h with rfl | ⟨s, es, rfl, h₁⟩
    · exact fun e he => absurd he List.not_mem_nil
    · rcases traces_call.1 h₁ with rfl | ⟨s', es, rfl, h₂⟩
      · exact List.forall_mem_cons.2 ⟨⟨name, rfl, Or.inl rfl⟩, fun e he => absurd he List.not_mem_nil⟩
      · rw [traces_ret.1 h₂]
        refine List.forall_mem_cons.2 ⟨⟨name, rfl, Or.inl rfl⟩, List.forall_mem_cons.2 ⟨?_, ?_⟩⟩
        · exact ⟨name, rfl, Or.inr rfl⟩
        · exact fun e he => absurd he List.not_mem_nil

/-- The calls of the proxy. -/
theorem traces_proxy {t : Str} (ha : save_socket_address a = some name)
    (h : (set_proxy_address_info shm a t).Traces (system received sent) es) :
    es.map Event.call <+: [.unlink (linkname shm name), .symlink t (linkname shm name)] := by
  rw [set_proxy_address_info, ha] at h
  rcases traces_call.1 h with rfl | ⟨s, es, rfl, h₁⟩
  · exact List.nil_prefix
  · rcases traces_call.1 h₁ with rfl | ⟨s', es, rfl, h₂⟩
    · exact List.prefix_append _ _
    · rw [traces_ret.1 h₂]
      exact List.prefix_rfl

/-- A hook unlinks and makes links under the name that its lookup presents the peer under. -/
theorem traces_hook (h : (hook shm msg).Traces (system received sent) es) :
    (∀ e ∈ es, e.call = .recvmsg) ∨ ∃ peer peerName r s x es', received.2 = some peer ∧
      save_socket_address peer = some peerName ∧
      es = r :: ⟨s, .readlink (linkname shm peerName) 53, x⟩ :: es' ∧ r.call = .recvmsg ∧
      ∀ e ∈ es', ∃ name,
        save_socket_address (lookedUp (s (linkname shm peerName)) peer).2 = some name ∧
        (e.call = .unlink (linkname shm name) ∨ e.call = .symlink peerName (linkname shm name)) := by
  rcases traces_call.1 h with rfl | ⟨s₀, es, rfl, h₁⟩
  · exact Or.inl fun e he => absurd he List.not_mem_nil
  have hrest : es = [] ∨ ∃ peer peerName s x es', received.2 = some peer ∧
      save_socket_address peer = some peerName ∧
      es = ⟨s, .readlink (linkname shm peerName) 53, x⟩ :: es' ∧
      ∀ e ∈ es', ∃ name,
        save_socket_address (lookedUp (s (linkname shm peerName)) peer).2 = some name ∧
        (e.call = .unlink (linkname shm name) ∨ e.call = .symlink peerName (linkname shm name)) := by
    rw [system] at h₁
    rcases msg with _ | msg
    · exact Or.inl (traces_ret.1 h₁)
    rcases received with ⟨n, _ | peer⟩
    · exact Or.inl (traces_ret.1 h₁)
    cases hname : save_socket_address peer with
    | none =>
      have hchange : change_socket_address shm peer = .ret (false, peer) := by
        rw [change_socket_address, hname]
      have hset : ∀ t, set_proxy_address_info shm peer t = .ret false := fun t => by
        rw [set_proxy_address_info, hname]
      dsimp only at h₁
      rw [hchange, ret_bind, hset] at h₁
      exact Or.inl (traces_ret.1 h₁)
    | some peerName =>
      dsimp only at h₁
      rw [change_eq hname] at h₁
      rcases traces_call.1 h₁ with rfl | ⟨s, es, rfl, h₂⟩
      · exact Or.inl rfl
      · refine Or.inr ⟨peer, peerName, s, _, es, rfl, hname, rfl, ?_⟩
        dsimp only [system] at h₂
        rw [lookedUp_take, hname, Option.getD_some] at h₂
        change ((set_proxy_address_info shm _ peerName >>= _) >>= _ : Act Bool).Traces _ es at h₂
        rw [bind_assoc] at h₂
        exact traces_set h₂
  rcases hrest with rfl | ⟨peer, peerName, s, x, es', hpeer, hname, rfl, hes'⟩
  · exact Or.inl (List.forall_mem_cons.2 ⟨rfl, fun e he => absurd he List.not_mem_nil⟩)
  · exact Or.inr ⟨peer, peerName, _, s, x, es', hpeer, hname, rfl, rfl, hes'⟩

end Hook

/-! ## The calls of all -/

section Log

variable {shm : ShmPath} {a : Sockaddr} {name t : Str} {received : κ → ℤ × Option Sockaddr}
  {msgs : κ → Option Msghdr} {s : Links} {sched : List (Option κ)} {k : κ}
  {l₁ l₂ : List (Option κ × Event Call Answer Links)} {x : Option κ × Event Call Answer Links}

variable (name) in
/-- What a hook does: its lookup has led it to a name, and it aims at the published one if that is
the name. -/
theorem hook_spec (log : List (Option κ × Event Call Answer Links))
    (hlog : (publishing shm a t msgs s).log (handlers received) sched = log) (hx : x ∈ log)
    (hk : x.1 = some k) :
    x.2.call = .recvmsg ∨ x.2.call.isReadlink = true ∨ ∃ peer peerName b name',
      (received k).2 = some peer ∧ save_socket_address peer = some peerName ∧
      save_socket_address b = some name' ∧ (Aims shm received name log k ↔ name' = name) ∧
      (x.2.call = .unlink (linkname shm name') ∨
        x.2.call = .symlink peerName (linkname shm name')) := by
  have hmem : ∀ y ∈ log, y.1 = some k → y.2 ∈ (log.filter (·.1 = some k)).map Prod.snd :=
    fun y hy hyk => List.mem_map_of_mem (List.mem_filter.2 ⟨hy, decide_eq_true hyk⟩)
  have htraces := Pool.traces_log (h := handlers received) (publishing shm a t msgs s) sched (some k)
  rw [hlog] at htraces
  rcases traces_hook htraces with hall | ⟨peer, peerName, r, s', y, es, hpeer, hname, hes, hr, hall⟩
  · exact Or.inl (hall _ (hmem x hx hk))
  rw [hes] at hmem
  have hx' := hmem x hx hk
  rw [List.mem_cons, List.mem_cons] at hx'
  rcases hx' with hx' | hx' | hx'
  · exact Or.inl (hx' ▸ hr)
  · exact Or.inr (Or.inl (by rw [hx']; rfl))
  obtain ⟨name', hname', hcall⟩ := hall _ hx'
  refine Or.inr (Or.inr ⟨peer, peerName, _, name', hpeer, hname, hname', ?_, hcall⟩)
  constructor
  · rintro ⟨z, hz, hzk, hread, peer', peerName', hpeer', hname'', hpres⟩
    have hz' := hmem z hz hzk
    rw [List.mem_cons, List.mem_cons] at hz'
    rcases hz' with hz' | hz' | hz'
    · rw [hz', hr] at hread
      cases hread
    · rw [hz'] at hpres
      cases hpeer.symm.trans hpeer'
      cases hname.symm.trans hname''
      exact Option.some.inj (hname'.symm.trans hpres)
    · obtain ⟨_, -, h | h⟩ := hall _ hz' <;> rw [h] at hread <;> cases hread
  · rintro rfl
    have hlookup : ⟨s', .readlink (linkname shm peerName) 53, y⟩ ∈
        (log.filter (·.1 = some k)).map Prod.snd := by
      rw [hes]
      exact List.mem_cons_of_mem _ List.mem_cons_self
    obtain ⟨z, hz, hze⟩ := List.mem_map.1 hlookup
    obtain ⟨hz, hzk⟩ := List.mem_filter.1 hz
    exact ⟨z, hz, of_decide_eq_true hzk, by rw [hze]; rfl, peer, peerName, hpeer, hname,
      by rwa [hze]⟩

theorem proxy_calls (ha : save_socket_address a = some name)
    (log : List (Option κ × Event Call Answer Links))
    (hlog : (publishing shm a t msgs s).log (handlers received) sched = log) :
    ((log.filter (·.1 = none)).map Prod.snd).map Event.call <+:
      [.unlink (linkname shm name), .symlink t (linkname shm name)] := by
  have htraces := Pool.traces_log (h := handlers received) (publishing shm a t msgs s) sched none
  rw [← hlog]
  exact traces_proxy ha htraces

/-- The proxy makes its link after it has unlinked, and these are its calls. -/
theorem proxy_spec (ha : save_socket_address a = some name)
    (log : List (Option κ × Event Call Answer Links))
    (hlog : (publishing shm a t msgs s).log (handlers received) sched = log)
    (hsplit : log = l₁ ++ x :: l₂) (hx : x.1 = none) (hsym : x.2.call.isSymlink = true) :
    x.2.call = .symlink t (linkname shm name) ∧
      (∃ z ∈ l₁, z.2.call = .unlink (linkname shm name)) ∧
      ∀ z ∈ l₁, z.1 = none → z.2.call = .unlink (linkname shm name) := by
  have hcalls := proxy_calls ha log hlog
  rw [hsplit, List.filter_append, List.filter_cons_of_pos (by simpa using hx), List.map_append,
    List.map_append, List.map_cons, List.map_cons] at hcalls
  have hmem : ∀ z ∈ l₁, z.1 = none →
      z.2.call ∈ ((l₁.filter (·.1 = none)).map Prod.snd).map Event.call := fun z hz hzn =>
    List.mem_map_of_mem (List.mem_map_of_mem (List.mem_filter.2 ⟨hz, decide_eq_true hzn⟩))
  generalize hcs : ((l₁.filter (·.1 = none)).map Prod.snd).map Event.call = cs at hcalls hmem
  rcases cs with _ | ⟨c, _ | ⟨c', cs⟩⟩
  · rw [(List.cons_prefix_cons.1 hcalls).1] at hsym
    cases hsym
  · obtain ⟨rfl, hrest⟩ := List.cons_prefix_cons.1 hcalls
    refine ⟨(List.cons_prefix_cons.1 hrest).1, ?_,
      fun z hz hzn => List.mem_singleton.1 (hmem z hz hzn)⟩
    obtain ⟨e, he, hcall⟩ := List.mem_map.1 (hcs ▸ List.mem_cons_self)
    obtain ⟨z, hz, rfl⟩ := List.mem_map.1 he
    exact ⟨z, (List.mem_filter.1 hz).1, hcall⟩
  · have hlen := hcalls.length_le
    simp at hlen

/-- What the proxy or an aiming hook unlinks is the link of the name, and nobody else does. -/
theorem clears_iff (ha : save_socket_address a = some name)
    (log : List (Option κ × Event Call Answer Links))
    (hlog : (publishing shm a t msgs s).log (handlers received) sched = log) (hx : x ∈ log) :
    Clears shm received name log x ↔ x.2.call = .unlink (linkname shm name) := by
  cases hk : x.1 with
  | none =>
    have hcalls := (proxy_calls ha log hlog).subset (List.mem_map_of_mem (List.mem_map_of_mem
      (List.mem_filter.2 ⟨hx, decide_eq_true hk⟩)))
    rw [List.mem_cons, List.mem_singleton] at hcalls
    rcases hcalls with hcall | hcall <;> simp [Clears, hk, hcall, Call.isUnlink]
  | some k =>
    have hclears : Clears shm received name log x ↔
        x.2.call.isUnlink = true ∧ Aims shm received name log k := by
      simp [Clears, hk]
    rw [hclears]
    rcases hook_spec name log hlog hx hk with
      hcall | hcall | ⟨peer, peerName, b, name', -, -, hb, haims, hcall | hcall⟩
    · simp [hcall, Call.isUnlink]
    · cases hc : x.2.call <;> simp_all [Call.isReadlink, Call.isUnlink]
    · simp [hcall, Call.isUnlink, haims, linkname_eq_iff hb ha]
    · simp [hcall, Call.isUnlink]

/-- The same for links that the hooks make. -/
theorem makes_iff (ha : save_socket_address a = some name)
    (log : List (Option κ × Event Call Answer Links))
    (hlog : (publishing shm a t msgs s).log (handlers received) sched = log) (hx : x ∈ log)
    (hk : x.1 ≠ none) (u : Str) :
    Makes shm received name log x u ↔ x.2.call = .symlink u (linkname shm name) := by
  obtain ⟨k, hk⟩ := Option.ne_none_iff_exists'.1 hk
  have hmakes : Makes shm received name log x u ↔ x.2.call.isSymlink = true ∧
      Aims shm received name log k ∧ ∃ peer, (received k).2 = some peer ∧
        save_socket_address peer = some u := by
    simp [Makes, hk]
  rw [hmakes]
  rcases hook_spec name log hlog hx hk with
    hcall | hcall | ⟨peer, peerName, b, name', hpeer, hname, hb, haims, hcall | hcall⟩
  · simp [hcall, Call.isSymlink]
  · cases hc : x.2.call <;> simp_all [Call.isReadlink, Call.isSymlink]
  · simp [hcall, Call.isSymlink]
  · simp [hcall, Call.isSymlink, haims, hpeer, hname, linkname_eq_iff hb ha, and_comm]

end Log

section Place

/-- What a call does to one link. -/
def touch (path : Str) (o : Option Str) (x : Option κ × Event Call Answer Links) : Option Str :=
  match x.2.call with
  | .unlink q => if q = path then none else o
  | .symlink u q => if q = path then o.or (some u) else o
  | _ => o

omit [DecidableEq κ] in
theorem touch_eq (received : κ → ℤ × Option Sockaddr) (path : Str) (s : Links)
    (x : Option κ × Event Call Answer Links) :
    touch path (s path) x = (handlers received x.1 x.2.call s).2 path := by
  rw [touch, handlers]
  cases x.2.call with
  | recvmsg | sendmsg _ | readlink _ _ => rfl
  | unlink q =>
    by_cases hq : q = path
    · simp [system, hq]
    · simp [system, hq, Function.update_of_ne (Ne.symm hq)]
  | symlink u q =>
    by_cases hq : q = path
    · subst hq
      cases hs : s q <;> simp [system, hs]
    · cases hs : s q <;> simp [system, hq, hs, Function.update_of_ne (Ne.symm hq)]

omit [DecidableEq κ] in
theorem acts_touch (path : Str) (x : Option κ × Event Call Answer Links) :
    Slot.Acts (fun x => x.2.call = .unlink path) (fun x u => x.2.call = .symlink u path)
      (touch path) x := by
  constructor
  · intro h o
    rw [touch, h]
    exact if_pos rfl
  · intro u h o
    rw [touch, h]
    exact if_pos rfl
  · intro h h' o
    rw [touch]
    cases hc : x.2.call with
    | recvmsg | sendmsg _ | readlink _ _ => rfl
    | unlink q => exact if_neg fun e : q = path => h (by rw [hc, e])
    | symlink u q => exact if_neg fun e : q = path => h' u (by rw [hc, e])

end Place

/-- Whatever the order of the calls, the entry that a proxy has published stays exactly when the
hooks that aim at its name spare it. -/
theorem publication_stays_iff (shm : ShmPath) (a : Sockaddr) (name t : Str)
    (ha : save_socket_address a = some name) (received : κ → ℤ × Option Sockaddr)
    (msgs : κ → Option Msghdr) (s : Links) (sched : List (Option κ)) :
    Stays (handlers received) (publishing shm a t msgs s) (linkname shm name) t sched ↔
      Spared shm received name t ((publishing shm a t msgs s).log (handlers received) sched) := by
  rw [stays_iff_undisturbed shm a name t ha]
  generalize hlog : (publishing shm a t msgs s).log (handlers received) sched = log
  have hbefore : ∀ l₁ x l₂, log = l₁ ++ x :: l₂ → x.1 = none → x.2.call.isSymlink = true → ∀ u,
      Slot.Left (Clears shm received name log) (Makes shm received name log) l₁ u ↔
        x.2.before (linkname shm name) = some u := by
    intro l₁ x l₂ hsplit hx hsym u
    obtain ⟨-, hcleared, hproxy⟩ := proxy_spec ha log hlog hsplit hx hsym
    have hmem : ∀ z ∈ l₁, z ∈ log := fun z hz => hsplit ▸ List.mem_append_left _ hz
    have hfold : l₁.foldl _ (s (linkname shm name)) = _ :=
      List.foldl_hom (fun s : Links => s (linkname shm name)) (touch_eq received (linkname shm name))
    rw [Pool.before_of_log (hlog.trans hsplit)]
    change _ ↔ (l₁.foldl _ s) (linkname shm name) = some u
    rw [← hfold, (Slot.foldl_spec (fun z _ => acts_touch _ z) hcleared).2 u]
    refine Slot.left_congr (fun z hz => clears_iff ha log hlog (hmem z hz)) fun z hz u => ?_
    by_cases hzn : z.1 = none
    · simp [Makes, hproxy z hz hzn, Call.isSymlink]
    · exact makes_iff ha log hlog (hmem z hz) hzn u
  constructor
  · intro h
    refine ⟨fun l₁ x l₂ hsplit hx hsym u hu => ?_, fun l₁ x l₂ hsplit hx hsym y hy hclears => ?_⟩
    · have hcall := (proxy_spec ha log hlog hsplit hx hsym).1
      have hu' := (hbefore l₁ x l₂ hsplit hx hsym u).1 hu
      rcases (h l₁ x l₂ hsplit hx hcall).1 with hnone | hsome
      · cases hu'.symm.trans hnone
      · exact Option.some.inj (hu'.symm.trans hsome)
    · have hcall := (proxy_spec ha log hlog hsplit hx hsym).1
      have hy' : y ∈ log := hsplit ▸ List.mem_append_right _ (List.mem_cons_of_mem _ hy)
      exact (h l₁ x l₂ hsplit hx hcall).2 y hy ((clears_iff ha log hlog hy').1 hclears)
  · intro h l₁ x l₂ hsplit hx hcall
    have hsym : x.2.call.isSymlink = true := by rw [hcall]; rfl
    refine ⟨?_, fun y hy hy' => ?_⟩
    · cases hv : x.2.before (linkname shm name) with
      | none => exact Or.inl rfl
      | some u =>
        have hu := (hbefore l₁ x l₂ hsplit hx hsym u).2 hv
        exact Or.inr (congrArg some (h.until_made l₁ x l₂ hsplit hx hsym u hu))
    · have hmem : y ∈ log := hsplit ▸ List.mem_append_right _ (List.mem_cons_of_mem _ hy)
      exact h.afterwards l₁ x l₂ hsplit hx hsym y hy ((clears_iff ha log hlog hmem).2 hy')

/-- A hook that has found no entry for its peer removes the one that has been published since. -/
def Sample.overtaken : List (Option Unit) := [some (), some (), none, none, some ()]

/-- A server that receives from the address that is published. -/
def Sample.peer : Sockaddr := .inet 1024 0xC0000201

theorem publication_stays_iff_overtaken :
    Stays (handlers fun _ => (1, some Sample.peer))
        (publishing ⟨[], by decide⟩ Sample.peer "198.51.100.7,5060".toList
          (fun _ => some ⟨none⟩) fun _ => none)
        (linkname ⟨[], by decide⟩ "192.0.2.1,1024".toList) "198.51.100.7,5060".toList
        Sample.overtaken ↔
      Spared ⟨[], by decide⟩ (fun _ => (1, some Sample.peer)) "192.0.2.1,1024".toList
        "198.51.100.7,5060".toList
        ((publishing ⟨[], by decide⟩ Sample.peer "198.51.100.7,5060".toList
          (fun _ => some ⟨none⟩) fun _ => none).log (handlers fun _ => (1, some Sample.peer))
          Sample.overtaken) :=
  publication_stays_iff _ _ _ _ (by decide +kernel) _ _ _ _

/-- The entry is published, and then it is gone. -/
theorem publication_lost :
    ¬ Stays (handlers fun _ => (1, some Sample.peer))
        (publishing ⟨[], by decide⟩ Sample.peer "198.51.100.7,5060".toList
          (fun _ => some ⟨none⟩) fun _ => none)
        (linkname ⟨[], by decide⟩ "192.0.2.1,1024".toList) "198.51.100.7,5060".toList
        Sample.overtaken := by
  intro h
  exact absurd (h 5 (by decide +kernel)) (by decide +kernel)

end YazzyPreload.Oobpsai

import Mathlib.Tactic.SplitIfs
import YazzyPreload.Oobpsai.Table

/-!
# Replies to a presented peer

A program receives a message from a peer `a`, whom the table presents as `b`, and sends replies to
the address that it was given.  The hook of `sendmsg` hands the message to the system before it looks
up the destination, and then writes what it has found into the program's own header: the replies go
to `b`, and `conversation_reaches_iff` says that they reach the peer only if `b` is the peer itself.
-/

namespace YazzyPreload.Oobpsai

/-- A reply is sent with the header of the message, or with a new one. -/
inductive Reply
  | reused
  | fresh

section Conversation

variable (shm : ShmPath)

/-- The header that a call has left to the program. -/
def Result.header : Result (ℤ × Option Msghdr) → Option Msghdr
  | .returned (_, msg) => msg
  | .segfault => none

/-- The header that a reply to `b` is sent with; `msg` is the header of the message. -/
def Reply.header (b : Sockaddr) (msg : Option Msghdr) : Reply → Option Msghdr
  | .reused => msg
  | .fresh => some ⟨some b⟩

/-- The header of the message after a reply. -/
def Reply.next (msg sent : Option Msghdr) : Reply → Option Msghdr
  | .reused => sent
  | .fresh => msg

/-- The program replies to `b`.  The result has the header of each reply after its call. -/
def replies (b : Sockaddr) : List Reply → Option Msghdr → Act (List (Option Msghdr))
  | [], _ => .ret []
  | r :: rs, msg => do
    let res ← sendmsg shm (r.header b msg)
    let rest ← replies b rs (r.next msg res.header)
    .ret (res.header :: rest)

/-- The program receives a message with the header `msg` and then replies to `b`. -/
def conversation (msg : Msghdr) (b : Sockaddr) (rs : List Reply) : Act (List (Option Msghdr)) := do
  let res ← recvmsg shm (some msg)
  let rest ← replies shm b rs res.header
  .ret (res.header :: rest)

/-- Every message is handed to the system with the destination `a`, and every header of the program
holds `b` after each call. -/
def Reaches (a b : Sockaddr) (h : Handler Call Answer Links) (p : Act (List (Option Msghdr)))
    (s : Links) : Prop :=
  (∀ d, Call.sendmsg d ∈ p.calls h s → d = some a) ∧ ∀ msg ∈ (p.run h s).1, msg = some ⟨some b⟩

end Conversation

/-! ## Which messages are sent -/

section Sent

variable {shm : ShmPath} {h : Handler Call Answer Links} {s : Links} {d : Option Sockaddr}

/-- The call does not send anything. -/
def NoSend (c : Call) : Prop := ∀ d, c ≠ .sendmsg d

theorem only_change (a : Sockaddr) : (change_socket_address shm a).Only NoSend := by
  unfold change_socket_address
  cases save_socket_address a with
  | none => trivial
  | some name =>
    refine ⟨fun d => by simp, fun r => ?_⟩
    cases r with
    | none => trivial
    | some t =>
      dsimp only
      split_ifs <;> trivial

theorem only_set (a : Sockaddr) (t : Str) : (set_proxy_address_info shm a t).Only NoSend := by
  unfold set_proxy_address_info
  cases save_socket_address a with
  | none => trivial
  | some name => exact ⟨fun d => by simp, fun _ => ⟨fun d => by simp, fun _ => trivial⟩⟩

theorem only_recvmsg (msg : Option Msghdr) : (recvmsg shm msg).Only NoSend := by
  refine ⟨fun d => by simp, fun (ret, name) => ?_⟩
  match msg, name with
  | none, _ => trivial
  | some _, none => trivial
  | some _, some peer => exact (only_change peer).bind fun _ => (only_set _ _).bind fun _ => trivial

/-- The destination of a message is the name in its header. -/
theorem dest_of_mem_calls {msg : Option Msghdr} (hd : Call.sendmsg d ∈ (sendmsg shm msg).calls h s) :
    d = msg.bind Msghdr.msg_name := by
  rw [sendmsg, Prog.calls_call, List.mem_cons] at hd
  rcases hd with hd | hd
  · cases hd
    rfl
  · refine absurd rfl (Prog.Only.of_mem_calls (P := NoSend) ?_ hd d)
    match msg with
    | none => trivial
    | some ⟨none⟩ => trivial
    | some ⟨some dest⟩ => exact (only_change dest).bind fun _ => trivial

theorem sendmsg_mem_calls (msg : Option Msghdr) :
    Call.sendmsg (msg.bind Msghdr.msg_name) ∈ (sendmsg shm msg).calls h s := by
  rw [sendmsg, Prog.calls_call]
  exact List.mem_cons_self

end Sent

/-! ## Runs -/

section Theorems

variable {shm : ShmPath} {ret sent : ℤ} {a b : Sockaddr} {name t : Str} {s : Links}

theorem Presents.ne_nil (h : Presents t a b) : t ≠ [] := by
  obtain ⟨-, ip, port, n, rfl, -⟩ := h
  simp

theorem Presents.exists_save (h : Presents t a b) : ∃ name, save_socket_address b = some name := by
  obtain ⟨-, ip, port, n, -, -, -, hab⟩ := h
  cases b with
  | inet p addr => exact ⟨_, rfl⟩
  | inet6 p f addr i => exact ⟨_, rfl⟩
  | other family => cases a <;> exact hab.elim

variable (ret sent) in
/-- The peer is presented as `b`, and `b` is linked back to it. -/
theorem run_recvmsg (ha : save_socket_address a = some name) (ht : s (linkname shm name) = some t)
    (hab : Presents t a b) (msg : Msghdr) :
    ∃ name', save_socket_address b = some name' ∧
      (recvmsg shm (some msg)).run (system (ret, some a) sent) s =
        (.returned (ret, some ⟨some b⟩), Function.update s (linkname shm name') (some name)) := by
  obtain ⟨name', hb⟩ := hab.exists_save
  refine ⟨name', hb, ?_⟩
  have hchange := run_change (ret, some a) sent ha ht hab.ne_nil hab.1
  rw [update_of_presents hab] at hchange
  rw [recvmsg, Prog.run_call]
  dsimp only [system]
  rw [Prog.run_bind, hchange]
  dsimp only
  rw [Prog.run_bind, ha, Option.getD_some, run_set hb]
  rfl

variable (sent) in
/-- A message to a peer that is linked to itself. -/
theorem run_sendmsg (ha : save_socket_address a = some name)
    (hs : s (linkname shm name) = some name) (received : ℤ × Option Sockaddr) :
    (sendmsg shm (some ⟨some a⟩)).run (system received sent) s =
      (.returned (sent, some ⟨some a⟩), s) := by
  obtain ⟨ip, port, -, hname, hlen⟩ := save_eq ha
  have hchange := run_change received sent ha hs (by simp [hname]) hlen
  rw [update_saved ha] at hchange
  rw [sendmsg, Prog.run_call]
  dsimp only [system]
  rw [Prog.run_bind, hchange]
  rfl

/-- All replies reach a peer that is presented as itself. -/
theorem replies_reach (ha : save_socket_address a = some name)
    (hs : s (linkname shm name) = some name) (received : ℤ × Option Sockaddr) (rs : List Reply) :
    Reaches a a (system received sent) (replies shm a rs (some ⟨some a⟩)) s := by
  have hrun := run_sendmsg sent ha hs received
  induction rs with
  | nil => exact ⟨fun d hd => absurd hd List.not_mem_nil, fun m hm => absurd hm List.not_mem_nil⟩
  | cons r rs ih =>
    have hheader : r.header a (some ⟨some a⟩) = some ⟨some a⟩ := by cases r <;> rfl
    have hnext : r.next (some ⟨some a⟩) (some ⟨some a⟩) = some ⟨some a⟩ := by cases r <;> rfl
    rw [replies, hheader]
    constructor
    · intro d hd
      rw [Prog.calls_bind, List.mem_append, hrun] at hd
      rcases hd with hd | hd
      · exact dest_of_mem_calls hd
      · rw [Prog.calls_bind, List.mem_append] at hd
        dsimp only [Result.header] at hd
        rw [hnext] at hd
        rcases hd with hd | hd
        · exact ih.1 d hd
        · exact absurd hd List.not_mem_nil
    · intro m hm
      rw [Prog.run_bind, hrun, Prog.run_bind] at hm
      dsimp only [Result.header, Prog.run_ret] at hm
      rw [hnext] at hm
      rcases List.mem_cons.1 hm with rfl | hm
      · rfl
      · exact ih.2 m hm

/-- Receiving a message sends none. -/
theorem reaches_conversation_iff {h : Handler Call Answer Links} {msg : Msghdr} {s' : Links}
    {rs : List Reply}
    (hrun : (recvmsg shm (some msg)).run h s = (.returned (ret, some ⟨some b⟩), s')) :
    Reaches a b h (conversation shm msg b rs) s ↔
      Reaches a b h (replies shm b rs (some ⟨some b⟩)) s' := by
  have hno (d : Option Sockaddr) : Call.sendmsg d ∉ (recvmsg shm (some msg)).calls h s := fun hd =>
    (only_recvmsg (some msg)).of_mem_calls hd d rfl
  have hcalls (d : Option Sockaddr) : Call.sendmsg d ∈ (conversation shm msg b rs).calls h s ↔
      Call.sendmsg d ∈ (replies shm b rs (some ⟨some b⟩)).calls h s' := by
    rw [conversation, Prog.calls_bind, hrun, List.mem_append, or_iff_right (hno d), Prog.calls_bind,
      List.mem_append, Prog.calls_ret, or_iff_left List.not_mem_nil]
    rfl
  have hresult : ((conversation shm msg b rs).run h s).1 =
      some ⟨some b⟩ :: ((replies shm b rs (some ⟨some b⟩)).run h s').1 := by
    rw [conversation, Prog.run_bind, hrun, Prog.run_bind]
    rfl
  unfold Reaches
  rw [hresult]
  simp only [hcalls, List.forall_mem_cons, true_and]

/-- A reply is handed to the system with the presented address. -/
theorem eq_of_replies_reach {h : Handler Call Answer Links} {r : Reply} {rs : List Reply}
    (hr : Reaches a b h (replies shm b (r :: rs) (some ⟨some b⟩)) s) : a = b := by
  have hheader : r.header b (some ⟨some b⟩) = some ⟨some b⟩ := by cases r <;> rfl
  have hfirst : Call.sendmsg (some b) ∈ (replies shm b (r :: rs) (some ⟨some b⟩)).calls h s := by
    rw [replies, hheader, Prog.calls_bind, List.mem_append]
    exact .inl (sendmsg_mem_calls (some ⟨some b⟩))
  exact (Option.some.inj (hr.1 _ hfirst)).symm

end Theorems

/-- All replies to a peer that the table presents as `b` reach it, and the headers keep `b`, exactly
when there are none or the peer is presented as itself. -/
theorem conversation_reaches_iff (shm : ShmPath) (s : Links) (a b : Sockaddr) (name t : Str)
    (ha : save_socket_address a = some name) (ht : s (linkname shm name) = some t)
    (hab : Presents t a b) (msg : Msghdr) (ret sent : ℤ) (rs : List Reply) :
    Reaches a b (system (ret, some a) sent) (conversation shm msg b rs) s ↔ rs = [] ∨ a = b := by
  obtain ⟨name', hb, hrun⟩ := run_recvmsg ret sent ha ht hab msg
  rw [reaches_conversation_iff hrun]
  constructor
  · intro hr
    cases rs with
    | nil => exact .inl rfl
    | cons r rs => exact .inr (eq_of_replies_reach hr)
  · rintro (rfl | rfl)
    · exact ⟨fun d hd => absurd hd List.not_mem_nil, fun m hm => absurd hm List.not_mem_nil⟩
    · cases ha.symm.trans hb
      exact replies_reach ha (Function.update_self _ _ _) _ rs

/-- A peer `192.0.2.1`, port 1024, that is presented as `198.51.100.7`, port 5060. -/
def Sample.links : Links :=
  Function.update (fun _ => none) "/run/shm/oobpsai/192.0.2.1,1024".toList
    (some "198.51.100.7,5060".toList)

/-- The directory of the table. -/
def Sample.shm : ShmPath := dfltShmPath

theorem Sample.presents : Presents "198.51.100.7,5060".toList (.inet 1024 0xC0000201)
    (.inet 5060 0xC6336407) :=
  ⟨by decide, "198.51.100.7".toList, "5060".toList, 5060, by decide, by decide, by decide,
    by decide, by decide⟩

theorem conversation_reaches_iff_sample :
    Reaches (.inet 1024 0xC0000201) (.inet 5060 0xC6336407)
      (system (1, some (.inet 1024 0xC0000201)) 1)
      (conversation Sample.shm ⟨none⟩ (.inet 5060 0xC6336407) [.reused]) Sample.links ↔
    [Reply.reused] = [] ∨ Sockaddr.inet 1024 0xC0000201 = .inet 5060 0xC6336407 :=
  conversation_reaches_iff Sample.shm Sample.links _ _ _ _ rfl (by decide +kernel) Sample.presents
    ⟨none⟩ 1 1 [.reused]

/-- The first reply is handed to the system with the presented address. -/
theorem reply_misses_peer :
    (save_socket_address (.inet 1024 0xC0000201)).bind (fun name =>
      Sample.links (linkname Sample.shm name)) = some "198.51.100.7,5060".toList ∧
    Presents "198.51.100.7,5060".toList (.inet 1024 0xC0000201) (.inet 5060 0xC6336407) ∧
    ¬ Reaches (.inet 1024 0xC0000201) (.inet 5060 0xC6336407)
      (system (1, some (.inet 1024 0xC0000201)) 1)
      (conversation Sample.shm ⟨none⟩ (.inet 5060 0xC6336407) [.reused]) Sample.links := by
  refine ⟨by decide +kernel, Sample.presents, fun h => ?_⟩
  have hsent : Call.sendmsg (some (.inet 5060 0xC6336407)) ∈
      (conversation Sample.shm ⟨none⟩ (.inet 5060 0xC6336407) [.reused]).calls
        (system (1, some (.inet 1024 0xC0000201)) 1) Sample.links := by
    decide +kernel
  exact absurd (h.1 _ hsent) (by decide)

end YazzyPreload.Oobpsai

import Mathlib.Data.List.Range
import YazzyPreload.Oobpsai.Idle
import YazzyPreload.Oobpsai.Reply
import YazzyPreload.Oobpsai.Rewrite

/-!
# Several peers

A server receives messages from many peers, and the hook links each presented address back to the
peer it stands for.  There is one link for an address, so it is the last peer that counts:
`second_reply_iff` says which peer is sent to when the header of a message is used for two replies.

The first reply goes to the presented address in any case.  After it the header holds the peer, after
the next one the presented address again, and so on (`replies_alternate`).
-/

namespace YazzyPreload.Oobpsai

open Prog

section Arrivals

variable (shm : ShmPath)

/-- The address that a message from the peer is presented with. -/
def presented (s : Links) (a : Sockaddr) : Sockaddr :=
  match save_socket_address a with
  | none => a
  | some name => (lookedUp (s (linkname shm name)) a).2

/-- The table after a message from the peer was received. -/
def arrive (s : Links) (a : Sockaddr) : Links :=
  ((recvmsg shm (some ⟨none⟩)).run (system (0, some a) 0) s).2

/-- The table after messages from the peers were received. -/
def arrivals (as : List Sockaddr) (s : Links) : Links := as.foldl (arrive shm) s

/-- The last of the peers that was presented with the text `n`. -/
def lastAs (n : Str) : List Sockaddr → Links → Option Sockaddr
  | [], _ => none
  | a :: as, s => (lastAs n as (arrive shm s a)).or
      (if save_socket_address (presented shm s a) = some n then some a else none)

/-- The destinations of the messages that are handed to the system. -/
def destinations (cs : List Call) : List (Option Sockaddr) := cs.filterMap fun
  | .sendmsg d => some d
  | _ => none

end Arrivals

variable {shm : ShmPath} {s : Links} {a b c x : Sockaddr} {name n t : Str}

/-! ## One message -/

theorem presented_of_save (ha : save_socket_address a = some name) :
    presented shm s a = (lookedUp (s (linkname shm name)) a).2 := by
  rw [presented, ha]

theorem presented_of_other (ha : save_socket_address a = none) : presented shm s a = a := by
  rw [presented, ha]

theorem exists_save_presented (ha : save_socket_address a = some name) :
    ∃ name', save_socket_address (presented shm s a) = some name' := by
  rw [presented_of_save ha]
  exact exists_save_lookedUp ha _

theorem arrive_of_save (ha : save_socket_address a = some name)
    (hn : save_socket_address (presented shm s a) = some n) :
    arrive shm s a = Function.update s (linkname shm n) (some name) := by
  rw [presented_of_save ha] at hn
  rw [arrive, run_recvmsg_of_save ha hn]

theorem arrive_of_other (ha : save_socket_address a = none) : arrive shm s a = s := by
  rw [arrive, run_recvmsg_of_other ha]

/-- What the program is given, whatever else the call returns. -/
theorem run_recvmsg_eq (msg : Msghdr) (ret sent : ℤ) :
    (recvmsg shm (some msg)).run (system (ret, some a) sent) s =
      (.returned (ret, some ⟨some (presented shm s a)⟩), arrive shm s a) := by
  cases ha : save_socket_address a with
  | none => rw [run_recvmsg_of_other ha, presented_of_other ha, arrive_of_other ha]
  | some name =>
    obtain ⟨name', hn⟩ := @exists_save_presented shm s a name ha
    rw [arrive_of_save ha hn]
    rw [presented_of_save ha] at hn ⊢
    exact run_recvmsg_of_save ha hn msg ret sent

theorem run_sendmsg_eq (received : ℤ × Option Sockaddr) (ret : ℤ) :
    (sendmsg shm (some ⟨some a⟩)).run (system received ret) s =
      (.returned (ret, some ⟨some (presented shm s a)⟩), s) := by
  cases ha : save_socket_address a with
  | none => rw [run_sendmsg_of_other ha, presented_of_other ha]
  | some name => rw [run_sendmsg_of_save ha, presented_of_save ha]

/-! ## The addresses of a conversation -/

/-- What presents an address keeps the rest of it. -/
theorem assign_presented (ha : save_socket_address a = some name) :
    a.assign (presented shm s a) = some a := by
  have hupdate : ∀ ip port, a.assign (update_socket_addr ip port a).2 = some a := by
    intro ip port
    cases a with
    | inet p addr => rw [update_socket_addr]; cases inetPton4 ip <;> rfl
    | inet6 p f addr i => rw [update_socket_addr]; cases inetPton6 ip <;> rfl
    | other family => cases ha
  have hself : a.assign a = some a := by
    cases a with
    | other family => cases ha
    | _ => rfl
  rw [presented_of_save ha]
  cases s (linkname shm name) with
  | none => exact hself
  | some t =>
    rw [lookedUp]
    split_ifs
    · exact hself
    · exact hupdate _ _

/-- A peer that is presented with the text of `b` has an address of that family. -/
theorem exists_assign (hx : save_socket_address (presented shm s x) = some n)
    (hb : save_socket_address b = some n) : ∃ c, x.assign b = some c := by
  cases hname : save_socket_address x with
  | none =>
    rw [presented_of_other hname, hname] at hx
    cases hx
  | some name =>
    have hself := @assign_presented shm s x name hname
    have hend := endpoint_eq_of_save hx hb
    generalize presented shm s x = y at hself hend
    cases x <;> cases y <;> cases b <;>
      first | exact ⟨_, rfl⟩ | (cases hend; done) | cases hself

theorem assign_eq_iff (ha : a.assign b = some a) (hx : x.assign b = some c) :
    c = a ↔ x.endpoint = a.endpoint := by
  cases x <;> cases b <;> cases hx <;> cases a <;> cases ha <;>
    simp [Sockaddr.endpoint, and_comm]

/-! ## The links -/

/-- The link of an address leads to the last peer that was presented with it. -/
theorem links_arrivals (hb : save_socket_address b = some n) (as : List Sockaddr) (s : Links) :
    arrivals shm as s (linkname shm n) =
      match lastAs shm n as s with
      | some x => save_socket_address x
      | none => s (linkname shm n) := by
  induction as generalizing s with
  | nil => rfl
  | cons a as ih =>
    have hfirst : arrive shm s a (linkname shm n) =
        if save_socket_address (presented shm s a) = some n then save_socket_address a
        else s (linkname shm n) := by
      cases ha : save_socket_address a with
      | none =>
        rw [arrive_of_other ha, presented_of_other ha, ha]
        rfl
      | some name =>
        obtain ⟨name', hn⟩ := @exists_save_presented shm s a name ha
        rw [arrive_of_save ha hn, hn]
        simp only [Function.update_apply, linkname_eq_iff hb hn, Option.some.injEq, eq_comm]
    rw [arrivals, List.foldl_cons, ← arrivals, ih, lastAs, hfirst]
    cases lastAs shm n as (arrive shm s a) with
    | some x => rfl
    | none =>
      rw [Option.none_or]
      split_ifs <;> rfl

/-! ## The replies -/

theorem destinations_of_only {α : Type} {p : Act α} (hp : p.Only NoSend)
    (h : Handler Call Answer Links) (s : Links) : destinations (p.calls h s) = [] := by
  rw [destinations, List.filterMap_eq_nil_iff]
  intro c hc
  cases c with
  | sendmsg d => exact absurd rfl (hp.of_mem_calls hc d)
  | _ => rfl

theorem destinations_sendmsg (d : Sockaddr) (h : Handler Call Answer Links) (s : Links) :
    destinations ((sendmsg shm (some ⟨some d⟩)).calls h s) = [some d] := by
  rw [sendmsg, calls_call, destinations, List.filterMap_cons]
  refine congrArg (some d :: ·) (destinations_of_only ?_ h _)
  exact (only_change d).bind fun _ => trivial

/-- Replies with one header go to what the table makes of the address, time after time. -/
theorem destinations_replies (d : Sockaddr) (k : ℕ) (received : ℤ × Option Sockaddr) (ret : ℤ) :
    destinations ((replies shm b (List.replicate k .reused) (some ⟨some d⟩)).calls
        (system received ret) s) =
      (List.range k).map fun i => some ((presented shm s)^[i] d) := by
  induction k generalizing d with
  | zero => rfl
  | succ k ih =>
    have hrest (l l' : List Call) :
        destinations (l ++ l') = destinations l ++ destinations l' := List.filterMap_append
    rw [List.replicate_succ, replies, calls_bind, hrest, List.range_succ_eq_map, List.map_cons,
      List.map_map]
    dsimp only [Reply.header]
    rw [destinations_sendmsg, run_sendmsg_eq, calls_bind, hrest]
    dsimp only [Result.header, Reply.next]
    rw [ih]
    have hend (l : List (Option Sockaddr)) : l ++ destinations [] = l := List.append_nil l
    exact congrArg (some d :: ·) (hend _)

/-- The link of a presented address leads from it to the peer that is linked. -/
theorem presented_of_link (hx : save_socket_address x = some name)
    (hb : save_socket_address b = some n) (hs : s (linkname shm n) = some name)
    (hc : x.assign b = some c) : presented shm s b = c := by
  obtain ⟨ip, port, -, hname, hlen⟩ := save_eq hx
  rw [presented_of_save hb, hs, lookedUp_of_usable (by simp [hname]) hlen, update_assign hx hc]

theorem assign_self (hb : save_socket_address b = some n) : b.assign b = some b := by
  cases b with
  | other family => cases hb
  | _ => rfl

/-- Of the replies to a peer that the table presents as another address every other one reaches it. -/
theorem replies_alternate (ha : save_socket_address a = some name)
    (ht : s (linkname shm name) = some t) (hab : Presents t a b) (hne : a ≠ b) (k : ℕ)
    (received : ℤ × Option Sockaddr) (ret : ℤ) :
    destinations ((replies shm b (List.replicate k .reused) (some ⟨some b⟩)).calls
        (system received ret) (arrive shm s a)) =
      (List.range k).map fun i => some (if i % 2 = 0 then b else a) := by
  have hpres : presented shm s a = b := by
    rw [presented_of_save ha, ht, lookedUp_of_usable hab.ne_nil hab.1, update_of_presents hab]
  obtain ⟨n, hb⟩ := hab.exists_save
  have hassign : a.assign b = some a := hpres ▸ assign_presented ha
  have hlinks : arrive shm s a = Function.update s (linkname shm n) (some name) :=
    arrive_of_save ha (hpres ▸ hb)
  have hback : presented shm (arrive shm s a) b = a := by
    refine presented_of_link ha hb ?_ hassign
    rw [hlinks, Function.update_self]
  have hforth : presented shm (arrive shm s a) a = b := by
    have hdiff : linkname shm name ≠ linkname shm n := fun h => by
      have hend := endpoint_eq_of_save hb ((linkname_eq_iff ha hb).1 h ▸ ha)
      exact hne ((assign_eq_iff hassign (assign_self hb)).2 hend).symm
    rw [presented_of_save ha, hlinks, Function.update_of_ne hdiff, ht,
      lookedUp_of_usable hab.ne_nil hab.1, update_of_presents hab]
  have hiter (i : ℕ) : (presented shm (arrive shm s a))^[i] b = if i % 2 = 0 then b else a := by
    induction i with
    | zero => rfl
    | succ i ih =>
      rw [Function.iterate_succ_apply', ih]
      rcases Nat.mod_two_eq_zero_or_one i with h | h
      · rw [if_pos h, hback, if_neg (by omega)]
      · rw [if_neg (by omega), hforth, if_pos (by omega)]
  rw [destinations_replies]
  simp only [hiter]

theorem replies_alternate_sample :
    destinations ((replies Sample.shm (.inet 5060 0xC6336407) (List.replicate 3 .reused)
        (some ⟨some (.inet 5060 0xC6336407)⟩)).calls
        (system (1, some (.inet 1024 0xC0000201)) 1)
        (arrive Sample.shm Sample.links (.inet 1024 0xC0000201))) =
      (List.range 3).map fun i =>
        some (if i % 2 = 0 then .inet 5060 0xC6336407 else .inet 1024 0xC0000201) :=
  replies_alternate (t := "198.51.100.7,5060".toList) rfl (by decide +kernel) Sample.presents
    (by decide) 3 _ _

/-- A peer that was the last with a text has been presented with it. -/
theorem exists_presented_of_lastAs {as : List Sockaddr} (h : lastAs shm n as s = some x) :
    ∃ s', save_socket_address (presented shm s' x) = some n := by
  induction as generalizing s with
  | nil => cases h
  | cons a as ih =>
    rw [lastAs] at h
    cases hrest : lastAs shm n as (arrive shm s a) with
    | some y =>
      rw [hrest] at h
      cases h
      exact ih hrest
    | none =>
      rw [hrest, Option.none_or] at h
      split_ifs at h with hn
      cases h
      exact ⟨s, hn⟩

/-- The second reply with the header of a message reaches its peer just when the last of the peers
that were presented with its address since then, if any, has the peer's own address and port. -/
theorem second_reply_iff (ha : save_socket_address a = some name)
    (hb : save_socket_address (presented shm s a) = some n) (later : List Sockaddr)
    (received : ℤ × Option Sockaddr) (ret : ℤ) :
    destinations ((replies shm b [.reused, .reused] (some ⟨some (presented shm s a)⟩)).calls
        (system received ret) (arrivals shm later (arrive shm s a))) =
      [some (presented shm s a), some a] ↔
    ∀ x, lastAs shm n later (arrive shm s a) = some x → x.endpoint = a.endpoint := by
  have hassign : a.assign (presented shm s a) = some a := assign_presented ha
  have htwo := @destinations_replies shm (arrivals shm later (arrive shm s a)) b (presented shm s a)
    2 received ret
  have hlink := @links_arrivals shm (presented shm s a) n hb later (arrive shm s a)
  have hgoal : [some (presented shm s a), some (presented shm (arrivals shm later (arrive shm s a))
      (presented shm s a))] = [some (presented shm s a), some a] ↔
      presented shm (arrivals shm later (arrive shm s a)) (presented shm s a) = a := by simp
  refine (Eq.congr_left htwo).trans (hgoal.trans ?_)
  cases hlast : lastAs shm n later (arrive shm s a) with
  | none =>
    rw [hlast] at hlink
    have hown : arrive shm s a (linkname shm n) = some name := by
      rw [arrive_of_save ha hb, Function.update_self]
    refine iff_of_true ?_ fun x hx => by cases hx
    exact presented_of_link ha hb (hlink.trans hown) hassign
  | some x =>
    rw [hlast] at hlink
    obtain ⟨s', hx⟩ := exists_presented_of_lastAs hlast
    obtain ⟨c, hc⟩ := exists_assign hx hb
    obtain ⟨tx, -, hsave, -⟩ := exists_save_of_assign hc
    rw [presented_of_link hsave hb (hlink.trans hsave) hc, assign_eq_iff hassign hc]
    exact ⟨fun h y hy => by cases hy; exact h, fun h => h x rfl⟩

/-- Two peers have the same address in the table. -/
def Sample.sharedLinks : Links := Function.update Sample.links
  "/run/shm/oobpsai/192.0.2.2,1024".toList (some "198.51.100.7,5060".toList)

theorem second_reply_iff_shared :
    destinations ((replies Sample.shm (.inet 5060 0xC6336407) [.reused, .reused]
        (some ⟨some (presented Sample.shm Sample.sharedLinks (.inet 1024 0xC0000201))⟩)).calls
        (system (1, some (.inet 1024 0xC0000202)) 1)
        (arrivals Sample.shm [.inet 1024 0xC0000202]
          (arrive Sample.shm Sample.sharedLinks (.inet 1024 0xC0000201)))) =
      [some (presented Sample.shm Sample.sharedLinks (.inet 1024 0xC0000201)),
        some (.inet 1024 0xC0000201)] ↔
    ∀ x, lastAs Sample.shm "198.51.100.7,5060".toList [.inet 1024 0xC0000202]
        (arrive Sample.shm Sample.sharedLinks (.inet 1024 0xC0000201)) = some x →
      x.endpoint = (Sockaddr.inet 1024 0xC0000201).endpoint :=
  second_reply_iff rfl (by decide +kernel) _ _ _

end YazzyPreload.Oobpsai

import Mathlib.Logic.Function.Basic
import YazzyPreload.Ntop
import YazzyPreload.Program

/-!
# The OOBPSAI table

The table is a directory of symbolic links, each named by the address and port of a peer; its target
is the address and port that the peer is to be presented as.  A proxy writes it with
`set_proxy_address_info`.  The hook of `recvmsg` looks up the peer, puts the address it finds in the
place of the peer's, and adds a link from that address back to the peer; the hook of `sendmsg` looks
up the address that the program sends to.

The functions are programs that make the system calls, so that a run of one of them and a schedule of
many have the same text.
-/

namespace YazzyPreload.Oobpsai

/-- `struct sockaddr`. -/
inductive Sockaddr
  | inet (port : Port) (addr : InAddr)
  | inet6 (port : Port) (flowinfo : BitVec 32) (addr : In6Addr) (scope_id : BitVec 32)
  | other (family : ℕ)
  deriving DecidableEq

/-- `struct msghdr`; the name may be the null pointer. -/
structure Msghdr where
  msg_name : Option Sockaddr
  deriving DecidableEq

/-! ## Addresses as text -/

/-- `OOBPSAI_SHM_PATH`, which is short enough for the buffers. -/
abbrev ShmPath : Type := {s : Str // s.length ≤ 64}

/-- `DFLT_SHM_PATH`. -/
def dfltShmPath : ShmPath := ⟨"/run/shm/oobpsai".toList, by decide⟩

/-- `shm_path`; the process is aborted if the variable is too long. -/
def shm_path (getenv : Environ) : Option ShmPath :=
  match getenv "OOBPSAI_SHM_PATH" with
  | none => some dfltShmPath
  | some path => if h : path.length ≤ 64 then some ⟨path, h⟩ else none

/-- `extract_ip_port`. -/
def extract_ip_port : Sockaddr → Option (Str × Port)
  | .inet port addr => some (inetNtoa addr, port)
  | .inet6 port _ addr _ => some (inetNtop6 addr, port)
  | .other _ => none

/-- `save_socket_address`: at most `SOCKET_ADDR_MAX_LEN` characters. -/
def save_socket_address (a : Sockaddr) : Option Str :=
  (extract_ip_port a).map fun x => (x.1 ++ ',' :: Nat.toDigits 10 x.2.toNat).take 52

/-- The path of an entry: at most `PATH_MAX_LEN` characters. -/
def linkname (shm : ShmPath) (sock_addr_str : Str) : Str := (shm.1 ++ '/' :: sock_addr_str).take 117

/-- The text is cut at its last comma, if it has one. -/
def cutComma (s : Str) : Str × Option Str :=
  if ',' ∈ s then
    ((s.reverse.dropWhile (· ≠ ',')).tail.reverse, some (s.reverse.takeWhile (· ≠ ',')).reverse)
  else (s, none)

/-- `update_socket_addr`: the port is stored before the address is read. -/
def update_socket_addr (ipaddr_str : Str) (portnum_str : Option Str) : Sockaddr → Bool × Sockaddr
  | .inet port addr =>
    let port := portnum_str.elim port atoport
    match inetPton4 ipaddr_str with
    | some addr => (true, .inet port addr)
    | none => (false, .inet port addr)
  | .inet6 port flowinfo addr scope_id =>
    let port := portnum_str.elim port atoport
    match inetPton6 ipaddr_str with
    | some addr => (true, .inet6 port flowinfo addr scope_id)
    | none => (false, .inet6 port flowinfo addr scope_id)
  | .other family => (false, .other family)

/-! ## System calls -/

/-- The system calls of the library. -/
inductive Call
  | recvmsg
  | sendmsg (msg_name : Option Sockaddr)
  | readlink (path : Str) (bufsiz : ℕ)
  | unlink (path : Str)
  | symlink (target path : Str)
  deriving DecidableEq

/-- What a call is answered with: the result of `recvmsg` and the name it has stored, the result of
`sendmsg`, the text that `readlink` has stored, and whether `unlink` and `symlink` have succeeded. -/
abbrev Answer : Call → Type
  | .recvmsg => ℤ × Option Sockaddr
  | .sendmsg _ => ℤ
  | .readlink _ _ => Option Str
  | .unlink _ => Bool
  | .symlink _ _ => Bool

/-- The targets of the links, by their paths. -/
abbrev Links : Type := Str → Option Str

/-- The system; `received` and `sent` are what the two calls on sockets are answered with. -/
def system (received : ℤ × Option Sockaddr) (sent : ℤ) : Handler Call Answer Links
  | .recvmsg, s => (received, s)
  | .sendmsg _, s => (sent, s)
  | .readlink path bufsiz, s => ((s path).map (·.take bufsiz), s)
  | .unlink path, s => ((s path).isSome, Function.update s path none)
  | .symlink target path, s =>
    if (s path).isSome = true then (false, s) else (true, Function.update s path (some target))

/-- A program of the library. -/
abbrev Act : Type → Type := Prog Call Answer

/-- How a hook ends. -/
inductive Result (α : Type)
  | returned (a : α)
  | segfault
  deriving DecidableEq

section Hooks

variable (shm : ShmPath)

/-- `change_socket_address`. -/
def change_socket_address (a : Sockaddr) : Act (Bool × Sockaddr) :=
  match save_socket_address a with
  | none => .ret (false, a)
  | some orig_ip_port =>
    .call (.readlink (linkname shm orig_ip_port) 53) fun
      | none => .ret (false, a)
      | some linktarg =>
        if linktarg = [] ∨ 52 < linktarg.length then .ret (false, a)
        else .ret (update_socket_addr (cutComma linktarg).1 (cutComma linktarg).2 a)

/-- `set_proxy_address_info`, without the warning that `symlink` has failed. -/
def set_proxy_address_info (a : Sockaddr) (target_str : Str) : Act Bool :=
  match save_socket_address a with
  | none => .ret false
  | some sock_addr_str =>
    .call (.unlink (linkname shm sock_addr_str)) fun _ =>
      .call (.symlink target_str (linkname shm sock_addr_str)) fun ok => .ret ok

/-- `unset_proxy_address_info`. -/
def unset_proxy_address_info (ip_port : Str) : Act Unit :=
  .call (.unlink (linkname shm ip_port)) fun _ => .ret ()

/-- `recvmsg`.  The text of the peer is not set if its family has none, and then it is not used. -/
def recvmsg (msg : Option Msghdr) : Act (Result (ℤ × Option Msghdr)) :=
  .call .recvmsg fun (recvmsg_ret, msg_name) =>
    match msg, msg_name with
    | none, _ => .ret (.returned (recvmsg_ret, none))
    | some _, none => .ret .segfault
    | some _, some peer => do
      let (_, a) ← change_socket_address shm peer
      let _ ← set_proxy_address_info shm a ((save_socket_address peer).getD [])
      .ret (.returned (recvmsg_ret, some ⟨some a⟩))

/-- `sendmsg`. -/
def sendmsg (msg : Option Msghdr) : Act (Result (ℤ × Option Msghdr)) :=
  .call (.sendmsg (msg.bind Msghdr.msg_name)) fun sendmsg_ret =>
    match msg with
    | none => .ret (.returned (sendmsg_ret, none))
    | some ⟨none⟩ => .ret .segfault
    | some ⟨some dest⟩ => do
      let (_, a) ← change_socket_address shm dest
      .ret (.returned (sendmsg_ret, some ⟨some a⟩))

end Hooks

/-! ## What the functions do -/

theorem cutComma_append (a : Str) {b : Str} (hb : ',' ∉ b) :
    cutComma (a ++ ',' :: b) = (a, some b) := by
  have hrev : ∀ c ∈ b.reverse, decide (c ≠ ',') = true := fun c hc =>
    decide_eq_true fun h => hb (h ▸ List.mem_reverse.1 hc)
  have htext : (a ++ ',' :: b).reverse = b.reverse ++ ',' :: a.reverse := by simp
  rw [cutComma, if_pos (by simp), htext, List.dropWhile_append_of_pos hrev,
    List.takeWhile_append_of_pos hrev]
  simp

theorem comma_notMem_of_digits {s : Str} (h : ∀ c ∈ s, c.isDigit = true) : ',' ∉ s := fun hc =>
  absurd (h _ hc) (by decide)

/-- The text of an address is saved whole. -/
theorem save_eq {a : Sockaddr} {name : Str} (h : save_socket_address a = some name) :
    ∃ ip port, extract_ip_port a = some (ip, port) ∧
      name = ip ++ ',' :: Nat.toDigits 10 port.toNat ∧ name.length ≤ 52 := by
  obtain ⟨⟨ip, port⟩, hx, rfl⟩ := Option.map_eq_some_iff.1 h
  have hip : ip.length ≤ 45 := by
    cases a with
    | inet p addr =>
      cases hx
      exact (length_inetNtoa_le addr).trans (by omega)
    | inet6 p f addr i =>
      cases hx
      exact length_inetNtop6_le addr
    | other family => cases hx
  have hport := length_portDigits_le port
  have hlen : (ip ++ ',' :: Nat.toDigits 10 port.toNat).length ≤ 52 := by
    rw [List.length_append, List.length_cons]
    omega
  dsimp only
  rw [List.take_of_length_le hlen]
  exact ⟨ip, port, hx, rfl, hlen⟩

/-- An address is read back from its text. -/
theorem update_saved {a : Sockaddr} {name : Str} (h : save_socket_address a = some name) :
    update_socket_addr (cutComma name).1 (cutComma name).2 a = (true, a) := by
  obtain ⟨ip, port, hx, rfl, -⟩ := save_eq h
  have hread : atoport (Nat.toDigits 10 port.toNat) = port := by
    have hlt := port.isLt
    rw [atoport, atoi_toDigits (by omega), BitVec.ofInt_natCast, BitVec.ofNat_toNat,
      BitVec.setWidth_eq]
  rw [cutComma_append _ (comma_notMem_of_digits fun c hc => isDigit_of_mem_toDigits hc)]
  cases a with
  | inet p addr =>
    cases hx
    simp [update_socket_addr, hread, inetPton4_inetNtoa]
  | inet6 p f addr i =>
    cases hx
    simp [update_socket_addr, hread, inetPton6_inetNtop6]
  | other family => cases hx

/-- The text `t` has the format of the table, and presents a peer `a` as `b`. -/
def Presents (t : Str) (a b : Sockaddr) : Prop :=
  t.length ≤ 52 ∧ ∃ ip port n, t = ip ++ ',' :: port ∧ decimal port = some n ∧ n ≤ 65535 ∧
    match a, b with
    | .inet _ _, .inet p addr => inetPton4 ip = some addr ∧ p = BitVec.ofNat 16 n
    | .inet6 _ f _ i, .inet6 p f' addr i' =>
      inetPton6 ip = some addr ∧ p = BitVec.ofNat 16 n ∧ f' = f ∧ i' = i
    | _, _ => False

theorem update_of_presents {t : Str} {a b : Sockaddr} (h : Presents t a b) :
    update_socket_addr (cutComma t).1 (cutComma t).2 a = (true, b) := by
  obtain ⟨-, ip, port, n, rfl, hn, hle, hab⟩ := h
  have hread := atoport_of_decimal (t := []) hn hle rfl
  rw [List.append_nil] at hread
  rw [cutComma_append _ (comma_notMem_of_digits (decimal_eq_some hn).2.1)]
  cases a with
  | inet p addr =>
    cases b with
    | inet p' addr' =>
      obtain ⟨hip, hp⟩ := hab
      simp [update_socket_addr, hread, hip, hp]
    | inet6 p' f' addr' i' => exact hab.elim
    | other family => exact hab.elim
  | inet6 p f addr i =>
    cases b with
    | inet p' addr' => exact hab.elim
    | inet6 p' f' addr' i' =>
      obtain ⟨hip, hp, hf, hi⟩ := hab
      simp [update_socket_addr, hread, hip, hp, hf, hi]
    | other family => exact hab.elim
  | other family => exact hab.elim

/-- What a lookup that comes to `entry` returns and leaves in the address. -/
def lookedUp (entry : Option Str) (a : Sockaddr) : Bool × Sockaddr :=
  match entry with
  | none => (false, a)
  | some t =>
    if t = [] ∨ 52 < t.length then (false, a)
    else update_socket_addr (cutComma t).1 (cutComma t).2 a

section Run

variable {shm : ShmPath} {received : ℤ × Option Sockaddr} {sent : ℤ} {a : Sockaddr} {name t : Str}
  {s : Links}

theorem lookedUp_of_usable (hne : t ≠ []) (hlen : t.length ≤ 52) (a : Sockaddr) :
    lookedUp (some t) a = update_socket_addr (cutComma t).1 (cutComma t).2 a :=
  if_neg (by simp [hne]; omega)

/-- A lookup is one call. -/
theorem change_eq (ha : save_socket_address a = some name) : change_socket_address shm a =
    .call (.readlink (linkname shm name) 53) fun linktarg => .ret (lookedUp linktarg a) := by
  rw [change_socket_address, ha]
  dsimp only
  congr 1
  funext linktarg
  cases linktarg with
  | none => rfl
  | some t =>
    dsimp only [lookedUp]
    split_ifs <;> rfl

/-- The buffer holds every text that passes the test on its length. -/
theorem lookedUp_take (entry : Option Str) (a : Sockaddr) :
    lookedUp (entry.map (·.take 53)) a = lookedUp entry a := by
  cases entry with
  | none => rfl
  | some t =>
    dsimp only [Option.map_some, lookedUp]
    by_cases hu : t = [] ∨ 52 < t.length
    · have htake : t.take 53 = [] ∨ 52 < (t.take 53).length := by
        refine hu.imp (fun e => by rw [e]; rfl) fun hlen => ?_
        rw [List.length_take]
        omega
      rw [if_pos hu, if_pos htake]
    · rw [List.take_of_length_le (by omega)]

variable (received sent) in
theorem run_change_eq (ha : save_socket_address a = some name) :
    (change_socket_address shm a).run (system received sent) s =
      (lookedUp (s (linkname shm name)) a, s) := by
  rw [change_eq ha, Prog.run_call, Prog.run_ret, system, lookedUp_take]

variable (received sent) in
/-- A lookup that finds a text. -/
theorem run_change (ha : save_socket_address a = some name) (ht : s (linkname shm name) = some t)
    (hne : t ≠ []) (hlen : t.length ≤ 52) :
    (change_socket_address shm a).run (system received sent) s =
      (update_socket_addr (cutComma t).1 (cutComma t).2 a, s) := by
  rw [run_change_eq received sent ha, ht, lookedUp_of_usable hne hlen]

/-- An entry is replaced. -/
theorem run_set (ha : save_socket_address a = some name) :
    (set_proxy_address_info shm a t).run (system received sent) s =
      (true, Function.update s (linkname shm name) (some t)) := by
  unfold set_proxy_address_info
  rw [ha]
  simp [system]

end Run

end YazzyPreload.Oobpsai

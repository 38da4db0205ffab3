import YazzyPreload.Libc

/-!
# Internet addresses in the C library

Ports and addresses are kept in host byte order.  `inetAton` reads an address as the GNU C library
does: up to four numbers in the notation of C, of which the last one fills the bytes that are left,
and nothing but white space directly after them.  So it does not see what follows a space
(`inetAton_append`), while `atoi`, which reads a port, does not even see what follows a digit.
-/

namespace YazzyPreload

/-- `in_port_t`. -/
abbrev Port : Type := BitVec 16

/-- `struct in_addr`. -/
abbrev InAddr : Type := BitVec 32

/-- `AF_INET`. -/
def AF_INET : ℕ := 2

/-- `struct sockaddr_in`. -/
structure SockaddrIn where
  sin_family : ℕ
  sin_port : Port
  sin_addr : InAddr
  deriving DecidableEq

/-! ## Ports -/

/-- The port that is stored when `atoi` has read a text. -/
def atoport (s : Str) : Port := BitVec.ofInt 16 (atoi s)

/-- The value of a text that is a decimal number. -/
def decimal (s : Str) : Option ℕ :=
  if s ≠ [] ∧ s.all Char.isDigit = true then some (digitsValue s) else none

/-- The port that a text names, which is a decimal number in 1..65535. -/
def portNumber (s : Str) : Option Port :=
  (decimal s).bind fun n => if 1 ≤ n ∧ n ≤ 65535 then some (BitVec.ofNat 16 n) else none

theorem decimal_eq_some {s : Str} {n : ℕ} (h : decimal s = some n) :
    s ≠ [] ∧ (∀ c ∈ s, c.isDigit = true) ∧ digitsValue s = n := by
  unfold decimal at h
  split_ifs at h with hs
  exact ⟨hs.1, List.all_eq_true.1 hs.2, Option.some.inj h⟩

@[simp] theorem decimal_toDigits (n : ℕ) : decimal (Nat.toDigits 10 n) = some n := by
  rw [decimal, if_pos ⟨Nat.toDigits_ne_nil,
    List.all_eq_true.2 fun c hc => isDigit_of_mem_toDigits hc⟩]
  exact congrArg some Nat.ofDigitChars_ten_toDigits

theorem portNumber_eq_some {s : Str} {p : Port} (h : portNumber s = some p) :
    ∃ n, decimal s = some n ∧ 1 ≤ n ∧ n ≤ 65535 ∧ p = BitVec.ofNat 16 n := by
  unfold portNumber at h
  obtain ⟨n, hn, hp⟩ := Option.bind_eq_some_iff.1 h
  split_ifs at hp with hr
  exact ⟨n, hn, hr.1, hr.2, (Option.some.inj hp).symm⟩

theorem portNumber_ne_zero {s : Str} {p : Port} (h : portNumber s = some p) : p ≠ 0 := by
  obtain ⟨n, -, h1, h2, rfl⟩ := portNumber_eq_some h
  intro hz
  have hn := congrArg BitVec.toNat hz
  rw [BitVec.toNat_ofNat, Nat.mod_eq_of_lt (by omega)] at hn
  exact absurd hn (by simp; omega)

/-- A number of 16 bits is stored as it is written, whatever follows. -/
theorem atoport_of_decimal {s t : Str} {n : ℕ} (h : decimal s = some n) (hn : n ≤ 65535)
    (ht : t.head?.any Char.isDigit = false) : atoport (s ++ t) = BitVec.ofNat 16 n := by
  obtain ⟨hne, hd, hv⟩ := decimal_eq_some h
  rw [atoport, atoi_digits hne hd ht (by omega), hv, BitVec.ofInt_natCast]

/-- A port is read from where its number begins. -/
theorem atoport_of_portNumber {s t : Str} {p : Port} (h : portNumber s = some p)
    (ht : t.head?.any Char.isDigit = false) : atoport (s ++ t) = p := by
  obtain ⟨n, hn, -, h2, rfl⟩ := portNumber_eq_some h
  exact atoport_of_decimal hn h2 ht

/-! ## Addresses -/

/-- The value of a digit or letter as a digit of `strtoul`. -/
def digitValue (c : Char) : ℕ :=
  if c.isDigit then c.toNat - '0'.toNat
  else if c.isLower then c.toNat - 'a'.toNat + 10
  else if c.isUpper then c.toNat - 'A'.toNat + 10
  else 36

/-- The digits of a base. -/
def isDigitIn (b : ℕ) (c : Char) : Bool := digitValue c < b

/-- The number in base `b` that a text begins with, and what follows it. -/
def readNumber (b : ℕ) (s : Str) : ℕ × Str :=
  ((s.takeWhile (isDigitIn b)).foldl (fun n c => n * b + digitValue c) 0,
    s.dropWhile (isDigitIn b))

/-- `strtoul` in base zero, of a text that begins with a digit.  Numbers are not cut down to the
64 bits of the result. -/
def strtoul (s : Str) : ℕ × Str :=
  match s with
  | '0' :: x :: c :: t =>
    if (x = 'x' ∨ x = 'X') ∧ isDigitIn 16 c = true then readNumber 16 (c :: t) else readNumber 8 s
  | '0' :: _ => readNumber 8 s
  | _ => readNumber 10 s

/-- The end of `inet_aton`: `acc` has the parts before the last one, which has the value `val`, is
followed by `t` and fills `k + 1` bytes. -/
def inetLast (k acc val : ℕ) (t : Str) : Option InAddr :=
  if t.head?.all isSpace = true ∧ val < 256 ^ (k + 1) then
    some (BitVec.ofNat 32 (acc * 256 ^ (k + 1) + val))
  else none

/-- The loop of `inet_aton`: `acc` has the parts so far, and `k` more may follow the next one. -/
def inetParts : ℕ → ℕ → Str → Option InAddr
  | k, acc, s =>
    if s.head?.any Char.isDigit = true then
      let (val, t) := strtoul s
      if val > 0xffffffff then none
      else
        match k, t with
        | k + 1, '.' :: t => if val > 0xff then none else inetParts k (acc * 256 + val) t
        | k, t => inetLast k acc val t
    else none

/-- `inet_aton`. -/
def inetAton (s : Str) : Option InAddr := inetParts 3 0 s

/-- `inet_ntoa`. -/
def inetNtoa (ip : InAddr) : Str :=
  List.intercalate ['.'] ([24, 16, 8, 0].map fun k => Nat.toDigits 10 (ip.toNat / 2 ^ k % 256))

/-- `IP:PORT`, as it is printed. -/
def showAddr (addr : SockaddrIn) : Str :=
  inetNtoa addr.sin_addr ++ ':' :: Nat.toDigits 10 addr.sin_port.toNat

theorem length_toDigits_le {n k : ℕ} (hk : 0 < k) (h : n < 10 ^ k) :
    (Nat.toDigits 10 n).length ≤ k :=
  (Nat.length_toDigits_le_iff (by omega) hk).2 h

theorem length_portDigits_le (p : Port) : (Nat.toDigits 10 p.toNat).length ≤ 5 :=
  length_toDigits_le (by omega) (by have := p.isLt; omega)

theorem length_inetNtoa_le (ip : InAddr) : (inetNtoa ip).length ≤ 15 := by
  have hpart (k : ℕ) : (Nat.toDigits 10 (ip.toNat / 2 ^ k % 256)).length ≤ 3 :=
    length_toDigits_le (by omega) (by omega)
  have h24 := hpart 24
  have h16 := hpart 16
  have h8 := hpart 8
  have h0 := hpart 0
  simp only [inetNtoa, List.map_cons, List.map_nil, List.intercalate, List.intersperse,
    List.flatten_cons, List.flatten_nil, List.length_append, List.length_cons, List.length_nil]
  omega

/-! ## What follows a space -/

section Space

variable {c : Char} (t : Str)

theorem takeWhile_append_cons {p : Char → Bool} (s : Str) (hc : p c = false) :
    (s ++ c :: t).takeWhile p = s.takeWhile p := by
  induction s with
  | nil => simp [hc]
  | cons d s ih => cases hd : p d <;> simp [hd, ih]

theorem dropWhile_append_cons {p : Char → Bool} (s : Str) (hc : p c = false) :
    (s ++ c :: t).dropWhile p = s.dropWhile p ++ c :: t := by
  induction s with
  | nil => simp [hc]
  | cons d s ih => cases hd : p d <;> simp [hd, ih]

theorem readNumber_append {b : ℕ} (s : Str) (hc : isDigitIn b c = false) :
    readNumber b (s ++ c :: t) = ((readNumber b s).1, (readNumber b s).2 ++ c :: t) := by
  rw [readNumber, takeWhile_append_cons t s hc, dropWhile_append_cons t s hc, readNumber]

theorem strtoul_append {s : Str} (hs : s ≠ []) :
    strtoul (s ++ ' ' :: t) = ((strtoul s).1, (strtoul s).2 ++ ' ' :: t) := by
  have h8 (s : Str) := readNumber_append (b := 8) (c := ' ') t s rfl
  have h10 (s : Str) := readNumber_append (b := 10) (c := ' ') t s rfl
  have h16 (s : Str) := readNumber_append (b := 16) (c := ' ') t s rfl
  obtain ⟨d, s, rfl⟩ := List.exists_cons_of_ne_nil hs
  by_cases hd : d = '0'
  · subst hd
    match s with
    | [] => cases t <;> exact h8 ['0']
    | [x] => exact (if_neg fun h => absurd h.2 (by decide)).trans (h8 ['0', x])
    | x :: y :: s =>
      rw [List.cons_append, List.cons_append, List.cons_append, strtoul, strtoul]
      split_ifs with h
      · exact h16 (y :: s)
      · exact h8 ('0' :: x :: y :: s)
  · have hten (u : Str) : strtoul (d :: u) = readNumber 10 (d :: u) := by
      unfold strtoul
      split <;> simp_all
    rw [List.cons_append, hten, hten]
    exact h10 (d :: s)

theorem inetLast_append (k acc val : ℕ) (s : Str) :
    inetLast k acc val (s ++ ' ' :: t) = inetLast k acc val s := by
  cases s with
  | nil => rfl
  | cons c s => rfl

theorem inetParts_append (k acc : ℕ) (s : Str) :
    inetParts k acc (s ++ ' ' :: t) = inetParts k acc s := by
  induction k generalizing acc s with
  | zero =>
    cases s with
    | nil => rfl
    | cons c s =>
      rw [inetParts, inetParts, strtoul_append t (List.cons_ne_nil c s)]
      simp only [List.cons_append, List.head?_cons, inetLast_append]
  | succ k ih =>
    cases s with
    | nil => rfl
    | cons c s =>
      rw [inetParts, inetParts, strtoul_append t (List.cons_ne_nil c s)]
      simp only [List.cons_append, List.head?_cons]
      rcases strtoul (c :: s) with ⟨val, u⟩
      cases u with
      | nil => rfl
      | cons d u =>
        by_cases hd : d = '.'
        · subst hd
          simp only [List.cons_append, ih]
        · have hlast := inetLast_append t (k + 1) acc val (d :: u)
          rw [List.cons_append] at hlast
          simp [hd, hlast]

/-- An address is read up to the first space. -/
theorem inetAton_append (s : Str) : inetAton (s ++ ' ' :: t) = inetAton s :=
  inetParts_append t 3 0 s

end Space

end YazzyPreload

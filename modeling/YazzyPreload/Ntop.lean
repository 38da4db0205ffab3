import Mathlib.Tactic.SplitIfs
import YazzyPreload.Inet

/-!
# Addresses as text

`inet_ntop` and `inet_pton` of the GNU C library, for both families.  An IPv6 address is the list of
its eight words; its text leaves out the longest run of zeros, and ends in an IPv4 address where one
is encapsulated.  `inetPton6_inetNtop6` and `inetPton4_inetNtoa` say that an address is read back
from its text.
-/

namespace YazzyPreload

/-- `struct in6_addr`. -/
abbrev In6Addr : Type := {w : List (BitVec 16) // w.length = 8}

/-! ## IPv4 -/

/-- A number in 0..255 without a leading zero. -/
def octet (s : Str) : Option ℕ :=
  (decimal s).filter fun n => n ≤ 255 ∧ (s.head? = some '0' → s.length = 1)

/-- `inet_pton` for `AF_INET`. -/
def inetPton4 (s : Str) : Option InAddr :=
  match (s.splitOn '.').map octet with
  | [some a, some b, some c, some d] =>
    some (BitVec.ofNat 32 (((a * 256 + b) * 256 + c) * 256 + d))
  | _ => none

theorem octet_toDigits {n : ℕ} (hn : n < 256) : octet (Nat.toDigits 10 n) = some n := by
  have hall : ∀ n < 256, octet (Nat.toDigits 10 n) = some n := by decide +kernel
  exact hall n hn

theorem dot_notMem_toDigits (n : ℕ) : '.' ∉ Nat.toDigits 10 n := fun h =>
  absurd (isDigit_of_mem_toDigits h) (by decide)

/-- An IPv4 address is read back from its text. -/
theorem inetPton4_inetNtoa (ip : InAddr) : inetPton4 (inetNtoa ip) = some ip := by
  have hsplit : (inetNtoa ip).splitOn '.' =
      [24, 16, 8, 0].map fun k => Nat.toDigits 10 (ip.toNat / 2 ^ k % 256) := by
    refine List.splitOn_intercalate _ (fun l hl => ?_) (by simp)
    obtain ⟨k, -, rfl⟩ := List.mem_map.1 hl
    exact dot_notMem_toDigits _
  have hpart (k : ℕ) : octet (Nat.toDigits 10 (ip.toNat / 2 ^ k % 256)) =
      some (ip.toNat / 2 ^ k % 256) := octet_toDigits (Nat.mod_lt _ (by omega))
  rw [inetPton4, hsplit]
  simp only [List.map_cons, List.map_nil, hpart]
  refine congrArg some (BitVec.eq_of_toNat_eq ?_)
  have hlt := ip.isLt
  rw [BitVec.toNat_ofNat]
  omega

/-! ## IPv6 -/

/-- A word in hexadecimal. -/
def showWord (w : BitVec 16) : Str := Nat.toDigits 16 w.toNat

/-- Words with colons between them. -/
def showWords (ws : List (BitVec 16)) : Str := List.intercalate [':'] (ws.map showWord)

/-- The number of zeros from a word on. -/
def zerosFrom (ws : List (BitVec 16)) (base : ℕ) : ℕ := ((ws.drop base).takeWhile (· = 0)).length

/-- The first of the longest runs of zeros, as its base and length. -/
def longestRun (ws : List (BitVec 16)) : ℕ × ℕ :=
  (List.range 8).foldl
    (fun best base => if best.2 < zerosFrom ws base then (base, zerosFrom ws base) else best)
    (0, zerosFrom ws 0)

/-- The IPv4 address in the last two words. -/
def lastAddr (ws : List (BitVec 16)) : InAddr :=
  BitVec.ofNat 32 ((ws.getD 6 0).toNat * 2 ^ 16 + (ws.getD 7 0).toNat)

/-- `inet_ntop` for `AF_INET6`. -/
def inetNtop6 (a : In6Addr) : Str :=
  let (base, len) := longestRun a.1
  if len < 2 then showWords a.1
  else if base = 0 ∧ len = 6 then "::".toList ++ inetNtoa (lastAddr a.1)
  else if base = 0 ∧ len = 5 ∧ a.1.getD 5 0 = 0xffff then
    "::ffff:".toList ++ inetNtoa (lastAddr a.1)
  else showWords (a.1.take base) ++ "::".toList ++ showWords (a.1.drop (base + len))

/-- The loop of `inet_pton` for `AF_INET6`: `ws` are the words so far, `colonp` is where the zeros
go, `curtok` is the text from the last colon on, and `val` the value of `seen` digits after it. -/
def ptonWords (ws : List (BitVec 16)) (colonp : Option ℕ) (curtok : Str) (seen val : ℕ) :
    Str → Option (List (BitVec 16) × Option ℕ)
  | [] =>
    if seen = 0 then some (ws, colonp)
    else if ws.length < 8 then some (ws ++ [BitVec.ofNat 16 val], colonp) else none
  | ch :: src =>
    if isDigitIn 16 ch = true then
      if seen = 4 then none
      else ptonWords ws colonp curtok (seen + 1) (val * 16 + digitValue ch) src
    else if ch = ':' then
      if seen = 0 then
        if colonp.isSome = true then none else ptonWords ws (some ws.length) src 0 0 src
      else if src = [] ∨ 8 ≤ ws.length then none
      else ptonWords (ws ++ [BitVec.ofNat 16 val]) colonp src 0 0 src
    else if ch = '.' ∧ ws.length ≤ 6 then
      (inetPton4 curtok).map fun ip =>
        (ws ++ [BitVec.ofNat 16 (ip.toNat / 2 ^ 16), BitVec.ofNat 16 ip.toNat], colonp)
    else none

/-- The words with zeros in the place of the two colons. -/
def fillZeros (ws : List (BitVec 16)) : Option ℕ → Option In6Addr
  | none => if h : ws.length = 8 then some ⟨ws, h⟩ else none
  | some k =>
    let full := ws.take k ++ List.replicate (8 - ws.length) 0 ++ ws.drop k
    if h : ws.length < 8 ∧ full.length = 8 then some ⟨full, h.2⟩ else none

/-- `inet_pton` for `AF_INET6`. -/
def inetPton6 (s : Str) : Option In6Addr :=
  match s with
  | [] => none
  | ':' :: ':' :: src =>
    (ptonWords [] none (':' :: src) 0 0 (':' :: src)).bind fun x => fillZeros x.1 x.2
  | ':' :: _ => none
  | src => (ptonWords [] none src 0 0 src).bind fun x => fillZeros x.1 x.2

/-! ### Words are read back -/

/-- The value of hexadecimal digits after a value. -/
def hexValue (val : ℕ) (s : Str) : ℕ := s.foldl (fun v c => v * 16 + digitValue c) val

theorem digitValue_digitChar {d : ℕ} (hd : d < 16) : digitValue d.digitChar = d := by
  have hall : ∀ d < 16, digitValue (Nat.digitChar d) = d := by decide
  exact hall d hd

theorem isDigitIn_digitChar {d : ℕ} (hd : d < 16) : isDigitIn 16 d.digitChar = true := by
  rw [isDigitIn, digitValue_digitChar hd]
  exact decide_eq_true hd

theorem hexValue_toDigits (n : ℕ) : hexValue 0 (Nat.toDigits 16 n) = n := by
  induction n using Nat.strongRecOn with
  | ind n ih =>
    rw [Nat.toDigits_eq_if (by omega)]
    split_ifs with hn
    · simp [hexValue, digitValue_digitChar hn]
    · have hdiv := ih (n / 16) (by omega)
      rw [hexValue] at hdiv ⊢
      rw [List.foldl_append, hdiv]
      simp only [List.foldl_cons, List.foldl_nil, digitValue_digitChar (Nat.mod_lt n (by omega))]
      omega

theorem isDigitIn_of_mem_toDigits {n : ℕ} {c : Char} (hc : c ∈ Nat.toDigits 16 n) :
    isDigitIn 16 c = true := by
  induction n using Nat.strongRecOn with
  | ind n ih =>
    rw [Nat.toDigits_eq_if (by omega)] at hc
    split_ifs at hc with hn
    · rw [List.mem_singleton.1 hc]
      exact isDigitIn_digitChar hn
    · rcases List.mem_append.1 hc with hc | hc
      · exact ih (n / 16) (by omega) hc
      · rw [List.mem_singleton.1 hc]
        exact isDigitIn_digitChar (Nat.mod_lt n (by omega))

section Loop

variable {ws : List (BitVec 16)} {cp : Option ℕ} {tok : Str} {seen val : ℕ}

theorem ptonWords_digits {ds : Str} (hds : ∀ c ∈ ds, isDigitIn 16 c = true)
    (hseen : seen + ds.length ≤ 4) (src : Str) :
    ptonWords ws cp tok seen val (ds ++ src) =
      ptonWords ws cp tok (seen + ds.length) (hexValue val ds) src := by
  induction ds generalizing seen val with
  | nil => rfl
  | cons c ds ih =>
    rw [List.length_cons] at hseen
    rw [List.cons_append, ptonWords, if_pos (hds c List.mem_cons_self), if_neg (by omega),
      ih (fun d hd => hds d (List.mem_cons_of_mem _ hd)) (by omega), List.length_cons]
    exact congrArg (fun k => ptonWords ws cp tok k _ src) (by omega)

/-- A colon is no digit. -/
theorem ptonWords_colon (src : Str) :
    ptonWords ws cp tok seen val (':' :: src) =
      if seen = 0 then
        if cp.isSome = true then none else ptonWords ws (some ws.length) src 0 0 src
      else if src = [] ∨ 8 ≤ ws.length then none
      else ptonWords (ws ++ [BitVec.ofNat 16 val]) cp src 0 0 src := by
  rw [ptonWords, if_neg (by decide), if_pos rfl]

theorem showWord_length (w : BitVec 16) : 0 < (showWord w).length ∧ (showWord w).length ≤ 4 :=
  ⟨Nat.length_toDigits_pos, (Nat.length_toDigits_le_iff (by omega) (by omega)).2 w.isLt⟩

variable (ws cp tok) in
/-- The digits of a word are read at the start of a token. -/
theorem ptonWords_showWord (w : BitVec 16) (src : Str) :
    ptonWords ws cp tok 0 0 (showWord w ++ src) =
      ptonWords ws cp tok (showWord w).length w.toNat src := by
  have hdigits : ∀ c ∈ showWord w, isDigitIn 16 c = true := fun _ => isDigitIn_of_mem_toDigits
  have hlen := (showWord_length w).2
  rw [ptonWords_digits hdigits (by omega), Nat.zero_add, showWord, hexValue_toDigits]

theorem ptonWords_word_colon (w : BitVec 16) {src : Str} (hsrc : src ≠ []) (hws : ws.length < 8) :
    ptonWords ws cp tok 0 0 (showWord w ++ ':' :: src) =
      ptonWords (ws ++ [w]) cp src 0 0 src := by
  have hlen := showWord_length w
  rw [ptonWords_showWord, ptonWords_colon, if_neg (by omega), if_neg (by simp [hsrc]; omega)]
  simp

theorem ptonWords_word (w : BitVec 16) (hws : ws.length < 8) :
    ptonWords ws cp tok 0 0 (showWord w) = some (ws ++ [w], cp) := by
  have hlen := showWord_length w
  have h := ptonWords_showWord ws cp tok w []
  rw [List.append_nil] at h
  rw [h, ptonWords, if_neg (by omega), if_pos hws]
  simp

theorem showWords_cons (w : BitVec 16) {vs : List (BitVec 16)} (h : vs ≠ []) :
    showWords (w :: vs) = showWord w ++ ':' :: showWords vs := by
  obtain ⟨v, vs, rfl⟩ := List.exists_cons_of_ne_nil h
  simp [showWords, List.intercalate_cons_cons]

theorem showWords_singleton (w : BitVec 16) : showWords [w] = showWord w := by
  simp [showWords, List.intercalate]

theorem showWord_ne_nil (w : BitVec 16) : showWord w ≠ [] := Nat.toDigits_ne_nil

theorem showWords_ne_nil {vs : List (BitVec 16)} (h : vs ≠ []) : showWords vs ≠ [] := by
  obtain ⟨v, vs, rfl⟩ := List.exists_cons_of_ne_nil h
  cases vs with
  | nil => exact (showWords_singleton v).symm ▸ showWord_ne_nil v
  | cons v' vs =>
    rw [showWords_cons v (List.cons_ne_nil v' vs)]
    simp

/-- Words that a colon follows. -/
theorem ptonWords_showWords_colon {vs : List (BitVec 16)} (hvs : vs ≠ []) {src : Str}
    (hsrc : src ≠ []) (hlen : ws.length + vs.length ≤ 8) :
    ptonWords ws cp tok 0 0 (showWords vs ++ ':' :: src) =
      ptonWords (ws ++ vs) cp src 0 0 src := by
  induction vs generalizing ws tok with
  | nil => exact absurd rfl hvs
  | cons v vs ih =>
    rw [List.length_cons] at hlen
    cases vs with
    | nil => rw [showWords_singleton, ptonWords_word_colon v hsrc (by omega)]
    | cons v' vs =>
      rw [showWords_cons v (List.cons_ne_nil v' vs), List.append_assoc, List.cons_append,
        ptonWords_word_colon v (by simp) (by omega), ih (List.cons_ne_nil v' vs)
        (by simp only [List.length_append, List.length_cons, List.length_nil] at *; omega),
        List.append_assoc, List.singleton_append]

/-- Words at the end. -/
theorem ptonWords_showWords {vs : List (BitVec 16)} (hlen : ws.length + vs.length ≤ 8) :
    ptonWords ws cp tok 0 0 (showWords vs) = some (ws ++ vs, cp) := by
  induction vs generalizing ws tok with
  | nil =>
    rw [List.append_nil]
    rfl
  | cons v vs ih =>
    rw [List.length_cons] at hlen
    cases vs with
    | nil => rw [showWords_singleton, ptonWords_word v (by omega)]
    | cons v' vs =>
      rw [showWords_cons v (List.cons_ne_nil v' vs),
        ptonWords_word_colon v (showWords_ne_nil (List.cons_ne_nil v' vs)) (by omega), ih
        (by simp only [List.length_append, List.length_cons, List.length_nil] at *; omega),
        List.append_assoc, List.singleton_append]

theorem isDigitIn_of_isDigit {c : Char} (h : c.isDigit = true) : isDigitIn 16 c = true := by
  have hle : c.toNat ≤ '9'.toNat := by
    simp only [Char.isDigit, Bool.and_eq_true, decide_eq_true_eq] at h
    exact h.2
  rw [isDigitIn, digitValue, if_pos h]
  exact decide_eq_true (by simp at hle ⊢; omega)

/-- The first part of an IPv4 address. -/
theorem exists_inetNtoa_eq (ip : InAddr) : ∃ n rest, n < 256 ∧
    inetNtoa ip = Nat.toDigits 10 n ++ '.' :: rest := by
  refine ⟨ip.toNat / 2 ^ 24 % 256, List.intercalate ['.'] ([16, 8, 0].map fun k =>
    Nat.toDigits 10 (ip.toNat / 2 ^ k % 256)), Nat.mod_lt _ (by omega), ?_⟩
  simp [inetNtoa, List.intercalate_cons_cons]

variable (ws cp) in
/-- An IPv4 address at the end. -/
theorem ptonWords_inetNtoa (ip : InAddr) (hlen : ws.length ≤ 6) :
    ptonWords ws cp (inetNtoa ip) 0 0 (inetNtoa ip) =
      some (ws ++ [BitVec.ofNat 16 (ip.toNat / 2 ^ 16), BitVec.ofNat 16 ip.toNat], cp) := by
  obtain ⟨n, rest, hn, htext⟩ := exists_inetNtoa_eq ip
  have hread := inetPton4_inetNtoa ip
  generalize inetNtoa ip = text at *
  subst htext
  have hshort : (Nat.toDigits 10 n).length ≤ 3 :=
    (Nat.length_toDigits_le_iff (by omega) (by omega)).2 (by omega)
  rw [ptonWords_digits (fun c hc => isDigitIn_of_isDigit (isDigit_of_mem_toDigits hc)) (by omega),
    ptonWords, if_neg (by decide), if_neg (by decide), if_pos ⟨rfl, hlen⟩, hread]
  rfl

end Loop

/-! ### Addresses are read back -/

theorem foldl_longer {ws : List (BitVec 16)} (l : List ℕ) {best : ℕ × ℕ}
    (h : best.2 = zerosFrom ws best.1) :
    let run := l.foldl
      (fun best base => if best.2 < zerosFrom ws base then (base, zerosFrom ws base) else best) best
    run.2 = zerosFrom ws run.1 := by
  induction l generalizing best with
  | nil => exact h
  | cons b l ih =>
    refine ih ?_
    dsimp only
    split_ifs
    · rfl
    · exact h

/-- A run is made of zeros. -/
theorem longestRun_spec (ws : List (BitVec 16)) :
    ws = ws.take (longestRun ws).1 ++ List.replicate (longestRun ws).2 0 ++
      ws.drop ((longestRun ws).1 + (longestRun ws).2) := by
  have hlen : (longestRun ws).2 = zerosFrom ws (longestRun ws).1 := foldl_longer _ rfl
  generalize longestRun ws = run at *
  obtain ⟨base, len⟩ := run
  dsimp only at hlen ⊢
  have hzeros : (ws.drop base).takeWhile (· = 0) = List.replicate len 0 := by
    rw [hlen]
    refine List.eq_replicate_iff.2 ⟨rfl, fun w hw => ?_⟩
    simpa using List.mem_takeWhile_imp hw
  have hdrop : ws.drop (base + len) = (ws.drop base).dropWhile (· = 0) := by
    have happend := List.takeWhile_append_dropWhile (p := fun w => decide (w = 0))
      (l := ws.drop base)
    rw [← List.drop_drop, ← happend, List.drop_left' hlen.symm, happend]
  rw [List.append_assoc, hdrop, ← hzeros, List.takeWhile_append_dropWhile, List.take_append_drop]

theorem fillZeros_append (pre : List (BitVec 16)) {post : List (BitVec 16)} {len : ℕ}
    {a : In6Addr} (hlen : 0 < len)
    (ha : a.1 = pre ++ List.replicate len 0 ++ post) :
    fillZeros (pre ++ post) (some pre.length) = some a := by
  have hsize := a.2
  rw [ha] at hsize
  simp only [List.length_append, List.length_replicate] at hsize
  have hn : 8 - (pre ++ post).length = len := by
    rw [List.length_append]
    omega
  have hfull : (pre ++ post).take pre.length ++ List.replicate (8 - (pre ++ post).length) 0 ++
      (pre ++ post).drop pre.length = a.1 := by
    rw [hn, List.take_left, List.drop_left, ha]
  unfold fillZeros
  dsimp only
  rw [dif_pos ⟨by rw [List.length_append]; omega, by rw [hfull]; exact a.2⟩]
  exact congrArg some (Subtype.ext hfull)

theorem inetPton6_cons {c : Char} (hc : c ≠ ':') (src : Str) :
    inetPton6 (c :: src) =
      (ptonWords [] none (c :: src) 0 0 (c :: src)).bind fun x => fillZeros x.1 x.2 := by
  rw [inetPton6]
  · simp
  · simp [hc]
  · simp [hc]

/-- A text that begins with a word does not begin with a colon. -/
theorem inetPton6_showWord (w : BitVec 16) (src : Str) :
    inetPton6 (showWord w ++ src) =
      (ptonWords [] none (showWord w ++ src) 0 0 (showWord w ++ src)).bind
        fun x => fillZeros x.1 x.2 := by
  obtain ⟨c, t, hct⟩ := List.exists_cons_of_ne_nil (showWord_ne_nil w)
  have hc : isDigitIn 16 c = true := isDigitIn_of_mem_toDigits (n := w.toNat) (by
    rw [← showWord, hct]
    exact List.mem_cons_self)
  have hne : c ≠ ':' := by
    rintro rfl
    exact absurd hc (by decide)
  rw [hct, List.cons_append, inetPton6_cons hne]

theorem inetPton6_showWords {vs : List (BitVec 16)} (hvs : vs ≠ []) (src : Str) :
    inetPton6 (showWords vs ++ src) =
      (ptonWords [] none (showWords vs ++ src) 0 0 (showWords vs ++ src)).bind
        fun x => fillZeros x.1 x.2 := by
  obtain ⟨v, vs, rfl⟩ := List.exists_cons_of_ne_nil hvs
  obtain ⟨rest, hrest⟩ : ∃ rest, showWords (v :: vs) = showWord v ++ rest := by
    cases vs with
    | nil => exact ⟨[], by rw [showWords_singleton, List.append_nil]⟩
    | cons v' vs => exact ⟨_, showWords_cons v (List.cons_ne_nil v' vs)⟩
  rw [hrest, List.append_assoc, inetPton6_showWord]

/-- What follows two colons at the start. -/
theorem inetPton6_colons (src : Str) :
    inetPton6 (':' :: ':' :: src) =
      (ptonWords [] (some 0) src 0 0 src).bind fun x => fillZeros x.1 x.2 := by
  rw [inetPton6, ptonWords_colon, if_pos rfl]
  rfl

theorem inetNtoa_ne_nil (ip : InAddr) : inetNtoa ip ≠ [] := by
  simp [inetNtoa, List.intercalate_cons_cons]

/-- The IPv4 address in the last two words gives them back. -/
theorem words_lastAddr (a : In6Addr) :
    [BitVec.ofNat 16 ((lastAddr a.1).toNat / 2 ^ 16), BitVec.ofNat 16 (lastAddr a.1).toNat] =
      a.1.drop 6 := by
  obtain ⟨ws, hws⟩ := a
  match ws, hws with
  | [_, _, _, _, _, _, w₆, w₇], _ =>
    have h₆ := w₆.isLt
    have h₇ := w₇.isLt
    refine congrArg₂ (fun x y => [x, y]) ?_ ?_ <;> apply BitVec.eq_of_toNat_eq <;>
      simp [lastAddr] <;> omega

/-- An IPv6 address is read back from its text. -/
theorem inetPton6_inetNtop6 (a : In6Addr) : inetPton6 (inetNtop6 a) = some a := by
  have hspec := longestRun_spec a.1
  have hlength := a.2
  unfold inetNtop6
  generalize longestRun a.1 = run at *
  obtain ⟨base, len⟩ := run
  dsimp only at hspec ⊢
  split_ifs with hlen hsix hfive
  · have hne : a.1 ≠ [] := fun h => by simp [h] at hlength
    have h := inetPton6_showWords hne []
    rw [List.append_nil, ptonWords_showWords (by simp [hlength])] at h
    rw [h, Option.bind_some, List.nil_append, fillZeros, dif_pos hlength]
  · obtain ⟨rfl, rfl⟩ := hsix
    have hread := ptonWords_inetNtoa [] (some 0) (lastAddr a.1) (by simp)
    rw [words_lastAddr] at hread
    show inetPton6 (':' :: ':' :: inetNtoa (lastAddr a.1)) = some a
    rw [inetPton6_colons, hread]
    exact fillZeros_append [] (by omega) hspec
  · obtain ⟨rfl, rfl, hffff⟩ := hfive
    have hread := ptonWords_inetNtoa [0xffff] (some 0) (lastAddr a.1) (by simp)
    have hdrop : a.1.drop 5 = [0xffff] ++ a.1.drop 6 := by
      rw [List.drop_eq_getElem_cons (by omega), ← hffff, List.getD_eq_getElem?_getD,
        List.getElem?_eq_getElem (by omega)]
      rfl
    rw [words_lastAddr, ← hdrop] at hread
    show inetPton6 (':' :: ':' :: (showWord 0xffff ++ ':' :: inetNtoa (lastAddr a.1))) = some a
    rw [inetPton6_colons, ptonWords_word_colon 0xffff (inetNtoa_ne_nil _) (by simp),
      List.nil_append, hread]
    exact fillZeros_append [] (by omega) hspec
  · have hsize := congrArg List.length hspec
    simp only [List.length_append, List.length_replicate] at hsize
    generalize a.1.take base = pre at *
    generalize a.1.drop (base + len) = post at *
    have hend : ptonWords pre (some pre.length) (showWords post) 0 0 (showWords post) =
        some (pre ++ post, some pre.length) := ptonWords_showWords (by omega)
    rw [List.append_assoc]
    show inetPton6 (showWords pre ++ ':' :: ':' :: showWords post) = some a
    cases pre with
    | nil =>
      show inetPton6 (':' :: ':' :: showWords post) = some a
      rw [inetPton6_colons]
      exact (congrArg (Option.bind · _) hend).trans (fillZeros_append _ (by omega) hspec)
    | cons w ws =>
      rw [inetPton6_showWords (List.cons_ne_nil w ws),
        ptonWords_showWords_colon (List.cons_ne_nil w ws) (by simp) (by simp at *; omega),
        ptonWords_colon, if_pos rfl, List.nil_append]
      exact (congrArg (Option.bind · _) hend).trans (fillZeros_append _ (by omega) hspec)

/-- An IPv4 address is not an IPv6 address. -/
theorem inetPton6_inetNtoa (ip : InAddr) : inetPton6 (inetNtoa ip) = none := by
  have hread := ptonWords_inetNtoa [] none ip (by simp)
  obtain ⟨n, rest, -, htext⟩ := exists_inetNtoa_eq ip
  obtain ⟨c, t, hct⟩ := List.exists_cons_of_ne_nil (Nat.toDigits_ne_nil (b := 10) (n := n))
  have hc : c.isDigit = true := isDigit_of_mem_toDigits (n := n) (hct ▸ List.mem_cons_self)
  have hne : c ≠ ':' := by
    rintro rfl
    exact absurd hc (by decide)
  rw [htext, hct, List.cons_append] at hread ⊢
  rw [inetPton6_cons hne, hread]
  rfl

/-! ## The length of a text -/

theorem length_showWords_le (ws : List (BitVec 16)) : (showWords ws).length ≤ 5 * ws.length := by
  induction ws with
  | nil => simp [showWords]
  | cons w ws ih =>
    have hw := (showWord_length w).2
    cases ws with
    | nil =>
      rw [showWords_singleton, List.length_singleton]
      omega
    | cons v ws =>
      rw [showWords_cons w (List.cons_ne_nil v ws), List.length_append, List.length_cons,
        List.length_cons]
      omega

/-- `INET6_ADDRSTRLEN` bytes are enough. -/
theorem length_inetNtop6_le (a : In6Addr) : (inetNtop6 a).length ≤ 45 := by
  have hip := length_inetNtoa_le (lastAddr a.1)
  have hspec := congrArg List.length (longestRun_spec a.1)
  simp only [List.length_append, List.length_replicate, a.2] at hspec
  unfold inetNtop6
  generalize longestRun a.1 = run at *
  obtain ⟨base, len⟩ := run
  dsimp only at hspec ⊢
  split_ifs with hlen hsix hfive
  · have h := length_showWords_le a.1
    rw [a.2] at h
    omega
  · rw [List.length_append]
    simp
    omega
  · rw [List.length_append]
    simp
    omega
  · have hpre := length_showWords_le (a.1.take base)
    have hpost := length_showWords_le (a.1.drop (base + len))
    simp only [List.length_append]
    simp
    omega

end YazzyPreload

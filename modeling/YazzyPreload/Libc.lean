import YazzyPreload.Pathname
import Mathlib.Algebra.Group.Int.Defs
import Mathlib.Algebra.Group.Nat.Defs

/-!
# The C library

`atoi` as the GNU C library computes it: `strtol` in base ten, which stops at `LONG_MAX` and
`LONG_MIN`, cut down to the 32 bits of an `int`; and what the environment and error lines are.
-/

namespace YazzyPreload

/-- `isspace`, in the C locale. -/
def isSpace (c : Char) : Bool := c = ' ' ∨ ('\t' ≤ c ∧ c ≤ '\r')

/-- The value of a text of decimal digits. -/
def digitsValue (s : Str) : ℕ := Nat.ofDigitChars 10 s 0

/-- `strtol` in base ten. -/
def strtol (s : Str) : ℤ :=
  match s.dropWhile isSpace with
  | '-' :: t => -(min (digitsValue (t.takeWhile Char.isDigit)) (2 ^ 63) : ℕ)
  | '+' :: t => (min (digitsValue (t.takeWhile Char.isDigit)) (2 ^ 63 - 1) : ℕ)
  | t => (min (digitsValue (t.takeWhile Char.isDigit)) (2 ^ 63 - 1) : ℕ)

/-- `atoi`. -/
def atoi (s : Str) : ℤ := (strtol s).bmod (2 ^ 32)

/-- What `getenv` gives. -/
abbrev Environ : Type := String → Option Str

/-- The line that `perror` prints; `e` is the text of the error. -/
def perror (s e : Str) : Str := s ++ ": ".toList ++ e

/-! ## Printed numbers -/

/-- A number as `%d` and `%ld` print it. -/
def showInt (n : ℤ) : Str :=
  if n < 0 then '-' :: Nat.toDigits 10 n.natAbs else Nat.toDigits 10 n.natAbs

theorem isDigit_of_mem_toDigits {n : ℕ} {c : Char} (h : c ∈ Nat.toDigits 10 n) : c.isDigit = true :=
  Nat.isDigit_of_mem_toDigits (by decide) (by decide) h

theorem isSpace_of_isDigit {c : Char} (h : c.isDigit = true) : isSpace c = false := by
  simp only [Char.isDigit, Bool.and_eq_true, decide_eq_true_eq] at h
  have h0 : (48 : ℕ) ≤ c.val.toNat := h.1
  simp only [isSpace, decide_eq_false_iff_not, Bool.decide_or, Bool.decide_and,
    Bool.or_eq_false_iff, Bool.and_eq_false_iff]
  refine ⟨fun e => ?_, Or.inr fun e => ?_⟩
  · subst e
    exact absurd h0 (by decide)
  · have h1 : c.val.toNat ≤ 13 := e
    omega

theorem takeWhile_digits {d : Str} (hd : ∀ c ∈ d, c.isDigit = true) {s : Str}
    (hs : s.head?.any Char.isDigit = false) : (d ++ s).takeWhile Char.isDigit = d := by
  rw [List.takeWhile_append_of_pos hd]
  cases s with
  | nil => simp
  | cons c s =>
    rw [List.takeWhile_cons_of_neg (by simpa using hs), List.append_nil]

/-- Digits are read up to the first character that is not one. -/
theorem strtol_digits {d s : Str} (hne : d ≠ []) (hd : ∀ c ∈ d, c.isDigit = true)
    (hs : s.head?.any Char.isDigit = false) :
    strtol (d ++ s) = (min (digitsValue d) (2 ^ 63 - 1) : ℕ) := by
  have htake := takeWhile_digits hd hs
  obtain ⟨c, t, rfl⟩ := List.exists_cons_of_ne_nil hne
  have hc : c.isDigit = true := hd c List.mem_cons_self
  rw [strtol, List.cons_append, List.dropWhile_cons_of_neg (by simp [isSpace_of_isDigit hc])]
  rw [List.cons_append] at htake
  split
  · exact absurd hc (by simp_all)
  · exact absurd hc (by simp_all)
  · rw [htake]

theorem atoi_digits {d s : Str} (hne : d ≠ []) (hd : ∀ c ∈ d, c.isDigit = true)
    (hs : s.head?.any Char.isDigit = false) (hn : digitsValue d < 2 ^ 31) :
    atoi (d ++ s) = digitsValue d := by
  rw [atoi, strtol_digits hne hd hs, Nat.min_eq_left (by omega)]
  exact Int.bmod_eq_of_le_mul_two (by omega) (by omega)

/-- A number that an `int` can hold is read back as it was printed. -/
theorem digitsValue_toDigits (n : ℕ) : digitsValue (Nat.toDigits 10 n) = n :=
  Nat.ofDigitChars_ten_toDigits

theorem atoi_toDigits {n : ℕ} (hn : n < 2 ^ 31) : atoi (Nat.toDigits 10 n) = n := by
  have hval := digitsValue_toDigits n
  have h := atoi_digits (s := []) Nat.toDigits_ne_nil (fun _ => isDigit_of_mem_toDigits) rfl
    (hval.symm ▸ hn)
  rwa [List.append_nil, hval] at h

theorem strtol_showInt {n : ℤ} (hge : -2 ^ 63 ≤ n) (hlt : n < 2 ^ 63) : strtol (showInt n) = n := by
  have hdigits : ∀ c ∈ Nat.toDigits 10 n.natAbs, c.isDigit = true :=
    fun c hc => isDigit_of_mem_toDigits hc
  rw [showInt]
  split_ifs with hn
  · have htake : (Nat.toDigits 10 n.natAbs).takeWhile Char.isDigit = Nat.toDigits 10 n.natAbs :=
      List.takeWhile_eq_self_iff.2 hdigits
    rw [strtol, List.dropWhile_cons_of_neg (by decide)]
    split
    · next heq =>
      cases heq
      rw [htake, digitsValue_toDigits]
      omega
    · next heq => cases heq
    · next hne _ => exact absurd rfl (hne _)
  · have h := strtol_digits (s := []) Nat.toDigits_ne_nil hdigits rfl
    rw [List.append_nil, digitsValue_toDigits] at h
    rw [h]
    omega

end YazzyPreload

import YazzyPreload.Recyclix.Options

/-!
# Size limits

`SizeText` and `LimitText` are the texts that match `REGEXP_SZLIMIT`.  The number in them is copied
into a buffer of 16 bytes and read by `atoi`, and 0 stands for the absence of an upper limit:
`limits_exact_iff` says for which texts the option means what it says.
-/

namespace YazzyPreload.Recyclix

/-! ## The texts -/

/-- The units of a size. -/
inductive SizeUnit
  | B | k | M | G
  deriving DecidableEq

/-- The letter of a unit. -/
def SizeUnit.letter : SizeUnit → Char
  | B => 'B'
  | k => 'k'
  | M => 'M'
  | G => 'G'

/-- The bytes in a unit. -/
def SizeUnit.bytes : SizeUnit → ℤ
  | B => 1
  | k => 1024
  | M => 1024 * 1024
  | G => 1024 * 1024 * 1024

/-- The unit of a letter, upper or lower case. -/
def SizeUnit.ofLetter (c : Char) : Option SizeUnit :=
  if c = 'B' ∨ c = 'b' then some B
  else if c = 'k' ∨ c = 'K' then some k
  else if c = 'M' ∨ c = 'm' then some M
  else if c = 'G' ∨ c = 'g' then some G
  else none

/-- A text that matches `([0-9]+)([BkMG]?)`. -/
structure SizeText where
  digits : Str
  unit : Option Char
  ne_nil : digits ≠ []
  isDigit : ∀ c ∈ digits, c.isDigit = true
  isUnit : ∀ c, unit = some c → (SizeUnit.ofLetter c).isSome = true

namespace SizeText

variable (z : SizeText)

def text : Str := z.digits ++ z.unit.toList

/-- The factor of the unit, 1 if there is none. -/
def factor : ℤ := (z.unit.bind SizeUnit.ofLetter).elim 1 SizeUnit.bytes

/-- What the text means. -/
def bytes : ℤ := digitsValue z.digits * z.factor

/-- The number fits an `int`, and is not cut when it is copied. -/
def Readable : Prop :=
  digitsValue z.digits < 2 ^ 31 ∧ (z.digits.length ≤ 15 ∨ digitsValue z.digits = 0)

end SizeText

/-- A text that matches the whole expression. -/
structure LimitText where
  lower : SizeText
  upper : Option SizeText

def LimitText.text (l : LimitText) : Str :=
  l.lower.text ++ l.upper.elim [] fun z => '-' :: z.text

/-! ## The number -/

theorem digitsValue_append (a b : Str) :
    digitsValue (a ++ b) = digitsValue a * 10 ^ b.length + digitsValue b := by
  rw [digitsValue, Nat.ofDigitChars_append, Nat.ofDigitChars_eq_ofDigitChars_zero, digitsValue,
    digitsValue, Nat.mul_comm]

theorem digitsValue_lt {s : Str} (h : ∀ c ∈ s, c.isDigit = true) : digitsValue s < 10 ^ s.length := by
  induction s using List.reverseRecOn with
  | nil => decide
  | append_singleton s c ih =>
    have hs := ih fun x hx => h x (List.mem_append_left _ hx)
    have hc : digitsValue [c] ≤ 9 := by
      have hd := h c (by simp)
      simp only [Char.isDigit, Bool.and_eq_true, decide_eq_true_eq] at hd
      have h9 : c.val.toNat ≤ 57 := hd.2
      rw [digitsValue, Nat.ofDigitChars_cons, Nat.ofDigitChars_nil]
      show 10 * 0 + (c.val.toNat - 48) ≤ 9
      omega
    rw [digitsValue_append, List.length_append, List.length_singleton, Nat.pow_succ]
    omega

/-- `atoi` on the part of a number that is copied. -/
theorem atoi_copied {ds : Str} (hne : ds ≠ []) (hd : ∀ c ∈ ds, c.isDigit = true) :
    atoi (ds.take 15) = (digitsValue (ds.take 15) : ℤ).bmod (2 ^ 32) := by
  have hd' : ∀ c ∈ ds.take 15, c.isDigit = true := fun c hc => hd c (List.mem_of_mem_take hc)
  have hlt := digitsValue_lt hd'
  have hle : 10 ^ (ds.take 15).length ≤ 10 ^ 15 :=
    Nat.pow_le_pow_right (by decide) (List.length_take_le 15 ds)
  have hread := strtol_digits (d := ds.take 15) (s := []) (by simpa using hne) hd' rfl
  rw [List.append_nil, Nat.min_eq_left (by omega)] at hread
  rw [atoi, hread]

/-- It gives the number when it fits an `int`, and is not cut off or 0. -/
theorem atoi_copied_eq_iff {ds : Str} (hne : ds ≠ []) (hd : ∀ c ∈ ds, c.isDigit = true) :
    atoi (ds.take 15) = digitsValue ds ↔
      digitsValue ds < 2 ^ 31 ∧ (ds.length ≤ 15 ∨ digitsValue ds = 0) := by
  have hsplit := digitsValue_append (ds.take 15) (ds.drop 15)
  rw [List.take_append_drop, List.length_drop] at hsplit
  rw [atoi_copied hne hd]
  by_cases hlen : ds.length ≤ 15
  · rw [List.take_of_length_le hlen]
    constructor
    · intro h
      have hup := Int.bmod_lt (x := digitsValue ds) (m := 2 ^ 32) (by decide)
      exact ⟨by omega, Or.inl hlen⟩
    · rintro ⟨h, -⟩
      exact Int.bmod_eq_of_le_mul_two (by omega) (by omega)
  · have hpow : 10 ≤ 10 ^ (ds.length - 15) :=
      Nat.le_self_pow (by omega) 10
    have hmul := Nat.mul_le_mul_left (digitsValue (ds.take 15)) hpow
    constructor
    · intro h
      have hup := Int.bmod_lt (x := digitsValue (ds.take 15)) (m := 2 ^ 32) (by decide)
      rw [Int.bmod_eq_of_le_mul_two (by omega) (by omega)] at h
      exact ⟨by omega, Or.inr (by omega)⟩
    · rintro ⟨-, h⟩
      have h0 := h.resolve_left hlen
      have htake : digitsValue (ds.take 15) = 0 := by omega
      rw [htake, h0]
      rfl

/-! ## The groups of the match -/

variable {z : SizeText} {post : Str}

theorem isUnit_eq (c : Char) : isUnit c = (SizeUnit.ofLetter c).isSome := by
  unfold isUnit SizeUnit.ofLetter
  split_ifs <;> simp_all <;> tauto

theorem unitFactor_eq (c : Char) :
    unitFactor c = (SizeUnit.ofLetter c).elim 1 SizeUnit.bytes := by
  by_cases hB : c = 'B' ∨ c = 'b'
  · rcases hB with rfl | rfl <;> rfl
  · unfold unitFactor SizeUnit.ofLetter
    simp only [if_neg hB, or_comm (a := c = 'm'), or_comm (a := c = 'g')]
    split_ifs <;> rfl

/-- What can stand after a size: nothing, or the dash of the upper limit. -/
def SizeEnd (post : Str) : Prop := post.head?.all (· = '-') = true

namespace SizeText

variable (z)

theorem head_unit_post (hpost : SizeEnd post) (p : Char → Bool) (hp : p '-' = false)
    (hu : ∀ c, z.unit = some c → p c = false) : (z.unit.toList ++ post).head?.any p = false := by
  cases hz : z.unit with
  | some c => simp [hu c hz]
  | none =>
    cases post with
    | nil => rfl
    | cons c post =>
      have hc : c = '-' := by simpa [SizeEnd] using hpost
      simp [hc, hp]

theorem isDigit_unit (c : Char) (h : z.unit = some c) : c.isDigit = false := by
  have hs := z.isUnit c h
  unfold SizeUnit.ofLetter at hs
  split_ifs at hs <;> simp_all <;> rename_i hc <;> rcases hc with rfl | rfl <;> decide

theorem numLen_text (hpost : SizeEnd post) : numLen (z.text ++ post) = z.digits.length := by
  rw [numLen, text, List.append_assoc,
    takeWhile_digits z.isDigit (z.head_unit_post hpost _ (by decide) z.isDigit_unit)]

theorem unitLen_text (hpost : SizeEnd post) :
    unitLen (z.unit.toList ++ post) = z.unit.toList.length := by
  cases hz : z.unit with
  | some c => simp [unitLen, isUnit_eq, z.isUnit c hz]
  | none =>
    have h := z.head_unit_post hpost YazzyPreload.Recyclix.isUnit (by decide)
      fun c hc => by rw [hz] at hc; cases hc
    rw [hz] at h
    rw [unitLen, h]
    rfl

/-- The factor is read where the unit ends, when there is none. -/
theorem unitFactor_text (hpost : SizeEnd post) :
    unitFactor ((z.unit.toList ++ post).getD 0 (Char.ofNat 0)) = z.factor := by
  rw [factor]
  cases hz : z.unit with
  | some c => exact unitFactor_eq c
  | none =>
    cases post with
    | nil => rfl
    | cons c post =>
      have hc : c = '-' := by simpa [SizeEnd] using hpost
      rw [hc]
      rfl

/-- `recyclix_tosize` on a size that stands at an offset of the option. -/
theorem recyclixTosize_text (hpost : SizeEnd post) (pre : Str) :
    recyclixTosize (pre ++ (z.text ++ post)) pre.length z.digits.length
      (pre.length + z.digits.length : ℕ) = atoi (z.digits.take 15) * z.factor := by
  have hroom : ((if (16 : ℤ) > z.digits.length + 1 then (z.digits.length + 1 : ℤ) else 16) - 1).toNat =
      min 15 z.digits.length := by
    split_ifs <;> omega
  have hnum : ((pre ++ (z.text ++ post)).drop pre.length).take (min 15 z.digits.length) =
      z.digits.take 15 := by
    rw [List.drop_left, ← List.take_take, text, List.append_assoc, List.take_left]
  have hunit : (pre ++ (z.text ++ post)).getD (pre.length + z.digits.length) (Char.ofNat 0) =
      (z.unit.toList ++ post).getD 0 (Char.ofNat 0) := by
    rw [List.getD_eq_getElem?_getD, List.getD_eq_getElem?_getD, ← List.head?_drop, ← List.drop_drop,
      List.drop_left, text, List.append_assoc, List.drop_left, ← List.head?_eq_getElem?]
  rw [recyclixTosize, if_neg (by omega)]
  simp only [Int.toNat_natCast, hroom, hnum, hunit, z.unitFactor_text hpost]

theorem length_digits_ne_zero : z.digits.length ≠ 0 := by
  rw [Ne, List.length_eq_zero_iff]
  exact z.ne_nil

theorem drop_digits (post : Str) : (z.text ++ post).drop z.digits.length = z.unit.toList ++ post := by
  rw [text, List.append_assoc, List.drop_left]

theorem drop_text (post : Str) :
    (z.text ++ post).drop (z.digits.length + z.unit.toList.length) = post := by
  rw [← List.drop_drop, drop_digits, List.drop_left]

end SizeText

namespace LimitText

variable (l : LimitText)

/-- The part of the text after the lower limit. -/
def upperText : Str := l.upper.elim [] fun z => '-' :: z.text

theorem sizeEnd_upperText : SizeEnd l.upperText := by
  rw [upperText]
  cases l.upper <;> simp [SizeEnd]

theorem szlimit_text_none (hu : l.upper = none) :
    szlimit l.text = some ([(0, l.lower.digits.length + l.lower.unit.toList.length),
      (0, l.lower.digits.length),
      (l.lower.digits.length, l.lower.digits.length + l.lower.unit.toList.length), unmatched,
      unmatched, unmatched] : List Regmatch) := by
  have htext : l.text = l.lower.text ++ l.upperText := rfl
  have hpost : l.upperText = [] := by rw [upperText, hu]; rfl
  rw [szlimit, htext, l.lower.numLen_text l.sizeEnd_upperText, l.lower.drop_digits,
    l.lower.unitLen_text l.sizeEnd_upperText, l.lower.drop_text,
    if_neg l.lower.length_digits_ne_zero, hpost]

theorem szlimit_text_some {z : SizeText} (hu : l.upper = some z) :
    ∃ b : ℕ, b = l.lower.text.length + 1 ∧ szlimit l.text = some
      ([(0, b + z.digits.length + z.unit.toList.length), (0, l.lower.digits.length),
        (l.lower.digits.length, l.lower.digits.length + l.lower.unit.toList.length),
        (b - 1, b + z.digits.length + z.unit.toList.length), (b, b + z.digits.length),
        (b + z.digits.length, b + z.digits.length + z.unit.toList.length)] :
          List Regmatch) := by
  have htext : l.text = l.lower.text ++ l.upperText := rfl
  have hpost : l.upperText = '-' :: z.text := by rw [upperText, hu]; rfl
  have hend : SizeEnd [] := rfl
  have hz := z.numLen_text hend
  have hd := z.drop_digits []
  have hs := z.drop_text []
  have huz := z.unitLen_text hend
  rw [List.append_nil] at hz hd hs
  refine ⟨_, rfl, ?_⟩
  rw [szlimit, htext, l.lower.numLen_text l.sizeEnd_upperText, l.lower.drop_digits,
    l.lower.unitLen_text l.sizeEnd_upperText, l.lower.drop_text,
    if_neg l.lower.length_digits_ne_zero, hpost]
  simp only [hz, hd, huz, hs]
  rw [if_neg z.length_digits_ne_zero, if_pos trivial, SizeText.text, List.length_append]

/-- `sz_min` and `sz_max`, as the loop sets them. -/
theorem recognizeOption_text :
    recognizeOption l.text = some (.size (atoi (l.lower.digits.take 15) * l.lower.factor)
      (l.upper.elim 0 fun z => atoi (z.digits.take 15) * z.factor)) := by
  have hlow := l.lower.recyclixTosize_text l.sizeEnd_upperText []
  have htext : [] ++ (l.lower.text ++ l.upperText) = l.text := rfl
  rw [htext] at hlow
  cases hu : l.upper with
  | none =>
    rw [recognizeOption, l.szlimit_text_none hu]
    simpa [recyclixTosize, unmatched] using hlow
  | some z =>
    obtain ⟨b, hb, hsz⟩ := l.szlimit_text_some hu
    have hend : SizeEnd [] := rfl
    have hupp := z.recyclixTosize_text hend (l.lower.text ++ ['-'])
    have htext' : l.lower.text ++ ['-'] ++ (z.text ++ []) = l.text := by
      rw [text, hu, List.append_nil, List.append_assoc]
      rfl
    rw [htext', List.length_append, List.length_singleton, ← hb] at hupp
    have hdigits : ((b + z.digits.length : ℕ) : ℤ) - (b : ℕ) = z.digits.length := by omega
    rw [recognizeOption, hsz]
    simp only [List.getD_cons_succ, List.getD_cons_zero, Int.sub_zero, ← Int.natCast_add, hdigits,
      hupp]
    simpa using hlow

end LimitText

/-! ## Exact limits -/

/-- The upper limit that a `sz_max` stands for: 0 is none. -/
def upperLimit (szMax : ℤ) : Option ℤ := if szMax = 0 then none else some szMax

theorem upperLimit_eq_some_iff {szMax n : ℤ} : upperLimit szMax = some n ↔ szMax = n ∧ n ≠ 0 := by
  rw [upperLimit]
  by_cases h : szMax = 0
  · rw [if_pos h, h]
    exact ⟨nofun, fun e => absurd e.1.symm e.2⟩
  · rw [if_neg h, Option.some_inj]
    exact ⟨fun e => ⟨e, e ▸ h⟩, And.left⟩

/-- The option sets the limits that are written in it, and is refused when the upper one is smaller
than the lower one. -/
def LimitText.Exact (l : LimitText) : Prop :=
  ∃ szMin szMax, recognizeOption l.text = some (.size szMin szMax) ∧
    szMin = l.lower.bytes ∧
    upperLimit szMax = l.upper.map SizeText.bytes ∧
    ∀ regcomp pathname lim, Limits.apply regcomp pathname lim (.size szMin szMax) = none ↔
      ∃ z, l.upper = some z ∧ z.bytes < l.lower.bytes

theorem LimitText.Exact.limits_eq {l : LimitText} (h : l.Exact) {a b : ℤ}
    (hopt : recognizeOption l.text = some (.size a b)) :
    a = l.lower.bytes ∧ upperLimit b = l.upper.map SizeText.bytes := by
  obtain ⟨szMin, szMax, hread, hmin, hmax, -⟩ := h
  rw [hopt] at hread
  injection hread with hread
  injection hread with hread hread'
  rw [hread, hread']
  exact ⟨hmin, hmax⟩

theorem SizeText.factor_pos (z : SizeText) : 0 < z.factor := by
  rw [factor]
  cases z.unit.bind SizeUnit.ofLetter with
  | none => decide
  | some u => cases u <;> decide

/-- `recyclix_tosize` gives the bytes of a size whose number is readable. -/
theorem SizeText.read_eq_iff (z : SizeText) :
    atoi (z.digits.take 15) * z.factor = z.bytes ↔ z.Readable := by
  rw [bytes, Int.mul_eq_mul_right_iff (Int.ne_of_gt z.factor_pos)]
  exact atoi_copied_eq_iff z.ne_nil z.isDigit

theorem SizeText.bytes_eq_zero_iff (z : SizeText) : z.bytes = 0 ↔ digitsValue z.digits = 0 := by
  rw [bytes, Int.mul_eq_zero, or_iff_left (Int.ne_of_gt z.factor_pos), Int.natCast_eq_zero]

theorem SizeText.factor_le (z : SizeText) : z.factor ≤ 2 ^ 30 := by
  rw [factor]
  cases z.unit.bind SizeUnit.ofLetter with
  | none => decide
  | some u => cases u <;> decide

/-- A size whose number is readable fits in an `off_t`, in whatever unit. -/
theorem SizeText.Readable.bytes_lt {z : SizeText} (h : z.Readable) : z.bytes < 2 ^ 63 := by
  have hdigits : (digitsValue z.digits : ℤ) < 2 ^ 31 := by exact_mod_cast h.1
  calc z.bytes ≤ digitsValue z.digits * 2 ^ 30 :=
        Int.mul_le_mul_of_nonneg_left z.factor_le (Int.natCast_nonneg _)
    _ < 2 ^ 63 := by omega

/-- An option sets the limits that are written in it if and only if each number is less than 2^31,
has at most 15 digits or is 0, and the upper limit is not 0. -/
theorem limits_exact_iff (l : LimitText) :
    l.Exact ↔ l.lower.Readable ∧
      ∀ z, l.upper = some z → z.Readable ∧ digitsValue z.digits ≠ 0 := by
  have hread := l.recognizeOption_text
  constructor
  · intro h
    obtain ⟨hmin, hmax⟩ := h.limits_eq hread
    refine ⟨l.lower.read_eq_iff.1 hmin, fun z hz => ?_⟩
    rw [hz] at hmax
    obtain ⟨hz, h0⟩ := upperLimit_eq_some_iff.1 hmax
    exact ⟨z.read_eq_iff.1 hz, mt z.bytes_eq_zero_iff.2 h0⟩
  · rintro ⟨hlow, hupp⟩
    refine ⟨_, _, hread, l.lower.read_eq_iff.2 hlow, ?_, fun regcomp pathname lim => ?_⟩
    · cases hu : l.upper with
      | none => rfl
      | some z =>
        obtain ⟨hz, h0⟩ := hupp z hu
        exact upperLimit_eq_some_iff.2 ⟨z.read_eq_iff.2 hz, mt z.bytes_eq_zero_iff.1 h0⟩
    · rw [l.lower.read_eq_iff.2 hlow, Limits.apply]
      cases hu : l.upper with
      | none => simp
      | some z =>
        obtain ⟨hz, h0⟩ := hupp z hu
        rw [Option.elim_some, z.read_eq_iff.2 hz]
        simp [mt z.bytes_eq_zero_iff.1 h0]

namespace LimitText.Sample

/-- 2 GiB, in bytes. -/
def large : LimitText where
  lower := ⟨"2147483648".toList, none, by decide, List.all_eq_true.1 (by decide), nofun⟩
  upper := none

/-- No more than 0 bytes. -/
def empty : LimitText where
  lower := ⟨"0".toList, none, by decide, List.all_eq_true.1 (by decide), nofun⟩
  upper := some ⟨"0".toList, some 'k', by decide, List.all_eq_true.1 (by decide), fun _ h => by cases h; rfl⟩

end LimitText.Sample

/-- A number from 2^31 on wraps around, and an upper limit of 0 is none at all. -/
theorem limits_inexact :
    recognizeOption LimitText.Sample.large.text = some (.size (-2147483648) 0) ∧
      LimitText.Sample.large.lower.bytes = 2147483648 ∧ ¬LimitText.Sample.large.Exact ∧
      recognizeOption LimitText.Sample.empty.text = some (.size 0 0) ∧
      LimitText.Sample.empty.upper.map SizeText.bytes = some 0 ∧ ¬LimitText.Sample.empty.Exact := by
  have hlarge : recognizeOption LimitText.Sample.large.text = some (.size (-2147483648) 0) := by
    decide +kernel
  have hempty : recognizeOption LimitText.Sample.empty.text = some (.size 0 0) := by
    decide +kernel
  refine ⟨hlarge, by decide +kernel, fun h => ?_, hempty, by decide +kernel, fun h => ?_⟩
  · exact absurd (h.limits_eq hlarge).1 (by decide +kernel)
  · exact absurd (h.limits_eq hempty).2 (by decide +kernel)

end YazzyPreload.Recyclix

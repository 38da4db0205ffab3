import YazzyPreload.Libc

/-!
# The `RECYCLER` variable

`RECYCLER` is a list of items separated by colons; an item is a directory followed by options, all
separated by commas.  This file has the part of `unlinkat` that reads them: the two regular
expressions it matches an option against, `recyclix_tosize`, and the loop over the options of one
item.  Patterns of the user are compiled by `regcomp`, which is a parameter.
-/

namespace YazzyPreload.Recyclix

/-- `regcomp` with `REG_EXTENDED`: the matcher of a pattern, if it is a valid one. -/
abbrev Regcomp : Type := Str → Option (Str → Bool)

/-! ## Size limits -/

/-- The offsets `rm_so` and `rm_eo` of a group. -/
abbrev Regmatch : Type := ℤ × ℤ

/-- A group that did not take part in the match. -/
def unmatched : Regmatch := (-1, -1)

/-- `[BkMG]`, without regard to case. -/
def isUnit (c : Char) : Bool := c ∈ ['B', 'k', 'M', 'G', 'b', 'K', 'm', 'g']

/-- The length of the match of `[0-9]+` at the start of a text, 0 if there is none. -/
def numLen (s : Str) : ℕ := (s.takeWhile Char.isDigit).length

/-- The length of the match of `[BkMG]?` at the start of a text. -/
def unitLen (s : Str) : ℕ := if s.head?.any isUnit then 1 else 0

/-- `regexec` with `REGEXP_SZLIMIT`, `^([0-9]+)([BkMG]?)(-([0-9]+)([BkMG]?))?$`: the offsets of the
whole match and of the five groups. -/
def szlimit (s : Str) : Option (List Regmatch) :=
  let n := numLen s
  let u := unitLen (s.drop n)
  if n = 0 then none
  else
    match s.drop (n + u) with
    | [] => some [(0, n + u), (0, n), (n, n + u), unmatched, unmatched, unmatched]
    | '-' :: t =>
      let n' := numLen t
      let u' := unitLen (t.drop n')
      let b : ℕ := n + u + 1
      if n' = 0 then none
      else if t.drop (n' + u') = [] then
        some [(0, b + n' + u'), (0, n), (n, n + u), (b - 1, b + n' + u'), (b, b + n'),
          (b + n', b + n' + u')]
      else none
    | _ => none

/-- The factor of the unit letter at an offset; a match of length 0 leaves the offset at the
character that follows. -/
def unitFactor (c : Char) : ℤ :=
  if c = 'k' ∨ c = 'K' then 1024
  else if c = 'm' ∨ c = 'M' then 1024 * 1024
  else if c = 'g' ∨ c = 'G' then 1024 * 1024 * 1024
  else 1

/-- `recyclix_tosize`: at most 15 digits are copied and read by `atoi`. -/
def recyclixTosize (str : Str) (numStart digits unit : ℤ) : ℤ :=
  if numStart = -1 then 0
  else
    let room := if 16 > digits + 1 then digits + 1 else 16
    let number := (str.drop numStart.toNat).take (room - 1).toNat
    atoi number * unitFactor (str.getD unit.toNat (Char.ofNat 0))

/-! ## Options -/

/-- What an option says: limits on the size, or a pattern to exclude. -/
inductive Opt
  | size (szMin szMax : ℤ)
  | exclude (pattern : Str)
  deriving DecidableEq

/-- The text after the mark in a match of `REGEXP_EXCLUDE`, `^!(.*)$`. -/
def excludePattern : Str → Option Str
  | '!' :: s => some s
  | _ => none

/-- The option a text stands for, if it is one. -/
def recognizeOption (o : Str) : Option Opt :=
  match szlimit o with
  | some pm =>
    let g (i : ℕ) : Regmatch := pm.getD i unmatched
    some (.size (recyclixTosize o (g 1).1 ((g 1).2 - (g 1).1) (g 2).1)
      (recyclixTosize o (g 4).1 ((g 4).2 - (g 4).1) (g 5).1))
  | none => (excludePattern o).map .exclude

/-- `sz_min`, `sz_max` and `excluded`. -/
structure Limits where
  szMin : ℤ
  szMax : ℤ
  excluded : Bool
  deriving DecidableEq

/-- Their values before any option is read: empty files are ignored, and there is no upper
limit. -/
def Limits.initial : Limits := ⟨1, 0, false⟩

/-- The effect of one option; `none` if its limits are insane or its pattern is not valid. -/
def Limits.apply (regcomp : Regcomp) (pathname : Str) (lim : Limits) : Opt → Option Limits
  | .size szMin szMax =>
    if szMax ≠ 0 ∧ szMin > szMax then none else some { lim with szMin := szMin, szMax := szMax }
  | .exclude pattern =>
    (regcomp pattern).map fun regexec => { lim with excluded := regexec pathname }

/-- The loop over the texts between the commas after the directory.  It ends when the rest of the
item is empty; `none` is the exit with `ECANCELED`. -/
def readOptions (regcomp : Regcomp) (pathname : Str) : List Str → Limits → Option Limits
  | [], lim => some lim
  | [[]], lim => some lim
  | o :: os, lim =>
    match recognizeOption o with
    | none => none
    | some opt =>
      match lim.apply regcomp pathname opt with
      | none => none
      | some lim => readOptions regcomp pathname os lim

theorem readOptions_cons {o : Str} {os : List Str} (h : ¬ (o = [] ∧ os = [])) (regcomp : Regcomp)
    (pathname : Str) (lim : Limits) : readOptions regcomp pathname (o :: os) lim =
      (recognizeOption o).bind fun opt =>
        (lim.apply regcomp pathname opt).bind (readOptions regcomp pathname os) := by
  rw [readOptions]
  · cases recognizeOption o with
    | none => rfl
    | some opt => cases hl : lim.apply regcomp pathname opt <;> simp [hl]
  · exact fun e e' => h ⟨e, e'⟩

/-! ## Items -/

/-- An item with a leading `~/` resolved; empty when there is no home directory. -/
def expandHome (home : Option Str) (item : Str) : Str :=
  if ['~', '/'] <+: item then
    match home with
    | none => []
    | some h => h ++ '/' :: item.drop 2
  else item

/-- The directory of an item: the text before the first comma. -/
def binDir (recycler : Str) : Str := (recycler.splitOn ',').headD []

/-- The texts between the commas after the directory. -/
def binOptions (recycler : Str) : List Str := (recycler.splitOn ',').tail

/-- The size and exclude checks of `unlinkat` on an item whose directory is on the right device:
sizes count for regular files only. -/
def Limits.admits (lim : Limits) (isReg : Bool) (size : ℕ) : Bool :=
  !(isReg && ((size : ℤ) < lim.szMin || (lim.szMax ≠ 0 && (size : ℤ) > lim.szMax))) && !lim.excluded

end YazzyPreload.Recyclix

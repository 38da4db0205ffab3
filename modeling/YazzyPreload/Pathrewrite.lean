import YazzyPreload.CharArray
import YazzyPreload.Libc

/-!
# `pathrewrite.so`

The functions that are intercepted copy the path into an array of `_POSIX_PATH_MAX` characters,
replace `PATHREWRITE_FROM` by `PATHREWRITE_TO` there and pass the result on.  The lengths are not
checked.  `intercept_exact_iff` says that the replacement is the documented one whenever the path
fits in the array before and after.
-/

namespace YazzyPreload.Pathrewrite

/-- `_POSIX_PATH_MAX`. -/
def posixPathMax : ℕ := 256

/-- The arrays `pathrw` and `temp`. -/
abbrev Chars : Type := CharArray Char posixPathMax

/-- The three copies that put `newstring` in the place of the text at `index`. -/
def splice (pattern newstring : Str) (index : ℕ) (rw temp : Chars) : Option Chars := do
  let temp ← temp.strcpy 0 (← rw.stringAt (index + pattern.length))
  let rw ← rw.strcpy index newstring
  rw.strcpy (index + newstring.length) (← temp.stringAt 0)

section Hooks

variable (getenv : Environ) (pathrw temp : Chars)

/-- `pathrewrite_rewrite`: the array `rw` as it leaves it, and the lines it prints to `stderr`.
There is no result when a store goes past the end of an array. -/
def pathrewriteRewrite (orig : Str) (rw : Chars) (caller_name : Str) :
    Option (Chars × List Str) := do
  let rw ← rw.strcpy 0 orig
  match getenv "PATHREWRITE_FROM", getenv "PATHREWRITE_TO" with
  | some pattern, some newstring =>
    match strstr pattern (← rw.stringAt 0) with
    | some index =>
      let rw ← splice pattern newstring index rw temp
      let note := "pathrewrite.so: ".toList ++ caller_name ++ '(' :: orig ++ " -> ".toList ++
        (← rw.stringAt 0) ++ [')']
      some (rw, [note])
    | none => some (rw, [])
  | _, _ => some (rw, [])

/-- A call to one of the functions that are intercepted; `buf` is an address. -/
inductive Hooked
  | xstat (ver : ℤ) (path : Str) (buf : ℕ)
  | lxstat (ver : ℤ) (path : Str) (buf : ℕ)
  | open_ (pathname : Str) (flags : ℤ) (mode : ℕ)
  | open64 (pathname : Str) (flags : ℤ) (mode : ℕ)
  | open_2 (pathname : Str) (flags : ℤ)
  | fopen (pathname mode : Str)
  deriving DecidableEq

/-- A hook: the path is rewritten, and the function of the same name is called with the result. -/
def hook (func path : Str) (orig : Str → Hooked) : Option (List Str × Hooked) := do
  let (pathrw, stderr) ← pathrewriteRewrite getenv temp path pathrw func
  some (stderr, orig (← pathrw.stringAt 0))

/-- `__xstat`. -/
def xstat (ver : ℤ) (path : Str) (buf : ℕ) : Option (List Str × Hooked) :=
  hook getenv pathrw temp "__xstat".toList path fun s => .xstat ver s buf

/-- `__lxstat`. -/
def lxstat (ver : ℤ) (path : Str) (buf : ℕ) : Option (List Str × Hooked) :=
  hook getenv pathrw temp "__lxstat".toList path fun s => .lxstat ver s buf

/-- `open`. -/
def open_ (pathname : Str) (flags : ℤ) (mode : ℕ) : Option (List Str × Hooked) :=
  hook getenv pathrw temp "open".toList pathname fun s => .open_ s flags mode

/-- `open64`. -/
def open64 (pathname : Str) (flags : ℤ) (mode : ℕ) : Option (List Str × Hooked) :=
  hook getenv pathrw temp "open64".toList pathname fun s => .open64 s flags mode

/-- `__open_2`. -/
def open_2 (pathname : Str) (flags : ℤ) : Option (List Str × Hooked) :=
  hook getenv pathrw temp "__open_2".toList pathname fun s => .open_2 s flags

/-- `fopen`. -/
def fopen (pathname mode : Str) : Option (List Str × Hooked) :=
  hook getenv pathrw temp "fopen".toList pathname fun s => .fopen s mode

/-- What an intercepted call does. -/
def intercept : Hooked → Option (List Str × Hooked)
  | .xstat ver path buf => xstat getenv pathrw temp ver path buf
  | .lxstat ver path buf => lxstat getenv pathrw temp ver path buf
  | .open_ pathname flags mode => open_ getenv pathrw temp pathname flags mode
  | .open64 pathname flags mode => open64 getenv pathrw temp pathname flags mode
  | .open_2 pathname flags => open_2 getenv pathrw temp pathname flags
  | .fopen pathname mode => fopen getenv pathrw temp pathname mode

end Hooks

/-! ## The documented replacement -/

/-- The path of a call. -/
def Hooked.path : Hooked → Str
  | .xstat _ path _ | .lxstat _ path _ | .open_ path _ _ | .open64 path _ _ | .open_2 path _
  | .fopen path _ => path

/-- The call with another path. -/
def Hooked.withPath (s : Str) : Hooked → Hooked
  | .xstat ver _ buf => .xstat ver s buf
  | .lxstat ver _ buf => .lxstat ver s buf
  | .open_ _ flags mode => .open_ s flags mode
  | .open64 _ flags mode => .open64 s flags mode
  | .open_2 _ flags => .open_2 s flags
  | .fopen _ mode => .fopen s mode

/-- The paths before and after the replacement of the leftmost occurrence. -/
inductive Rewrites (getenv : Environ) (path : Str) : Str → Prop
  | replaced {pattern newstring pre post : Str} (hfrom : getenv "PATHREWRITE_FROM" = some pattern)
      (hto : getenv "PATHREWRITE_TO" = some newstring) (h : Leftmost pattern path pre post) :
      Rewrites getenv path (pre ++ newstring ++ post)
  | absent {pattern : Str} (hfrom : getenv "PATHREWRITE_FROM" = some pattern)
      (h : ¬ pattern <:+: path) : Rewrites getenv path path
  | unset (h : getenv "PATHREWRITE_FROM" = none ∨ getenv "PATHREWRITE_TO" = none) :
      Rewrites getenv path path

/-- The call is passed on with the path after the replacement, and no store goes past the end of an
array. -/
def Exact (getenv : Environ) (pathrw temp : Chars) (c : Hooked) : Prop :=
  ∃ stderr s, intercept getenv pathrw temp c = some (stderr, c.withPath s) ∧
    Rewrites getenv c.path s

/-- The path fits in an array as it is, and with the replacement if there is one. -/
def Short (getenv : Environ) (path : Str) : Prop :=
  path.length < posixPathMax ∧
    ∀ pattern newstring, getenv "PATHREWRITE_FROM" = some pattern →
      getenv "PATHREWRITE_TO" = some newstring → pattern <:+: path →
      path.length - pattern.length + newstring.length < posixPathMax

variable {getenv : Environ} {pathrw temp a b : Chars} {c : Hooked} {func path s s' : Str}
  {pattern newstring pre post : Str}

theorem Rewrites.eq_of_leftmost (hfrom : getenv "PATHREWRITE_FROM" = some pattern)
    (hto : getenv "PATHREWRITE_TO" = some newstring) (hl : Leftmost pattern path pre post)
    (h : Rewrites getenv path s) : s = pre ++ newstring ++ post := by
  cases h with
  | replaced hfrom' hto' hl' =>
    cases hfrom.symm.trans hfrom'
    cases hto.symm.trans hto'
    obtain ⟨rfl, rfl⟩ := hl.unique hl'
    rfl
  | absent hfrom' hnot =>
    cases hfrom.symm.trans hfrom'
    exact absurd hl.infix hnot
  | unset hunset =>
    rcases hunset with h | h
    · cases hfrom.symm.trans h
    · cases hto.symm.trans h

/-- There is one documented path. -/
theorem Rewrites.unique (h : Rewrites getenv path s) (h' : Rewrites getenv path s') : s = s' := by
  cases h with
  | replaced hfrom hto hl => exact (h'.eq_of_leftmost hfrom hto hl).symm
  | absent hfrom hnot =>
    cases h' with
    | replaced hfrom' hto' hl' =>
      cases hfrom.symm.trans hfrom'
      exact absurd hl'.infix hnot
    | _ => rfl
  | unset hunset =>
    cases h' with
    | replaced hfrom' hto' hl' =>
      exact Rewrites.eq_of_leftmost hfrom' hto' hl' (.unset hunset)
    | _ => rfl

/-! ## The copies -/

/-- The rest of the path is shorter than the path, so that it fits in `temp`. -/
theorem splice_eq (ha : a.stringAt 0 = some (pre ++ pattern ++ post)) :
    splice pattern newstring pre.length a temp =
      (a.strcpy pre.length newstring).bind fun b => b.strcpy (pre.length + newstring.length) post := by
  have hpost := CharArray.stringAt_add ha
  rw [List.length_append, Nat.zero_add] at hpost
  have hlt := CharArray.lt_of_stringAt hpost
  obtain ⟨t, ht⟩ := (CharArray.exists_strcpy_iff (a := temp) (i := 0) (s := post)).2 (by omega)
  rw [splice, hpost]
  simp only [Option.bind_eq_bind, Option.bind_some, ht, CharArray.stringAt_strcpy ht]

theorem exists_splice_iff (newstring : Str) (temp : Chars)
    (ha : a.stringAt 0 = some (pre ++ pattern ++ post)) :
    (∃ b, splice pattern newstring pre.length a temp = some b) ↔
      (pre ++ newstring ++ post).length < posixPathMax := by
  rw [splice_eq ha, List.length_append, List.length_append]
  constructor
  · rintro ⟨b, hb⟩
    obtain ⟨b', -, hb'⟩ := Option.bind_eq_some_iff.1 hb
    exact CharArray.exists_strcpy_iff.1 ⟨b, hb'⟩
  · intro h
    obtain ⟨b, hb⟩ := (CharArray.exists_strcpy_iff (a := a) (i := pre.length) (s := newstring)).2
      (by omega)
    rw [hb]
    exact CharArray.exists_strcpy_iff.2 h

/-- What the copies leave in the array. -/
theorem stringAt_splice (ha : a.stringAt 0 = some (pre ++ pattern ++ post))
    (h : splice pattern newstring pre.length a temp = some b) :
    b.stringAt 0 = some (pre ++ newstring ++ post) := by
  rw [splice_eq ha] at h
  obtain ⟨b', hnew, hpost⟩ := Option.bind_eq_some_iff.1 h
  rw [← Nat.zero_add pre.length, List.append_assoc] at *
  have hb' := CharArray.stringAt_strcpy_append ha hnew
  rw [← List.append_nil (pre ++ newstring)] at hb'
  rw [Nat.add_assoc, ← List.length_append] at hpost
  rw [← List.append_assoc]
  exact CharArray.stringAt_strcpy_append hb' hpost

/-! ## The rewriting -/

/-- A path that is replaced has the length that `Short` computes. -/
theorem length_replaced (h : Leftmost pattern path pre post) (newstring : Str) :
    (pre ++ newstring ++ post).length = path.length - pattern.length + newstring.length := by
  rw [h.eq]
  simp only [List.length_append]
  omega

/-- Once the path is copied, either nothing is replaced or its leftmost occurrence. -/
theorem pathrewriteRewrite_cases (ha : a.strcpy 0 path = some b) :
    (pathrewriteRewrite getenv temp path a func = some (b, []) ∧ Rewrites getenv path path ∧
        ∀ pattern newstring, getenv "PATHREWRITE_FROM" = some pattern →
          getenv "PATHREWRITE_TO" = some newstring → ¬ pattern <:+: path) ∨
      ∃ pattern newstring pre post note, getenv "PATHREWRITE_FROM" = some pattern ∧
        getenv "PATHREWRITE_TO" = some newstring ∧ Leftmost pattern path pre post ∧
        pathrewriteRewrite getenv temp path a func =
          (splice pattern newstring pre.length b temp).map fun b => (b, [note]) := by
  have hb := CharArray.stringAt_strcpy ha
  rw [pathrewriteRewrite, ha]
  simp only [Option.bind_eq_bind, Option.bind_some, hb]
  cases hfrom : getenv "PATHREWRITE_FROM" with
  | none => exact Or.inl ⟨rfl, .unset (.inl hfrom), fun _ _ h => by cases h⟩
  | some pattern =>
    cases hto : getenv "PATHREWRITE_TO" with
    | none => exact Or.inl ⟨rfl, .unset (.inr hto), fun _ _ _ h => by cases h⟩
    | some newstring =>
      dsimp only
      cases hindex : strstr pattern path with
      | none =>
        have hnot := strstr_eq_none_iff.1 hindex
        refine Or.inl ⟨rfl, .absent hfrom hnot, fun p _ hp _ => ?_⟩
        cases hp
        exact hnot
      | some index =>
        obtain ⟨pre, post, hl, rfl⟩ := exists_leftmost_of_strstr hindex
        refine Or.inr ⟨pattern, newstring, pre, post, "pathrewrite.so: ".toList ++ func ++
          '(' :: path ++ " -> ".toList ++ (pre ++ newstring ++ post) ++ [')'], rfl, rfl, hl, ?_⟩
        dsimp only
        cases hs : splice pattern newstring pre.length b temp with
        | none => rfl
        | some b' =>
          rw [Option.bind_some, stringAt_splice (hl.eq ▸ hb) hs]
          rfl

theorem exists_strcpy_path (a : Chars) :
    (∃ b, a.strcpy 0 path = some b) ↔ path.length < posixPathMax := by
  rw [CharArray.exists_strcpy_iff, Nat.zero_add]

theorem exists_pathrewriteRewrite_iff :
    (∃ r, pathrewriteRewrite getenv temp path a func = some r) ↔ Short getenv path := by
  by_cases hlt : path.length < posixPathMax
  · obtain ⟨b, ha⟩ := (exists_strcpy_path a).2 hlt
    rcases pathrewriteRewrite_cases ha with
      ⟨hrun, -, hnot⟩ | ⟨pattern, newstring, pre, post, note, hfrom, hto, hl, hrun⟩
    · rw [hrun]
      exact iff_of_true ⟨_, rfl⟩ ⟨hlt, fun p t hp ht hin => absurd hin (hnot p t hp ht)⟩
    · have hiff := exists_splice_iff newstring temp (hl.eq ▸ CharArray.stringAt_strcpy ha)
      rw [length_replaced hl] at hiff
      rw [hrun]
      constructor
      · rintro ⟨r, hr⟩
        obtain ⟨b', hs, -⟩ := Option.map_eq_some_iff.1 hr
        refine ⟨hlt, fun p t hp ht _ => ?_⟩
        cases hfrom.symm.trans hp
        cases hto.symm.trans ht
        exact hiff.1 ⟨b', hs⟩
      · intro h
        obtain ⟨b', hs⟩ := hiff.2 (h.2 _ _ hfrom hto hl.infix)
        exact ⟨_, Option.map_eq_some_iff.2 ⟨b', hs, rfl⟩⟩
  · refine iff_of_false ?_ fun h => hlt h.1
    rintro ⟨r, hr⟩
    rw [pathrewriteRewrite, Option.bind_eq_bind, Option.bind_eq_some_iff] at hr
    obtain ⟨b, ha, -⟩ := hr
    exact hlt ((exists_strcpy_path a).1 ⟨b, ha⟩)

/-- What is in the array afterwards. -/
theorem rewrites_pathrewriteRewrite {note : List Str}
    (h : pathrewriteRewrite getenv temp path a func = some (b, note)) :
    ∃ s, b.stringAt 0 = some s ∧ Rewrites getenv path s := by
  obtain ⟨b₀, ha⟩ := (exists_strcpy_path a).2 (exists_pathrewriteRewrite_iff.1 ⟨_, h⟩).1
  rcases pathrewriteRewrite_cases ha with
    ⟨hrun, hrw, -⟩ | ⟨pattern, newstring, pre, post, note, hfrom, hto, hl, hrun⟩
  · cases hrun.symm.trans h
    exact ⟨path, CharArray.stringAt_strcpy ha, hrw⟩
  · obtain ⟨b', hs, hb'⟩ := Option.map_eq_some_iff.1 (hrun.symm.trans h)
    cases hb'
    exact ⟨_, stringAt_splice (hl.eq ▸ CharArray.stringAt_strcpy ha) hs, .replaced hfrom hto hl⟩

/-! ## The hooks -/

theorem hook_iff {orig : Str → Hooked} :
    (∃ stderr s, hook getenv pathrw temp func path orig = some (stderr, orig s) ∧
        Rewrites getenv path s) ↔ Short getenv path := by
  have hiff : (∃ r, pathrewriteRewrite getenv temp path pathrw func = some r) ↔ Short getenv path :=
    exists_pathrewriteRewrite_iff
  rw [← hiff, hook]
  constructor
  · rintro ⟨stderr, s, h, -⟩
    obtain ⟨r, hr, -⟩ := Option.bind_eq_some_iff.1 h
    exact ⟨r, hr⟩
  · rintro ⟨⟨b, stderr⟩, hr⟩
    obtain ⟨s, hs, hrw⟩ := rewrites_pathrewriteRewrite hr
    refine ⟨stderr, s, ?_, hrw⟩
    rw [hr, Option.bind_eq_bind, Option.bind_some]
    dsimp only
    rw [hs]
    rfl

/-- The path that an intercepted call passes on is the documented one, and everything fits, just when
the path fits in an array before and after the replacement. -/
theorem intercept_exact_iff (getenv : Environ) (pathrw temp : Chars) (c : Hooked) :
    Exact getenv pathrw temp c ↔ Short getenv c.path := by
  cases c <;> exact hook_iff

namespace Sample

/-- An array before anything is stored in it. -/
def chars : Chars := ⟨List.replicate posixPathMax none, List.length_replicate⟩

/-- A path of 256 characters. -/
def longPath : Str := List.replicate 256 'a'

/-- A long replacement of `/bin`. -/
def longTo : Environ
  | "PATHREWRITE_FROM" => some "/bin".toList
  | "PATHREWRITE_TO" => some (List.replicate 253 'b')
  | _ => none

end Sample

/-- A path that is too long with nothing to replace, and one that gets too long. -/
theorem intercept_overflows :
    (Sample.longPath.length < 4096 ∧
      ¬ Exact (fun _ => none) Sample.chars Sample.chars (.open_ Sample.longPath 0 0)) ∧
    ¬ Exact Sample.longTo Sample.chars Sample.chars (.xstat 1 "/bin/ls".toList 0) := by
  have hlen : Sample.longPath.length = 256 := List.length_replicate
  refine ⟨⟨by rw [hlen]; decide, fun h => ?_⟩, fun h => ?_⟩
  · have hlt : Sample.longPath.length < posixPathMax := (hook_iff.1 h).1
    exact absurd hlt (by rw [hlen]; decide)
  · have hlt := (hook_iff.1 h).2 _ _ rfl rfl ⟨[], "/ls".toList, rfl⟩
    rw [List.length_replicate] at hlt
    exact absurd hlt (by decide)

end YazzyPreload.Pathrewrite

import Mathlib.Logic.Function.Basic
import Mathlib.Tactic.SplitIfs
import YazzyPreload.Libc

/-!
# Parameters in bash

What the scripts use of bash: parameter expansion with its operators, and the splitting of an
expansion that is not quoted into words, each of which is then a pattern for file names.  Which
files there are, and what `[` makes of operands that it does not expect, are parameters.

Last comes `exec`, which reads options before the command it is given.
-/

namespace YazzyPreload

/-- File name expansion and the command `[`. -/
structure Bash where
  glob : Str → List Str
  test : List Str → Bool
  /-- A word of digits and colons is not a pattern. -/
  glob_literal : ∀ w, (∀ c ∈ w, c.isDigit = true ∨ c = ':') → glob w = [w]
  /-- An operator alone is a text that is not empty. -/
  test_z : test ["-z".toList] = true
  test_z_word : ∀ w, w ≠ [] → test ["-z".toList, w] = false

namespace Bash

/-! ## Words -/

/-- The characters of `IFS`. -/
def isIfs (c : Char) : Bool := c = ' ' ∨ c = '\t' ∨ c = '\n'

/-- Word splitting. -/
def words (s : Str) : List Str := (s.splitOnP isIfs).filter (· ≠ [])

/-- The words of an expansion that is not quoted. -/
def expand (bash : Bash) (s : Str) : List Str := (words s).flatMap bash.glob

theorem words_append_space (s t : Str) : words (s ++ ' ' :: t) = words s ++ words t := by
  rw [words, List.splitOnP_append_cons _ _ rfl, List.filter_append]
  rfl

theorem expand_append_space (bash : Bash) (s t : Str) :
    bash.expand (s ++ ' ' :: t) = bash.expand s ++ bash.expand t := by
  rw [expand, words_append_space, List.flatMap_append]
  rfl

theorem expand_of_literal (bash : Bash) {s : Str}
    (h : ∀ w ∈ words s, ∀ c ∈ w, c.isDigit = true ∨ c = ':') : bash.expand s = words s := by
  rw [expand]
  generalize words s = ws at *
  induction ws with
  | nil => rfl
  | cons w ws ih =>
    rw [List.flatMap_cons, bash.glob_literal w (h w List.mem_cons_self),
      ih fun w' hw => h w' (List.mem_cons_of_mem _ hw)]
    rfl

/-- A number is one word. -/
theorem expand_word (bash : Bash) {w : Str} (hne : w ≠ []) (h : ∀ c ∈ w, c.isDigit = true) :
    bash.expand w = [w] := by
  have hifs : ∀ c ∈ w, isIfs c = false := fun c hc => by
    have hspace := isSpace_of_isDigit (h c hc)
    rw [← Bool.not_eq_true] at hspace ⊢
    intro hi
    rcases of_decide_eq_true hi with rfl | rfl | rfl <;> exact hspace rfl
  have hwords : words w = [w] := by
    rw [words, List.splitOnP_eq_singleton hifs]
    simp [hne]
  rw [expand_of_literal, hwords]
  rw [hwords]
  intro v hv c hc
  rw [List.mem_singleton.1 hv] at hc
  exact .inl (h c hc)

/-! ## Parameters -/

/-- `$name`, which is empty for a variable that is not set. -/
def var (env : Environ) (name : String) : Str := (env name).getD []

theorem var_ne {env : Environ} {name : String} {s : Str} (hs : s ≠ []) (h : env name ≠ some s) :
    var env name ≠ s := by
  unfold var
  cases hv : env name with
  | none => exact hs.symm
  | some v => exact fun hvs => h (hv.trans (congrArg some hvs))

/-- `${name:+ }`, the separator of a list that another item follows or precedes. -/
def sep (value : Str) : Str := if value = [] then [] else [' ']

/-- `${value%%:*}`. -/
def beforeColon (value : Str) : Str := value.takeWhile (· ≠ ':')

/-- `${value##*:}`. -/
def afterColon (value : Str) : Str := (value.reverse.takeWhile (· ≠ ':')).reverse

theorem beforeColon_append {a : Str} (ha : ':' ∉ a) (b : Str) : beforeColon (a ++ ':' :: b) = a := by
  rw [beforeColon, List.takeWhile_append_of_pos fun c hc => by
    simpa using fun h : c = ':' => ha (h ▸ hc)]
  simp

theorem afterColon_append (a : Str) {b : Str} (hb : ':' ∉ b) : afterColon (a ++ ':' :: b) = b := by
  rw [afterColon, List.reverse_append, List.reverse_cons, List.append_assoc,
    List.takeWhile_append_of_pos fun c hc => by
      simpa using fun h : c = ':' => hb (h ▸ List.mem_reverse.1 hc)]
  simp

/-- `${value/pattern/string}` for a pattern without special characters. -/
def replaceFirst (pattern string : Str) : Str → Str
  | [] => []
  | c :: value =>
    if pattern.isPrefixOf (c :: value) = true then string ++ (c :: value).drop pattern.length
    else c :: replaceFirst pattern string value

theorem replaceFirst_append {pattern : Str} (hne : pattern ≠ []) (string value : Str) :
    replaceFirst pattern string (pattern ++ value) = string ++ value := by
  obtain ⟨c, pattern, rfl⟩ := List.exists_cons_of_ne_nil hne
  rw [List.cons_append, replaceFirst, if_pos]
  · simp
  · rw [← List.cons_append, List.isPrefixOf_iff_prefix]
    exact List.prefix_append _ _

/-! ## Associative arrays -/

/-- The loop that assigns `array[$from]=$to` for each word of the form `FROM:TO`.  A subscript that
is empty is an error, which ends the loop. -/
def assignPairs (array : Str → Option Str) : List Str → Str → Option Str
  | [] => array
  | w :: ws =>
    if beforeColon w = [] then array
    else assignPairs (Function.update array (beforeColon w) (some (afterColon w))) ws

/-- The words that are assigned before the first one with an empty subscript. -/
def assigned (ws : List Str) : List Str := ws.takeWhile (beforeColon · ≠ [])

/-- The last word that is assigned to the subscript `k` assigns `v`. -/
def LastPair (ws : List Str) (k v : Str) : Prop :=
  ∃ l₁ w l₂, assigned ws = l₁ ++ w :: l₂ ∧ beforeColon w = k ∧ afterColon w = v ∧
    ∀ w' ∈ l₂, beforeColon w' ≠ k

theorem assignPairs_append {ws₁ : List Str} (h : ∀ w ∈ ws₁, beforeColon w ≠ []) (ws₂ : List Str)
    (array : Str → Option Str) :
    assignPairs array (ws₁ ++ ws₂) = assignPairs (assignPairs array ws₁) ws₂ := by
  induction ws₁ generalizing array with
  | nil => rfl
  | cons w ws ih =>
    have hw := h w List.mem_cons_self
    rw [List.cons_append, assignPairs, if_neg hw, assignPairs, if_neg hw]
    exact ih (fun w' hw' => h w' (List.mem_cons_of_mem _ hw')) _

theorem lastPair_cons {w : Str} {ws : List Str} {k v : Str} (hw : beforeColon w ≠ []) :
    LastPair (w :: ws) k v ↔ LastPair ws k v ∨
      (∀ w' ∈ assigned ws, beforeColon w' ≠ k) ∧ beforeColon w = k ∧ afterColon w = v := by
  have hassigned : assigned (w :: ws) = w :: assigned ws :=
    List.takeWhile_cons_of_pos (by simpa using hw)
  unfold LastPair
  rw [hassigned]
  constructor
  · rintro ⟨l₁, w', l₂, hl, hk, hv, hlast⟩
    cases l₁ with
    | nil =>
      obtain ⟨rfl, rfl⟩ := List.cons.inj hl
      exact .inr ⟨hlast, hk, hv⟩
    | cons w₁ l₁ => exact .inl ⟨l₁, w', l₂, (List.cons.inj hl).2, hk, hv, hlast⟩
  · rintro (⟨l₁, w', l₂, hl, hk, hv, hlast⟩ | ⟨hlast, hk, hv⟩)
    · exact ⟨w :: l₁, w', l₂, congrArg (w :: ·) hl, hk, hv, hlast⟩
    · exact ⟨[], w, assigned ws, rfl, hk, hv, hlast⟩

/-- The array holds the last pair of a subscript, or what it held before if there is none. -/
theorem assignPairs_eq_some {ws : List Str} {array : Str → Option Str} {k v : Str} :
    assignPairs array ws k = some v ↔
      LastPair ws k v ∨ (∀ w ∈ assigned ws, beforeColon w ≠ k) ∧ array k = some v := by
  induction ws generalizing array with
  | nil => simp [assignPairs, assigned, LastPair]
  | cons w ws ih =>
    by_cases hw : beforeColon w = []
    · have hassigned : assigned (w :: ws) = [] := List.takeWhile_cons_of_neg (by simpa using hw)
      rw [assignPairs, if_pos hw, LastPair, hassigned]
      simp
    · have hassigned : assigned (w :: ws) = w :: assigned ws :=
        List.takeWhile_cons_of_pos (by simpa using hw)
      rw [assignPairs, if_neg hw, ih, lastPair_cons hw, hassigned]
      by_cases hk : beforeColon w = k
      · subst hk
        simp
      · simp [Function.update_of_ne (Ne.symm hk), hk]

/-- A subscript that has a value keeps one. -/
theorem assignPairs_isSome {ws : List Str} {array : Str → Option Str} {k : Str}
    (h : (array k).isSome = true) : (assignPairs array ws k).isSome = true := by
  induction ws generalizing array with
  | nil => exact h
  | cons w ws ih =>
    rw [assignPairs]
    split_ifs
    · exact h
    · refine ih ?_
      by_cases hk : k = beforeColon w
      · rw [hk, Function.update_self]
        rfl
      · rwa [Function.update_of_ne hk]

/-! ## `exec` -/

/-- The options of `exec`. -/
structure ExecOptions where
  clean : Bool
  login : Bool
  name : Option Str
  deriving DecidableEq

/-- A program that takes the place of the shell. -/
structure Command where
  file : Str
  argv : List Str
  env : Environ

/-- The letters of an option word.  The letter `a` takes the rest of the word, or asks for the next
word. -/
def letters (o : ExecOptions) : Str → Option (ExecOptions × Bool)
  | [] => some (o, false)
  | 'c' :: s => letters { o with clean := true } s
  | 'l' :: s => letters { o with login := true } s
  | ['a'] => some (o, true)
  | 'a' :: s => some ({ o with name := some s }, false)
  | _ => none

/-- The options before a command, and the words of the command; nothing for an option that does not
exist or lacks its name, and for `--help`. -/
def getopt (o : ExecOptions) : List Str → Option (ExecOptions × List Str)
  | [] => some (o, [])
  | w :: ws =>
    if w.head? ≠ some '-' ∨ w = ['-'] then some (o, w :: ws)
    else if w = "--help".toList then none
    else if w = "--".toList then some (o, ws)
    else
      match letters o w.tail with
      | none => none
      | some (o, false) => getopt o ws
      | some (o, true) =>
        match ws with
        | [] => none
        | name :: ws => getopt { o with name := some name } ws

/-- The options of `exec` and the words of its command. -/
def execOptions (args : List Str) : Option (ExecOptions × List Str) :=
  getopt ⟨false, false, none⟩ args

/-- `exec`: the command that is run, or else the status. -/
def exec (env : Environ) (args : List Str) : Except ℕ Command :=
  match execOptions args with
  | none => .error 2
  | some (_, []) => .error 0
  | some (o, file :: words) =>
    let name := o.name.getD file
    .ok ⟨file, (if o.login then '-' :: name else name) :: words,
      if o.clean then fun _ => none else env⟩

/-- A command that does not look like an option is run as it stands. -/
theorem exec_of_head {file : Str} (h : file.head? ≠ some '-') (env : Environ) (words : List Str) :
    exec env (file :: words) = .ok ⟨file, file :: words, env⟩ := by
  rw [exec, execOptions, getopt, if_pos (Or.inl h)]
  rfl

example : execOptions ["-cl".toList, "-a".toList, "-c".toList, "wget".toList, "-q".toList] =
    some (⟨true, true, some "-c".toList⟩, ["wget".toList, "-q".toList]) := by decide

theorem exec_eq_ok {env : Environ} {args : List Str} {cmd : Command} :
    exec env args = .ok cmd ↔ ∃ o file words, execOptions args = some (o, file :: words) ∧
      cmd = ⟨file, (if o.login then '-' :: o.name.getD file else o.name.getD file) :: words,
        if o.clean then fun _ => none else env⟩ := by
  unfold exec
  cases execOptions args with
  | none =>
    constructor
    · rintro ⟨⟩
    · rintro ⟨o, file, words, ⟨⟩, -⟩
  | some r =>
    obtain ⟨o, ws⟩ := r
    cases ws with
    | nil =>
      constructor
      · rintro ⟨⟩
      · rintro ⟨o, file, words, ⟨⟩, -⟩
    | cons file words =>
      constructor
      · rintro ⟨⟩
        exact ⟨o, file, words, rfl, rfl⟩
      · rintro ⟨o, file, words, ⟨⟩, rfl⟩
        rfl

end Bash

end YazzyPreload

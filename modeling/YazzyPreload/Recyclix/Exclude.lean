import YazzyPreload.Recyclix.Unlinkat

/-!
# Exclude patterns

`ExcludeLaw` says that the patterns of an item filter an entry by its name, whatever the order of
the options and whichever way the call names the entry.  The loop keeps the answer of the last
pattern only, on the pathname of the call (`readOptions_excluded`); `excludeLaw_iff` says for which
patterns that makes no difference.
-/

namespace YazzyPreload.Recyclix

open FileSystem

variable {regcomp : Regcomp} {fs : FileSystem} {l : Loc} {n : Name} {os os' : List Str}
  {pathname o r : Str} {lim lim' : Limits}

/-! ## The law -/

/-- The pattern is valid and matches the text. -/
def Regcomp.grep (regcomp : Regcomp) (pattern s : Str) : Bool :=
  (regcomp pattern).any fun regexec => regexec s

/-- The options among the texts between the commas; an empty text is none. -/
def optionTexts (os : List Str) : List Str := os.filter (· ≠ [])

/-- The patterns of the exclude options. -/
def patterns (os : List Str) : List Str := os.filterMap excludePattern

/-- The loop over the options comes to its end. -/
def Accepted (regcomp : Regcomp) (os : List Str) : Prop :=
  ∀ pathname, (readOptions regcomp pathname os .initial).isSome = true

/-- The item excludes the file of the call. -/
def Excluded (regcomp : Regcomp) (pathname : Str) (os : List Str) : Prop :=
  ∃ lim, readOptions regcomp pathname os .initial = some lim ∧ lim.excluded = true

/-- A way to name an entry that is there: absolute, or relative to a directory. -/
structure Denotes (fs : FileSystem) (p : Process) (dirfd : ℤ) (pathname : Str) (l : Loc)
    (n : Name) : Prop where
  names : fs.targetAt p dirfd pathname = .ok (.entry l n)
  lookup : fs.lookupAt p dirfd pathname false = .ok (n :: l)

/-- An item with the options, in any order, excludes an entry if and only if one of its patterns
matches the name of the entry, however the entry is named in the call. -/
def ExcludeLaw (regcomp : Regcomp) (fs : FileSystem) (os : List Str) (l : Loc) (n : Name) : Prop :=
  ∀ os', Accepted regcomp os' → (optionTexts os').Perm (optionTexts os) →
    ∀ p dirfd pathname, Denotes fs p dirfd pathname l n →
      (Excluded regcomp pathname os' ↔ ∃ r ∈ patterns os, regcomp.grep r n.1 = true)

/-! ## The loop -/

/-- One option is accepted, whatever the pathname and the limits so far. -/
def Acceptable (regcomp : Regcomp) (o : Str) : Prop :=
  ∃ opt, recognizeOption o = some opt ∧
    ∀ pathname lim, (Limits.apply regcomp pathname lim opt).isSome = true

theorem isSome_apply {opt : Opt} (h : (lim.apply regcomp pathname opt).isSome = true)
    (pathname' : Str) (lim' : Limits) : (lim'.apply regcomp pathname' opt).isSome = true := by
  cases opt with
  | size szMin szMax =>
    rw [Limits.apply] at h ⊢
    split_ifs at h ⊢
    · cases h
    · rfl
  | exclude pattern =>
    rw [Limits.apply, Option.isSome_map] at h ⊢
    exact h

/-- An empty text between the commas is accepted at the end only. -/
theorem eq_nil_of_readOptions_nil_cons (h : readOptions regcomp pathname ([] :: os) lim = some lim') :
    os = [] ∧ lim' = lim := by
  by_cases hos : os = []
  · subst hos
    exact ⟨rfl, (Option.some.inj h).symm⟩
  · rw [readOptions] at h
    · cases h
    · exact fun _ e => hos e

/-- The pattern of an option that excludes. -/
def Opt.pattern : Opt → Option Str
  | .size _ _ => none
  | .exclude pattern => some pattern

theorem excludePattern_eq {opt : Opt} (h : recognizeOption o = some opt) :
    excludePattern o = opt.pattern := by
  rw [recognizeOption] at h
  cases hsz : szlimit o with
  | some pm =>
    rw [hsz] at h
    cases h
    rw [Opt.pattern, excludePattern]
    rintro s rfl
    cases hsz
  | none =>
    rw [hsz] at h
    obtain ⟨r, hr, rfl⟩ := Option.map_eq_some_iff.1 h
    exact hr

theorem apply_excluded {opt : Opt} (h : lim.apply regcomp pathname opt = some lim') :
    lim'.excluded = opt.pattern.elim lim.excluded fun r => regcomp.grep r pathname := by
  cases opt with
  | size szMin szMax =>
    rw [Limits.apply] at h
    split_ifs at h
    cases h
    rfl
  | exclude pattern =>
    obtain ⟨m, hm, rfl⟩ := Option.map_eq_some_iff.1 h
    rw [Opt.pattern, Option.elim_some, Regcomp.grep, hm]
    rfl

/-- The answer of the last pattern stays, on the pathname of the call. -/
theorem readOptions_excluded (h : readOptions regcomp pathname os lim = some lim') :
    lim'.excluded = (patterns os).getLast?.elim lim.excluded fun r => regcomp.grep r pathname := by
  induction os generalizing lim with
  | nil =>
    cases h
    rfl
  | cons o os ih =>
    by_cases ho : o = []
    · subst ho
      obtain ⟨rfl, rfl⟩ := eq_nil_of_readOptions_nil_cons h
      rfl
    · rw [readOptions_cons fun e => ho e.1] at h
      obtain ⟨opt, hopt, h⟩ := Option.bind_eq_some_iff.1 h
      obtain ⟨lim₁, hlim, h⟩ := Option.bind_eq_some_iff.1 h
      rw [ih h, apply_excluded hlim, patterns, patterns, List.filterMap_cons,
        excludePattern_eq hopt]
      cases opt with
      | size szMin szMax => rfl
      | exclude r =>
        rw [Opt.pattern, List.getLast?_cons]
        cases (os.filterMap excludePattern).getLast? <;> rfl

theorem excluded_iff (h : Accepted regcomp os) :
    Excluded regcomp pathname os ↔ ∃ r, (patterns os).getLast? = some r ∧
      regcomp.grep r pathname = true := by
  obtain ⟨lim, hlim⟩ := Option.isSome_iff_exists.1 (h pathname)
  have hex := readOptions_excluded hlim
  rw [Excluded, hlim]
  simp only [Option.some_inj, exists_eq_left', hex]
  cases (patterns os).getLast? <;> simp [Limits.initial]

/-! ## Permutations -/

theorem patterns_optionTexts (os : List Str) : patterns (optionTexts os) = patterns os := by
  rw [patterns, optionTexts, patterns, List.filterMap_filter]
  congr 1
  funext o
  cases o <;> rfl

theorem mem_patterns_of_perm (h : (optionTexts os').Perm (optionTexts os)) :
    r ∈ patterns os' ↔ r ∈ patterns os := by
  rw [← patterns_optionTexts os', ← patterns_optionTexts os]
  exact (h.filterMap excludePattern).mem_iff

/-- The options of an item that is accepted are accepted one by one. -/
theorem acceptable_of_readOptions (h : readOptions regcomp pathname os lim = some lim')
    (ho : o ∈ os) (hne : o ≠ []) : Acceptable regcomp o := by
  induction os generalizing lim with
  | nil => cases ho
  | cons o' os ih =>
    by_cases ho' : o' = []
    · subst ho'
      obtain ⟨rfl, -⟩ := eq_nil_of_readOptions_nil_cons h
      exact absurd (List.mem_singleton.1 ho) hne
    · rw [readOptions_cons fun e => ho' e.1] at h
      obtain ⟨opt, hopt, h⟩ := Option.bind_eq_some_iff.1 h
      obtain ⟨lim₁, hlim, h⟩ := Option.bind_eq_some_iff.1 h
      rcases List.mem_cons.1 ho with rfl | ho
      · exact ⟨opt, hopt, isSome_apply (Option.isSome_of_eq_some hlim)⟩
      · exact ih h ho

theorem isSome_readOptions (hne : ∀ o ∈ os, o ≠ []) (h : ∀ o ∈ os, Acceptable regcomp o)
    (pathname : Str) (lim : Limits) : (readOptions regcomp pathname os lim).isSome = true := by
  induction os generalizing lim with
  | nil => rfl
  | cons o os ih =>
    rw [List.forall_mem_cons] at hne h
    obtain ⟨opt, hopt, hall⟩ := h.1
    obtain ⟨lim₁, hlim⟩ := Option.isSome_iff_exists.1 (hall pathname lim)
    rw [readOptions_cons fun e => hne.1 e.1, hopt, Option.bind_some, hlim, Option.bind_some]
    exact ih hne.2 h.2 lim₁

/-- Any pattern can come last. -/
theorem exists_perm_getLast (h : Accepted regcomp os) (hr : r ∈ patterns os) :
    ∃ os', Accepted regcomp os' ∧ (optionTexts os').Perm (optionTexts os) ∧
      (patterns os').getLast? = some r := by
  obtain ⟨o, ho, hor⟩ := List.mem_filterMap.1 hr
  have hne : o ≠ [] := by
    rintro rfl
    cases hor
  have hmem : o ∈ optionTexts os := List.mem_filter.2 ⟨ho, by simpa using hne⟩
  have hperm : ((optionTexts os).erase o ++ [o]).Perm (optionTexts os) :=
    (List.perm_append_singleton o _).trans (List.perm_cons_erase hmem).symm
  have htexts : ∀ x ∈ (optionTexts os).erase o ++ [o], x ∈ os ∧ x ≠ [] := fun x hx => by
    simpa [optionTexts] using hperm.mem_iff.1 hx
  have hself : optionTexts ((optionTexts os).erase o ++ [o]) = (optionTexts os).erase o ++ [o] :=
    List.filter_eq_self.2 fun x hx => by simpa using (htexts x hx).2
  obtain ⟨lim, hlim⟩ := Option.isSome_iff_exists.1 (h [])
  refine ⟨_, fun pathname => isSome_readOptions (fun x hx => (htexts x hx).2) (fun x hx =>
    acceptable_of_readOptions hlim (htexts x hx).1 (htexts x hx).2) pathname _, by rwa [hself], ?_⟩
  rw [patterns, List.filterMap_append, List.filterMap_cons, hor]
  simp

/-! ## When the law holds -/

/-- The name of an entry, in its directory. -/
theorem denotes_name (hn : fs.dirent (n :: l) ≠ none) :
    Denotes fs ⟨l, fun _ => none, 0, 0, 0⟩ atFdcwd n.1 l n := by
  have ht : target fs.kindAt l n.1 = .ok (.entry l n) :=
    target_eq_entry_iff.2 ⟨[], comps_name n, rfl, isDir_of_child hn⟩
  have hb : base ⟨l, fun _ => none, 0, 0, 0⟩ atFdcwd n.1 = .ok l := by
    rw [base, isAbs_name]
    rfl
  constructor
  · rw [targetAt, if_neg n.2.1, hb]
    exact ht
  · rw [lookupAt, if_neg n.2.1, hb]
    show lookup fs.kindAt l n.1 false = .ok (n :: l)
    rw [lookup, if_neg n.2.1, slashed_name, if_neg (by decide), ht]
    exact if_neg (mt kindAt_eq_none_iff.1 hn)

/-- An item filters an entry by its name if and only if each of its patterns gives the same answer
on the name and on every pathname of the entry, and all of them give the same answer on the
name. -/
theorem excludeLaw_iff (h : Accepted regcomp os) (hn : fs.dirent (n :: l) ≠ none) :
    ExcludeLaw regcomp fs os l n ↔
      (∀ r ∈ patterns os, ∀ p dirfd pathname, Denotes fs p dirfd pathname l n →
        regcomp.grep r pathname = regcomp.grep r n.1) ∧
      ∀ r ∈ patterns os, ∀ r' ∈ patterns os, regcomp.grep r n.1 = regcomp.grep r' n.1 := by
  constructor
  · intro hlaw
    have hlast : ∀ r ∈ patterns os, ∀ p dirfd pathname, Denotes fs p dirfd pathname l n →
        (regcomp.grep r pathname = true ↔ ∃ r ∈ patterns os, regcomp.grep r n.1 = true) := by
      intro r hr p dirfd pathname hd
      obtain ⟨os', hacc, hperm, hget⟩ := exists_perm_getLast h hr
      rw [← hlaw os' hacc hperm p dirfd pathname hd, excluded_iff hacc, hget]
      simp
    have hname := fun r hr => hlast r hr _ _ _ (denotes_name hn)
    exact ⟨fun r hr p dirfd pathname hd =>
        Bool.eq_iff_iff.2 ((hlast r hr p dirfd pathname hd).trans (hname r hr).symm),
      fun r hr r' hr' => Bool.eq_iff_iff.2 ((hname r hr).trans (hname r' hr').symm)⟩
  · rintro ⟨hspell, hagree⟩ os' hacc hperm p dirfd pathname hd
    rw [excluded_iff hacc]
    constructor
    · rintro ⟨r, hget, hr⟩
      have hmem := (mem_patterns_of_perm hperm).1 (List.mem_of_getLast? hget)
      exact ⟨r, hmem, hspell r hmem p dirfd pathname hd ▸ hr⟩
    · rintro ⟨r, hr, hm⟩
      cases hget : (patterns os').getLast? with
      | none =>
        have hnil := List.getLast?_eq_none_iff.1 hget
        have := (mem_patterns_of_perm hperm).2 hr
        rw [hnil] at this
        cases this
      | some r' =>
        have hr' := (mem_patterns_of_perm hperm).1 (List.mem_of_getLast? hget)
        refine ⟨r', rfl, ?_⟩
        rw [hspell r' hr' p dirfd pathname hd, hagree r' hr' r hr, hm]

namespace Sample

/-- Patterns without special characters. -/
def literal : Regcomp := fun r => some fun s => s.tails.any r.isPrefixOf

theorem denotes_file : Denotes fileTree process atFdcwd "/a/f".toList [a] f :=
  ⟨by decide +kernel, by decide +kernel⟩

theorem accepted_literal (r : Str) : Accepted literal ['!' :: r] := fun _ => rfl

end Sample

theorem excludeLaw_iff_fileTree :
    ExcludeLaw Sample.literal Sample.fileTree ["!x".toList] [Sample.a] Sample.f ↔
      (∀ r ∈ patterns ["!x".toList], ∀ p dirfd pathname,
        Denotes Sample.fileTree p dirfd pathname [Sample.a] Sample.f →
          Sample.literal.grep r pathname = Sample.literal.grep r Sample.f.1) ∧
      ∀ r ∈ patterns ["!x".toList], ∀ r' ∈ patterns ["!x".toList],
        Sample.literal.grep r Sample.f.1 = Sample.literal.grep r' Sample.f.1 :=
  excludeLaw_iff (Sample.accepted_literal _) (by decide +kernel)

/-- The pattern that matches comes before one that does not, or the name of a directory matches. -/
theorem excludeLaw_fails :
    ¬ExcludeLaw Sample.literal Sample.fileTree ["!f".toList, "!x".toList] [Sample.a] Sample.f ∧
      ¬ExcludeLaw Sample.literal Sample.fileTree ["!a".toList] [Sample.a] Sample.f := by
  constructor
  · intro h
    have := (h _ (fun _ => rfl) (List.Perm.refl _) _ _ _ Sample.denotes_file).2
      ⟨"f".toList, by decide +kernel, by decide +kernel⟩
    exact absurd this (by rintro ⟨lim, hlim, hex⟩; cases hlim; exact absurd hex (by decide +kernel))
  · intro h
    have := (h _ (Sample.accepted_literal _) (List.Perm.refl _) _ _ _ Sample.denotes_file).1
      ⟨_, rfl, by decide +kernel⟩
    exact absurd this (by decide +kernel)

end YazzyPreload.Recyclix

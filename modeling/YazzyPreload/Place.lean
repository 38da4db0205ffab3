import Mathlib.Logic.Function.Iterate
import YazzyPreload.Graft

/-!
# Absolute pathnames of locations

`pathOf` gives the pathname the kernel reports for a location.  This file has what the programs do
with such a text: they look it up again, cut it with `dirname`, and take the rest of it after the
pathname of a directory above (`spells_drop_pathOf`).
-/

namespace YazzyPreload

variable {fs : FileSystem} {p : Process} {l m r : Loc} {n : Name} {s : Str}

/-! ## Texts of locations -/

theorem slashed_append_name (a : Str) (n : Name) : slashed (a ++ n.1) = false := by
  have hl : n.1.getLast n.2.1 ≠ '/' := fun e => n.2.2.1 (by rw [← e]; exact List.getLast_mem n.2.1)
  rw [slashed, List.getLast?_append_of_ne_nil _ n.2.1, List.getLast?_eq_some_getLast n.2.1]
  simpa using hl

theorem slashed_append_slash_name (a : Str) (n : Name) : slashed (a ++ '/' :: n.1) = false := by
  have := slashed_append_name (a ++ ['/']) n
  rwa [List.append_assoc] at this

theorem absPath_append (r m : Loc) : absPath (r ++ m) = absPath m ++ absPath r := by
  induction r with
  | nil => rw [List.nil_append, absPath, List.append_nil]
  | cons n r ih => rw [List.cons_append, absPath, ih, absPath, List.append_assoc]

theorem segments_absPath (l : Loc) : segments (absPath l) = l.reverse.map Subtype.val := by
  induction l with
  | nil => rfl
  | cons n l ih => rw [absPath, segments_append_name, ih, List.reverse_cons, List.map_append]; rfl

theorem absPath_eq_nil_iff : absPath l = [] ↔ l = [] := by
  cases l with
  | nil => exact ⟨fun _ => rfl, fun _ => rfl⟩
  | cons n l => simp [absPath]

theorem isAbs_absPath (hl : l ≠ []) : isAbs (absPath l) = true := by
  induction l with
  | nil => exact absurd rfl hl
  | cons n l ih =>
    by_cases h : l = []
    · subst h
      rfl
    · rw [absPath, isAbs_append (absPath_eq_nil_iff.not.2 h)]
      exact ih h

theorem spells_pathOf (l : Loc) : Spells true [] l (pathOf l) := by
  rw [pathOf]
  split_ifs with h
  · subst h
    exact ⟨rfl, rfl, fun _ => rfl⟩
  · refine ⟨segments_absPath l, isAbs_absPath h, fun hs => ?_⟩
    cases l with
    | nil => exact absurd rfl h
    | cons n l =>
      rw [absPath, slashed_append_slash_name] at hs
      cases hs

/-- The text the programs put together for the entry `n` of the directory at `l`. -/
theorem spells_pathOf_name (l : Loc) (n : Name) :
    Spells true [] (n :: l) (pathOf l ++ '/' :: n.1) := by
  have hl := spells_pathOf l
  refine ⟨?_, ?_, fun h => ?_⟩
  · rw [segments_append_name, hl.segments, List.reverse_cons, List.map_append]
    rfl
  · rw [isAbs_append hl.isAbs_ne_nil, hl.isAbs]
  · rw [slashed_append_slash_name] at h
    cases h

/-- `dirname` goes to the directory above, and stays at the root. -/
theorem Spells.parent_tail (h : Spells true [] l s) : Spells true [] l.tail (dirname s) := by
  cases l with
  | cons n l => exact h.parent (Or.inl rfl)
  | nil =>
    have hs := segments_eq_nil h.segments
    have hd : dirname s = ['/', '/'] ∨ dirname s = ['/'] := by
      simp only [dirname, hs, if_true, h.isAbs_ne_nil, if_false]
      split_ifs <;> simp
    rcases hd with hd | hd <;> rw [hd] <;> exact ⟨rfl, rfl, fun _ => rfl⟩

/-! ## Cutting them -/

theorem slashed_pathOf (hl : l ≠ []) : slashed (pathOf l) = false := by
  by_contra h
  exact hl ((spells_pathOf l).slashed (by simpa using h))

theorem pathOf_cons_ne (n : Name) (l : Loc) : pathOf (n :: l) ≠ ['/'] := by
  intro h
  have := (spells_pathOf (n :: l)).segments
  rw [h] at this
  simp [segments_slash_cons] at this

/-- The pathname of the directory above, as the loop that looks for the mountpoint computes it. -/
theorem dirname_pathOf (n : Name) (l : Loc) : dirname (pathOf (n :: l)) = pathOf l := by
  rw [pathOf, if_neg (List.cons_ne_nil n l), absPath]
  by_cases h : l = []
  · subst h
    exact dirname_slash_name n.2.1 n.2.2.1
  · have hs := slashed_pathOf h
    rw [pathOf, if_neg h] at hs ⊢
    exact dirname_append n.2.1 n.2.2.1 (absPath_eq_nil_iff.not.2 h) hs

theorem dirname_pathOf_name (l : Loc) (n : Name) : dirname (pathOf l ++ '/' :: n.1) =
    if l = [] then ['/', '/'] else pathOf l := by
  by_cases h : l = []
  · subst h
    exact dirname_slash_slash_name n.2.1 n.2.2.1
  · rw [if_neg h, pathOf, if_neg h]
    have hs := slashed_pathOf h
    rw [pathOf, if_neg h] at hs
    exact dirname_append n.2.1 n.2.2.1 (absPath_eq_nil_iff.not.2 h) hs

theorem pathOf_ne_slash_slash (l : Loc) : pathOf l ≠ ['/', '/'] := by
  intro h
  cases l with
  | nil => exact absurd h (by decide)
  | cons n l =>
    have := (spells_pathOf (n :: l)).segments
    rw [h] at this
    simp [segments_slash_cons] at this

theorem pathOf_of_ne_nil (hl : l ≠ []) : pathOf l = absPath l := if_neg hl

/-- What follows the pathname of `m` in the pathname of an entry below `m`. -/
theorem drop_pathOf (r m : Loc) (n : Name) :
    ∃ u, (pathOf (r ++ m) ++ '/' :: n.1).drop (pathOf m).length = u ++ n.1 ∧
      segments (u ++ n.1) = (n :: r).reverse.map Subtype.val := by
  by_cases hm : m = []
  · subst hm
    have hs := (spells_pathOf_name r n).segments
    obtain ⟨u, hu⟩ := isAbs_iff.1 (spells_pathOf r).isAbs
    rw [hu, List.cons_append, segments_slash_cons] at hs
    refine ⟨u ++ ['/'], ?_, ?_⟩
    · rw [List.append_nil, hu, List.append_assoc]
      rfl
    · rw [List.append_assoc]
      exact hs
  · have hrm : r ++ m ≠ [] := by simp [hm]
    refine ⟨absPath r ++ ['/'], ?_, ?_⟩
    · rw [pathOf_of_ne_nil hrm, pathOf_of_ne_nil hm, absPath_append, List.append_assoc,
        List.drop_left, List.append_assoc]
      rfl
    · rw [List.append_assoc]
      exact segments_absPath (n :: r)

/-- A directory, a slash, and what follows the pathname of `m`. -/
theorem spells_append_drop {dir : Str} (hdir : dir ≠ []) (r m : Loc) (n : Name) :
    Spells (isAbs dir) (segments dir) (n :: r)
      (dir ++ '/' :: (pathOf (r ++ m) ++ '/' :: n.1).drop (pathOf m).length) := by
  obtain ⟨u, hu, hs⟩ := drop_pathOf r m n
  refine ⟨?_, isAbs_append hdir _, fun h => ?_⟩
  · rw [segments_append, hu, hs]
  · have := slashed_append_name (dir ++ '/' :: u) n
    rw [List.append_assoc, List.cons_append, ← hu, h] at this
    cases this

/-! ## Looking them up -/

namespace FileSystem

theorem leads_root (fs : FileSystem) (p : Process) : fs.Leads p true [] [] := ⟨rfl, isDir_root⟩

theorem descend_root (h : fs.IsDir l) : descend fs.kindAt [] l = .ok l := by
  have := descend_of_dirs (v := fs.kindAt) (b := []) (r := l) isDir_root fun s _ hs => by
    rw [List.append_nil]
    by_cases e : s = l
    · rw [e]
      exact h
    · exact isDir_of_suffix h.dirent_ne_none hs e
  rwa [List.append_nil] at this

theorem lookupAt_of_spells (hs : Spells true [] l s) (h : fs.IsDir l) :
    fs.lookupAt p atFdcwd s true = .ok l := by
  have hw := (descend_eq_ok.1 (descend_root h))
  rw [lookupAt_follow hs.isAbs_ne_nil, hs.isAbs, lookupComps, hs.comps, List.map_nil, List.nil_append]
  split_ifs
  · rw [walk_concat]
    exact (congrArg (Except.bind · _) hw.1).trans (step_here hw.2)
  · rw [List.append_nil]
    exact hw.1

theorem dirPath_of_spells (hs : Spells true [] l s) (h : fs.IsDir l) : fs.DirPath p s :=
  ⟨l, lookupAt_of_spells hs h, h⟩

/-- Every pathname `dirname` makes out of that of a directory leads to a directory. -/
theorem dirPath_dirname (hs : Spells true [] l s) (h : fs.IsDir l) (k : ℕ) :
    fs.DirPath p (dirname^[k] s) := by
  induction k generalizing l s with
  | zero => exact dirPath_of_spells hs h
  | succ k ih => exact ih hs.parent_tail h.tail

end FileSystem

end YazzyPreload

import YazzyPreload.Recyclix.Recycle

/-!
# Removing a directory

A directory is cloned into the recycler first and then removed for real.  The clone comes between
the two only when the path in the recycler leads through the directory itself (`Overlaps`), as it
does when the recycler is removed: `unlinkat_removedir_iff` says that this is the only way in which
`unlinkat` returns something else than the real one.
-/

namespace YazzyPreload.Recyclix

open FileSystem Prog

variable {fs fs' : FileSystem} {p : Process} {l : Loc} {n : Name} {fuel : ℕ} {st1 st2 : Stat}
  {dirfd : ℤ} {pathname : Str} {env : Env} {b : Bin}

/-- The directory `n :: l` is reached on the way from the recycler's directory along the names that
lead to the entry from its mountpoint, before they end. -/
def Overlaps (fs : FileSystem) (p : Process) (dir : Str) (dev rino : ℕ) (l : Loc) (n : Name) :
    Prop :=
  ∃ m rel b r₁ r₂, climb fs dev rino (n :: l) = some m ∧ n :: l = rel ++ m ∧
    fs.Leads p (isAbs dir) (segments dir) b ∧ rel = r₂ ++ r₁ ∧ r₂ ≠ [] ∧
    descend fs.kindAt b r₁ = .ok (n :: l)

theorem removeDir_ok_iff (ht : fs.targetAt p dirfd pathname = .ok (.entry l n)) :
    (fs.removeDir p dirfd pathname).1 = .ok () ↔
      fs.IsDir (n :: l) ∧ (∀ d, fs.dirent (n :: l) = some d → d.mounted = false) ∧
        fs.childless (n :: l) = true := by
  rw [removeDir, ht]
  cases hd : fs.dirent (n :: l) with
  | none =>
    simp only [hd]
    exact ⟨fun h => (by cases h), fun h => absurd hd h.1.dirent_ne_none⟩
  | some d =>
    simp only [hd, isDir_iff_kind hd, Option.some_inj, forall_eq']
    by_cases hk : (fs.inode d.obj).kind = .dir
    · by_cases hm : d.mounted = true
      · simp [hk, hm]
      · cases hc : fs.childless (n :: l) <;> simp [hk, hm]
    · simp [hk]

theorem unlinkat_removedir (fs : FileSystem) (p : Process) (dirfd : ℤ) (pathname : Str) :
    fs.unlinkat p dirfd pathname atRemovedir = fs.removeDir p dirfd pathname := by
  rw [FileSystem.unlinkat, if_neg (by decide), if_pos (by decide)]

/-- What cloning a directory means for removing it. -/
theorem removeDir_ok_of_cloned {b q r₁ r₂ : Loc}
    (ht : fs.targetAt p dirfd pathname = .ok (.entry l n)) (hd : fs.IsDir (n :: l))
    (hq : descend fs.kindAt b r₁ = .ok q) (hv : ∀ s n, r₂ = s ++ [n] → Vacant fs q n)
    (hg : fs.Grafted fs' q r₂) :
    (fs'.removeDir p dirfd pathname).1 = .ok () ↔
      (fs.removeDir p dirfd pathname).1 = .ok () ∧ ¬ (q = n :: l ∧ r₂ ≠ []) := by
  have hb : ∀ s n, r₂ = s ++ [n] → fs.Blocked q n := fun s n e => (hv s n e).blocked
  have hk := hg.keeps hb (descend_eq_ok.1 hq).2
  have hd' : fs'.IsDir (n :: l) := hk.dir hd
  rw [removeDir_ok_iff ht, removeDir_ok_iff (targetAt_keeps hk ht), hg.dirent_of_isDir hb hd,
    hg.childless_iff hb hd]
  tauto

theorem leads_unique {abs : Bool} {xs : List Str} {b b' : Loc} (h : fs.Leads p abs xs b)
    (h' : fs.Leads p abs xs b') : b = b' := by
  have := h.walk.symm.trans h'.walk
  cases this
  rfl

/-- The place that the pathname in the recycler goes on from is the recycler's directory, when it is
one. -/
theorem base_of_leads {dir : Str} {b b' s₀ : Loc} {xs : List Str} (hb : fs.Leads p (isAbs dir) xs b)
    (hseg : segments dir = xs ++ s₀.reverse.map Subtype.val)
    (hs₀ : s₀ = [] ∨ ∃ n, s₀ = [n] ∧ fs.Blocked b n ∧ fs.dirent (n :: b) ≠ none)
    (hb' : fs.Leads p (isAbs dir) (segments dir) b') : s₀ = [] ∧ xs = segments dir ∧ b = b' := by
  obtain rfl : s₀ = [] := by
    refine hs₀.resolve_right ?_
    rintro ⟨c, rfl, hbl, -⟩
    have hw := hb'.walk
    rw [hseg, List.map_append, walk_comps hb] at hw
    simp only [List.reverse_singleton, List.map_singleton, Comp.ofStr_name, walk_singleton] at hw
    exact hbl b' (descend_single_eq_ok.2 ⟨hw, hb'.isDir⟩)
  obtain rfl : xs = segments dir := by simpa using hseg.symm
  exact ⟨rfl, rfl, leads_unique hb hb'⟩

/-- Where the clone of an empty directory goes when it goes through the directory. -/
theorem overlaps_iff {dir : Str} {dev rino : ℕ} {m b q r₁ r₂ s₀ rel : Loc} {xs : List Str}
    (hc : fs.childless (n :: l) = true) (hm : climb fs dev rino (n :: l) = some m)
    (hrel : n :: l = rel ++ m) (hb : fs.Leads p (isAbs dir) xs b)
    (hseg : segments dir = xs ++ s₀.reverse.map Subtype.val)
    (hs₀ : s₀ = [] ∨ ∃ n, s₀ = [n] ∧ fs.Blocked b n ∧ fs.dirent (n :: b) ≠ none)
    (hr : rel ++ s₀ = r₂ ++ r₁) (hq : descend fs.kindAt b r₁ = .ok q)
    (hv : ∀ s n, r₂ = s ++ [n] → Vacant fs q n) :
    Overlaps fs p dir dev rino l n ↔ q = n :: l ∧ r₂ ≠ [] := by
  rw [childless_iff] at hc
  constructor
  · rintro ⟨m', rel', b', r₁', r₂', hm', hrel', hb', hr', hne, hq'⟩
    rw [hm] at hm'
    cases hm'
    obtain rfl : rel = rel' := List.append_cancel_right (hrel.symm.trans hrel')
    obtain ⟨rfl, rfl, rfl⟩ := base_of_leads hb hseg hs₀ hb'
    rw [List.append_nil, hr'] at hr
    have hblock : ∀ s c, r₂' = s ++ [c] → fs.Blocked (n :: l) c := fun _ c _ =>
      blocked_of_none (descend_eq_ok.1 hq').2 (hc c)
    obtain rfl : r₁' = r₁ := blocked_unique hr hq' hq hblock fun s c e => (hv s c e).blocked
    obtain rfl : r₂' = r₂ := List.append_cancel_right hr
    rw [hq] at hq'
    cases hq'
    exact ⟨rfl, hne⟩
  · rintro ⟨rfl, hne⟩
    rcases hs₀ with rfl | ⟨c, rfl, hbl, hc'⟩
    · obtain rfl : xs = segments dir := by simpa using hseg.symm
      rw [List.append_nil] at hr
      exact ⟨m, rel, b, r₁, r₂, hm, hrel, hb, hr, hne, hq⟩
    · exfalso
      rcases List.eq_nil_or_concat' r₁ with rfl | ⟨t, c', rfl⟩
      · rw [descend_nil hb.isDir] at hq
        cases hq
        exact hc' (hc c)
      · rw [← List.append_assoc] at hr
        obtain ⟨-, e⟩ := List.append_inj' hr rfl
        cases e
        obtain ⟨w, hw, -⟩ := descend_ok_of_append hq
        exact hbl w hw

end YazzyPreload.Recyclix

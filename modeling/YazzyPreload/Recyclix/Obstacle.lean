import YazzyPreload.Place
import YazzyPreload.Recyclix.Clone

/-!
# What is in the way of a clone

The names of the cloned path lead to directories up to some place, the first obstacle.
`recyclix_clonepath_recursive` removes an obstacle with `unlink`, but not at every distance from the
end of the path: `Passable` says which obstacles it gets past, and `clone_completes_iff` that this
decides whether it returns 0.
-/

namespace YazzyPreload.Recyclix

open FileSystem Prog

variable {fs fs' : FileSystem} {p : Process} {b q r r' t : Loc} {c n : Name}

/-- The clone gets past what is at the name `c` of the directory `q`, where the names `t` are to
follow: nothing, or something that nothing is mounted on and that is
* a file or a link to a file, for the last name;
* one of these or a dangling link, for the name before the last;
* a dangling link, for the names before that. -/
def Passable (fs : FileSystem) (q : Loc) (c : Name) (t : Loc) : Prop :=
  match fs.dirent (c :: q) with
  | none => True
  | some d => d.mounted = false ∧
    match t with
    | [] => ∃ st, (step fs.kindAt maxSymlinks q (.name c)).bind fs.statLoc = .ok st
    | [_] => descend fs.kindAt q [c] = .error .ENOENT ∨ descend fs.kindAt q [c] = .error .ENOTDIR
    | _ => descend fs.kindAt q [c] = .error .ENOENT

/-- The first name that does not lead to a directory can be passed. -/
def Unobstructed (fs : FileSystem) (b r : Loc) : Prop :=
  ∀ t c r₁ q, r = t ++ c :: r₁ → descend fs.kindAt b r₁ = .ok q → fs.Blocked q c → Passable fs q c t

theorem usable_iff_passable (hb : fs.Blocked q c) : Usable fs q c ↔ Passable fs q c [] := by
  rw [Usable, Passable]
  cases hd : fs.dirent (c :: q) with
  | none => rfl
  | some d =>
    dsimp only
    cases hst : (step fs.kindAt maxSymlinks q (.name c)).bind fs.statLoc with
    | error e => simp
    | ok st =>
      obtain ⟨m, hm, hstm⟩ : ∃ m, step fs.kindAt maxSymlinks q (.name c) = .ok m ∧
          fs.statLoc m = .ok st := by
        cases hm : step fs.kindAt maxSymlinks q (.name c) with
        | error e => rw [hm] at hst; cases hst
        | ok m => exact ⟨m, rfl, by rw [hm] at hst; exact hst⟩
      have hnot : ¬ st.isDir = true := fun h =>
        hb m (descend_single_eq_ok.2 ⟨hm, (isDir_of_statLoc hstm).2 h⟩)
      simp [hnot]

/-- Where a way ends, the names after it do not matter. -/
theorem descend_eq_error {e : Errno} (hq : descend fs.kindAt b r = .ok q)
    (he : descend fs.kindAt q [c] = .error e) (t : Loc) :
    descend fs.kindAt b (t ++ c :: r) = .error e := by
  rw [descend_append, descend_cons, hq, Except.bind, he]
  rfl

/-- The obstacle on a path that does not lead to a directory. -/
theorem exists_obstacle (hb : fs.IsDir b) (h : ∀ q, descend fs.kindAt b r ≠ .ok q) :
    ∃ t c r₁ q, r = t ++ c :: r₁ ∧ descend fs.kindAt b r₁ = .ok q ∧ fs.Blocked q c := by
  induction r with
  | nil => exact absurd (descend_nil hb) (h b)
  | cons n r ih =>
    cases hr : descend fs.kindAt b r with
    | ok q =>
      refine ⟨[], n, r, q, rfl, hr, fun m hm => h m ?_⟩
      rw [descend_cons, hr]
      exact hm
    | error e =>
      obtain ⟨t, c, r₁, q, rfl, hq, hc⟩ := ih fun q hq => by rw [hr] at hq; cases hq
      exact ⟨n :: t, c, r₁, q, rfl, hq, hc⟩

/-- There is only one obstacle. -/
theorem obstacle_unique {t t' r₁ r₁' q' : Loc} {c' : Name} (hr : t ++ c :: r₁ = t' ++ c' :: r₁')
    (hq : descend fs.kindAt b r₁ = .ok q) (hq' : descend fs.kindAt b r₁' = .ok q')
    (hc : fs.Blocked q c) (hc' : fs.Blocked q' c') : t = t' ∧ c = c' ∧ r₁ = r₁' ∧ q = q' := by
  have hr' : t ++ [c] ++ r₁ = t' ++ [c'] ++ r₁' := by simpa using hr
  obtain rfl : r₁ = r₁' := by
    refine blocked_unique hr' hq hq' (fun s n e => ?_) fun s n e => ?_
    · obtain ⟨-, e⟩ := List.append_inj' e rfl
      cases e
      exact hc
    · obtain ⟨-, e⟩ := List.append_inj' e rfl
      cases e
      exact hc'
  rw [hq] at hq'
  cases hq'
  obtain ⟨rfl, e⟩ := List.append_inj' (List.append_cancel_right hr') rfl
  cases e
  exact ⟨rfl, rfl, rfl, rfl⟩

theorem unobstructed_iff {r₁ : Loc} (hq : descend fs.kindAt b r₁ = .ok q)
    (hc : fs.Blocked q c) : Unobstructed fs b (t ++ c :: r₁) ↔ Passable fs q c t := by
  refine ⟨fun h => h t c r₁ q rfl hq hc, fun h t' c' r₁' q' hr hq' hc' => ?_⟩
  obtain ⟨rfl, rfl, rfl, rfl⟩ := obstacle_unique hr hq hq' hc hc'
  exact h

/-- Beyond the obstacle only a dangling link leaves a chance. -/
theorem passable_cons {n' : Name} (hq : fs.IsDir q) {e : Errno}
    (he : descend fs.kindAt q [c] = .error e) :
    Passable fs q c (n :: n' :: t) ↔ e = .ENOENT ∧ Passable fs q c (n' :: t) := by
  cases hd : fs.dirent (c :: q) with
  | none =>
    rw [descend_name_none hq (kindAt_eq_none_iff.2 hd)] at he
    cases he
    simp [Passable, hd]
  | some d =>
    simp only [Passable, hd, he]
    cases t with
    | nil =>
      simp only [Except.error.injEq]
      tauto
    | cons n'' t =>
      simp only [Except.error.injEq]
      tauto

theorem clonable_obstacle_iff {r₁ : Loc} (hb : fs.IsDir b) (hq : descend fs.kindAt b r₁ = .ok q)
    (hc : fs.Blocked q c) : Clonable fs b (t ++ c :: r₁) ↔ Passable fs q c t := by
  obtain ⟨e, he⟩ : ∃ e, descend fs.kindAt q [c] = .error e := by
    cases h : descend fs.kindAt q [c] with
    | error e => exact ⟨e, rfl⟩
    | ok m => exact absurd h (hc m)
  have hqdir : fs.IsDir q := (descend_eq_ok.1 hq).2
  induction t with
  | nil => exact (clonable_cons_of_ok hb hq).trans (usable_iff_passable hc)
  | cons n t ih =>
    have hdown := descend_eq_error hq he t
    cases t with
    | nil =>
      rw [List.nil_append] at hdown
      rw [List.cons_append, List.nil_append, Clonable, hdown, hq]
      cases hd : fs.dirent (c :: q) with
      | none =>
        rw [descend_name_none hqdir (kindAt_eq_none_iff.2 hd)] at he
        cases he
        simp [Passable, hd]
      | some d => simp [Passable, hd, he, and_comm]
    | cons n' t =>
      have hdown' := descend_eq_error hq he t
      refine Iff.trans ?_ ((and_congr_right' ih).trans (passable_cons hqdir he).symm)
      rw [List.cons_append, List.cons_append, Clonable, ← List.cons_append, hdown, hdown']

/-- `Clonable` is a matter of the first obstacle. -/
theorem clonable_iff (hb : fs.IsDir b) : Clonable fs b r ↔ Unobstructed fs b r := by
  by_cases h : ∃ w, descend fs.kindAt b r = .ok w
  · obtain ⟨w, hw⟩ := h
    refine iff_of_true ?_ fun t c r₁ q hr hq hc => ?_
    · cases r with
      | nil => trivial
      | cons n r =>
        rw [descend_cons] at hw
        cases hl : descend fs.kindAt b r with
        | error e => rw [hl] at hw; cases hw
        | ok l =>
          rw [hl] at hw
          refine (clonable_cons_of_ok hb hl).2 ?_
          obtain ⟨hs, hd⟩ := descend_single_eq_ok.1 hw
          obtain ⟨d, hd, hk⟩ := isDir_iff.1 hd
          have hst : fs.statLoc w = .ok ⟨d.obj, fs.inode d.obj⟩ := statLoc_eq_ok.2 ⟨d, hd, rfl⟩
          rw [Usable, hs, Except.bind, hst]
          cases fs.dirent (n :: l) with
          | none => trivial
          | some d => exact Or.inl (by simpa [Stat.isDir] using hk)
    · rw [hr, ← List.singleton_append, ← List.append_assoc] at hw
      exact absurd hw (not_descend_of_blocked hq hc w)
  · push Not at h
    obtain ⟨t, c, r₁, q, rfl, hq, hc⟩ := exists_obstacle hb h
    exact (clonable_obstacle_iff hb hq hc).trans (unobstructed_iff hq hc).symm

/-! ## The result -/

/-- Below a directory `dir` the function makes every path, except when there is an obstacle on the
way that cannot be passed. -/
theorem clone_completes_iff (dir : Str) {s donor : Str} {fuel : ℕ}
    (hb : fs.Leads p (isAbs dir) (segments dir) b)
    (hs : Spells (isAbs dir) (segments dir) r s) (hr : r ≠ [])
    (hdonor : ∀ k, fs.DirPath p (dirname^[k] donor)) (hfuel : 3 * r.length + 3 ≤ fuel) :
    (((recyclixClonepathRecursive fuel s donor).run (exec p) fs).1 = some 0 ∧
      ((recyclixClonepathRecursive fuel s donor).run (exec p) fs).2.DirPath p s) ↔
    Unobstructed fs b r := by
  have hne : s ≠ [] := by
    cases r with
    | nil => exact absurd rfl hr
    | cons n r => exact hs.ne_nil
  rw [← clonable_iff hb.isDir]
  rcases run_recyclixClonepathRecursive hs hne hb hdonor hfuel with
    ⟨ha, hc, hok⟩ | ⟨ha, ⟨e, he⟩ | ⟨-, hnot⟩⟩
  · obtain ⟨w, hw⟩ := hc.descend_ok
    exact iff_of_true ⟨ha, dirPath_of_descend (hb.keeps hc.keeps) hs hne hw⟩ hok
  · cases he
  · rw [ha]
    exact iff_of_false (fun h => by cases h.1) hnot

namespace Sample

/-- The directories `/a/a/f`, and a file `/bin/a`. -/
def blockedTree : FileSystem :=
  ((tree.addChild [a] a dir).addChild [a, a] f dir).addChild [bin] a file

theorem leads_bin : blockedTree.Leads process true (segments "/bin".toList) [bin] :=
  ⟨by decide +kernel, by decide +kernel⟩

end Sample

/-- A file two names before the end: `mkdir` and `unlink` both fail with `ENOTDIR`. -/
theorem clone_stops_at_file :
    Sample.blockedTree.Leads Sample.process true (segments "/bin".toList) [Sample.bin] ∧
    Spells true (segments "/bin".toList) [Sample.f, Sample.a, Sample.a] "/bin/a/a/f".toList ∧
    (∀ k, Sample.blockedTree.DirPath Sample.process (dirname^[k] "/a/a/f".toList)) ∧
    ((recyclixClonepathRecursive 12 "/bin/a/a/f".toList "/a/a/f".toList).run (exec Sample.process)
      Sample.blockedTree).1 = some (-1) :=
  ⟨Sample.leads_bin, ⟨by decide +kernel, by decide, by decide⟩,
    dirPath_dirname (l := [Sample.f, Sample.a, Sample.a]) ⟨by decide, by decide, by decide⟩
      (by decide +kernel), by decide +kernel⟩

/-- A file one name before the end. -/
theorem clone_completes_iff_blockedTree :
    (((recyclixClonepathRecursive 9 "/bin/a/a".toList "/a/a".toList).run (exec Sample.process)
        Sample.blockedTree).1 = some 0 ∧
      ((recyclixClonepathRecursive 9 "/bin/a/a".toList "/a/a".toList).run (exec Sample.process)
        Sample.blockedTree).2.DirPath Sample.process "/bin/a/a".toList) ↔
    Unobstructed Sample.blockedTree [Sample.bin] [Sample.a, Sample.a] :=
  clone_completes_iff "/bin".toList Sample.leads_bin
    ⟨by decide +kernel, by decide, by decide⟩ (by decide)
    (dirPath_dirname (l := [Sample.a, Sample.a]) ⟨by decide, by decide, by decide⟩
      (by decide +kernel))
    (by decide)

end YazzyPreload.Recyclix

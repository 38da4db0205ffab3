import YazzyPreload.Recyclix.Move
import YazzyPreload.Recyclix.Rmdir

/-!
# What the kernel would refuse

`unlinkat` asks the kernel to remove a directory, but it moves a file with `renameat`, which does
not look at `flags`.  `unlinkat_refuses_iff` says that this is the only way in which an entry goes
away that the real `unlinkat` would not remove.
-/

namespace YazzyPreload.Recyclix

open FileSystem Prog

variable {fs fs' : FileSystem} {p : Process} {l m : Loc} {n : Name} {d : Dent} {fuel : ℕ}
  {st1 : Stat} {dirfd olddirfd newdirfd : ℤ} {pathname dir old new : Str} {flags : Flags} {env : Env}

/-- Once the directories of its pathname in the recycler `dir` are made, which is possible,
`renameat` takes the entry `n :: l` away. -/
def Takes (fs : FileSystem) (p : Process) (dirfd : ℤ) (pathname dir : Str) (l : Loc) (n : Name)
    (m : Loc) : Prop :=
  ∃ abs xs b r fs', fs.Leads p abs xs b ∧ r.length ≤ l.length + 1 ∧
    Spells abs xs r (dirname (recycledPath dir (entryPath l n) (mountPath l n m))) ∧
    dirname (recycledPath dir (entryPath l n) (mountPath l n m)) ≠ [] ∧
    Clonable fs b r ∧ Cloned fs fs' b r ∧
    (fs'.renameat p dirfd pathname 0
      (recycledPath dir (entryPath l n) (mountPath l n m))).1 = .ok () ∧
    (fs'.renameat p dirfd pathname 0
      (recycledPath dir (entryPath l n) (mountPath l n m))).2.dirent (n :: l) = none

/-- The entry is a file that a recycler takes. -/
def Taken (env : Env) (fs : FileSystem) (p : Process) (dirfd : ℤ) (pathname : Str) (flags : Flags)
    (l : Loc) (n : Name) : Prop :=
  ∃ st1 b st2 m, fs.fstatat p dirfd pathname (statFlags flags) = .ok st1 ∧ st1.isDir = false ∧
    env.Selects fs p pathname st1 b st2 ∧ climb fs st1.obj.dev st2.obj.ino (n :: l) = some m ∧
    Takes fs p dirfd pathname b.dir l n m

/-! ## The real call -/

theorem unlinkEntry_ok_iff (ht : fs.targetAt p dirfd pathname = .ok (.entry l n))
    (hd : fs.dirent (n :: l) = some d) (hs : slashed pathname = false) :
    (fs.unlinkEntry p dirfd pathname).1 = .ok () ↔
      (fs.inode d.obj).kind ≠ .dir ∧ d.mounted = false := by
  unfold unlinkEntry
  rw [ht]
  simp only [hd, hs, Bool.false_eq_true, if_false]
  by_cases hk : (fs.inode d.obj).kind = .dir
  · simp [hk]
  · by_cases hm : d.mounted = true <;> simp [hk, hm]

/-- On a file the real `unlinkat` takes no flags. -/
theorem unlinkat_ok_iff (ht : fs.targetAt p dirfd pathname = .ok (.entry l n))
    (hd : fs.dirent (n :: l) = some d) (hk : (fs.inode d.obj).kind ≠ .dir)
    (hs : slashed pathname = false) :
    (fs.unlinkat p dirfd pathname flags).1 = .ok () ↔ flags = 0 ∧ d.mounted = false := by
  unfold FileSystem.unlinkat
  split_ifs with h1 h2
  · refine iff_of_false (by simp) ?_
    rintro ⟨rfl, -⟩
    exact h1 (by decide)
  · rw [removeDir_ok_iff ht]
    refine iff_of_false ?_ ?_
    · rintro ⟨h, -⟩
      exact hk ((isDir_iff_kind hd).1 h)
    · rintro ⟨rfl, -⟩
      exact h2 (by decide)
  · have h0 : flags = 0 := by
      rw [not_not] at h1 h2
      have : flags = (flags &&& atRemovedir) ||| (flags &&& ~~~atRemovedir) := by
        ext i hi
        simp only [BitVec.getElem_or, BitVec.getElem_and, BitVec.getElem_not]
        cases flags[i] <;> cases (atRemovedir : BitVec 32)[i] <;> rfl
      rw [this, h1, h2]
      rfl
    rw [unlinkEntry_ok_iff ht hd hs]
    exact ⟨fun h => ⟨h0, h.2⟩, fun h => ⟨hk, h.2⟩⟩

theorem renameEntry_mounted {src dst : Loc} {slash : Bool} (hd : fs.dirent src = some d)
    (hm : d.mounted = true) : (fs.renameEntry src dst slash).2 = fs := by
  unfold renameEntry
  rw [hd]
  cases hd' : fs.dirent dst with
  | none =>
    simp only [hm, if_true]
    split_ifs <;> rfl
  | some d' =>
    simp only [hm, true_or, if_true]
    split_ifs <;> rfl

/-- An entry that something is mounted on cannot be renamed. -/
theorem renameat_mounted (ht : fs.targetAt p olddirfd old = .ok (.entry l n))
    (hd : fs.dirent (n :: l) = some d) (hm : d.mounted = true) :
    (fs.renameat p olddirfd old newdirfd new).2 = fs := by
  unfold FileSystem.renameat
  rw [ht]
  cases fs.targetAt p newdirfd new with
  | error e => rfl
  | ok t =>
    cases t with
    | entry w n' =>
      dsimp only
      split_ifs
      · rfl
      · exact renameEntry_mounted hd hm
    | _ => rfl

/-- The clone spares an entry that something is mounted on, and one that leads to a directory. -/
theorem Cloned.dirent_eq {b r : Loc} (h : Cloned fs fs' b r) (hd : fs.dirent (n :: l) = some d)
    (hk : d.mounted = true ∨ ∃ w, descend fs.kindAt l [n] = .ok w) :
    fs'.dirent (n :: l) = some d := by
  obtain ⟨q, r₁, r₂, rfl, hq, hv, hg⟩ := h
  rw [hg.dirent, hd]
  intro s hs hs' e
  obtain ⟨c, hbl, hcs⟩ := Grafted.blocked_first (fun s n e => (hv s n e).blocked) hs hs'
  have hsc : s = [c] := hbl.not_isDir_of_suffix hcs (by rw [← e, hd]; simp)
  obtain ⟨t, ht⟩ := hs'
  rw [hsc] at e ht
  obtain ⟨rfl, rfl⟩ := List.cons.inj e
  rcases hk with hk | ⟨w, hw⟩
  · rw [(hv t n ht.symm).unmounted d hd] at hk
    cases hk
  · exact hbl w hw

theorem Cloned.kind {b r : Loc} (h : Cloned fs fs' b r) (hd : fs.dirent (n :: l) = some d) :
    (fs'.inode d.obj).kind = (fs.inode d.obj).kind := by
  obtain ⟨q, r₁, r₂, -, -, -, hg⟩ := h
  exact hg.kind d.obj (fs.ino_lt _ _ hd)

theorem Takes.unmounted (h : Takes fs p dirfd pathname dir l n m)
    (ht : fs.targetAt p dirfd pathname = .ok (.entry l n)) (hd : fs.dirent (n :: l) = some d) :
    d.mounted = false := by
  obtain ⟨abs, xs, b, r, fs', -, -, -, -, -, hc, -, hgone⟩ := h
  by_contra hm
  rw [Bool.not_eq_false] at hm
  have hd' := hc.dirent_eq hd (Or.inl hm)
  rw [renameat_mounted (targetAt_keeps hc.keeps ht) hd' hm, hd'] at hgone
  cases hgone

/-! ## Recycling -/

/-- Recycling a directory removes it only if the real call would. -/
theorem unlinkat_ok_of_cloned {b r : Loc} (h : Cloned fs fs' b r)
    (ht : fs.targetAt p dirfd pathname = .ok (.entry l n)) (hd : fs.dirent (n :: l) = some d)
    (hw : ∃ w, descend fs.kindAt l [n] = .ok w)
    (hok : (fs'.unlinkat p dirfd pathname flags).1 = .ok ()) :
    (fs.unlinkat p dirfd pathname flags).1 = .ok () := by
  have ht' := targetAt_keeps h.keeps ht
  have hd' := h.dirent_eq hd (Or.inr hw)
  have hk := h.kind hd
  unfold FileSystem.unlinkat at hok ⊢
  split_ifs at hok ⊢ with h1 h2
  · have hdir : fs.IsDir (n :: l) := by
      have := ((removeDir_ok_iff ht').1 hok).1
      rwa [isDir_iff_kind hd', hk, ← isDir_iff_kind hd] at this
    obtain ⟨q, r₁, r₂, -, hq, hv, hg⟩ := h
    exact ((removeDir_ok_of_cloned ht hdir hq hv hg).1 hok).1
  · unfold unlinkEntry at hok ⊢
    rw [ht'] at hok
    rw [ht]
    simp only [hd, hd', hk] at hok ⊢
    split_ifs at hok ⊢
    rfl

/-- What is removed or moved without the real call's consent is moved by `renameat`. -/
theorem run_recycle_removes (hst : fs.fstatat p dirfd pathname (statFlags flags) = .ok st1)
    {b : Bin} {st2 : Stat} (hsel : env.Selects fs p pathname st1 b st2)
    (ht : fs.targetAt p dirfd pathname = .ok (.entry l n)) (hd : fs.dirent (n :: l) = some d)
    (hm : climb fs st1.obj.dev st2.obj.ino (n :: l) = some m) (hfuel : enough l ≤ fuel)
    (hret : ((recycle fuel dirfd pathname flags st1 b.dir (entryPath l n) (mountPath l n m)).run
      (exec p) fs).1.map Exit.retval = some 0)
    (hgone : ((recycle fuel dirfd pathname flags st1 b.dir (entryPath l n) (mountPath l n m)).run
      (exec p) fs).2.dirent (n :: l) = none) :
    (fs.unlinkat p dirfd pathname flags).1 = .ok () ∨
      (st1.isDir = false ∧ Takes fs p dirfd pathname b.dir l n m) := by
  have hl := isDir_of_targetAt ht
  have hstat := hsel.eligible.stat
  have hdeny : ∀ e : Errno, (fun _ => false) e = true → e.denial = true := fun e he => by cases he
  cases hdir : st1.isDir with
  | true =>
    left
    have hw := exists_descend_of_fstatat hst ht hdir
    obtain ⟨xs, b', s₀, rel, -, -, -, -, hspec⟩ := wp_clone_directory hstat hl (climb_suffix hm) hw
    have hspec := run_of_wp (hspec (fun _ => false) hdeny fuel hfuel)
    rw [run_recycle_directory hdir] at hret
    generalize (recyclixClonepathRecursive fuel (recycledPath b.dir (entryPath l n)
      (mountPath l n m)) (entryPath l n)).run (exec p) fs = c at hspec hret
    obtain ⟨a, fs'⟩ := c
    rcases hspec with (⟨rfl, hc, -⟩ | ⟨rfl, -⟩) | ⟨rfl, -⟩
    · refine unlinkat_ok_of_cloned hc ht hd hw ?_
      simpa [Exit.plain, retvalOf_eq_zero_iff] using hret
    · simp [Exit.plain] at hret
    · simp [Exit.plain] at hret
  | false =>
    right
    obtain ⟨abs, xs, b', r, hb, hr, hs, hne⟩ := exists_base_parent hstat (climb_suffix hm)
    have hspec := run_clone_parent n hb hr hs hne hl hfuel
    rw [run_recycle_file hdir] at hret hgone
    generalize (recyclixClonepathRecursive fuel (dirname (recycledPath b.dir (entryPath l n)
      (mountPath l n m))) (dirname (entryPath l n))).run (exec p) fs = c at hspec hret hgone
    obtain ⟨a, fs'⟩ := c
    rcases hspec with ⟨rfl, hc, hok⟩ | ⟨rfl, -⟩
    · refine ⟨rfl, abs, xs, b', r, fs', hb, hr, hs, hne, hok, hc, ?_, ?_⟩
      · simpa [Exit.plain, retvalOf_eq_zero_iff] using hret
      · simpa using hgone
    · simp [Exit.plain] at hret

end YazzyPreload.Recyclix

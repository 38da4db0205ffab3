import YazzyPreload.Recyclix.Recycle
import YazzyPreload.Rename

/-!
# Moving a file

A file that is not a directory is moved with `renameat` after the directories of its pathname in
the recycler are made.  `run_unlinkat_cases` lists how `unlinkat` ends for an entry, and
`run_recycle_file` is the last of these for a file.
-/

namespace YazzyPreload.Recyclix

open FileSystem Prog

variable {fs fs' fs'' : FileSystem} {p : Process} {b l m r : Loc} {n : Name} {fuel : ℕ}
  {st1 st2 : Stat} {dirfd : ℤ} {pathname dir : Str} {flags : Flags} {env : Env}

/-! ## How `unlinkat` ends -/

/-- How `unlinkat` ends when no recycler takes the file. -/
theorem run_unlinkat_unselected (env : Env) (fs : FileSystem) (p : Process) (fuel : ℕ) (dirfd : ℤ)
    (pathname : Str) (flags : Flags) :
    (unlinkat env fuel dirfd pathname flags).run (exec p) fs =
        (some (.plain (retvalOf (fs.unlinkat p dirfd pathname flags).1)),
          (fs.unlinkat p dirfd pathname flags).2) ∨
      (∃ e, (unlinkat env fuel dirfd pathname flags).run (exec p) fs = (some ⟨-1, e⟩, fs)) ∨
      ∃ st1 b st2, fs.fstatat p dirfd pathname (statFlags flags) = .ok st1 ∧
        env.Selects fs p pathname st1 b st2 := by
  cases hr : env.recycler with
  | none =>
    left
    simp only [unlinkat, hr]
    rfl
  | some recyclers =>
    cases hst : fs.fstatat p dirfd pathname (statFlags flags) with
    | error e =>
      right
      left
      refine ⟨none, ?_⟩
      simp only [unlinkat, hr, run_call, exec, hst]
      rfl
    | ok st1 =>
      have hrun : (unlinkat env fuel dirfd pathname flags).run (exec p) fs =
          (nextRecycler env pathname st1 (recyclers.splitOn ':') >>=
            dropFile fuel dirfd pathname flags st1).run (exec p) fs := by
        simp only [unlinkat, hr, run_call, exec, hst]
      rw [run_bind] at hrun
      rcases items_cases (recyclers.splitOn ':') with hall | ⟨pre, item, post, hi, hpre, hitem⟩
      · left
        rw [hrun, run_nextRecycler_none hall]
        rfl
      · rcases hitem with hbad | ⟨b, st2, hb, he⟩
        · right
          left
          refine ⟨some .ECANCELED, ?_⟩
          rw [hrun, run_nextRecycler_malformed hi hpre hbad]
          rfl
        · exact Or.inr (Or.inr ⟨st1, b, st2, rfl, ⟨recyclers, pre, item, post, hr, hi, hpre, hb⟩, he⟩)

theorem run_unlinkat_cases (env : Env) (flags : Flags)
    (ht : fs.targetAt p dirfd pathname = .ok (.entry l n))
    (hfuel : enough l ≤ fuel) :
    (unlinkat env fuel dirfd pathname flags).run (exec p) fs =
        (some (.plain (retvalOf (fs.unlinkat p dirfd pathname flags).1)),
          (fs.unlinkat p dirfd pathname flags).2) ∨
      (∃ e, (unlinkat env fuel dirfd pathname flags).run (exec p) fs = (some ⟨-1, e⟩, fs)) ∨
      ∃ st1 b st2 m, fs.fstatat p dirfd pathname (statFlags flags) = .ok st1 ∧
        env.Selects fs p pathname st1 b st2 ∧
        climb fs st1.obj.dev st2.obj.ino (n :: l) = some m ∧
        (unlinkat env fuel dirfd pathname flags).run (exec p) fs =
          (recycle fuel dirfd pathname flags st1 b.dir (entryPath l n) (mountPath l n m)).run
            (exec p) fs := by
  rcases run_unlinkat_unselected env fs p fuel dirfd pathname flags with
    h | h | ⟨st1, b, st2, hst, hsel⟩
  · exact Or.inl h
  · exact Or.inr (Or.inl h)
  · have hentry := run_unlinkat_entry hsel hst ht hfuel
    cases hm : climb fs st1.obj.dev st2.obj.ino (n :: l) with
    | none =>
      left
      rw [hentry, hm]
    | some m =>
      right
      right
      refine ⟨st1, b, st2, m, hst, hsel, hm, ?_⟩
      rw [hentry, hm]

/-- Recycling a file: the clone of the directory above it, and the rename. -/
theorem run_recycle_file {fq mp : Str} (hd : st1.isDir = false) :
    (recycle fuel dirfd pathname flags st1 dir fq mp).run (exec p) fs =
      match (recyclixClonepathRecursive fuel (dirname (recycledPath dir fq mp))
        (dirname fq)).run (exec p) fs with
      | (none, fs') => (none, fs')
      | (some retval, fs') =>
        if retval = 0 then
          (some (.plain (retvalOf (fs'.renameat p dirfd pathname 0 (recycledPath dir fq mp)).1)),
            (fs'.renameat p dirfd pathname 0 (recycledPath dir fq mp)).2)
        else (some (.plain retval), fs') := by
  rw [recycle, run_bind]
  simp only [clonePaths, hd, Bool.false_eq_true, if_false]
  generalize (recyclixClonepathRecursive fuel (dirname (recycledPath dir fq mp))
    (dirname fq)).run (exec p) fs = c
  obtain ⟨_ | retval, fs'⟩ := c
  · rfl
  · dsimp only
    split_ifs with h1 h2 <;> first | rfl | exact absurd h2 h1

/-- A file that `fstatat` says is not a directory. -/
theorem kind_of_fstatat {d : Dent} (hst : fs.fstatat p dirfd pathname (statFlags flags) = .ok st1)
    (ht : fs.targetAt p dirfd pathname = .ok (.entry l n)) (hd : fs.dirent (n :: l) = some d)
    (hdir : st1.isDir = false) : (fs.inode d.obj).kind ≠ .dir := by
  intro e
  have h := (isDir_of_statLoc (statLoc_entry hst ht hdir).2).1 ((isDir_iff_kind hd).2 e)
  rw [hdir] at h
  cases h

/-- The entry leads to what `fstatat` says is a directory. -/
theorem exists_descend_of_fstatat (hst : fs.fstatat p dirfd pathname (statFlags flags) = .ok st1)
    (ht : fs.targetAt p dirfd pathname = .ok (.entry l n)) (hdir : st1.isDir = true) :
    ∃ w, descend fs.kindAt l [n] = .ok w := by
  have h := statLoc_of_fstatat hst ht
  split_ifs at h with hs
  · obtain ⟨w, hw, -⟩ := h
    exact ⟨w, hw⟩
  · exact ⟨n :: l, descend_name_dir (isDir_of_targetAt ht) ((isDir_of_statLoc h).2 hdir)⟩

/-- The clone of the directory above a file, without denials. -/
theorem run_clone_parent (n : Name) {abs : Bool} {xs : List Str} {s : Str} (hb : fs.Leads p abs xs b)
    (hr : r.length ≤ l.length + 1) (hs : Spells abs xs r s) (hne : s ≠ []) (hl : fs.IsDir l)
    (hfuel : enough l ≤ fuel) :
    CloneSpec (fun _ => false) fs b r
      ((recyclixClonepathRecursive fuel s (dirname (entryPath l n))).run (exec p) fs).1
      ((recyclixClonepathRecursive fuel s (dirname (entryPath l n))).run (exec p) fs).2 := by
  rw [enough] at hfuel
  exact run_recyclixClonepathRecursive hs hne hb
    (dirPath_dirname (spells_pathOf_name l n).parent_tail hl) (by omega)

/-! ## The state after the clone -/

/-- Making the same directories twice gives states that look alike. -/
theorem Cloned.alike (h : Cloned fs fs' b r) (h' : Cloned fs fs'' b r) : fs'.Alike fs'' := by
  obtain ⟨q, r₁, r₂, rfl, hq, hv, hg⟩ := h
  obtain ⟨q', r₁', r₂', hr, hq', hv', hg'⟩ := h'
  have hb : ∀ s n, r₂ = s ++ [n] → fs.Blocked q n := fun s n e => (hv s n e).blocked
  obtain rfl : r₁ = r₁' := blocked_unique hr hq hq' hb fun s n e => (hv' s n e).blocked
  obtain rfl : r₂ = r₂' := List.append_cancel_right hr
  rw [hq] at hq'
  cases hq'
  have hu : ∀ s n, r₂ = s ++ [n] → ∀ d, fs.dirent (n :: q) = some d → d.mounted = false :=
    fun s n e => (hv s n e).unmounted
  refine ⟨?_, fun l => ?_, fun l l' => ?_⟩
  · funext l
    by_cases hl : ∀ s, s ≠ [] → s <:+ r₂ → l ≠ s ++ q
    · rw [hg.kindAt hl, hg'.kindAt hl]
    · push Not at hl
      obtain ⟨s, hs, hs', rfl⟩ := hl
      exact (hg.isDir_made hs hs').trans (hg'.isDir_made hs hs').symm
  · rw [hg.mounted hu hb, hg'.mounted hu hb]
  · have hnew : ∀ {fs₁ l l'}, fs.Grafted fs₁ q r₂ → (∃ s, s ≠ [] ∧ s <:+ r₂ ∧ l = s ++ q) →
        (∀ s, s ≠ [] → s <:+ r₂ → l' ≠ s ++ q) → fs₁.objAt l ≠ fs₁.objAt l' := by
      rintro fs₁ l l' hg ⟨s, hs, hs', rfl⟩ hl' e
      obtain ⟨o, ho, -, hle⟩ := hg.made s hs hs'
      rw [hg.objAt hl', objAt, objAt, ho, Option.map_some] at e
      obtain ⟨d, hd, hdo⟩ := Option.map_eq_some_iff.1 e.symm
      have := fs.ino_lt l' d hd
      rw [hdo] at this
      exact absurd this (Nat.not_lt.2 hle)
    by_cases hl : ∀ s, s ≠ [] → s <:+ r₂ → l ≠ s ++ q
    · by_cases hl' : ∀ s, s ≠ [] → s <:+ r₂ → l' ≠ s ++ q
      · rw [hg.objAt hl, hg.objAt hl', hg'.objAt hl, hg'.objAt hl']
      · push Not at hl'
        exact iff_of_false (hnew hg hl' hl).symm (hnew hg' hl' hl).symm
    · push Not at hl
      by_cases hl' : ∀ s, s ≠ [] → s <:+ r₂ → l' ≠ s ++ q
      · exact iff_of_false (hnew hg hl hl') (hnew hg' hl hl')
      · obtain ⟨s, hs, hs', rfl⟩ := hl
        constructor
        · intro e
          rw [(hg.isDir_made hs hs').eq_of_objAt e]
        · intro e
          rw [(hg'.isDir_made hs hs').eq_of_objAt e]

/-! ## The pathname in the recycler -/

/-- The pathname, a link in last place not followed, refers to the object. -/
def Refers (fs : FileSystem) (p : Process) (s : Str) (o : Obj) : Prop :=
  ∃ x, fs.lookupAt p atFdcwd s false = .ok x ∧ fs.objAt x = some o

/-- The directory part of the pathname in the recycler `dir` of the entry `n :: l` below `m`: the
names `r₁` lead to the directory `q`, where the directories `r₂` are left to make.  The way to `q`
does not use the places in `S`, and what is in the way of `r₂` is not the entry itself.  The
pathname means the same to `renameat` as to the other calls. -/
structure BinPath (S : Loc → Prop) [DecidablePred S] (fs : FileSystem) (p : Process) (dir : Str)
    (l : Loc) (n : Name) (m b q r₁ r₂ : Loc) : Prop where
  newdirfd : isAbs dir = true ∨ p.fds 0 = some (.dir p.cwd)
  names : l = r₂ ++ r₁ ++ m
  leads : walk (hide fs.kindAt S) maxSymlinks (start p (isAbs dir)) (comps dir) = .ok b
  descend : descend (hide fs.kindAt S) b r₁ = .ok q
  blocked : ∀ s c, r₂ = s ++ [c] → fs.Blocked q c
  ne_entry : ∀ s c, r₂ = s ++ [c] → c :: q ≠ n :: l

/-- The file `n :: l` can be moved to its place in the recycler: the directories `r₂` below `q` can be
made, and what is at that place can be replaced or is the same file. -/
structure Clear (fs : FileSystem) (l : Loc) (n : Name) (b q r₁ r₂ : Loc) : Prop where
  clonable : Clonable fs b (r₂ ++ r₁)
  place : fs.Displaces (n :: l) (n :: (r₂ ++ q)) ∨
    fs.mountOf l = fs.mountOf (r₂ ++ q) ∧ fs.objAt (n :: l) = fs.objAt (n :: (r₂ ++ q))

/-- `renameat` is called with the descriptor 0, which must stand for the current directory. -/
theorem targetAt_newdirfd {s : Str} (h : isAbs s = true ∨ p.fds 0 = some (.dir p.cwd)) :
    fs.targetAt p 0 s = fs.targetAt p atFdcwd s := by
  have hb : base p 0 s = base p atFdcwd s := by
    unfold base
    rcases h with h | h
    · rw [if_pos h, if_pos h]
    · rw [h]
      rfl
  rw [FileSystem.targetAt, FileSystem.targetAt, hb]

namespace BinPath

variable {S : Loc → Prop} [DecidablePred S] {q r₁ r₂ : Loc} {d : Dent} {o : Obj}
  (h : BinPath S fs p dir l n m b q r₁ r₂)

include h

theorem isDir_hide : hide fs.kindAt S b = some .dir := walk_ok_dir (descend_eq_ok.1 h.descend).1
  (descend_eq_ok.1 h.descend).2

theorem fs_leads : fs.Leads p (isAbs dir) (segments dir) b := by
  have := (spares_hide fs.kindAt S).keeps _ _ _ h.leads h.isDir_hide
  exact ⟨this.1, this.2⟩

theorem fs_descend : YazzyPreload.descend fs.kindAt b r₁ = .ok q :=
  (spares_hide fs.kindAt S).keeps.descend h.descend

theorem isDir : fs.IsDir q := (descend_eq_ok.1 h.fs_descend).2

/-- What cloning the directory part does. -/
theorem grafted (hc : Cloned fs fs' b (r₂ ++ r₁)) :
    (∀ s c, r₂ = s ++ [c] → Vacant fs q c) ∧ fs.Grafted fs' q r₂ := by
  obtain ⟨q', r₁', r₂', hr, hq', hv, hg⟩ := hc
  obtain rfl : r₁ = r₁' := blocked_unique hr h.fs_descend hq' h.blocked fun s n e => (hv s n e).blocked
  obtain rfl : r₂ = r₂' := List.append_cancel_right hr
  have hq := h.fs_descend
  rw [hq'] at hq
  cases hq
  exact ⟨hv, hg⟩

theorem spells (hdir : dir ≠ []) : Spells (isAbs dir) (segments dir) (n :: (r₂ ++ r₁))
    (recycledPath dir (entryPath l n) (mountPath l n m)) :=
  spells_recycledPath_below hdir h.names

/-- The way to the directory is open in a later state that has what was outside of `S`. -/
theorem later (hg : fs.Grafted fs' q r₂)
    (hS : ∀ x, ¬ S x → fs.kindAt x ≠ none → fs''.kindAt x = fs'.kindAt x)
    (hmade : ∀ s, s ≠ [] → s <:+ r₂ → fs''.IsDir (s ++ q)) :
    fs''.Leads p (isAbs dir) (segments dir) b ∧
      YazzyPreload.descend fs''.kindAt b (r₂ ++ r₁) = .ok (r₂ ++ q) := by
  have hk := ((hg.spares h.blocked h.isDir).hide hS).keeps
  have hw := hk _ _ _ h.leads h.isDir_hide
  refine ⟨⟨hw.1, hw.2⟩, ?_⟩
  rw [descend_append, hk.descend h.descend]
  exact descend_of_dirs (hk.dir (descend_eq_ok.1 h.descend).2) hmade

/-- Then the pathname refers to what the entry in the directory refers to. -/
theorem refers (hdir : dir ≠ []) (hl : fs''.Leads p (isAbs dir) (segments dir) b)
    (hd : YazzyPreload.descend fs''.kindAt b (r₂ ++ r₁) = .ok (r₂ ++ q))
    (ho : fs''.objAt (n :: (r₂ ++ q)) = some o) :
    Refers fs'' p (recycledPath dir (entryPath l n) (mountPath l n m)) o := by
  have hne : fs''.dirent (n :: (r₂ ++ q)) ≠ none := by
    intro e
    rw [objAt, e] at ho
    cases ho
  exact ⟨_, lookupAt_spells hl (h.spells hdir) hd hne, ho⟩

theorem targetAt (hdir : dir ≠ []) (hl : fs''.Leads p (isAbs dir) (segments dir) b)
    (hd : YazzyPreload.descend fs''.kindAt b (r₂ ++ r₁) = .ok (r₂ ++ q)) :
    fs''.targetAt p 0 (recycledPath dir (entryPath l n) (mountPath l n m)) =
      .ok (.entry (r₂ ++ q) n) := by
  have hs := h.spells hdir
  have ht := targetAt_spells hl hs
  rw [hd] at ht
  rw [targetAt_newdirfd, ht]
  · rfl
  · rw [hs.isAbs]
    exact h.newdirfd

theorem entry_not_made (he : fs.dirent (n :: l) ≠ none) (s : Loc) (hs : s ≠ []) (hs' : s <:+ r₂) :
    n :: l ≠ s ++ q := by
  intro e
  obtain ⟨c, hbl, hcs⟩ := Grafted.blocked_first h.blocked hs hs'
  have hsc : s = [c] := hbl.not_isDir_of_suffix hcs (e ▸ he)
  obtain ⟨t, ht⟩ := hs'
  rw [hsc] at ht e
  exact h.ne_entry t c ht.symm e.symm

omit h in
theorem dest_not_made (s : Loc) (hs' : s <:+ r₂) : n :: (r₂ ++ q) ≠ s ++ q := by
  intro e
  have hlen := congrArg List.length e
  have := hs'.length_le
  simp only [List.length_cons, List.length_append] at hlen
  omega

/-- Recycling a file whose pathname in the recycler is known. -/
theorem run_recycle (hst : fs.stat p dir = .ok st2)
    (ht : fs.targetAt p dirfd pathname = .ok (.entry l n)) (hd : fs.dirent (n :: l) = some d)
    (hk : (fs.inode d.obj).kind ≠ .dir) (hsl : slashed pathname = false) (hdir : st1.isDir = false)
    (hfuel : enough l ≤ fuel) :
    ∃ a fs'', (recycle fuel dirfd pathname flags st1 dir (entryPath l n) (mountPath l n m)).run
        (exec p) fs = (some (.plain a), fs'') ∧
      ((a = -1 ∧ ¬ Clear fs l n b q r₁ r₂) ∨
        (a = 0 ∧ Clear fs l n b q r₁ r₂ ∧ ∃ fs', (∀ s c, r₂ = s ++ [c] → Vacant fs q c) ∧
          fs.Grafted fs' q r₂ ∧ ((fs.Displaces (n :: l) (n :: (r₂ ++ q)) ∧
              fs'' = fs'.move (n :: l) (n :: (r₂ ++ q))) ∨
            (fs.objAt (n :: l) = fs.objAt (n :: (r₂ ++ q)) ∧ fs'' = fs')))) := by
  have hl := isDir_of_targetAt ht
  have hnames : l = (r₂ ++ r₁) ++ m := h.names
  have hne := ne_nil_of_stat hst
  have hclone : wp (Sys p fun _ => false) (recyclixClonepathRecursive fuel
      (dirname (recycledPath dir (entryPath l n) (mountPath l n m))) (dirname (entryPath l n))) fs
      fun _ => CloneSpec (fun _ => false) fs b (r₂ ++ r₁) :=
    wp_clone_parent_of_leads hst hl h.fs_leads hnames (fun e he => by cases he) hfuel
  have hspec := run_of_wp hclone
  rw [run_recycle_file hdir]
  generalize (recyclixClonepathRecursive fuel (dirname (recycledPath dir (entryPath l n)
    (mountPath l n m))) (dirname (entryPath l n))).run (exec p) fs = c at hspec
  obtain ⟨a, fs'⟩ := c
  rcases hspec with ⟨rfl, hc, hok⟩ | ⟨rfl, ⟨e, he⟩ | ⟨rfl, hnot⟩⟩
  · obtain ⟨hv, hg⟩ := h.grafted hc
    have hb : ∀ s c, r₂ = s ++ [c] → fs.Blocked q c := h.blocked
    have hu : ∀ s c, r₂ = s ++ [c] → ∀ d, fs.dirent (c :: q) = some d → d.mounted = false :=
      fun s c e => (hv s c e).unmounted
    have hsrc := h.entry_not_made (by simp [hd])
    have hdst : ∀ s, s ≠ [] → s <:+ r₂ → n :: (r₂ ++ q) ≠ s ++ q := fun s _ => dest_not_made s
    have hd' : fs'.dirent (n :: l) = some d := (hg.dirent _ hsrc).trans hd
    have hk' : (fs'.inode d.obj).kind ≠ .dir := by
      rw [hg.kind d.obj (fs.ino_lt _ _ hd)]
      exact hk
    have hw : fs'.IsDir (r₂ ++ q) := hg.isDir_last h.isDir
    have hdesc : YazzyPreload.descend fs'.kindAt b (r₂ ++ r₁) = .ok (r₂ ++ q) := by
      rw [descend_append, hc.keeps.descend h.fs_descend]
      exact descend_of_dirs (hg.isDir_base h.isDir) fun s hs hs' => hg.isDir_made hs hs'
    have htgt := h.targetAt hne (h.fs_leads.keeps hc.keeps) hdesc
    have hslr : slashed (recycledPath dir (entryPath l n) (mountPath l n m)) = false := by
      by_contra hs
      exact List.cons_ne_nil _ _ ((h.spells hne).slashed (by simpa using hs))
    have hcases := renameat_file (targetAt_keeps hc.keeps ht) htgt hw hd' hk' hsl hslr
    rw [hg.displaces_iff hu hb hsrc hdst, hg.mountOf hu hb, hg.mountOf hu hb, hg.objAt hsrc,
      hg.objAt hdst] at hcases
    dsimp only
    rw [if_pos rfl]
    rcases hcases with ⟨hdisp, hren⟩ | ⟨hm, hsame, hren⟩ | ⟨hnd, hns, e, hren⟩
    · refine ⟨0, _, by rw [hren]; rfl, Or.inr ⟨rfl, ⟨hok, Or.inl hdisp⟩, fs', hv, hg, ?_⟩⟩
      exact Or.inl ⟨hdisp, rfl⟩
    · refine ⟨0, _, by rw [hren]; rfl, Or.inr ⟨rfl, ⟨hok, Or.inr ⟨hm, hsame⟩⟩, fs', hv, hg, ?_⟩⟩
      exact Or.inr ⟨hsame, rfl⟩
    · refine ⟨-1, _, by rw [hren]; rfl, Or.inl ⟨rfl, fun hclear => ?_⟩⟩
      exact hclear.place.elim hnd hns
  · cases he
  · exact ⟨-1, _, rfl, Or.inl ⟨rfl, fun hclear => hnot hclear.clonable⟩⟩

section Moved

variable (hS : S (n :: l)) (hS' : S (n :: (r₂ ++ q)) ∨ fs.dirent (n :: (r₂ ++ q)) = none)
  (hg : fs.Grafted fs' q r₂) (hd : fs.dirent (n :: l) = some d)
  (hk : (fs.inode d.obj).kind ≠ .dir)

include hg hd

theorem dirent_grafted : fs'.dirent (n :: l) = some d :=
  (hg.dirent _ (h.entry_not_made (by simp [hd]))).trans hd

/-- The pathname in the recycler refers to the file when it already did before the call. -/
theorem refers_same (hdir : dir ≠ [])
    (hsame : fs.objAt (n :: l) = fs.objAt (n :: (r₂ ++ q))) :
    Refers fs' p (recycledPath dir (entryPath l n) (mountPath l n m)) d.obj := by
  obtain ⟨hl, hdesc⟩ := h.later hg (fun _ _ _ => rfl) fun s hs hs' => hg.isDir_made hs hs'
  refine h.refers hdir hl hdesc ?_
  rw [hg.objAt fun s _ => dest_not_made s, ← hsame, objAt, hd, Option.map_some]

include hS hS' hk

/-- The pathname in the recycler refers to the file that was moved there. -/
theorem refers_moved (hdir : dir ≠ []) (hdisp : fs'.Displaces (n :: l) (n :: (r₂ ++ q))) :
    Refers (fs'.move (n :: l) (n :: (r₂ ++ q))) p
        (recycledPath dir (entryPath l n) (mountPath l n m)) d.obj ∧
      (fs'.move (n :: l) (n :: (r₂ ++ q))).dirent (n :: l) = none := by
  have hd' := h.dirent_grafted hg hd
  have hk' : (fs'.inode d.obj).kind ≠ .dir := by
    rw [hg.kind d.obj (fs.ino_lt _ _ hd)]
    exact hk
  have hw : fs'.IsDir (r₂ ++ q) := hg.isDir_last h.isDir
  have hmove := hdisp.dirent_move (List.cons_ne_nil _ _) (List.cons_ne_nil _ _) hd' hk' hw
  have hkind : ∀ x, x ≠ n :: l → x ≠ n :: (r₂ ++ q) →
      (fs'.move (n :: l) (n :: (r₂ ++ q))).kindAt x = fs'.kindAt x := fun x h₁ h₂ =>
    hdisp.kindAt_move (List.cons_ne_nil _ _) (List.cons_ne_nil _ _) hd' hk' hw h₁ h₂
  have hout : ∀ x, ¬ S x → fs.kindAt x ≠ none →
      (fs'.move (n :: l) (n :: (r₂ ++ q))).kindAt x = fs'.kindAt x := by
    intro x hx hne
    refine hkind x (fun e => hx (e ▸ hS)) fun e => ?_
    rcases hS' with hS' | hS'
    · exact hx (e ▸ hS')
    · rw [e] at hne
      exact hne (kindAt_eq_none_iff.2 hS')
  have hmade : ∀ s, s ≠ [] → s <:+ r₂ → (fs'.move (n :: l) (n :: (r₂ ++ q))).IsDir (s ++ q) := by
    intro s hs hs'
    rw [IsDir, hkind _ (h.entry_not_made (by simp [hd]) s hs hs').symm (dest_not_made s hs').symm]
    exact hg.isDir_made hs hs'
  obtain ⟨hl, hdesc⟩ := h.later hg hout hmade
  refine ⟨h.refers hdir hl hdesc ?_, ?_⟩
  · rw [objAt, hmove, if_pos rfl, Option.map_some]
  · rw [hmove, if_neg (hdisp.ne hd'), if_pos rfl]

end Moved

end BinPath

end YazzyPreload.Recyclix

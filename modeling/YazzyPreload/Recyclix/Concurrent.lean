import YazzyPreload.Place
import YazzyPreload.Pool
import YazzyPreload.Recyclix.Clone
import YazzyPreload.Update

/-!
# Concurrent clones

Any number of runs of `recyclix_clonepath_recursive`, each in a process of its own, make directories
below the same directory `b`.  Below `b` there are only directories (`OnlyDirs`), and this and the
directories that are there stay so under the calls of every run (`Grows`).

A run that finds the parent missing calls `unlink` on it, and when another run has made the parent
in between the run gives up.  By `clones_succeed_iff` nothing else can go wrong.
-/

namespace YazzyPreload.Recyclix

open FileSystem Prog

/-! ## Directories below a directory -/

/-- Whatever is at or below `b` is a directory. -/
def OnlyDirs (fs : FileSystem) (b : Loc) : Prop := ∀ l, b <:+ l → fs.dirent l ≠ none → fs.IsDir l

/-- What the runs do to the file system. -/
structure Grows (b : Loc) (fs fs' : FileSystem) : Prop where
  keeps : Keeps fs.kindAt fs'.kindAt
  onlyDirs : OnlyDirs fs b → OnlyDirs fs' b

variable {fs fs' fs'' : FileSystem} {b l r : Loc} {n : Name} {p : Process} {abs : Bool}
  {xs : List Str} {s donor : Str}

theorem Grows.refl (b : Loc) (fs : FileSystem) : Grows b fs fs := ⟨Keeps.refl _, id⟩

theorem Grows.trans (h : Grows b fs fs') (h' : Grows b fs' fs'') : Grows b fs fs'' :=
  ⟨h.keeps.trans h'.keeps, fun hd => h'.onlyDirs (h.onlyDirs hd)⟩

theorem grows_addChild (hl : fs.IsDir l) (hn : fs.dirent (n :: l) = none) {i : Inode}
    (hi : i.kind = .dir) : Grows b fs (fs.addChild l n i) := by
  refine ⟨keeps_addChild hl hn i, fun h m hm hd => ?_⟩
  rw [IsDir, kindAt_addChild hl hn]
  rw [dirent_addChild hl hn] at hd
  split_ifs at hd ⊢ with e
  · rw [hi]
  · exact h m hm hd

theorem grows_adjust (o : Obj) (f : Inode → Inode) (hf : ∀ i, (f i).kind = i.kind) :
    Grows b fs (fs.adjust o f hf) := by
  refine ⟨?_, fun h m hm hd => ?_⟩
  · rw [kindAt_adjust]
    exact Keeps.refl _
  · rw [IsDir, kindAt_adjust]
    exact h m hm hd

/-- Names below `b` lead to the directory they spell, or nowhere. -/
theorem OnlyDirs.descend (h : OnlyDirs fs b) (hb : fs.IsDir b) (r : Loc) :
    descend fs.kindAt b r = if fs.IsDir (r ++ b) then .ok (r ++ b) else .error .ENOENT := by
  induction r with
  | nil =>
    rw [List.nil_append, if_pos hb]
    exact descend_nil hb
  | cons n r ih =>
    rw [descend_cons, ih, List.cons_append]
    by_cases hr : fs.IsDir (r ++ b)
    · rw [if_pos hr, Except.bind]
      split_ifs with hn
      · exact descend_name_dir hr hn
      · refine descend_name_none hr (kindAt_eq_none_iff.2 ?_)
        by_contra hne
        exact hn (h _ (List.suffix_append (n :: r) b) hne)
    · rw [if_neg hr, if_neg fun hn => hr hn.tail]
      rfl

/-! ## Calls that the others cannot spoil -/

/-- What a run relies on below `b`, and keeps. -/
structure Based (fs : FileSystem) (p : Process) (abs : Bool) (xs : List Str) (b : Loc) : Prop where
  leads : fs.Leads p abs xs b
  onlyDirs : OnlyDirs fs b

theorem Based.grows (h : Based fs p abs xs b) (hg : Grows b fs fs') : Based fs' p abs xs b :=
  ⟨h.leads.keeps hg.keeps, hg.onlyDirs h.onlyDirs⟩

/-- The donor, and every directory `dirname` makes out of it, is there. -/
def Donates (fs : FileSystem) (p : Process) (donor : Str) : Prop :=
  ∀ k, fs.DirPath p (dirname^[k] donor)

theorem Donates.grows (h : Donates fs p donor) (hg : Grows b fs fs') : Donates fs' p donor :=
  fun k => (h k).keeps hg.keeps

theorem Donates.up (h : Donates fs p donor) : Donates fs p (dirname donor) := fun k => h (k + 1)

theorem grows_chmod (s : Str) (mode : Mode) : Grows b fs (fs.chmod p s mode).2 := by
  rcases fs.chmod_cases p s mode with ⟨e, h⟩ | ⟨o, h⟩ <;> rw [h]
  · exact Grows.refl b fs
  · exact grows_adjust o (fun i => { i with mode := mode }) fun _ => rfl

theorem grows_chown (s : Str) (uid gid : ℕ) : Grows b fs (fs.chown p s uid gid).2 := by
  rcases fs.chown_cases p s uid gid with ⟨e, h⟩ | ⟨o, h⟩ <;> rw [h]
  · exact Grows.refl b fs
  · exact grows_adjust o (fun i => { i with uid := uid, gid := gid }) fun _ => rfl

/-- The event is an `unlink` whose pathname is that of a directory. -/
def findsDir (p : Process) (ev : Event Call Call.Answer FileSystem) : Bool :=
  match ev.call with
  | .unlink s =>
    match ev.before.targetAt p atFdcwd s with
    | .ok (.entry l n) => ev.before.IsDir (n :: l)
    | _ => false
  | _ => false

theorem unlinkEntry_of_findsDir {a : (Call.unlink s).Answer}
    (h : findsDir p ⟨fs, .unlink s, a⟩ = true) :
    fs.unlinkEntry p atFdcwd s = (.error .EISDIR, fs) := by
  unfold findsDir at h
  unfold unlinkEntry
  cases ht : fs.targetAt p atFdcwd s with
  | error e => simp [ht] at h
  | ok t =>
    cases t with
    | entry l n =>
      simp only [ht, decide_eq_true_eq] at h
      obtain ⟨d, hd, hk⟩ := isDir_iff.1 h
      simp only [hd, hk, if_true]
    | _ => rfl

section There

variable (hb : Based fs p abs xs b)

include hb

omit hb in
theorem Based.descend (hb : Based fs p abs xs b) (r : Loc) :
    YazzyPreload.descend fs.kindAt b r =
      if fs.IsDir (r ++ b) then .ok (r ++ b) else .error .ENOENT :=
  hb.onlyDirs.descend hb.leads.isDir r

theorem Based.descend_ok (hd : fs.IsDir (r ++ b)) :
    YazzyPreload.descend fs.kindAt b r = .ok (r ++ b) := by
  rw [hb.descend, if_pos hd]

theorem mkdir_missing (hs : Spells abs xs (n :: r) s) (hd : ¬ fs.IsDir (r ++ b)) (mode : Mode) :
    fs.mkdir p s mode = (.error .ENOENT, fs) := by
  rw [mkdir_spells hb.leads hs, hb.descend, if_neg hd]

theorem mkdir_made (hs : Spells abs xs (n :: r) s) (hr : fs.IsDir (r ++ b))
    (hd : ¬ fs.IsDir (n :: r ++ b)) (mode : Mode) : ∃ fs', fs.mkdir p s mode = (.ok (), fs') ∧
      Grows b fs fs' ∧ fs'.IsDir (n :: r ++ b) := by
  have hn : fs.dirent (n :: (r ++ b)) = none := by
    by_contra hc
    exact hd (hb.onlyDirs _ (List.suffix_append (n :: r) b) hc)
  have hi := newDir_kind fs p (r ++ b) mode
  refine ⟨fs.addChild (r ++ b) n (fs.newDir p (r ++ b) mode), ?_, grows_addChild hr hn hi, ?_⟩
  · rw [mkdir_spells hb.leads hs, hb.descend, if_pos hr]
    exact if_pos hn
  · rw [List.cons_append, IsDir, kindAt_addChild hr hn, if_pos rfl, hi]

/-- `unlink` does nothing, or finds a directory. -/
theorem unlink_missing (hs : Spells abs xs (n :: r) s) {a : (Call.unlink s).Answer}
    (ha : findsDir p ⟨fs, .unlink s, a⟩ = false) :
    fs.unlinkEntry p atFdcwd s = (.error .ENOENT, fs) := by
  have ht := targetAt_spells hb.leads hs
  rw [unlinkEntry_spells hb.leads hs]
  rw [hb.descend] at ht ⊢
  by_cases hr : fs.IsDir (r ++ b)
  · rw [if_pos hr] at ht ⊢
    have hn : fs.dirent (n :: (r ++ b)) = none := by
      by_contra hc
      have hd : fs.IsDir (n :: (r ++ b)) := hb.onlyDirs _ (List.suffix_append (n :: r) b) hc
      simp [findsDir, ht, Except.map, hd] at ha
    dsimp only
    rw [hn]
  · rw [if_neg hr]

end There

/-! ## One run among others -/

/-- How a run at the names `r` ends. -/
structure Made (p : Process) (abs : Bool) (xs : List Str) (b r : Loc) (a : Option ℤ)
    (fs : FileSystem) : Prop where
  retval : a = some 0
  based : Based fs p abs xs b
  isDir : fs.IsDir (r ++ b)

theorem Made.dirPath {a : Option ℤ} (h : Made p abs xs b r a fs) (hs : Spells abs xs r s)
    (hne : s ≠ []) : fs.DirPath p s := by
  exact dirPath_of_descend h.based.leads hs hne (h.based.descend_ok h.isDir)

/-- The program ends as `Q` says, as long as its `unlink` calls find no directory. -/
abbrev Joins (p : Process) (b : Loc) (Q : Option ℤ → FileSystem → Prop) :
    Code (Option ℤ) → FileSystem → Prop :=
  Safe (exec p) (fun ev => findsDir p ev = false) (Grows b) Q

theorem joins_chown (hb : Based fs p abs xs b) (hd : fs.IsDir (r ++ b)) (uid gid : ℕ) :
    Joins p b (Made p abs xs b r) (.call (.chown s uid gid) fun _ => .ret (some 0)) fs := by
  refine safe_call fun fs' hg _ => ⟨_, _, rfl, grows_chown s uid gid, fun fs'' hg' => ?_⟩
  have hk := (hg.trans (grows_chown s uid gid)).trans hg'
  exact ⟨rfl, hb.grows hk, hk.keeps.dir hd⟩

/-- `mkdir` in a directory that is there. -/
theorem joins_tryMkdir (hb : Based fs p abs xs b) (hs : Spells abs xs r s) (hne : s ≠ [])
    (hpar : fs.IsDir (r.tail ++ b)) (fuel : ℕ) (donor_st : Stat) :
    Joins p b (Made p abs xs b r) (tryMkdir (fuel + 1) s donor donor_st) fs := by
  unfold tryMkdir
  refine safe_call fun fs₁ hg _ => ?_
  have hb₁ := hb.grows hg
  by_cases hd : fs₁.IsDir (r ++ b)
  · refine ⟨_, _, mkdir_of_descend hb₁.leads hs hne (hb₁.descend_ok hd) _, Grows.refl b fs₁, ?_⟩
    refine safe_call fun fs₂ hg₂ _ => ?_
    have hb₂ := hb₁.grows hg₂
    have hd₂ := hg₂.keeps.dir hd
    obtain ⟨st, hst, hloc⟩ := stat_of_descend hb₂.leads hs hne (hb₂.descend_ok hd₂)
    have hdir := (isDir_of_statLoc hloc).1 hd₂
    refine ⟨_, _, congrArg (·, fs₂) hst, Grows.refl b fs₂, ?_⟩
    simp only [hdir, if_true]
    refine safe_call fun fs₃ hg₃ _ => ⟨_, _, rfl, grows_chmod s _, ?_⟩
    have hg₄ : Grows b fs₂ (fs₃.chmod p s donor_st.inode.mode).2 := hg₃.trans (grows_chmod s _)
    exact joins_chown (hb₂.grows hg₄) (hg₄.keeps.dir hd₂) _ _
  · cases r with
    | nil => exact absurd hb₁.leads.isDir hd
    | cons n r =>
      obtain ⟨fs₂, hm, hg₂, hd₂⟩ := mkdir_made hb₁ hs (hg.keeps.dir hpar) hd
        donor_st.inode.mode
      exact ⟨_, _, hm, hg₂, joins_chown (hb₁.grows hg₂) hd₂ _ _⟩

/-- What a run at the names `r` does among others. -/
def JoinsAt (p : Process) (abs : Bool) (xs : List Str) (b r : Loc) : Prop :=
  ∀ (fuel : ℕ) (fs : FileSystem) (s donor : Str), 3 * r.length + 3 ≤ fuel → Spells abs xs r s →
    s ≠ [] → Based fs p abs xs b → Donates fs p donor →
    Joins p b (Made p abs xs b r) (recyclixClonepathRecursive fuel s donor) fs

/-- `mkdir`, wherever it is called. -/
theorem joins_tryMkdir_above {n' : Name} (ih : JoinsAt p abs xs b (n' :: r)) {fuel : ℕ}
    (hfuel : 3 * (n' :: r).length + 3 ≤ fuel) (hb : Based fs p abs xs b) (hdonor : Donates fs p donor)
    (hs : Spells abs xs (n :: n' :: r) s) (donor_st : Stat) :
    Joins p b (Made p abs xs b (n :: n' :: r)) (tryMkdir (fuel + 1) s donor donor_st) fs := by
  have hs' := hs.parent (Or.inr (Or.inr (List.cons_ne_nil n' r)))
  intro fs₁ hg
  have hb₁ := hb.grows hg
  by_cases hpar : fs₁.IsDir (n' :: r ++ b)
  · -- another run has made the directory above by now
    exact joins_tryMkdir hb₁ hs hs.ne_nil hpar fuel donor_st fs₁ (Grows.refl b fs₁)
  · unfold tryMkdir
    intro _
    have hm := mkdir_missing hb₁ hs hpar donor_st.inode.mode
    rw [show exec p (.mkdir s donor_st.inode.mode) fs₁ = (.error .ENOENT, fs₁) from hm]
    refine ⟨Grows.refl b fs₁, safe_call fun fs₂ hg₂ ha => ?_⟩
    have hb₂ := hb₁.grows hg₂
    refine ⟨_, _, unlink_missing hb₂ hs' ha, Grows.refl b fs₂, ?_⟩
    refine Safe.bind (Grows.refl b) (ih fuel fs₂ _ _ hfuel hs' hs'.ne_nil hb₂
      ((hdonor.grows (hg.trans hg₂)).up)) fun a fs₃ h => ?_
    obtain ⟨fuel, rfl⟩ : ∃ f, fuel = f + 1 := ⟨fuel - 1, by omega⟩
    rw [h.retval, if_pos rfl]
    exact joins_tryMkdir h.based hs hs.ne_nil h.isDir fuel donor_st

/-- A run among others ends with 0 and its directory, unless it finds a directory to unlink. -/
theorem joins_clone (r : Loc) : JoinsAt p abs xs b r := by
  induction r with
  | nil =>
    intro fuel fs s donor hfuel hs hne hb hdonor
    obtain ⟨fuel, rfl⟩ : ∃ f, fuel = f + 2 := ⟨fuel - 2, by simp at hfuel; omega⟩
    unfold recyclixClonepathRecursive
    refine safe_call fun fs₁ hg _ => ?_
    obtain ⟨donor_st, hst⟩ := (hdonor.grows hg 0).stat
    have hb₁ := hb.grows hg
    refine ⟨_, _, congrArg (·, fs₁) hst, Grows.refl b fs₁, ?_⟩
    exact joins_tryMkdir hb₁ hs hne hb₁.leads.isDir fuel donor_st
  | cons n r ih =>
    intro fuel fs s donor hfuel hs hne hb hdonor
    rw [List.length_cons] at hfuel
    obtain ⟨fuel, rfl⟩ : ∃ f, fuel = f + 2 := ⟨fuel - 2, by omega⟩
    unfold recyclixClonepathRecursive
    refine safe_call fun fs₁ hg _ => ?_
    obtain ⟨donor_st, hst⟩ := (hdonor.grows hg 0).stat
    have hb₁ := hb.grows hg
    refine ⟨_, _, congrArg (·, fs₁) hst, Grows.refl b fs₁, ?_⟩
    cases r with
    | nil => exact joins_tryMkdir hb₁ hs hne hb₁.leads.isDir fuel donor_st
    | cons n' r => exact joins_tryMkdir_above ih (by omega) hb₁ (hdonor.grows hg) hs donor_st

/-! ## The end of a run -/

theorem composes_within : Composes fun n p => p.Within n where
  ret := within_ret
  mono _ _ _ hn h := h.mono hn
  call _ _ _ _ _ h := h
  unlink _ _ _ _ h := h
  bind _ _ _ _ _ hp hf := hp.bind hf

/-- A run that finds a directory to unlink gives up. -/
theorem composes_stopsAt (p : Process) : Composes fun _ prog =>
    prog.StopsAt (exec p) (fun ev => findsDir p ev = true) (some (-1)) where
  ret _ _ := trivial
  mono _ _ _ _ h := h
  call _ c _ _ hc h := by
    refine ⟨fun fs hf => ?_, h⟩
    cases c <;> first | cases hf | exact absurd trivial hc
  unlink _ s k hk h := by
    refine ⟨fun fs hf => ?_, h⟩
    have hu := unlinkEntry_of_findsDir hf
    show k (fs.unlinkEntry p atFdcwd s).1 = _
    rw [hu, hk]
  bind _ _ _ _ hv hp hf := hp.bind hv hf

/-! ## All runs together -/

/-- A run of `recyclix_clonepath_recursive` and the process it is in. -/
structure Job where
  process : Process
  fuel : ℕ
  p_path : Str
  p_donor : Str

/-- The pathname goes on with names from the directory `b`, and the donor is there. -/
def Job.StartsIn (j : Job) (fs : FileSystem) (b : Loc) : Prop :=
  ∃ abs xs r, 3 * r.length + 3 ≤ j.fuel ∧ Spells abs xs r j.p_path ∧ j.p_path ≠ [] ∧
    fs.Leads j.process abs xs b ∧ Donates fs j.process j.p_donor

variable {ι : Type}

/-- The runs before their first call. -/
def clones (jobs : ι → Job) (fs : FileSystem) : Pool ι Call Call.Answer FileSystem (Option ℤ) :=
  ⟨fs, fun i => recyclixClonepathRecursive (jobs i).fuel (jobs i).p_path (jobs i).p_donor⟩

/-- Who answers the calls of each run. -/
abbrev handlers (jobs : ι → Job) (i : ι) : Handler Call Call.Answer FileSystem :=
  exec (jobs i).process

/-- The run `i` has returned 0 and its directory is there, unless it is still under way. -/
def Succeeds (jobs : ι → Job) (P : Pool ι Call Call.Answer FileSystem (Option ℤ)) (i : ι) : Prop :=
  ∀ a, P.result i = some a →
    a = some 0 ∧ P.state.DirPath (jobs i).process (jobs i).p_path

variable [DecidableEq ι]

/-- Runs that make directories below one directory all succeed, in whatever order they make their
calls, if and only if no `unlink` finds a directory: none that another run has made after the
`mkdir` that missed it.  Every run ends after boundedly many calls. -/
theorem clones_succeed_iff (jobs : ι → Job) (fs : FileSystem) (b : Loc) (hb : OnlyDirs fs b)
    (hjobs : ∀ i, (jobs i).StartsIn fs b) (sched : List ι) :
    (∀ i, cloneSteps (jobs i).fuel ≤ sched.count i →
      ∃ a, ((clones jobs fs).run (handlers jobs) sched).result i = some a) ∧
    ((∀ i, Succeeds jobs ((clones jobs fs).run (handlers jobs) sched) i) ↔
      ∀ x ∈ (clones jobs fs).log (handlers jobs) sched, findsDir (jobs x.1).process x.2 = false) := by
  refine ⟨fun i hi => Pool.exists_result ((composes_within.clone _).1 _ _) hi, ?_, ?_⟩
  · intro h x hx
    by_contra hf
    have hv := Pool.result_of_mem_log (v := fun _ => some (-1))
      (fun i => ((composes_stopsAt (jobs i).process).clone _).1 _ _) hx (by simpa using hf)
    have := (h x.1 _ hv).1
    cases this
  · intro h i a hv
    have hsafe : ∀ i, Safe (handlers jobs i) (fun ev => findsDir (jobs i).process ev = false)
        (Grows b) (fun a fs' => a = some 0 ∧ fs'.DirPath (jobs i).process (jobs i).p_path)
        ((clones jobs fs).thread i) fs := by
      intro i
      obtain ⟨abs, xs, r, hfuel, hs, hne, hl, hdonor⟩ := hjobs i
      refine (joins_clone r _ fs _ _ hfuel hs hne ⟨hl, hb⟩ hdonor).mono fun a fs' hm => ?_
      exact ⟨hm.retval, hm.dirPath hs hne⟩
    exact Pool.of_result (Grows.refl b) (fun _ _ _ => Grows.trans) hsafe h hv

namespace Sample

/-- A directory in `/a`. -/
def deepTree : FileSystem := tree.addChild [a] f dir

/-- Two runs, for `/bin/a/f` and for `/bin/a`. -/
def jobs : Bool → Job
  | true => ⟨process, 9, "/bin/a/f".toList, "/a/f".toList⟩
  | false => ⟨process, 9, "/bin/a".toList, "/a".toList⟩

theorem onlyDirs_deepTree : OnlyDirs deepTree [bin] := by
  have h : ∀ l ∈ deepTree.locs, [bin] <:+ l → deepTree.IsDir l := by decide
  exact fun l hl hd => h l (deepTree.mem_locs l hd) hl

theorem startsIn_jobs (i : Bool) : (jobs i).StartsIn deepTree [bin] := by
  have hl : deepTree.Leads process true ["bin".toList] [bin] := ⟨by decide, by decide⟩
  cases i with
  | true =>
    exact ⟨true, ["bin".toList], [f, a], by decide, ⟨by decide, by decide, by decide⟩, by decide, hl,
      dirPath_dirname (l := [f, a]) ⟨by decide, by decide, by decide⟩ (by decide)⟩
  | false =>
    exact ⟨true, ["bin".toList], [a], by decide, ⟨by decide, by decide, by decide⟩, by decide, hl,
      dirPath_dirname (l := [a]) ⟨by decide, by decide, by decide⟩ (by decide)⟩

end Sample

/-- The second run makes `/bin/a` when the first has missed it and before the first unlinks it. -/
theorem clones_collide :
    OnlyDirs Sample.deepTree [Sample.bin] ∧
    (∀ i, (Sample.jobs i).StartsIn Sample.deepTree [Sample.bin]) ∧
    ((clones Sample.jobs Sample.deepTree).run (handlers Sample.jobs)
      [true, true, false, false, true]).result true = some (some (-1)) :=
  ⟨Sample.onlyDirs_deepTree, Sample.startsIn_jobs, by decide +kernel⟩

/-- The second run comes first. -/
def Sample.inTurn : List Bool := [false, false, false, true, true, true]

theorem clones_succeed_iff_in_turn :
    let P := (clones Sample.jobs Sample.deepTree).run (handlers Sample.jobs) Sample.inTurn
    Succeeds Sample.jobs P true ∧ Succeeds Sample.jobs P false := by
  have h := (clones_succeed_iff Sample.jobs Sample.deepTree [Sample.bin] Sample.onlyDirs_deepTree
    Sample.startsIn_jobs Sample.inTurn).2.2 (by decide +kernel)
  exact ⟨h true, h false⟩

end YazzyPreload.Recyclix

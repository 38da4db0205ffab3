import YazzyPreload.Recyclix.Ancestor
import YazzyPreload.Update

/-!
# Histories

What is in the recycler comes from earlier deletions, and names may be used again with other types.
`after` is the state after a sequence of operations of users and of deletions, and
`unlinkat_after_iff` says when a file can be deleted in such a state: whatever happened before, it
is a matter of what stands on the file's pathname in the recycler (`Clear`).
-/

namespace YazzyPreload.Recyclix

open FileSystem Prog

/-- What happens on the machine: a user makes a file, a directory or a link or renames something, or
something is deleted. -/
inductive Op
  | make (p : Process) (s : Str) (i : Inode)
  | rename (p : Process) (old new : Str)
  | delete (p : Process) (fuel : ℕ) (dirfd : ℤ) (pathname : Str) (flags : Flags)

/-- A new object, if the name is free. -/
def make (fs : FileSystem) (p : Process) (s : Str) (i : Inode) : FileSystem :=
  match fs.targetAt p atFdcwd s with
  | .ok (.entry l n) => fs.addChild l n i
  | _ => fs

/-- The state after an operation. -/
def Op.apply (env : Env) : Op → FileSystem → FileSystem
  | make p s i, fs => Recyclix.make fs p s i
  | rename p old new, fs => (fs.renameat p atFdcwd old atFdcwd new).2
  | delete p fuel dirfd pathname flags, fs =>
    ((unlinkat env fuel dirfd pathname flags).run (exec p) fs).2

/-- The state after a sequence of operations. -/
def after (env : Env) (ops : List Op) (fs : FileSystem) : FileSystem :=
  ops.foldl (fun fs op => op.apply env fs) fs

/-- What holds of every operation of a run and the state it is made in. -/
def Throughout (env : Env) (P : FileSystem → Op → Prop) : List Op → FileSystem → Prop
  | [], _ => True
  | op :: ops, fs => P fs op ∧ Throughout env P ops (op.apply env fs)

variable {fs₀ fs : FileSystem} {p : Process} {l m b' q r₁ r₂ : Loc} {n : Name} {fuel : ℕ} {o : Obj}
  {st1 st2 : Stat} {dirfd : ℤ} {pathname : Str} {flags : Flags} {env : Env} {b : Bin}

theorem make_update (fs : FileSystem) (p : Process) (s : Str) (i : Inode) :
    Update fs (make fs p s i) := by
  unfold make
  cases fs.targetAt p atFdcwd s with
  | error e => exact .none
  | ok t => cases t <;> first | exact .none | exact .addChild _ _ _

theorem kept_apply {I : FileSystem → Prop} (hI : Kept I) (op : Op) (h : I fs) :
    I (op.apply env fs) := by
  cases op with
  | make p s i => exact hI _ _ (make_update fs p s i) h
  | rename p old new => exact hI _ _ (fs.renameat_update p atFdcwd old atFdcwd new) h
  | delete p fuel dirfd pathname flags => exact hI.run _ p h

/-- What updates keep holds in every state that is reached. -/
theorem kept_after {I : FileSystem → Prop} (hI : Kept I) (ops : List Op) (h : I fs) :
    I (after env ops fs) := by
  induction ops generalizing fs with
  | nil => exact h
  | cons op ops ih => exact ih (kept_apply hI op h)

theorem Throughout.mono {P Q : FileSystem → Op → Prop} (hPQ : ∀ fs op, P fs op → Q fs op) {ops : List Op}
    (h : Throughout env P ops fs) : Throughout env Q ops fs := by
  induction ops generalizing fs with
  | nil => trivial
  | cons op ops ih => exact ⟨hPQ fs op h.1, ih h.2⟩

/-! ## Deleting a file -/

/-- Above a file outside of the recycler the search does not take anything for the recycler. -/
theorem climb_ne_none (hown : OwnNumber o fs) (hl : fs.IsDir l) (hout : ¬ Above fs o l) (dev : ℕ) :
    climb fs dev o.ino (n :: l) ≠ none := by
  intro h
  obtain ⟨a, ha, hi⟩ := climb_eq_none_iff.1 h
  have hdir : fs.IsDir a := by
    by_cases e : a = l
    · rwa [e]
    · exact isDir_of_suffix hl.dirent_ne_none ha.suffix e
  exact hout ⟨a, ha.suffix, hown.objAt hdir hi⟩

/-- In every state that is reached from one in which no other directory has the recycler's inode
number, a file outside of the recycler is moved to its pathname there just when what stands on that
pathname can be replaced. -/
theorem unlinkat_after_iff {ops : List Op} (hfs : after env ops fs₀ = fs) (hown : OwnNumber o fs₀)
    (hsel : env.Selects fs p pathname st1 b st2) (ho : st2.obj = o)
    (hst : fs.fstatat p dirfd pathname (statFlags flags) = .ok st1)
    (ht : fs.targetAt p dirfd pathname = .ok (.entry l n)) (hfile : st1.isDir = false)
    (hfuel : enough l ≤ fuel) (hout : ¬ Above fs o l) (hm : Mountpoint fs st1.obj.dev l n m)
    (hpath : BinPath (fun x => x = n :: l ∨ x = n :: (r₂ ++ q)) fs p b.dir l n m b' q r₁ r₂) :
    (((unlinkat env fuel dirfd pathname flags).run (exec p) fs).1.map Exit.retval = some 0 ∧
        Refers ((unlinkat env fuel dirfd pathname flags).run (exec p) fs).2 p
          (recycledPath b.dir (entryPath l n) (mountPath l n m)) st1.obj) ↔
      Clear fs l n b' q r₁ r₂ := by
  subst hfs
  have hown' : OwnNumber o (after env ops fs₀) := kept_after (OwnNumber.kept o) ops hown
  have hl := isDir_of_targetAt ht
  obtain ⟨m', hc⟩ := Option.ne_none_iff_exists'.1 (climb_ne_none (n := n) hown' hl hout st1.obj.dev)
  obtain rfl := hm.eq_of_climb hc
  rw [← ho] at hc
  obtain ⟨hsl, hst1⟩ := statLoc_entry hst ht hfile
  obtain ⟨d, hd, rfl⟩ := statLoc_eq_ok.1 hst1
  have hk := kind_of_fstatat hst ht hd hfile
  obtain ⟨a, fs'', hrun, hcases⟩ :=
    hpath.run_recycle hsel.eligible.stat ht hd hk hsl hfile hfuel
  have hentry := run_unlinkat_entry hsel hst ht hfuel
  rw [hc] at hentry
  dsimp only at hentry
  rw [hrun] at hentry
  constructor
  · rintro ⟨hret, -⟩
    rw [hentry] at hret
    rcases hcases with ⟨rfl, -⟩ | ⟨-, hclear, -⟩
    · simp [Exit.plain] at hret
    · exact hclear
  · intro hclear
    have hret : ((unlinkat env fuel dirfd pathname flags).run (exec p)
        (after env ops fs₀)).1.map Exit.retval = some 0 := by
      rcases hcases with ⟨-, hnot⟩ | ⟨rfl, -⟩
      · exact absurd hclear hnot
      · rw [hentry]
        rfl
    exact ⟨hret, refers_of_climb_eq_some hsel hst ht hfile hfuel hc hret hpath⟩

namespace Sample

/-- One device, with the empty recycler. -/
def empty : FileSystem := (FileSystem.bare ⟨1, 2⟩).addChild [] bin Sample.dir

/-- The file `/a` is deleted, and a directory is given its name. -/
def reuse : List Op :=
  [.make process "/a".toList file, .delete process 12 atFdcwd "/a".toList 0,
    .make process "/a".toList Sample.dir, .make process "/a/b".toList Sample.dir,
    .make process "/a/b/c".toList Sample.dir, .make process "/a/b/c/f".toList file]

/-- The file `/a/f` is deleted, and another one is given its name. -/
def again : List Op :=
  [.make process "/a".toList Sample.dir, .make process "/a/f".toList file,
    .delete process 12 atFdcwd "/a/f".toList 0, .make process "/a/f".toList file]

end Sample

/-- A file cannot be deleted because of a file that was deleted before, two levels above it on its
pathname in the recycler. -/
theorem unlinkat_after_reuse :
    Sample.env.Selects (after Sample.env Sample.reuse Sample.empty) Sample.process
      "/a/b/c/f".toList ⟨⟨1, 8⟩, Sample.file⟩ ⟨"/bin".toList, .initial⟩ ⟨⟨1, 3⟩, Sample.dir⟩ ∧
    ((after Sample.env Sample.reuse Sample.empty).unlinkat Sample.process atFdcwd
      "/a/b/c/f".toList 0).1 = .ok () ∧
    ((unlinkat Sample.env 18 atFdcwd "/a/b/c/f".toList 0).run (exec Sample.process)
      (after Sample.env Sample.reuse Sample.empty)).1.map Exit.retval = some (-1) := by
  refine ⟨⟨⟨"/bin".toList, [], "/bin".toList, [], rfl, by decide +kernel,
    fun x hx => absurd hx List.not_mem_nil, by decide +kernel⟩,
    ⟨by decide +kernel, rfl, by decide +kernel, rfl⟩⟩, ?_⟩
  decide +kernel

theorem unlinkat_after_iff_again : Clear (after Sample.env Sample.again Sample.empty)
    [Sample.name "a"] (Sample.name "f") [Sample.name "bin"] [Sample.name "a", Sample.name "bin"]
    [Sample.name "a"] [] := by
  have hown : OwnNumber ⟨1, 3⟩ Sample.empty := by
    refine ⟨by decide +kernel, fun l d hd hk hi => ?_⟩
    have hall : ∀ l ∈ Sample.empty.locs, ∀ d ∈ Sample.empty.dirent l, d.obj.ino = 3 →
        d.obj = ⟨1, 3⟩ := by decide +kernel
    exact hall l (Sample.empty.mem_locs l (by simp [hd])) d hd hi
  have hsel : Sample.env.Selects (after Sample.env Sample.again Sample.empty) Sample.process
      "/a/f".toList ⟨⟨1, 7⟩, Sample.file⟩ ⟨"/bin".toList, .initial⟩ ⟨⟨1, 3⟩, Sample.dir⟩ :=
    ⟨⟨"/bin".toList, [], "/bin".toList, [], rfl, by decide +kernel,
      fun x hx => absurd hx List.not_mem_nil, by decide +kernel⟩,
      ⟨by decide +kernel, rfl, by decide +kernel, rfl⟩⟩
  have hdev : ∀ a ∈ [Sample.name "a"].tails,
      ((after Sample.env Sample.again Sample.empty).objAt a).map Obj.dev = some 1 := by
    decide +kernel
  have hpath : BinPath (fun x => x = [Sample.name "f", Sample.name "a"] ∨
      x = Sample.name "f" :: ([] ++ [Sample.name "a", Sample.name "bin"]))
      (after Sample.env Sample.again Sample.empty) Sample.process "/bin".toList [Sample.name "a"]
      (Sample.name "f") [] [Sample.name "bin"] [Sample.name "a", Sample.name "bin"]
      [Sample.name "a"] [] :=
    ⟨Or.inl rfl, rfl, by decide +kernel, by decide +kernel, fun s c e => by simp at e,
      fun s c e => by simp at e⟩
  have hst : (after Sample.env Sample.again Sample.empty).fstatat Sample.process atFdcwd
      "/a/f".toList (statFlags 0) = .ok ⟨⟨1, 7⟩, Sample.file⟩ := by decide +kernel
  have hm : Mountpoint (after Sample.env Sample.again Sample.empty) 1 [Sample.name "a"]
      (Sample.name "f") [] :=
    ⟨List.nil_suffix, fun a ha _ => hdev a ((List.mem_tails _ _).2 ha), Or.inl rfl⟩
  have hiff := unlinkat_after_iff rfl hown hsel rfl hst (by decide +kernel) rfl
    (show enough _ ≤ 15 by decide) (by decide +kernel) hm hpath
  refine hiff.1 ⟨by decide +kernel, [Sample.name "f", Sample.name "a", Sample.name "bin"], ?_, ?_⟩
  · decide +kernel
  · decide +kernel

end YazzyPreload.Recyclix

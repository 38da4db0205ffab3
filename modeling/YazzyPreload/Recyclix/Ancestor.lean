import Mathlib.Data.List.Infix
import YazzyPreload.Recyclix.Move

/-!
# What the search from a file upwards decides

The real `unlinkat` is meant for what is in the recycler already, and the search for the root of
the file system decides it by comparing inode numbers.  `climb_eq_none_iff` says which directories
it looks at, and `unlinkat_purges_iff` when its verdict is that the recycler is above the file: the
last directory it looks at is on another device, where the recycler's inode number may be given to
something else.
-/

namespace YazzyPreload.Recyclix

open FileSystem Prog

variable {fs fs' : FileSystem} {p : Process} {a b l m v : Loc} {n : Name} {fuel dev rino : ℕ} {o : Obj}
  {st1 st2 : Stat} {dirfd : ℤ} {pathname dir : Str} {flags : Flags} {env : Env}

/-- The object is a directory above the entries of the directory at `l`. -/
def Above (fs : FileSystem) (o : Obj) (l : Loc) : Prop := ∃ a, a <:+ l ∧ fs.objAt a = some o

instance (fs : FileSystem) (o : Obj) (l : Loc) : Decidable (Above fs o l) :=
  decidable_of_iff (∃ a ∈ l.tails, fs.objAt a = some o) (by simp [Above, List.mem_tails])

/-- The search from the entries of the directory at `l` upwards comes to `a` if it does not stop
before: everything below is on the device. -/
structure Visited (fs : FileSystem) (dev : ℕ) (l a : Loc) : Prop where
  suffix : a <:+ l
  dev_eq : ∀ a', a' <:+ l → a.length < a'.length → (fs.objAt a').map Obj.dev = some dev

/-- Where the search comes to a directory on another device without having met the recycler, that
directory has the recycler's inode number just when the recycler is further up. -/
def Sound (fs : FileSystem) (o : Obj) (l : Loc) : Prop :=
  ∀ v, Visited fs o.dev l v → (fs.objAt v).map Obj.dev ≠ some o.dev →
    (∀ a, a <:+ l → v.length < a.length → fs.objAt a ≠ some o) →
    ((fs.objAt v).map Obj.ino = some o.ino ↔ Above fs o l)

/-! ## The search -/

theorem Visited.refl (fs : FileSystem) (dev : ℕ) (l : Loc) : Visited fs dev l l :=
  ⟨List.suffix_rfl, fun _ ha hlt => absurd ha.length_le (Nat.not_le.2 hlt)⟩

theorem visited_cons : Visited fs dev (n :: l) a ↔
    a = n :: l ∨ ((fs.objAt (n :: l)).map Obj.dev = some dev ∧ Visited fs dev l a) := by
  constructor
  · intro h
    rcases List.suffix_cons_iff.1 h.suffix with rfl | hs
    · exact Or.inl rfl
    · right
      refine ⟨h.dev_eq _ List.suffix_rfl (Nat.lt_succ_of_le hs.length_le), hs, fun a' ha' hlt => ?_⟩
      exact h.dev_eq a' (ha'.trans (List.suffix_cons n l)) hlt
  · rintro (rfl | ⟨hdev, hs, h⟩)
    · exact Visited.refl fs dev _
    · refine ⟨hs.trans (List.suffix_cons n l), fun a' ha' hlt => ?_⟩
      rcases List.suffix_cons_iff.1 ha' with rfl | ha'
      · exact hdev
      · exact h a' ha' hlt

/-- The search meets the recycler's inode number at one of the directories it comes to. -/
theorem climb_eq_none_iff : climb fs dev rino (n :: l) = none ↔
    ∃ a, Visited fs dev l a ∧ (fs.objAt a).map Obj.ino = some rino := by
  induction l generalizing n with
  | nil =>
    rw [climb]
    constructor
    · intro h
      split_ifs at h with h1 h2
      · exact ⟨[], Visited.refl fs dev [], h1⟩
      · cases h
    · rintro ⟨a, ha, hino⟩
      rw [List.suffix_nil.1 ha.suffix] at hino
      rw [if_pos hino]
  | cons c l ih =>
    rw [climb]
    constructor
    · intro h
      split_ifs at h with h1 h2
      · exact ⟨c :: l, Visited.refl fs dev _, h1⟩
      · obtain ⟨a, ha, hino⟩ := ih.1 h
        exact ⟨a, visited_cons.2 (Or.inr ⟨h2, ha⟩), hino⟩
    · rintro ⟨a, ha, hino⟩
      split_ifs with h1 h2
      · rfl
      · rcases visited_cons.1 ha with rfl | ⟨-, ha⟩
        · exact absurd hino h1
        · exact ih.2 ⟨a, ha, hino⟩
      · rcases visited_cons.1 ha with rfl | ⟨hdev, -⟩
        · exact absurd hino h1
        · exact absurd hdev h2

theorem objAt_eq_of_map (hd : (fs.objAt a).map Obj.dev = some o.dev)
    (hi : (fs.objAt a).map Obj.ino = some o.ino) : fs.objAt a = some o := by
  obtain ⟨o', ho', hd⟩ := Option.map_eq_some_iff.1 hd
  rw [ho', Option.map_some, Option.some_inj] at hi
  rw [ho']
  cases o
  cases o'
  simp_all

/-- Above a directory on another device there is a nearest one. -/
theorem exists_visited (ha : a <:+ l) (hdev : (fs.objAt a).map Obj.dev ≠ some dev) :
    ∃ v, Visited fs dev l v ∧ (fs.objAt v).map Obj.dev ≠ some dev ∧ a.length ≤ v.length := by
  induction l with
  | nil =>
    obtain rfl := List.suffix_nil.1 ha
    exact ⟨[], Visited.refl fs dev [], hdev, le_rfl⟩
  | cons c l ih =>
    by_cases h : (fs.objAt (c :: l)).map Obj.dev = some dev
    · rcases List.suffix_cons_iff.1 ha with rfl | ha
      · exact absurd h hdev
      · obtain ⟨v, hv, hvd, hle⟩ := ih ha
        exact ⟨v, visited_cons.2 (Or.inr ⟨h, hv⟩), hvd, hle⟩
    · exact ⟨c :: l, Visited.refl fs dev _, h, ha.length_le⟩

/-- The search comes to nothing above a directory on another device. -/
theorem Visited.length_le (hv : (fs.objAt v).map Obj.dev ≠ some dev) (hs : v <:+ l)
    (ha : Visited fs dev l a) : v.length ≤ a.length := by
  by_contra h
  exact hv (ha.dev_eq v hs (Nat.not_le.1 h))

/-- The verdict of the search is right. -/
theorem climb_eq_none_iff_above_iff :
    (climb fs o.dev o.ino (n :: l) = none ↔ Above fs o l) ↔ Sound fs o l := by
  rw [climb_eq_none_iff]
  constructor
  · intro h v hv hdev hnot
    rw [← h]
    constructor
    · exact fun hino => ⟨v, hv, hino⟩
    · rintro ⟨a, ha, hino⟩
      have hle := Visited.length_le hdev hv.suffix ha
      by_cases hlt : v.length < a.length
      · exact absurd (objAt_eq_of_map (hv.dev_eq a ha.suffix hlt) hino) (hnot a ha.suffix hlt)
      · have hs : a <:+ v := List.suffix_of_suffix_length_le ha.suffix hv.suffix (by omega)
        rwa [hs.eq_of_length (by omega)] at hino
  · intro h
    constructor
    · rintro ⟨a, ha, hino⟩
      by_cases hdev : (fs.objAt a).map Obj.dev = some o.dev
      · exact ⟨a, ha.suffix, objAt_eq_of_map hdev hino⟩
      · by_cases hnot : ∀ a', a' <:+ l → a.length < a'.length → fs.objAt a' ≠ some o
        · exact (h a ha hdev hnot).1 hino
        · push Not at hnot
          obtain ⟨a', ha', -, ho⟩ := hnot
          exact ⟨a', ha', ho⟩
    · rintro ⟨a, ha, ho⟩
      have hino : (fs.objAt a).map Obj.ino = some o.ino := by rw [ho, Option.map_some]
      by_cases hvis : ∀ a', a' <:+ l → a.length < a'.length → (fs.objAt a').map Obj.dev = some o.dev
      · exact ⟨a, ⟨ha, hvis⟩, hino⟩
      · push Not at hvis
        obtain ⟨a', ha', -, hdev⟩ := hvis
        obtain ⟨v, hv, hvd, -⟩ := exists_visited ha' hdev
        by_cases hnot : ∀ a', a' <:+ l → v.length < a'.length → fs.objAt a' ≠ some o
        · exact ⟨v, hv, (h v hv hvd hnot).2 ⟨a, ha, ho⟩⟩
        · push Not at hnot
          obtain ⟨a', ha', hlt, ho'⟩ := hnot
          refine ⟨a', ⟨ha', fun a'' ha'' hlt' => hv.dev_eq a'' ha'' (hlt.trans hlt')⟩, ?_⟩
          rw [ho', Option.map_some]

/-! ## The calls -/

/-- The calls that may end `unlinkat`. -/
def Final : Call → Prop
  | .unlinkat .. | .renameat .. => True
  | _ => False

/-- The calls that only ask. -/
def Query : Call → Prop
  | .fstatat .. | .stat _ | .getcwd | .readlinkFd _ | .realpath _ => True
  | _ => False

theorem only_nextRecycler (items : List Str) : (nextRecycler env pathname st1 items).Only Query := by
  induction items with
  | nil => trivial
  | cons item items ih =>
    unfold nextRecycler
    dsimp only
    split_ifs
    · exact ih
    · cases readOptions env.regcomp pathname (binOptions (expandHome env.home item)) .initial with
      | none => trivial
      | some lim =>
        refine ⟨trivial, fun r => ?_⟩
        cases r with
        | error e => exact ih
        | ok st2 =>
          dsimp only
          split_ifs
          · exact ih
          · trivial
          · exact ih

theorem only_findRoot (fq t : Str) : (findRoot st1 rino fq fuel t).Only Query := by
  induction fuel generalizing t with
  | zero => trivial
  | succ fuel ih =>
    unfold findRoot
    refine ⟨trivial, fun r => ?_⟩
    cases r with
    | error e => trivial
    | ok st2 =>
      dsimp only
      split_ifs <;> first | trivial | exact ih _

theorem only_fullPath (dirfd : ℤ) (pathname : Str) : (fullPath dirfd pathname).Only Query := by
  unfold fullPath
  split_ifs
  · trivial
  · exact ⟨trivial, fun r => by cases r <;> trivial⟩
  · exact ⟨trivial, fun r => by cases r <;> trivial⟩

theorem only_locate : (locate fuel dirfd pathname st1 rino).Only Query := by
  refine (only_fullPath dirfd pathname).bind fun r => ?_
  cases r with
  | error e => trivial
  | ok s =>
    refine ⟨trivial, fun r => ?_⟩
    cases r with
    | error e => trivial
    | ok ptr => exact only_findRoot _ _

/-- The calls on an entry for which there is a recycler: after the search there is nothing but the
real call, or recycling. -/
theorem calls_unlinkat_entry {b : Bin} (hsel : env.Selects fs p pathname st1 b st2)
    (hst : fs.fstatat p dirfd pathname (statFlags flags) = .ok st1)
    (ht : fs.targetAt p dirfd pathname = .ok (.entry l n)) (hfuel : enough l ≤ fuel) :
    ∃ cs : List Call, (∀ c ∈ cs, Query c) ∧
      (unlinkat env fuel dirfd pathname flags).calls (exec p) fs = cs ++
        match climb fs st1.obj.dev st2.obj.ino (n :: l) with
        | none => [.unlinkat dirfd pathname flags]
        | some m => (recycle fuel dirfd pathname flags st1 b.dir (entryPath l n)
            (mountPath l n m)).calls (exec p) fs := by
  obtain ⟨recyclers, pre, item, post, hr, hi, hpre, hb⟩ := hsel.item
  refine ⟨.fstatat dirfd pathname (statFlags flags) ::
    ((nextRecycler env pathname st1 (recyclers.splitOn ':')).calls (exec p) fs ++
      (locate fuel dirfd pathname st1 st2.obj.ino).calls (exec p) fs), ?_, ?_⟩
  · intro c hc
    rw [List.mem_cons, List.mem_append] at hc
    rcases hc with rfl | hc | hc
    · trivial
    · exact (only_nextRecycler _).of_mem_calls hc
    · exact only_locate.of_mem_calls hc
  · simp only [unlinkat, hr, calls_call, exec, hst]
    rw [calls_bind, run_nextRecycler_eligible hi hpre hb hsel.eligible, dropFile, calls_bind,
      run_locate ht hfuel, located, List.cons_append, List.append_assoc]
    cases climb fs st1.obj.dev st2.obj.ino (n :: l) <;> rfl

/-- Recycling a file makes no call of the real `unlinkat`. -/
theorem notMem_calls_recycle {fq mp : Str} (hfile : st1.isDir = false) (s : Str) (i : ℤ)
    (flags' : Flags) : Call.unlinkat i s flags' ∉
      (recycle fuel dirfd pathname flags st1 dir fq mp).calls (exec p) fs := by
  intro h
  rw [recycle, calls_bind, List.mem_append] at h
  rcases h with h | h
  · exact ((only_clone fuel).1 _ _).of_mem_calls h
  · generalize (recyclixClonepathRecursive fuel _ _).run (exec p) fs = c at h
    obtain ⟨_ | retval, fs'⟩ := c
    · cases h
    · simp only [hfile, Bool.false_eq_true, if_false] at h
      split_ifs at h
      · cases h
      · rw [calls_call, List.mem_cons, calls_ret] at h
        rcases h with h | h <;> cases h

/-! ## The verdict -/

/-- The mountpoint of the entry: the highest place with nothing of another device in between. -/
structure Mountpoint (fs : FileSystem) (dev : ℕ) (l : Loc) (n : Name) (m : Loc) : Prop where
  suffix : m <:+ n :: l
  dev_eq : ∀ a, a <:+ l → m.length ≤ a.length → (fs.objAt a).map Obj.dev = some dev
  top : m = [] ∨ (fs.objAt m.tail).map Obj.dev ≠ some dev

theorem Mountpoint.eq_of_climb (h : Mountpoint fs dev l n m) {m' : Loc}
    (hc : climb fs dev rino (n :: l) = some m') : m' = m := by
  induction l generalizing n with
  | nil =>
    rw [climb] at hc
    split_ifs at hc with h1 h2
    · cases hc
      rcases List.suffix_cons_iff.1 h.suffix with rfl | hs
      · exact absurd h2 (h.top.resolve_left (List.cons_ne_nil n []))
      · exact (List.suffix_nil.1 hs).symm
    · cases hc
      rcases List.suffix_cons_iff.1 h.suffix with rfl | hs
      · rfl
      · exact absurd (h.dev_eq [] List.suffix_rfl hs.length_le) h2
  | cons c l ih =>
    rw [climb] at hc
    split_ifs at hc with h1 h2
    · rcases List.suffix_cons_iff.1 h.suffix with rfl | hs
      · exact absurd h2 (h.top.resolve_left (List.cons_ne_nil n _))
      · refine ih ⟨hs, fun a ha hle => ?_, h.top⟩ hc
        exact h.dev_eq a (ha.trans (List.suffix_cons c l)) hle
    · cases hc
      rcases List.suffix_cons_iff.1 h.suffix with rfl | hs
      · rfl
      · exact absurd (h.dev_eq _ List.suffix_rfl hs.length_le) h2

section Verdict

variable {b : Bin} (hsel : env.Selects fs p pathname st1 b st2)
  (hst : fs.fstatat p dirfd pathname (statFlags flags) = .ok st1)
  (ht : fs.targetAt p dirfd pathname = .ok (.entry l n)) (hfile : st1.isDir = false)
  (hfuel : enough l ≤ fuel)

include hsel hst ht hfile hfuel

/-- The real `unlinkat` is called just when the search says so. -/
theorem mem_calls_unlinkat_iff :
    Call.unlinkat dirfd pathname flags ∈ (unlinkat env fuel dirfd pathname flags).calls (exec p) fs ↔
      climb fs st1.obj.dev st2.obj.ino (n :: l) = none := by
  obtain ⟨cs, hcs, hcalls⟩ := calls_unlinkat_entry hsel hst ht hfuel
  rw [hcalls, List.mem_append]
  have hnot : Call.unlinkat dirfd pathname flags ∉ cs := fun h => hcs _ h
  cases climb fs st1.obj.dev st2.obj.ino (n :: l) with
  | none => simp
  | some m =>
    refine iff_of_false (fun h => ?_) (by simp)
    exact h.elim hnot (notMem_calls_recycle hfile _ _ _)

omit hfile in
/-- Then its result is returned, and nothing is moved. -/
theorem run_of_climb_eq_none (hc : climb fs st1.obj.dev st2.obj.ino (n :: l) = none) :
    (unlinkat env fuel dirfd pathname flags).run (exec p) fs =
        (some (.plain (retvalOf (fs.unlinkat p dirfd pathname flags).1)),
          (fs.unlinkat p dirfd pathname flags).2) ∧
      ∀ i s j t, Call.renameat i s j t ∉
        (unlinkat env fuel dirfd pathname flags).calls (exec p) fs := by
  obtain ⟨cs, hcs, hcalls⟩ := calls_unlinkat_entry hsel hst ht hfuel
  refine ⟨?_, fun i s j t h => ?_⟩
  · rw [run_unlinkat_entry hsel hst ht hfuel, hc]
  · rw [hcalls, hc, List.mem_append] at h
    rcases h with h | h
    · exact hcs _ h
    · simp at h

/-- Otherwise a file for which 0 is returned is found at its pathname in the recycler. -/
theorem refers_of_climb_eq_some {q r₁ r₂ b' : Loc}
    (hc : climb fs st1.obj.dev st2.obj.ino (n :: l) = some m)
    (hret : ((unlinkat env fuel dirfd pathname flags).run (exec p) fs).1.map Exit.retval = some 0)
    (hpath : BinPath (fun x => x = n :: l ∨ x = n :: (r₂ ++ q)) fs p b.dir l n m b' q r₁ r₂) :
    Refers ((unlinkat env fuel dirfd pathname flags).run (exec p) fs).2 p
      (recycledPath b.dir (entryPath l n) (mountPath l n m)) st1.obj := by
  obtain ⟨hsl, hst1⟩ := statLoc_entry hst ht hfile
  obtain ⟨d, hd, rfl⟩ := statLoc_eq_ok.1 hst1
  have hk := kind_of_fstatat hst ht hd hfile
  have hstat := hsel.eligible.stat
  have hdir := ne_nil_of_stat hstat
  obtain ⟨a, fs'', hrun, hcases⟩ := hpath.run_recycle hstat ht hd hk hsl hfile hfuel
  rw [run_unlinkat_entry hsel hst ht hfuel, hc] at hret ⊢
  dsimp only at hret ⊢
  rw [hrun] at hret ⊢
  rcases hcases with ⟨rfl, -⟩ | ⟨rfl, -, fs', hv, hg, ⟨hdisp, rfl⟩ | ⟨hsame, rfl⟩⟩
  · simp [Exit.plain] at hret
  · have hu : ∀ s c, r₂ = s ++ [c] → ∀ d, fs.dirent (c :: q) = some d → d.mounted = false :=
      fun s c e => (hv s c e).unmounted
    have hdisp' := (hg.displaces_iff hu hpath.blocked (hpath.entry_not_made (by simp [hd]))
      fun s _ => BinPath.dest_not_made s).2 hdisp
    exact (hpath.refers_moved (Or.inl rfl) (Or.inl (Or.inr rfl)) hg hd hk hdir hdisp').1
  · exact hpath.refers_same hg hd hdir hsame

/-- The real `unlinkat` is called just for what is below the recycler, and then decides, as long as
no directory on another device is taken for the recycler or hides it; and then a file that is not
below the recycler and for which 0 is returned is found at its pathname in the recycler, if the way
there does not lead through the file or through what it replaces. -/
theorem unlinkat_purges_iff :
    (((Call.unlinkat dirfd pathname flags ∈
          (unlinkat env fuel dirfd pathname flags).calls (exec p) fs ↔ Above fs st2.obj l) ∧
        (Above fs st2.obj l →
          (unlinkat env fuel dirfd pathname flags).run (exec p) fs =
              (some (.plain (retvalOf (fs.unlinkat p dirfd pathname flags).1)),
                (fs.unlinkat p dirfd pathname flags).2) ∧
            ∀ i s j t, Call.renameat i s j t ∉
              (unlinkat env fuel dirfd pathname flags).calls (exec p) fs)) ↔
      Sound fs st2.obj l) ∧
    (Sound fs st2.obj l → ¬ Above fs st2.obj l →
      ((unlinkat env fuel dirfd pathname flags).run (exec p) fs).1.map Exit.retval = some 0 →
      ∀ m b' q r₁ r₂, Mountpoint fs st1.obj.dev l n m →
        BinPath (fun x => x = n :: l ∨ x = n :: (r₂ ++ q)) fs p b.dir l n m b' q r₁ r₂ →
        Refers ((unlinkat env fuel dirfd pathname flags).run (exec p) fs).2 p
          (recycledPath b.dir (entryPath l n) (mountPath l n m)) st1.obj) := by
  have hdev : st2.obj.dev = st1.obj.dev := hsel.eligible.dev
  have hverdict : (climb fs st2.obj.dev st2.obj.ino (n :: l) = none ↔ Above fs st2.obj l) ↔
      Sound fs st2.obj l := climb_eq_none_iff_above_iff
  have hmem := mem_calls_unlinkat_iff hsel hst ht hfile hfuel
  rw [hdev] at hverdict
  refine ⟨?_, fun hsound habove hret m b' q r₁ r₂ hm hpath => ?_⟩
  · rw [hmem]
    constructor
    · exact fun h => hverdict.1 h.1
    · intro h
      have hiff := hverdict.2 h
      exact ⟨hiff, fun habove => run_of_climb_eq_none hsel hst ht hfuel (hiff.2 habove)⟩
  · have hiff := hverdict.2 hsound
    cases hc : climb fs st1.obj.dev st2.obj.ino (n :: l) with
    | none => exact absurd (hiff.1 hc) habove
    | some m' =>
      obtain rfl := hm.eq_of_climb hc
      exact refers_of_climb_eq_some hsel hst ht hfile hfuel hc hret hpath

end Verdict

namespace Sample

/-- A file system mounted on `/m`, with the recycler `/m/bin` and the file `/m/f`; the root directory
of the machine has the inode number of the recycler. -/
def foreign : FileSystem :=
  (((FileSystem.bare ⟨2, 3⟩).insert [] (name "m") ⟨⟨1, 2⟩, true⟩ Sample.dir).insert [name "m"]
    bin ⟨⟨1, 3⟩, false⟩ Sample.dir).insert [name "m"] f ⟨⟨1, 4⟩, false⟩ file

/-- The recycler `/m/bin`. -/
def foreignEnv : Env := ⟨some "/m/bin".toList, none, fun _ => none⟩

end Sample

/-- A file that is not in the recycler is removed for good, because the root directory is taken for
the recycler. -/
theorem unlinkat_purges_foreign :
    Sample.foreignEnv.Selects Sample.foreign Sample.process "/m/f".toList ⟨⟨1, 4⟩, Sample.file⟩
      ⟨"/m/bin".toList, .initial⟩ ⟨⟨1, 3⟩, Sample.dir⟩ ∧
    ¬ Above Sample.foreign ⟨1, 3⟩ [Sample.name "m"] ∧
    Call.unlinkat atFdcwd "/m/f".toList 0 ∈
      (unlinkat Sample.foreignEnv 15 atFdcwd "/m/f".toList 0).calls (exec Sample.process)
        Sample.foreign ∧
    ((unlinkat Sample.foreignEnv 15 atFdcwd "/m/f".toList 0).run (exec Sample.process)
      Sample.foreign).1.map Exit.retval = some 0 ∧
    ∀ l ∈ Sample.foreign.locs, ((unlinkat Sample.foreignEnv 15 atFdcwd "/m/f".toList 0).run
      (exec Sample.process) Sample.foreign).2.objAt l ≠ some ⟨1, 4⟩ := by
  refine ⟨⟨⟨"/m/bin".toList, [], "/m/bin".toList, [], rfl, by decide +kernel,
    fun x hx => absurd hx List.not_mem_nil, by decide +kernel⟩,
    ⟨by decide +kernel, rfl, by decide +kernel, rfl⟩⟩, ?_⟩
  decide +kernel

theorem unlinkat_purges_iff_fileTree :
    Call.unlinkat atFdcwd "/a/f".toList 0 ∉
      (unlinkat Sample.env 15 atFdcwd "/a/f".toList 0).calls (exec Sample.process)
        Sample.fileTree ∧
    Refers ((unlinkat Sample.env 15 atFdcwd "/a/f".toList 0).run (exec Sample.process)
      Sample.fileTree).2 Sample.process "/bin//a/f".toList ⟨1, 5⟩ := by
  have hsel : Sample.env.Selects Sample.fileTree Sample.process "/a/f".toList
      ⟨⟨1, 5⟩, Sample.file⟩ ⟨"/bin".toList, .initial⟩ ⟨⟨1, 3⟩, Sample.dir⟩ :=
    ⟨⟨"/bin".toList, [], "/bin".toList, [], rfl, by decide +kernel,
      fun x hx => absurd hx List.not_mem_nil, by decide +kernel⟩,
      ⟨by decide +kernel, rfl, by decide +kernel, rfl⟩⟩
  have ht : Sample.fileTree.targetAt Sample.process atFdcwd "/a/f".toList =
      .ok (.entry [Sample.name "a"] (Sample.name "f")) := by decide +kernel
  have hst : Sample.fileTree.fstatat Sample.process atFdcwd "/a/f".toList (statFlags 0) =
      .ok ⟨⟨1, 5⟩, Sample.file⟩ := by decide +kernel
  have habove : ¬ Above Sample.fileTree ⟨1, 3⟩ [Sample.name "a"] := by decide +kernel
  have hdev : ∀ a ∈ [Sample.name "a"].tails,
      (Sample.fileTree.objAt a).map Obj.dev = some 1 := by decide +kernel
  have hsound : Sound Sample.fileTree ⟨1, 3⟩ [Sample.name "a"] := fun v hv hne =>
    absurd (hdev v ((List.mem_tails _ _).2 hv.suffix)) hne
  have hpath : BinPath (fun x => x = [Sample.name "f", Sample.name "a"] ∨
      x = [Sample.name "f", Sample.name "a", Sample.name "bin"]) Sample.fileTree Sample.process
      "/bin".toList [Sample.name "a"] (Sample.name "f") [] [Sample.name "bin"] [Sample.name "bin"] []
      [Sample.name "a"] := by
    refine ⟨Or.inl rfl, rfl, by decide +kernel, by decide +kernel, fun s c e => ?_, fun s c e => ?_⟩
    · obtain ⟨-, e⟩ := @List.append_inj' _ [] _ _ _ e rfl
      cases e
      exact blocked_of_none (by decide +kernel) (by decide +kernel)
    · obtain ⟨-, e⟩ := @List.append_inj' _ [] _ _ _ e rfl
      cases e
      decide
  obtain ⟨hiff, hrefers⟩ := unlinkat_purges_iff hsel hst ht rfl (show enough _ ≤ 15 by decide)
  refine ⟨fun h => habove ((hiff.2 hsound).1.1 h), ?_⟩
  exact hrefers hsound habove (by decide +kernel) [] [Sample.name "bin"] [Sample.name "bin"] []
    [Sample.name "a"]
    ⟨List.nil_suffix, fun a ha _ => hdev a ((List.mem_tails _ _).2 ha), Or.inl rfl⟩ hpath

end YazzyPreload.Recyclix

import YazzyPreload.Recyclix.History
import YazzyPreload.Recyclix.Rmdir

/-!
# What deleting changes outside of the recycler

A call clones directories into the recycler and moves the file there.  Both follow links, so they
change something elsewhere when the names of the entry lead out of the recycler's directory.
`unlinkat_spares` says that nothing else can go wrong (`Confined`), and `throughout_spares` draws
the conclusion for runs.
-/

namespace YazzyPreload.Recyclix

open FileSystem Prog

variable {fs fs' fs'' : FileSystem} {p : Process} {b e l m r src dst : Loc} {n : Name} {fuel : ℕ}
  {st1 st2 : Stat} {dirfd : ℤ} {pathname dir : Str} {flags : Flags} {env : Env} {B : Loc → Prop}

/-- Nothing outside of `B` changes, except that the entry at `e` may go. -/
structure Spared (fs fs' : FileSystem) (B : Loc → Prop) (e : Loc) : Prop where
  dirent : ∀ x, ¬ B x → x ≠ e → fs'.dirent x = fs.dirent x
  entry : ¬ B e → fs'.dirent e = fs.dirent e ∨ fs'.dirent e = none
  inode : ∀ x d, ¬ B x → fs.dirent x = some d → fs'.inode d.obj = fs.inode d.obj

/-- Nothing outside of `B` changes. -/
structure Within (fs fs' : FileSystem) (B : Loc → Prop) : Prop where
  dirent : ∀ x, ¬ B x → fs'.dirent x = fs.dirent x
  inode : ∀ x d, ¬ B x → fs.dirent x = some d → fs'.inode d.obj = fs.inode d.obj

/-- With a place everything below it belongs to `B`. -/
def Closed (B : Loc → Prop) : Prop := ∀ x y, B x → x <:+ y → B y

theorem Within.refl (fs : FileSystem) (B : Loc → Prop) : Within fs fs B :=
  ⟨fun _ _ => rfl, fun _ _ _ _ => rfl⟩

theorem Within.spared (h : Within fs fs' B) (h' : Spared fs' fs'' B e) : Spared fs fs'' B e := by
  refine ⟨fun x hx hne => ?_, fun he => ?_, fun x d hx hd => ?_⟩
  · rw [h'.dirent x hx hne, h.dirent x hx]
  · rw [← h.dirent e he]
    exact h'.entry he
  · rw [h'.inode x d hx ((h.dirent x hx).trans hd), h.inode x d hx hd]

theorem Spared.refl (fs : FileSystem) (B : Loc → Prop) (e : Loc) : Spared fs fs B e :=
  ⟨fun _ _ _ => rfl, fun _ => Or.inl rfl, fun _ _ _ _ => rfl⟩

/-! ## What the calls change -/

/-- The real call changes nothing but the entry it removes. -/
theorem spared_unlinkat (ht : fs.targetAt p dirfd pathname = .ok (.entry l n)) (flags : Flags)
    (B : Loc → Prop) : Spared fs (fs.unlinkat p dirfd pathname flags).2 B (n :: l) := by
  rcases fs.unlinkat_cases p dirfd pathname flags with ⟨e, h⟩ | ⟨l', n', ht', -, hc, h⟩
  · rw [h]
    exact Spared.refl fs B _
  · rw [ht] at ht'
    cases ht'
    rw [h]
    have hdirent := dirent_erase (List.cons_ne_nil n l) hc
    refine ⟨fun x _ hne => ?_, fun _ => Or.inr ?_, fun x d _ _ => ?_⟩
    · rw [hdirent, if_neg hne]
    · rw [hdirent, if_pos rfl]
    · rw [inode_erase]

/-- Directories grafted in `B`. -/
theorem within_of_grafted {q r₂ : Loc} (hg : fs.Grafted fs' q r₂) (hq : fs.IsDir q) (hB : Closed B)
    (hqB : B q) : Within fs fs' B := by
  refine ⟨fun x hx => ?_, fun x d hx hd => ?_⟩
  · apply hg.dirent
    rintro s - - rfl
    exact hx (hB q _ hqB (List.suffix_append s q))
  · apply hg.inode d.obj (fs.ino_lt x d hd)
    intro _ ho
    have hqx : q = x := hq.eq_of_objAt (by rw [ho, objAt, hd, Option.map_some])
    exact hx (hqx ▸ hqB)

/-- A file moved into `B`. -/
theorem spared_move (h : fs.Movable src dst) (hB : Closed B) (hdst : B dst)
    (hsrc : ¬ B src → ¬ fs.IsDir src) : Spared fs (fs.move src dst) B src := by
  have hmove := dirent_move h.guard
  refine ⟨fun x hx hne => ?_, fun he => Or.inr ?_, fun x d _ _ => ?_⟩
  · have hd : ¬ dst <:+ x := fun hs => hx (hB dst x hdst hs)
    rw [hmove]
    by_cases hs : src <:+ x
    · have hnd : ¬ fs.IsDir src := hsrc fun hsB => hx (hB src x hsB hs)
      rw [origin, if_neg hd, if_pos hs, Option.bind_none]
      exact (dirent_eq_none_of_childless (childless_of_not_isDir hnd) hs hne).symm
    · rw [origin_of_not_suffix hd hs, Option.bind_some]
  · rw [hmove, origin, if_neg fun hs => he (hB dst src hdst hs), if_pos List.suffix_rfl,
      Option.bind_none]
  · rw [inode_move]

theorem spared_renameat {newdirfd : ℤ} {new : Str}
    (ht : fs.targetAt p dirfd pathname = .ok (.entry l n)) (hB : Closed B)
    (hnew : ∀ l' n', fs.targetAt p newdirfd new = .ok (.entry l' n') → B (n' :: l'))
    (hsrc : ¬ B (n :: l) → ¬ fs.IsDir (n :: l)) :
    Spared fs (fs.renameat p dirfd pathname newdirfd new).2 B (n :: l) := by
  rcases fs.renameat_cases p dirfd pathname newdirfd new with
    ⟨e, h⟩ | ⟨l₁, n₁, l', n', ht₁, ht', ⟨-, -, h⟩ | ⟨hm, h⟩⟩
  · rw [h]
    exact Spared.refl fs B _
  · rw [h]
    exact Spared.refl fs B _
  · rw [ht] at ht₁
    cases ht₁
    rw [h]
    exact spared_move hm hB (hnew l' n' ht') hsrc

/-! ## One call -/

/-- The names that the entry has below its mountpoint `m` end, in so far as they lead to directories,
in the recycler's directory. -/
structure Confined (fs : FileSystem) (p : Process) (dir : Str) (isDir : Bool) (l : Loc) (n : Name)
    (m : Loc) : Prop where
  newdirfd : isDir = true ∨ isAbs dir = true ∨ ∀ x, p.fds 0 = some (.dir x) → x = p.cwd
  inside : ∃ b r, fs.Leads p (isAbs dir) (segments dir) b ∧
    (if isDir then n :: l else l) = r ++ m ∧
    ∀ q r₁ r₂, r = r₂ ++ r₁ → descend fs.kindAt b r₁ = .ok q →
      (∀ s c, r₂ = s ++ [c] → fs.Blocked q c) → b <:+ q

/-- The place is in the directory of the recycler that takes the file. -/
def InBin (env : Env) (fs : FileSystem) (p : Process) (dirfd : ℤ) (pathname : Str) (flags : Flags)
    (x : Loc) : Prop :=
  ∃ st1 b st2 b', fs.fstatat p dirfd pathname (statFlags flags) = .ok st1 ∧
    env.Selects fs p pathname st1 b st2 ∧ fs.Leads p (isAbs b.dir) (segments b.dir) b' ∧ b' <:+ x

theorem closed_inBin : Closed (InBin env fs p dirfd pathname flags) := by
  rintro x y ⟨st1, b, st2, b', hst, hsel, hb, hs⟩ hxy
  exact ⟨st1, b, st2, b', hst, hsel, hb, hs.trans hxy⟩

/-- The clone and, when it comes out in `B`, where its last directory is. -/
theorem Cloned.within (h : Cloned fs fs' b r) (hB : Closed B)
    (hin : ∀ q r₁ r₂, r = r₂ ++ r₁ → descend fs.kindAt b r₁ = .ok q →
      (∀ s c, r₂ = s ++ [c] → fs.Blocked q c) → B q) :
    Within fs fs' B ∧ ∃ w, descend fs'.kindAt b r = .ok w ∧ B w := by
  have hk := h.keeps
  obtain ⟨q, r₁, r₂, rfl, hq, hv, hg⟩ := h
  have hqdir : fs.IsDir q := (descend_eq_ok.1 hq).2
  have hqB := hin q r₁ r₂ rfl hq fun s c e => (hv s c e).blocked
  refine ⟨within_of_grafted hg hqdir hB hqB, r₂ ++ q, ?_, hB q _ hqB (List.suffix_append r₂ q)⟩
  rw [descend_append, hk.descend hq]
  exact descend_of_dirs (hg.isDir_base hqdir) fun s hs hs' => hg.isDir_made hs hs'

/-- Where `renameat` puts the file when the descriptor 0 is no other directory than the current one. -/
theorem targetAt_recycledPath {w : Loc} (hdir : dir ≠ []) (hr : l = r ++ m)
    (hb : fs.Leads p (isAbs dir) (segments dir) b) (hw : descend fs.kindAt b r = .ok w)
    (hnew : isAbs dir = true ∨ ∀ x, p.fds 0 = some (.dir x) → x = p.cwd) {l' : Loc} {n' : Name}
    (ht : fs.targetAt p 0 (recycledPath dir (entryPath l n) (mountPath l n m)) =
      .ok (.entry l' n')) : n' :: l' = n :: w := by
  have hs := spells_recycledPath_below (n := n) hdir hr
  have hfd : isAbs (recycledPath dir (entryPath l n) (mountPath l n m)) = true ∨
      p.fds 0 = some (.dir p.cwd) := by
    rw [hs.isAbs]
    refine or_iff_not_imp_left.2 fun habs => ?_
    obtain ⟨cur, -, hbase, -⟩ := targetAt_entry ht
    unfold base at hbase
    rw [hs.isAbs, if_neg habs, if_neg (by decide)] at hbase
    cases hf : p.fds 0 with
    | none => rw [hf] at hbase; cases hbase
    | some x =>
      cases x with
      | dir x => rw [hnew.resolve_left habs x hf]
      | file o link => rw [hf] at hbase; cases hbase
  rw [targetAt_newdirfd hfd, targetAt_spells hb hs, hw] at ht
  cases ht
  rfl

section Recycle

variable (hst : fs.fstatat p dirfd pathname (statFlags flags) = .ok st1)
  (ht : fs.targetAt p dirfd pathname = .ok (.entry l n)) (hstat : fs.stat p dir = .ok st2)
  (hfuel : enough l ≤ fuel) (hB : Closed B)

include hst ht hstat hfuel hB

theorem recycle_spares_directory (hdir : st1.isDir = true) {r : Loc}
    (hb : fs.Leads p (isAbs dir) (segments dir) b) (hr : n :: l = r ++ m)
    (hin : ∀ q r₁ r₂, r = r₂ ++ r₁ → descend fs.kindAt b r₁ = .ok q →
      (∀ s c, r₂ = s ++ [c] → fs.Blocked q c) → B q) :
    Spared fs ((recycle fuel dirfd pathname flags st1 dir (entryPath l n)
      (mountPath l n m)).run (exec p) fs).2 B (n :: l) := by
  have hdeny : ∀ e : Errno, (fun _ => false) e = true → e.denial = true := fun e he => by cases he
  have hw := exists_descend_of_fstatat hst ht hdir
  have hspec := run_of_wp (wp_clone_directory_of_leads hstat (isDir_of_targetAt ht) hw hb hr hdeny
    hfuel)
  rw [run_recycle_directory hdir]
  generalize (recyclixClonepathRecursive fuel (recycledPath dir (entryPath l n)
    (mountPath l n m)) (entryPath l n)).run (exec p) fs = c at hspec
  obtain ⟨a, fs'⟩ := c
  rcases hspec with ⟨rfl, hc, -⟩ | ⟨rfl, ⟨e, he⟩ | ⟨rfl, -⟩⟩
  · have hwithin := (hc.within hB hin).1
    exact hwithin.spared (spared_unlinkat (targetAt_keeps hc.keeps ht) flags B)
  · cases he
  · exact Spared.refl _ B _

theorem recycle_spares_file (hdir : st1.isDir = false) {r : Loc}
    (hb : fs.Leads p (isAbs dir) (segments dir) b) (hr : l = r ++ m)
    (hnew : isAbs dir = true ∨ ∀ x, p.fds 0 = some (.dir x) → x = p.cwd)
    (hin : ∀ q r₁ r₂, r = r₂ ++ r₁ → descend fs.kindAt b r₁ = .ok q →
      (∀ s c, r₂ = s ++ [c] → fs.Blocked q c) → B q) :
    Spared fs ((recycle fuel dirfd pathname flags st1 dir (entryPath l n)
      (mountPath l n m)).run (exec p) fs).2 B (n :: l) := by
  have hdeny : ∀ e : Errno, (fun _ => false) e = true → e.denial = true := fun e he => by cases he
  have hne := ne_nil_of_stat hstat
  obtain ⟨-, hst1⟩ := statLoc_entry hst ht hdir
  obtain ⟨d, hd, rfl⟩ := statLoc_eq_ok.1 hst1
  have hk := kind_of_fstatat hst ht hd hdir
  have hspec := run_of_wp (wp_clone_parent_of_leads (n := n) hstat (isDir_of_targetAt ht) hb hr
    hdeny hfuel)
  rw [run_recycle_file hdir]
  generalize (recyclixClonepathRecursive fuel (dirname (recycledPath dir (entryPath l n)
    (mountPath l n m))) (dirname (entryPath l n))).run (exec p) fs = c at hspec
  obtain ⟨a, fs'⟩ := c
  rcases hspec with ⟨rfl, hc, -⟩ | ⟨rfl, ⟨e, he⟩ | ⟨rfl, -⟩⟩
  · obtain ⟨hwithin, w, hw, hwB⟩ := hc.within hB hin
    refine hwithin.spared (spared_renameat (targetAt_keeps hc.keeps ht) hB (fun l' n' htgt => ?_) ?_)
    · have hdst := targetAt_recycledPath hne hr (hb.keeps hc.keeps) hw hnew htgt
      exact hdst ▸ hB w _ hwB (List.suffix_cons n w)
    · intro he hdir'
      rw [isDir_iff_kind ((hwithin.dirent _ he).trans hd), hwithin.inode _ d he hd] at hdir'
      exact hk hdir'
  · cases he
  · exact Spared.refl _ B _

end Recycle

/-- A call on an entry spares what is outside of the recycler, unless the names lead out of it. -/
theorem unlinkat_spares (ht : fs.targetAt p dirfd pathname = .ok (.entry l n))
    (hfuel : enough l ≤ fuel)
    (hconf : ∀ st1 b st2 m, fs.fstatat p dirfd pathname (statFlags flags) = .ok st1 →
      env.Selects fs p pathname st1 b st2 → climb fs st1.obj.dev st2.obj.ino (n :: l) = some m →
      Confined fs p b.dir st1.isDir l n m) :
    Spared fs ((unlinkat env fuel dirfd pathname flags).run (exec p) fs).2
      (InBin env fs p dirfd pathname flags) (n :: l) := by
  rcases run_unlinkat_cases env flags ht hfuel with h | ⟨e, h⟩ | ⟨st1, b, st2, m, hst, hsel, hm, h⟩
  · rw [h]
    exact spared_unlinkat ht flags _
  · rw [h]
    exact Spared.refl fs _ _
  · rw [h]
    obtain ⟨hnew, b', r, hb, hr, hin⟩ := hconf st1 b st2 m hst hsel hm
    have hstat := hsel.eligible.stat
    have hin' : ∀ q r₁ r₂, r = r₂ ++ r₁ → descend fs.kindAt b' r₁ = .ok q →
        (∀ s c, r₂ = s ++ [c] → fs.Blocked q c) → InBin env fs p dirfd pathname flags q :=
      fun q r₁ r₂ h₁ h₂ h₃ => ⟨st1, b, st2, b', hst, hsel, hb, hin q r₁ r₂ h₁ h₂ h₃⟩
    cases hdir : st1.isDir with
    | true =>
      rw [hdir, if_pos rfl] at hr
      exact recycle_spares_directory hst ht hstat hfuel closed_inBin hdir hb hr hin'
    | false =>
      rw [hdir, if_neg Bool.false_ne_true] at hr
      exact recycle_spares_file hst ht hstat hfuel closed_inBin hdir hb hr
        (hnew.resolve_left (by simp [hdir])) hin'

/-! ## Runs -/

/-- A call deletes an entry whose names do not lead out of the recycler, or no recycler takes what its
pathname leads to. -/
def Op.Confined (env : Env) (fs : FileSystem) : Op → Prop
  | .delete p fuel dirfd pathname flags =>
    (∃ l n, fs.targetAt p dirfd pathname = .ok (.entry l n) ∧ enough l ≤ fuel ∧
      ∀ st1 b st2 m, fs.fstatat p dirfd pathname (statFlags flags) = .ok st1 →
        env.Selects fs p pathname st1 b st2 → climb fs st1.obj.dev st2.obj.ino (n :: l) = some m →
        Recyclix.Confined fs p b.dir st1.isDir l n m) ∨
    ((∀ l n, fs.targetAt p dirfd pathname ≠ .ok (.entry l n)) ∧
      ∀ st1 b st2, fs.fstatat p dirfd pathname (statFlags flags) = .ok st1 →
        ¬ env.Selects fs p pathname st1 b st2)
  | _ => True

/-- A call changes nothing outside of the recycler that takes the file, except that the entry it
deletes may go. -/
def Op.Spares (env : Env) (fs : FileSystem) : Op → Prop
  | .delete p fuel dirfd pathname flags =>
    (∀ l n, fs.targetAt p dirfd pathname = .ok (.entry l n) →
      Spared fs ((unlinkat env fuel dirfd pathname flags).run (exec p) fs).2
        (InBin env fs p dirfd pathname flags) (n :: l)) ∧
    ((∀ l n, fs.targetAt p dirfd pathname ≠ .ok (.entry l n)) →
      Within fs ((unlinkat env fuel dirfd pathname flags).run (exec p) fs).2
        (InBin env fs p dirfd pathname flags))
  | _ => True

theorem Op.Confined.spares {op : Op} (h : op.Confined env fs) : op.Spares env fs := by
  cases op with
  | make p s i => trivial
  | rename p old new => trivial
  | delete p fuel dirfd pathname flags =>
    refine ⟨fun l n ht => ?_, fun hno => ?_⟩
    · rcases h with ⟨l', n', ht', hfuel, hconf⟩ | ⟨hno, -⟩
      · rw [ht] at ht'
        cases ht'
        exact unlinkat_spares ht hfuel hconf
      · exact absurd ht (hno l n)
    · rcases h with ⟨l, n, ht, -⟩ | ⟨-, hsel⟩
      · exact absurd ht (hno l n)
      · rcases run_unlinkat_unselected env fs p fuel dirfd pathname flags with
          h | ⟨e, h⟩ | ⟨st1, b, st2, hst, hs⟩
        · rw [h]
          rcases fs.unlinkat_cases p dirfd pathname flags with ⟨e, h⟩ | ⟨l, n, ht, -⟩
          · rw [h]
            exact Within.refl fs _
          · exact absurd ht (hno l n)
        · rw [h]
          exact Within.refl fs _
        · exact absurd hs (hsel st1 b st2 hst)

/-- In a run none of whose calls is led out of the recycler, every call spares what is outside. -/
theorem throughout_spares {ops : List Op} (h : Throughout env (fun fs op => op.Confined env fs) ops fs) :
    Throughout env (fun fs op => op.Spares env fs) ops fs :=
  h.mono fun _ _ => Op.Confined.spares

namespace Sample

/-- The link `/a` to `/b` is deleted, and a directory is given its name. -/
def stray : List Op :=
  [.make process "/b".toList ⟨.dir, 0o700, 0, 0⟩, .make process "/a".toList (symlink "/b"),
    .delete process 12 atFdcwd "/a".toList 0, .make process "/a".toList Sample.dir,
    .make process "/a/f".toList file, .delete process 12 atFdcwd "/a/f".toList 0]

theorem dir_of_selects {b : Bin} (h : Sample.env.Selects fs p pathname st1 b st2) :
    b.dir = "/bin".toList := by
  obtain ⟨recyclers, pre, item, post, hr, hi, -, hb⟩ := h.item
  obtain rfl : "/bin".toList = recyclers := Option.some.inj hr
  have hsplit : "/bin".toList.splitOn ':' = ["/bin".toList] := by decide +kernel
  rw [hsplit] at hi
  obtain rfl : pre = [] := by
    cases pre with
    | nil => rfl
    | cons x pre => simp at hi
  obtain ⟨rfl, -⟩ := List.cons.inj hi
  have hread : Sample.env.readItem pathname "/bin".toList = .bin ⟨"/bin".toList, .initial⟩ := rfl
  rw [hread] at hb
  cases hb
  rfl

/-- The file `/a/f` is deleted twice. -/
def twice : List Op := again ++ [.delete process 12 atFdcwd "/a/f".toList 0]

/-- The file `/a/f` is kept inside the recycler when `a` there is a directory or nothing. -/
theorem confined_delete {fs : FileSystem} {o : Obj}
    (ht : fs.targetAt process atFdcwd "/a/f".toList = .ok (.entry [a] f))
    (hst1 : fs.fstatat process atFdcwd "/a/f".toList (statFlags 0) = .ok ⟨o, file⟩)
    (hst2 : fs.stat process "/bin".toList = .ok ⟨⟨1, 3⟩, Sample.dir⟩)
    (hroot : climb fs o.dev 3 [f, a] = some [])
    (hbin : fs.Leads process true ["bin".toList] [bin])
    (hway : ∀ r₁ ∈ [a].tails, descend fs.kindAt [bin] r₁ = .ok (r₁ ++ [bin]) ∨
      descend fs.kindAt [bin] r₁ = .error .ENOENT) :
    Op.Confined Sample.env fs (.delete process 12 atFdcwd "/a/f".toList 0) := by
  refine Or.inl ⟨[a], f, ht, by decide, fun st1 b st2 m hst hsel hm => ?_⟩
  have hstat := hsel.eligible.stat
  rw [dir_of_selects hsel] at hstat ⊢
  obtain rfl := Except.ok.inj (hst.symm.trans hst1)
  obtain rfl := Except.ok.inj (hstat.symm.trans hst2)
  obtain rfl : m = [] := Option.some.inj (hm.symm.trans hroot)
  refine ⟨Or.inr (Or.inl (by decide +kernel)), [bin], [a], hbin, rfl, fun q r₁ r₂ hr hq _ => ?_⟩
  rcases hway r₁ ((List.mem_tails _ _).2 (hr ▸ List.suffix_append r₂ r₁)) with h | h
  · obtain rfl := Except.ok.inj (hq.symm.trans h)
    exact List.suffix_append r₁ [bin]
  · cases hq.symm.trans h

end Sample

/-- A file is moved out of the recycler, to where a link leads that was deleted before. -/
theorem unlinkat_follows_deleted :
    ¬ Throughout Sample.env (fun fs op => op.Spares Sample.env fs) Sample.stray Sample.empty := by
  rintro ⟨-, -, -, -, -, ⟨h, -⟩, -⟩
  have hspared := h [Sample.a] Sample.f (by decide +kernel)
  have hout : ¬ InBin Sample.env (after Sample.env (Sample.stray.take 5) Sample.empty) Sample.process
      atFdcwd "/a/f".toList 0 [Sample.f, Sample.name "b"] := by
    rintro ⟨st1, b, st2, b', -, hsel, hb, hs⟩
    rw [Sample.dir_of_selects hsel] at hb
    have hbin : FileSystem.Leads (after Sample.env (Sample.stray.take 5) Sample.empty) Sample.process
        true ["bin".toList] [Sample.bin] := ⟨by decide +kernel, by decide +kernel⟩
    obtain rfl := leads_unique hb hbin
    exact absurd hs (by decide +kernel)
  have hmoved := hspared.dirent _ hout (by decide +kernel)
  revert hmoved
  decide +kernel

/-- The second deletion replaces in the recycler what the first one has left there. -/
theorem throughout_spares_again :
    Throughout Sample.env (fun fs op => op.Spares Sample.env fs) Sample.twice Sample.empty ∧
    (after Sample.env Sample.again Sample.empty).objAt [Sample.f, Sample.a, Sample.bin] ≠
      (after Sample.env Sample.twice Sample.empty).objAt [Sample.f, Sample.a, Sample.bin] := by
  refine ⟨throughout_spares ⟨trivial, trivial, ?_, trivial, ?_, trivial⟩, by decide +kernel⟩
  · exact Sample.confined_delete (o := ⟨1, 5⟩) (by decide +kernel) (by decide +kernel)
      (by decide +kernel) (by decide +kernel) ⟨by decide +kernel, by decide +kernel⟩
      (by decide +kernel)
  · exact Sample.confined_delete (o := ⟨1, 7⟩) (by decide +kernel) (by decide +kernel)
      (by decide +kernel) (by decide +kernel) ⟨by decide +kernel, by decide +kernel⟩
      (by decide +kernel)

end YazzyPreload.Recyclix

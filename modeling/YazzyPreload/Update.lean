import YazzyPreload.Syscall

/-!
# What a call can do to the file system

Every call, whatever its arguments, makes at most one of four updates (`exec_update`).  A property
of file systems that these updates keep therefore holds throughout every run.
-/

namespace YazzyPreload

/-- The second file system is the first one after at most one update. -/
inductive Update (fs : FileSystem) : FileSystem → Prop
  | none : Update fs fs
  | addChild (l : Loc) (n : Name) (i : Inode) : Update fs (fs.addChild l n i)
  | erase (l : Loc) : Update fs (fs.erase l)
  | adjust (o : Obj) (f : Inode → Inode) (hf : ∀ i, (f i).kind = i.kind) : Update fs (fs.adjust o f hf)
  | move (src dst : Loc) : Update fs (fs.move src dst)

namespace FileSystem

variable (fs : FileSystem) (p : Process)

/-- The call fails, or makes the entry that the pathname names. -/
theorem mkdir_cases (s : Str) (mode : Mode) :
    (∃ e, fs.mkdir p s mode = (.error e, fs)) ∨
      ∃ l n, fs.targetAt p atFdcwd s = .ok (.entry l n) ∧ fs.dirent (n :: l) = none ∧
        fs.mkdir p s mode = (.ok (), fs.addChild l n (fs.newDir p l mode)) := by
  unfold mkdir
  cases ht : fs.targetAt p atFdcwd s with
  | error e => exact Or.inl ⟨e, rfl⟩
  | ok t =>
    cases t with
    | entry l n =>
      dsimp only
      split_ifs with hd
      · exact Or.inr ⟨l, n, rfl, hd, rfl⟩
      · exact Or.inl ⟨_, rfl⟩
    | _ => exact Or.inl ⟨_, rfl⟩

theorem mkdir_update (s : Str) (mode : Mode) : Update fs (fs.mkdir p s mode).2 := by
  rcases fs.mkdir_cases p s mode with ⟨e, h⟩ | ⟨l, n, -, -, h⟩
  · rw [h]
    exact .none
  · rw [h]
    exact .addChild _ _ _

/-- The call fails, or removes the entry that the pathname names. -/
theorem unlinkEntry_cases (dirfd : ℤ) (s : Str) :
    (∃ e, fs.unlinkEntry p dirfd s = (.error e, fs)) ∨
      ∃ l n, fs.targetAt p dirfd s = .ok (.entry l n) ∧ fs.dirent (n :: l) ≠ none ∧
        fs.childless (n :: l) = true ∧ fs.unlinkEntry p dirfd s = (.ok (), fs.erase (n :: l)) := by
  unfold unlinkEntry
  cases ht : fs.targetAt p dirfd s with
  | error e => exact Or.inl ⟨e, rfl⟩
  | ok t =>
    cases t with
    | entry l n =>
      dsimp only
      cases hd : fs.dirent (n :: l) with
      | none => exact Or.inl ⟨_, rfl⟩
      | some d =>
        dsimp only
        split_ifs with hk
        · exact Or.inl ⟨_, rfl⟩
        · exact Or.inl ⟨_, rfl⟩
        · exact Or.inl ⟨_, rfl⟩
        · have hc := childless_of_not_isDir fun h => hk ((isDir_iff_kind hd).1 h)
          exact Or.inr ⟨l, n, rfl, by simp [hd], hc, rfl⟩
    | _ => exact Or.inl ⟨_, rfl⟩

theorem removeDir_cases (dirfd : ℤ) (s : Str) :
    (∃ e, fs.removeDir p dirfd s = (.error e, fs)) ∨
      ∃ l n, fs.targetAt p dirfd s = .ok (.entry l n) ∧ fs.dirent (n :: l) ≠ none ∧
        fs.childless (n :: l) = true ∧ fs.removeDir p dirfd s = (.ok (), fs.erase (n :: l)) := by
  unfold removeDir
  cases ht : fs.targetAt p dirfd s with
  | error e => exact Or.inl ⟨e, rfl⟩
  | ok t =>
    cases t with
    | entry l n =>
      dsimp only
      cases hd : fs.dirent (n :: l) with
      | none => exact Or.inl ⟨_, rfl⟩
      | some d =>
        dsimp only
        split_ifs with hk hm hc
        · exact Or.inl ⟨_, rfl⟩
        · exact Or.inl ⟨_, rfl⟩
        · exact Or.inr ⟨l, n, rfl, by simp [hd], hc, rfl⟩
        · exact Or.inl ⟨_, rfl⟩
    | _ => exact Or.inl ⟨_, rfl⟩

theorem unlinkat_cases (dirfd : ℤ) (s : Str) (flags : Flags) :
    (∃ e, fs.unlinkat p dirfd s flags = (.error e, fs)) ∨
      ∃ l n, fs.targetAt p dirfd s = .ok (.entry l n) ∧ fs.dirent (n :: l) ≠ none ∧
        fs.childless (n :: l) = true ∧ fs.unlinkat p dirfd s flags = (.ok (), fs.erase (n :: l)) := by
  unfold unlinkat
  split_ifs
  · exact Or.inl ⟨_, rfl⟩
  · exact fs.removeDir_cases p dirfd s
  · exact fs.unlinkEntry_cases p dirfd s

theorem unlinkEntry_update (dirfd : ℤ) (s : Str) : Update fs (fs.unlinkEntry p dirfd s).2 := by
  rcases fs.unlinkEntry_cases p dirfd s with ⟨e, h⟩ | ⟨l, n, -, -, -, h⟩
  · rw [h]
    exact .none
  · rw [h]
    exact .erase _

theorem unlinkat_update (dirfd : ℤ) (s : Str) (flags : Flags) :
    Update fs (fs.unlinkat p dirfd s flags).2 := by
  rcases fs.unlinkat_cases p dirfd s flags with ⟨e, h⟩ | ⟨l, n, -, -, -, h⟩
  · rw [h]
    exact .none
  · rw [h]
    exact .erase _

/-- The entry at `src` can be moved to `dst`. -/
structure Movable (fs : FileSystem) (src dst : Loc) : Prop where
  guard : src ≠ [] ∧ dst ≠ [] ∧ fs.IsDir dst.tail ∧ ¬ src <:+ dst ∧ fs.childless dst = true ∧
    fs.dirent src ≠ none
  not_suffix : ¬ dst <:+ src
  objAt_ne : fs.objAt src ≠ fs.objAt dst

variable {fs} in
/-- The call fails, finds one object under both names, or moves the entry. -/
theorem renameEntry_cases {src dst : Loc} (slash : Bool) (hs : src ≠ []) (hd : dst ≠ [])
    (hp : fs.IsDir dst.tail) :
    (∃ e, fs.renameEntry src dst slash = (.error e, fs)) ∨
      (fs.dirent src ≠ none ∧ fs.objAt src = fs.objAt dst ∧
        fs.renameEntry src dst slash = (.ok (), fs)) ∨
      (fs.Movable src dst ∧ fs.renameEntry src dst slash = (.ok (), fs.move src dst)) := by
  unfold renameEntry
  cases hsrc : fs.dirent src with
  | none => exact Or.inl ⟨_, rfl⟩
  | some d =>
    dsimp only
    by_cases h1 : ¬ (fs.inode d.obj).kind = .dir ∧ slash = true
    · rw [if_pos h1]
      exact Or.inl ⟨_, rfl⟩
    by_cases h2 : src <:+ dst ∧ src ≠ dst
    · rw [if_neg h1, if_pos h2]
      exact Or.inl ⟨_, rfl⟩
    by_cases h3 : dst <:+ src ∧ src ≠ dst
    · rw [if_neg h1, if_neg h2, if_pos h3]
      exact Or.inl ⟨_, rfl⟩
    rw [if_neg h1, if_neg h2, if_neg h3]
    have hmov : ∀ ho : fs.objAt src ≠ fs.objAt dst, fs.childless dst = true → fs.Movable src dst := by
      intro ho hc
      have hne : src ≠ dst := fun e => ho (by rw [e])
      exact ⟨⟨hs, hd, hp, fun h => h2 ⟨h, hne⟩, hc, by simp [hsrc]⟩, fun h => h3 ⟨h, hne⟩, ho⟩
    cases hdst : fs.dirent dst with
    | none =>
      dsimp only
      split_ifs
      · exact Or.inl ⟨_, rfl⟩
      · refine Or.inr (Or.inr ⟨hmov (by simp [objAt, hsrc, hdst]) ?_, rfl⟩)
        exact childless_of_not_isDir fun h => h.dirent_ne_none hdst
    | some d' =>
      have ho : d.obj ≠ d'.obj → fs.objAt src ≠ fs.objAt dst := by simp [objAt, hsrc, hdst]
      dsimp only
      split_ifs with h4 _ _ _ h5
      · exact Or.inr (Or.inl ⟨by simp, by simp [objAt, hsrc, hdst, h4], rfl⟩)
      · exact Or.inl ⟨_, rfl⟩
      · exact Or.inl ⟨_, rfl⟩
      · exact Or.inl ⟨_, rfl⟩
      · exact Or.inl ⟨_, rfl⟩
      · exact Or.inr (Or.inr ⟨hmov (ho h4) (by simpa using h5), rfl⟩)

theorem renameat_cases (olddirfd : ℤ) (old : Str) (newdirfd : ℤ) (new : Str) :
    (∃ e, fs.renameat p olddirfd old newdirfd new = (.error e, fs)) ∨
      ∃ l n l' n', fs.targetAt p olddirfd old = .ok (.entry l n) ∧
        fs.targetAt p newdirfd new = .ok (.entry l' n') ∧
        ((fs.dirent (n :: l) ≠ none ∧ fs.objAt (n :: l) = fs.objAt (n' :: l') ∧
            fs.renameat p olddirfd old newdirfd new = (.ok (), fs)) ∨
          (fs.Movable (n :: l) (n' :: l') ∧ fs.renameat p olddirfd old newdirfd new =
            (.ok (), fs.move (n :: l) (n' :: l')))) := by
  unfold renameat
  cases ht : fs.targetAt p olddirfd old with
  | error e => exact Or.inl ⟨_, rfl⟩
  | ok t =>
    cases ht' : fs.targetAt p newdirfd new with
    | error e => exact Or.inl ⟨_, rfl⟩
    | ok t' =>
      dsimp only
      split
      · rename_i l n l' n'
        split_ifs
        · exact Or.inl ⟨_, rfl⟩
        · rcases renameEntry_cases (slashed old || slashed new) (List.cons_ne_nil n l)
            (List.cons_ne_nil n' l') (isDir_of_targetAt ht') with h | h
          · exact Or.inl h
          · exact Or.inr ⟨l, n, l', n', rfl, rfl, h⟩
      · exact Or.inl ⟨_, rfl⟩

theorem renameat_update (olddirfd : ℤ) (old : Str) (newdirfd : ℤ) (new : Str) :
    Update fs (fs.renameat p olddirfd old newdirfd new).2 := by
  rcases fs.renameat_cases p olddirfd old newdirfd new with
    ⟨e, h⟩ | ⟨l, n, l', n', -, -, ⟨-, -, h⟩ | ⟨-, h⟩⟩
  · rw [h]
    exact .none
  · rw [h]
    exact .none
  · rw [h]
    exact .move _ _

/-- The call fails, or changes the mode of what the pathname leads to. -/
theorem chmod_cases (s : Str) (mode : Mode) : (∃ e, fs.chmod p s mode = (.error e, fs)) ∨
    ∃ o, fs.chmod p s mode = (.ok (), fs.setMode o mode) := by
  unfold chmod
  cases (fs.lookupAt p atFdcwd s true).bind fs.statLoc with
  | error e => exact Or.inl ⟨e, rfl⟩
  | ok st => exact Or.inr ⟨st.obj, rfl⟩

theorem chown_cases (s : Str) (uid gid : ℕ) : (∃ e, fs.chown p s uid gid = (.error e, fs)) ∨
    ∃ o, fs.chown p s uid gid = (.ok (), fs.setOwner o uid gid) := by
  unfold chown
  cases (fs.lookupAt p atFdcwd s true).bind fs.statLoc with
  | error e => exact Or.inl ⟨e, rfl⟩
  | ok st => exact Or.inr ⟨st.obj, rfl⟩

theorem chmod_update (s : Str) (mode : Mode) : Update fs (fs.chmod p s mode).2 := by
  rcases fs.chmod_cases p s mode with ⟨e, h⟩ | ⟨o, h⟩
  · rw [h]
    exact .none
  · rw [h]
    exact .adjust o (fun i => { i with mode := mode }) fun _ => rfl

theorem chown_update (s : Str) (uid gid : ℕ) : Update fs (fs.chown p s uid gid).2 := by
  rcases fs.chown_cases p s uid gid with ⟨e, h⟩ | ⟨o, h⟩
  · rw [h]
    exact .none
  · rw [h]
    exact .adjust o (fun i => { i with uid := uid, gid := gid }) fun _ => rfl

end FileSystem

theorem exec_update (p : Process) (c : Call) (fs : FileSystem) : Update fs (exec p c fs).2 := by
  cases c with
  | mkdir s mode => exact fs.mkdir_update p s mode
  | unlink s => exact fs.unlinkEntry_update p atFdcwd s
  | chmod s mode => exact fs.chmod_update p s mode
  | chown s uid gid => exact fs.chown_update p s uid gid
  | renameat i s j t => exact fs.renameat_update p i s j t
  | unlinkat i s flags => exact fs.unlinkat_update p i s flags
  | _ => exact .none

/-- A property of file systems that updates keep. -/
def Kept (I : FileSystem → Prop) : Prop := ∀ fs fs', Update fs fs' → I fs → I fs'

theorem Kept.run {I : FileSystem → Prop} (hI : Kept I) {α : Type} (prog : Code α) (p : Process)
    {fs : FileSystem} (h : I fs) : I (prog.run (exec p) fs).2 :=
  Prog.run_invariant (exec p) (fun c fs => hI fs _ (exec_update p c fs)) prog fs h

/-! ## Inode numbers -/

/-- No other directory has the inode number of the object, which is in use. -/
structure OwnNumber (o : Obj) (fs : FileSystem) : Prop where
  lt : o.ino < fs.nextIno
  eq : ∀ l d, fs.dirent l = some d → (fs.inode d.obj).kind = .dir → d.obj.ino = o.ino → d.obj = o

theorem OwnNumber.kept (o : Obj) : Kept (OwnNumber o) := by
  intro fs fs' hu h
  cases hu with
  | none => exact h
  | addChild l n i =>
    by_cases hg : fs.IsDir l ∧ fs.dirent (n :: l) = none
    · refine ⟨?_, fun l' d hd hk hi => ?_⟩
      · rw [FileSystem.nextIno_addChild hg.1 hg.2]
        exact Nat.lt_succ_of_lt h.lt
      · rw [FileSystem.dirent_addChild hg.1 hg.2] at hd
        split_ifs at hd with e
        · cases hd
          exact absurd h.lt (by rw [← hi]; exact lt_irrefl _)
        · rw [FileSystem.inode_addChild hg.1 hg.2,
            if_neg (FileSystem.ne_of_unused (fs.unused_newObj l) hd)] at hk
          exact h.eq l' d hd hk hi
    · have hself : fs.addChild l n i = fs := by
        rw [FileSystem.addChild, FileSystem.insert, dif_neg fun hg' => hg ⟨hg'.1, hg'.2.1⟩]
      rwa [hself]
  | erase l =>
    by_cases hg : l ≠ [] ∧ fs.childless l = true
    · refine ⟨by rw [FileSystem.nextIno_erase]; exact h.lt, fun l' d hd hk hi => ?_⟩
      rw [FileSystem.dirent_erase hg.1 hg.2] at hd
      rw [FileSystem.inode_erase] at hk
      split_ifs at hd
      exact h.eq l' d hd hk hi
    · rwa [FileSystem.erase, dif_neg hg]
  | adjust o' f hf =>
    refine ⟨h.lt, fun l' d hd hk hi => h.eq l' d hd ?_ hi⟩
    rw [FileSystem.inode_adjust] at hk
    split_ifs at hk
    · rwa [hf] at hk
    · exact hk
  | move src dst =>
    by_cases hg : src ≠ [] ∧ dst ≠ [] ∧ fs.IsDir dst.tail ∧ ¬ src <:+ dst ∧
        fs.childless dst = true ∧ fs.dirent src ≠ none
    · refine ⟨by rw [FileSystem.nextIno_move]; exact h.lt, fun l' d hd hk hi => ?_⟩
      rw [FileSystem.dirent_move hg] at hd
      rw [FileSystem.inode_move] at hk
      obtain ⟨l₀, -, hd⟩ := Option.bind_eq_some_iff.1 hd
      exact h.eq l₀ d hd hk hi
    · rwa [FileSystem.move, dif_neg hg]

/-- A directory that has the number is the object. -/
theorem OwnNumber.objAt {o : Obj} {fs : FileSystem} {l : Loc} (h : OwnNumber o fs)
    (hl : fs.IsDir l) (hi : (fs.objAt l).map Obj.ino = some o.ino) : fs.objAt l = some o := by
  obtain ⟨d, hd, hk⟩ := FileSystem.isDir_iff.1 hl
  rw [FileSystem.objAt, hd] at hi ⊢
  rw [Option.map_some, h.eq l d hd hk (Option.some.inj hi)]

end YazzyPreload

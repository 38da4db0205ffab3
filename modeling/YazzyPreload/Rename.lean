import YazzyPreload.Graft

/-!
# Renaming

`rename` on an entry that is not a directory ends in one of three ways (`renameat_file`): the entry
takes the place of the destination (`Displaces`), both names stand for one object and nothing
happens, or the call fails.  Which one it is depends on how entries look and not on the numbers of
the objects they refer to: `Alike.renameat` compares two file systems that look alike.
-/

namespace YazzyPreload.FileSystem

variable {fs fs' : FileSystem} {p : Process} {src dst l w q r : Loc} {n n' : Name} {d : Dent}
  {olddirfd newdirfd : ℤ} {old new : Str}

/-! ## Entries that are not directories -/

/-- The entry at `src` may take the place of what is at `dst`: both are on one mount, nothing is
mounted on them, and at `dst` there is neither a directory nor another name of the same object. -/
structure Displaces (fs : FileSystem) (src dst : Loc) : Prop where
  mount : fs.mountOf src.tail = fs.mountOf dst.tail
  unmounted : ∀ d, fs.dirent src = some d → d.mounted = false
  place : ∀ d, fs.dirent dst = some d →
    fs.objAt src ≠ some d.obj ∧ (fs.inode d.obj).kind ≠ .dir ∧ d.mounted = false

theorem Displaces.ne (h : fs.Displaces src dst) (hd : fs.dirent src = some d) : src ≠ dst := by
  rintro rfl
  apply (h.place d hd).1
  rw [objAt, hd, Option.map_some]

theorem not_suffix_of_not_isDir (hk : ¬ fs.IsDir src) (hp : fs.IsDir dst.tail) :
    ¬ (src <:+ dst ∧ src ≠ dst) := by
  rintro ⟨hs, hne⟩
  cases dst with
  | nil =>
    apply hne
    exact List.suffix_nil.1 hs
  | cons m q =>
    have hs' : src <:+ q := (List.suffix_cons_iff.1 hs).resolve_left hne
    apply hk
    by_cases e : src = q
    · rw [e]
      exact hp
    · exact isDir_of_suffix (IsDir.dirent_ne_none hp) hs' e

section File

variable (hd : fs.dirent src = some d) (hk : (fs.inode d.obj).kind ≠ .dir) (hp : fs.IsDir dst.tail)

include hd hk hp

/-- What is left of the checks when the destination is not above the entry. -/
theorem renameEntry_of_not_above (hdown : ¬ (dst <:+ src ∧ src ≠ dst)) :
    fs.renameEntry src dst false =
      match fs.dirent dst with
      | none => if d.mounted then (.error .EBUSY, fs) else (.ok (), fs.move src dst)
      | some d' =>
        if d.obj = d'.obj then (.ok (), fs)
        else if (fs.inode d'.obj).kind = .dir then (.error .EISDIR, fs)
        else if d.mounted ∨ d'.mounted then (.error .EBUSY, fs)
        else (.ok (), fs.move src dst) := by
  have hnd : ¬ fs.IsDir src := (isDir_iff_kind hd).not.2 hk
  have hup := not_suffix_of_not_isDir hnd hp
  unfold renameEntry
  simp only [hd, hk, hup, hdown, not_false_eq_true, Bool.false_eq_true, and_false, if_false,
    false_and, true_and]
  cases hd' : fs.dirent dst with
  | none => rfl
  | some d' =>
    by_cases hk' : (fs.inode d'.obj).kind = .dir
    · simp only [hk', if_true]
    · have hc := childless_of_not_isDir ((isDir_iff_kind hd').not.2 hk')
      simp only [hk', hc, if_false, Bool.true_eq_false]

variable (hm : fs.mountOf src.tail = fs.mountOf dst.tail)

include hm

theorem renameEntry_free (hd' : fs.dirent dst = none) (hdown : ¬ (dst <:+ src ∧ src ≠ dst)) :
    (fs.Displaces src dst ∧ fs.renameEntry src dst false = (.ok (), fs.move src dst)) ∨
      (¬ fs.Displaces src dst ∧ ∃ e, fs.renameEntry src dst false = (.error e, fs)) := by
  rw [renameEntry_of_not_above hd hk hp hdown, hd']
  dsimp only
  by_cases hmount : d.mounted = true
  · rw [if_pos hmount]
    refine Or.inr ⟨fun h => ?_, _, rfl⟩
    rw [h.unmounted d hd] at hmount
    cases hmount
  · rw [if_neg hmount]
    refine Or.inl ⟨⟨hm, fun e he => ?_, fun e he => ?_⟩, rfl⟩
    · rw [hd] at he
      cases he
      simpa using hmount
    · rw [hd'] at he
      cases he

theorem renameEntry_taken {d' : Dent} (hd' : fs.dirent dst = some d') (ho : d.obj ≠ d'.obj)
    (hdown : ¬ (dst <:+ src ∧ src ≠ dst)) :
    (fs.Displaces src dst ∧ fs.renameEntry src dst false = (.ok (), fs.move src dst)) ∨
      (¬ fs.Displaces src dst ∧ ∃ e, fs.renameEntry src dst false = (.error e, fs)) := by
  rw [renameEntry_of_not_above hd hk hp hdown, hd']
  dsimp only
  rw [if_neg ho]
  by_cases hk' : (fs.inode d'.obj).kind = .dir
  · rw [if_pos hk']
    exact Or.inr ⟨fun h => (h.place d' hd').2.1 hk', _, rfl⟩
  rw [if_neg hk']
  by_cases hmount : d.mounted = true ∨ d'.mounted = true
  · rw [if_pos hmount]
    refine Or.inr ⟨fun h => ?_, _, rfl⟩
    rcases hmount with hmount | hmount
    · rw [h.unmounted d hd] at hmount
      cases hmount
    · rw [(h.place d' hd').2.2] at hmount
      cases hmount
  · rw [if_neg hmount]
    push Not at hmount
    refine Or.inl ⟨⟨hm, fun e he => ?_, fun e he => ?_⟩, rfl⟩
    · rw [hd] at he
      cases he
      simpa using hmount.1
    · rw [hd'] at he
      cases he
      rw [objAt, hd]
      exact ⟨fun h => ho (Option.some.inj h), hk', by simpa using hmount.2⟩

/-- The three ways to end, once the names are resolved. -/
theorem renameEntry_file :
    (fs.Displaces src dst ∧ fs.renameEntry src dst false = (.ok (), fs.move src dst)) ∨
      (fs.objAt src = fs.objAt dst ∧ fs.renameEntry src dst false = (.ok (), fs)) ∨
      (¬ fs.Displaces src dst ∧ fs.objAt src ≠ fs.objAt dst ∧
        ∃ e, fs.renameEntry src dst false = (.error e, fs)) := by
  have hsrc : fs.objAt src = some d.obj := by rw [objAt, hd, Option.map_some]
  by_cases hdown : dst <:+ src ∧ src ≠ dst
  · have hdir : fs.IsDir dst := isDir_of_suffix (by simp [hd]) hdown.1 hdown.2.symm
    obtain ⟨d', hd', hk'⟩ := isDir_iff.1 hdir
    refine Or.inr (Or.inr ⟨fun h => (h.place d' hd').2.1 hk', fun h => ?_, .ENOTEMPTY, ?_⟩)
    · exact hdown.2 (hdir.eq_of_objAt h.symm).symm
    · have hup : ¬ src <:+ dst := fun h => hdown.2 (h.eq_of_length_le hdown.1.length_le)
      unfold renameEntry
      simp only [hd, hup, hdown, Bool.false_eq_true, and_false, false_and, if_false, ne_eq,
        not_false_eq_true, and_self, if_true]
  cases hd' : fs.dirent dst with
  | none =>
    have hne : fs.objAt src ≠ fs.objAt dst := by simp [objAt, hd, hd']
    exact (renameEntry_free hd hk hp hm hd' hdown).imp_right fun h => Or.inr ⟨h.1, hne, h.2⟩
  | some d' =>
    have hdst : fs.objAt dst = some d'.obj := by rw [objAt, hd', Option.map_some]
    by_cases ho : d.obj = d'.obj
    · refine Or.inr (Or.inl ⟨by rw [hsrc, hdst, ho], ?_⟩)
      rw [renameEntry_of_not_above hd hk hp hdown, hd']
      exact if_pos ho
    · have hne : fs.objAt src ≠ fs.objAt dst := by
        rw [hsrc, hdst]
        exact fun h => ho (Option.some.inj h)
      exact (renameEntry_taken hd hk hp hm hd' ho hdown).imp_right fun h => Or.inr ⟨h.1, hne, h.2⟩

end File

/-- The three ways to end. -/
theorem renameat_file (ht : fs.targetAt p olddirfd old = .ok (.entry l n))
    (ht' : fs.targetAt p newdirfd new = .ok (.entry w n')) (hp : fs.IsDir w)
    (hd : fs.dirent (n :: l) = some d) (hk : (fs.inode d.obj).kind ≠ .dir)
    (hs : slashed old = false) (hs' : slashed new = false) :
    (fs.Displaces (n :: l) (n' :: w) ∧
        fs.renameat p olddirfd old newdirfd new = (.ok (), fs.move (n :: l) (n' :: w))) ∨
      (fs.mountOf l = fs.mountOf w ∧ fs.objAt (n :: l) = fs.objAt (n' :: w) ∧
        fs.renameat p olddirfd old newdirfd new = (.ok (), fs)) ∨
      (¬ fs.Displaces (n :: l) (n' :: w) ∧
        ¬ (fs.mountOf l = fs.mountOf w ∧ fs.objAt (n :: l) = fs.objAt (n' :: w)) ∧
        ∃ e, fs.renameat p olddirfd old newdirfd new = (.error e, fs)) := by
  unfold renameat
  rw [ht, ht', hs, hs', Bool.or_false]
  dsimp only
  by_cases hm : fs.mountOf l = fs.mountOf w
  · rw [if_neg (not_not.2 hm)]
    rcases renameEntry_file hd hk (show fs.IsDir (n' :: w).tail from hp) hm with h | h | ⟨h, h', he⟩
    · exact Or.inl h
    · exact Or.inr (Or.inl ⟨hm, h⟩)
    · exact Or.inr (Or.inr ⟨h, fun e => h' e.2, he⟩)
  · rw [if_pos hm]
    exact Or.inr (Or.inr ⟨fun h => hm h.mount, fun h => hm h.1, _, rfl⟩)

/-- Where the entries are after the move. -/
theorem Displaces.dirent_move (h : fs.Displaces src dst) (hs : src ≠ []) (hd' : dst ≠ [])
    (hd : fs.dirent src = some d) (hk : (fs.inode d.obj).kind ≠ .dir) (hp : fs.IsDir dst.tail)
    (l : Loc) : (fs.move src dst).dirent l =
      if l = dst then some d else if l = src then none else fs.dirent l := by
  have hnd : ¬ fs.IsDir src := (isDir_iff_kind hd).not.2 hk
  have hc : fs.childless dst = true := childless_of_not_isDir fun e => by
    obtain ⟨d', hd', hk'⟩ := isDir_iff.1 e
    exact (h.place d' hd').2.1 hk'
  rw [dirent_move_of_not_isDir hs hd' hp (h.ne hd) hc (by simp [hd]) hnd, hd]

theorem Displaces.kindAt_move (h : fs.Displaces src dst) (hs : src ≠ []) (hd' : dst ≠ [])
    (hd : fs.dirent src = some d) (hk : (fs.inode d.obj).kind ≠ .dir) (hp : fs.IsDir dst.tail)
    (h₁ : l ≠ src) (h₂ : l ≠ dst) : (fs.move src dst).kindAt l = fs.kindAt l := by
  rw [kindAt, kindAt, h.dirent_move hs hd' hd hk hp, if_neg h₂, if_neg h₁, inode_move]

/-! ## File systems that look alike -/

/-- The entries have the same types, the same things are mounted on them, and they refer to the
same objects as one another in the same places. -/
structure Alike (fs fs' : FileSystem) : Prop where
  kind : fs.kindAt = fs'.kindAt
  mounted : ∀ l, (fs.dirent l).any Dent.mounted = (fs'.dirent l).any Dent.mounted
  same : ∀ l l', fs.objAt l = fs.objAt l' ↔ fs'.objAt l = fs'.objAt l'

theorem mountOf_congr (h : ∀ l, (fs.dirent l).any Dent.mounted = (fs'.dirent l).any Dent.mounted)
    (l : Loc) : fs.mountOf l = fs'.mountOf l := by
  induction l with
  | nil => rfl
  | cons n l ih =>
    unfold mountOf
    rw [h, ih]

/-- The same value is returned, and there is an entry at `l` after both or after none. -/
def SameOutcome (l : Loc) (x y : Except Errno Unit × FileSystem) : Prop :=
  x.1 = y.1 ∧ (x.2.dirent l = none ↔ y.2.dirent l = none)

theorem SameOutcome.ite {c : Prop} {i j : Decidable c} {x y x' y' : Except Errno Unit × FileSystem}
    (h : SameOutcome l x y) (h' : SameOutcome l x' y') :
    SameOutcome l (@ite _ c i x x') (@ite _ c j y y') := by
  by_cases hc : c
  · rwa [if_pos hc, if_pos hc]
  · rwa [if_neg hc, if_neg hc]

namespace Alike

variable (h : Alike fs fs')

include h

theorem isDir_iff : fs.IsDir l ↔ fs'.IsDir l := by rw [IsDir, IsDir, h.kind]

theorem dirent_eq_none_iff : fs.dirent l = none ↔ fs'.dirent l = none := by
  rw [← kindAt_eq_none_iff, ← kindAt_eq_none_iff, h.kind]

theorem childless : fs.childless l = fs'.childless l := by
  rw [Bool.eq_iff_iff, childless_iff, childless_iff]
  exact forall_congr' fun _ => h.dirent_eq_none_iff

theorem targetAt (dirfd : ℤ) (s : Str) : fs.targetAt p dirfd s = fs'.targetAt p dirfd s := by
  rw [FileSystem.targetAt, FileSystem.targetAt, h.kind]

theorem exists_dirent (hd : fs.dirent l = some d) : ∃ d', fs'.dirent l = some d' ∧
    d'.mounted = d.mounted ∧ ((fs'.inode d'.obj).kind = .dir ↔ (fs.inode d.obj).kind = .dir) := by
  have hne : fs'.dirent l ≠ none := fun e => by
    rw [h.dirent_eq_none_iff.2 e] at hd
    cases hd
  obtain ⟨d', hd'⟩ := Option.ne_none_iff_exists'.1 hne
  have hm := h.mounted l
  have hk := congrFun h.kind l
  rw [hd, hd', Option.any_some, Option.any_some] at hm
  rw [kindAt_of_dirent hd, kindAt_of_dirent hd'] at hk
  exact ⟨d', hd', hm.symm, by rw [Option.some.inj hk]⟩

theorem move (src dst l : Loc) :
    (fs.move src dst).dirent l = none ↔ (fs'.move src dst).dirent l = none := by
  have hguard : (src ≠ [] ∧ dst ≠ [] ∧ fs.IsDir dst.tail ∧ ¬ src <:+ dst ∧
      fs.childless dst = true ∧ fs.dirent src ≠ none) ↔ (src ≠ [] ∧ dst ≠ [] ∧
      fs'.IsDir dst.tail ∧ ¬ src <:+ dst ∧ fs'.childless dst = true ∧ fs'.dirent src ≠ none) := by
    simp only [ne_eq, h.isDir_iff, h.childless, h.dirent_eq_none_iff]
  by_cases hg : src ≠ [] ∧ dst ≠ [] ∧ fs.IsDir dst.tail ∧ ¬ src <:+ dst ∧ fs.childless dst = true ∧
      fs.dirent src ≠ none
  · rw [FileSystem.dirent_move hg, FileSystem.dirent_move (hguard.1 hg)]
    cases origin src dst l with
    | none => exact Iff.rfl
    | some l₀ => exact h.dirent_eq_none_iff
  · rw [FileSystem.move, FileSystem.move, dif_neg hg, dif_neg (hguard.not.1 hg)]
    exact h.dirent_eq_none_iff

theorem sameOutcome (r : Except Errno Unit) : SameOutcome l (r, fs) (r, fs') :=
  ⟨rfl, h.dirent_eq_none_iff⟩

theorem renameEntry (slash : Bool) :
    SameOutcome l (fs.renameEntry src dst slash) (fs'.renameEntry src dst slash) := by
  have hstay := fun r => h.sameOutcome (l := l) r
  have hmove : SameOutcome l (.ok (), fs.move src dst) (.ok (), fs'.move src dst) :=
    ⟨rfl, h.move src dst l⟩
  unfold FileSystem.renameEntry
  cases hd : fs.dirent src with
  | none =>
    rw [h.dirent_eq_none_iff.1 hd]
    exact hstay _
  | some d =>
    obtain ⟨e, he, hm, hk⟩ := h.exists_dirent hd
    simp only [he, hm, hk, ← h.childless, ne_eq]
    -- the guards are the same, so only the outcomes in the branches are compared
    refine (hstay _).ite <| (hstay _).ite <| (hstay _).ite ?_
    cases hd' : fs.dirent dst with
    | none =>
      rw [h.dirent_eq_none_iff.1 hd']
      exact (hstay _).ite hmove
    | some d' =>
      obtain ⟨e', he', hm', hk'⟩ := h.exists_dirent hd'
      have ho : e.obj = e'.obj ↔ d.obj = d'.obj := by
        have := h.same src dst
        simpa [objAt, hd, hd', he, he', eq_comm] using this.symm
      simp only [he', hm', hk', ho]
      exact (hstay _).ite <| (hstay _).ite <| (hstay _).ite <| (hstay _).ite <| (hstay _).ite hmove

/-- A rename has the same outcome in both, and takes away the same names. -/
theorem renameat (p : Process) (olddirfd : ℤ) (old : Str) (newdirfd : ℤ) (new : Str) (l : Loc) :
    SameOutcome l (fs.renameat p olddirfd old newdirfd new)
      (fs'.renameat p olddirfd old newdirfd new) := by
  unfold FileSystem.renameat
  rw [← h.targetAt, ← h.targetAt]
  cases fs.targetAt p olddirfd old with
  | error e => exact h.sameOutcome _
  | ok t =>
    cases fs.targetAt p newdirfd new with
    | error e => exact h.sameOutcome _
    | ok t' =>
      dsimp only
      split
      · rw [← mountOf_congr h.mounted, ← mountOf_congr h.mounted]
        exact (h.sameOutcome _).ite (h.renameEntry _)
      · exact h.sameOutcome _

end Alike

/-! ## After grafting -/

namespace Grafted

variable (h : fs.Grafted fs' q r)
  (hu : ∀ s n, r = s ++ [n] → ∀ d, fs.dirent (n :: q) = some d → d.mounted = false)
  (hb : ∀ s n, r = s ++ [n] → fs.Blocked q n)

include h hu hb

/-- Nothing new is mounted anywhere. -/
theorem mounted (l : Loc) : (fs'.dirent l).any Dent.mounted = (fs.dirent l).any Dent.mounted := by
  by_cases hl : ∀ s, s ≠ [] → s <:+ r → l ≠ s ++ q
  · rw [h.dirent l hl]
  · push Not at hl
    obtain ⟨s, hs, hs', rfl⟩ := hl
    obtain ⟨o, ho, -⟩ := h.made s hs hs'
    rw [ho, Option.any_some]
    cases hd : fs.dirent (s ++ q) with
    | none => rfl
    | some d =>
      obtain ⟨t, n, rfl⟩ := (List.eq_nil_or_concat' r).resolve_left (by
        rintro rfl
        exact hs (List.suffix_nil.1 hs'))
      have hns : [n] <:+ s := by
        rcases List.eq_nil_or_concat' s with rfl | ⟨u, m, rfl⟩
        · exact absurd rfl hs
        · obtain ⟨v, hv⟩ := hs'
          rw [← List.append_assoc] at hv
          obtain ⟨-, e⟩ := List.append_inj' hv rfl
          rw [e]
          exact List.suffix_append u [n]
      obtain rfl := (hb t n rfl).not_isDir_of_suffix hns (by simp [hd])
      rw [Option.any_some, hu t n rfl d hd]

theorem mountOf (l : Loc) : fs'.mountOf l = fs.mountOf l := mountOf_congr (h.mounted hu hb) l

/-- Moving between other entries is possible as before. -/
theorem displaces_iff (hs : ∀ s, s ≠ [] → s <:+ r → src ≠ s ++ q)
    (hd : ∀ s, s ≠ [] → s <:+ r → dst ≠ s ++ q) : fs'.Displaces src dst ↔ fs.Displaces src dst := by
  have hk : ∀ d, fs.dirent dst = some d → (fs'.inode d.obj).kind = (fs.inode d.obj).kind :=
    fun d hd => h.kind d.obj (fs.ino_lt _ _ hd)
  constructor
  · rintro ⟨hm, hu', hp⟩
    rw [h.mountOf hu hb, h.mountOf hu hb] at hm
    rw [h.dirent src hs] at hu'
    rw [h.dirent dst hd, h.objAt hs] at hp
    refine ⟨hm, hu', fun d hd' => ?_⟩
    obtain ⟨h1, h2, h3⟩ := hp d hd'
    exact ⟨h1, hk d hd' ▸ h2, h3⟩
  · rintro ⟨hm, hu', hp⟩
    refine ⟨by rw [h.mountOf hu hb, h.mountOf hu hb, hm], by rwa [h.dirent src hs], fun d hd' => ?_⟩
    rw [h.dirent dst hd] at hd'
    obtain ⟨h1, h2, h3⟩ := hp d hd'
    exact ⟨by rwa [h.objAt hs], (hk d hd').symm ▸ h2, h3⟩

end Grafted

end YazzyPreload.FileSystem

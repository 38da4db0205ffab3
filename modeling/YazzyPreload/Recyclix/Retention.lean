import YazzyPreload.Recyclix.Containment

/-!
# What stays in the recycler

Files that were deleted stay in the recycler until a later call needs their place: because its own
file goes there, or because a directory does (`InWay`).  `unlinkat_retains_iff` says that a call which
recycles its entry takes away no other file, and `throughout_retains` draws the conclusion for runs.
-/

namespace YazzyPreload.Recyclix

open FileSystem Prog

variable {fs fs' fs'' : FileSystem} {p : Process} {b l m r q x : Loc} {n c : Name} {fuel : ℕ}
  {st1 st2 : Stat} {dirfd : ℤ} {pathname dir : Str} {flags : Flags} {env : Env} {d : Dent}
  {isDir : Bool}

/-- The entry at `x` is where the names `r` below `b` do not lead on to a directory, or where they end
and a file is put. -/
def InWay (fs : FileSystem) (isDir : Bool) (b r x : Loc) : Prop :=
  ∃ r₁ c r₂ q, r = r₂ ++ c :: r₁ ∧ descend fs.kindAt b r₁ = .ok q ∧ x = c :: q ∧
    (r₂ = [] ∧ isDir = false ∨ fs.Blocked q c)

/-- The file `d` is at `x`, and is what it was. -/
structure Retained (fs fs' : FileSystem) (x : Loc) (d : Dent) : Prop where
  dirent : fs'.dirent x = some d
  inode : fs'.inode d.obj = fs.inode d.obj

/-! ## The calls -/

theorem Retained.refl (hd : fs.dirent x = some d) : Retained fs fs x d := ⟨hd, rfl⟩

theorem Retained.trans (h : Retained fs fs' x d) (h' : Retained fs' fs'' x d) : Retained fs fs'' x d :=
  ⟨h'.dirent, h'.inode.trans h.inode⟩

/-- A real removal takes away its own entry only. -/
theorem retained_unlinkat (hd : fs.dirent x = some d)
    (hx : ∀ l n, fs.targetAt p dirfd pathname = .ok (.entry l n) → x ≠ n :: l) (flags : Flags) :
    Retained fs (fs.unlinkat p dirfd pathname flags).2 x d := by
  rcases fs.unlinkat_cases p dirfd pathname flags with ⟨e, h⟩ | ⟨l, n, ht, -, hc, h⟩
  · rw [h]
    exact Retained.refl hd
  · rw [h]
    refine ⟨?_, by rw [inode_erase]⟩
    rw [dirent_erase (List.cons_ne_nil n l) hc, if_neg (hx l n ht), hd]

/-- A rename takes away what is at or below the old name, and at the new one. -/
theorem retained_renameat {newdirfd : ℤ} {new : Str} (hd : fs.dirent x = some d)
    (hold : ∀ l n, fs.targetAt p dirfd pathname = .ok (.entry l n) → ¬ n :: l <:+ x)
    (hnew : ∀ l n, fs.targetAt p newdirfd new = .ok (.entry l n) → x ≠ n :: l) :
    Retained fs (fs.renameat p dirfd pathname newdirfd new).2 x d := by
  rcases fs.renameat_cases p dirfd pathname newdirfd new with
    ⟨e, h⟩ | ⟨l, n, l', n', ht, ht', ⟨-, -, h⟩ | ⟨hm, h⟩⟩
  · rw [h]
    exact Retained.refl hd
  · rw [h]
    exact Retained.refl hd
  · rw [h]
    refine ⟨?_, by rw [inode_move]⟩
    have hdst : ¬ n' :: l' <:+ x := by
      intro hs
      have := dirent_eq_none_of_childless hm.guard.2.2.2.2.1 hs (hnew l' n' ht')
      rw [hd] at this
      cases this
    rw [dirent_move hm.guard, origin_of_not_suffix hdst (hold l n ht), Option.bind_some, hd]

theorem retained_make (hd : fs.dirent x = some d) (s : Str) (i : Inode) :
    Retained fs (make fs p s i) x d := by
  unfold make
  cases fs.targetAt p atFdcwd s with
  | error e => exact Retained.refl hd
  | ok t =>
    cases t with
    | entry l n =>
      by_cases hg : fs.IsDir l ∧ fs.dirent (n :: l) = none
      · have hne : x ≠ n :: l := by
          rintro rfl
          rw [hg.2] at hd
          cases hd
        refine ⟨?_, ?_⟩
        · rw [dirent_addChild hg.1 hg.2, if_neg hne, hd]
        · rw [inode_addChild hg.1 hg.2, if_neg (ne_of_unused (fs.unused_newObj l) hd)]
      · have hself : fs.addChild l n i = fs := by
          rw [addChild, FileSystem.insert, dif_neg fun hg' => hg ⟨hg'.1, hg'.2.1⟩]
        dsimp only
        rw [hself]
        exact Retained.refl hd
    | _ => exact Retained.refl hd

/-- Cloned directories take the place of what blocks the first of them. -/
theorem Cloned.dirent_eq_iff (hd : fs.dirent x = some d) (h : Cloned fs fs' b r) :
    fs'.dirent x = some d ↔ ¬ InWay fs true b r x := by
  obtain ⟨q, r₁, r₂, rfl, hq, hv, hg⟩ := h
  have hb : ∀ s c, r₂ = s ++ [c] → fs.Blocked q c := fun s c e => (hv s c e).blocked
  constructor
  · rintro hx ⟨r₁', c, r₂', q', hr, hq', rfl, ⟨-, ht⟩ | hbl⟩
    · cases ht
    · -- the place that blocks is the only one, and there is a new directory now
      have hsplit : r₂ ++ r₁ = (r₂' ++ [c]) ++ r₁' := by rw [hr]; simp
      obtain rfl : r₁ = r₁' := blocked_unique hsplit hq hq' hb fun s n e => by
        obtain ⟨-, e⟩ := List.append_inj' e rfl
        cases e
        exact hbl
      obtain rfl : r₂ = r₂' ++ [c] := List.append_cancel_right hsplit
      obtain rfl := Except.ok.inj (hq.symm.trans hq')
      obtain ⟨o, ho, -, hle⟩ := hg.made [c] (List.cons_ne_nil c []) (List.suffix_append r₂' [c])
      have hdo : (⟨o, false⟩ : Dent) = d := Option.some.inj (ho.symm.trans hx)
      have hlt := fs.ino_lt _ d hd
      rw [← hdo] at hlt
      exact absurd hlt (Nat.not_lt.2 hle)
  · intro hway
    rw [hg.dirent x, hd]
    intro s hs hs' e
    obtain ⟨c, hbl, hcs⟩ := Grafted.blocked_first hb hs hs'
    obtain rfl : s = [c] := hbl.not_isDir_of_suffix hcs (by rw [← e, hd]; simp)
    obtain ⟨t, rfl⟩ := hs'
    exact hway ⟨r₁, c, t, q, by simp, hq, e, Or.inr hbl⟩

theorem Cloned.inode_eq (hd : fs.dirent x = some d) (hk : (fs.inode d.obj).kind ≠ .dir)
    (h : Cloned fs fs' b r) : fs'.inode d.obj = fs.inode d.obj := by
  obtain ⟨q, r₁, r₂, -, hq, -, hg⟩ := h
  refine hg.inode d.obj (fs.ino_lt x d hd) fun _ ho => hk ?_
  obtain ⟨d', hd', hk'⟩ := isDir_iff.1 (descend_eq_ok.1 hq).2
  rw [objAt, hd', Option.map_some] at ho
  rw [← Option.some.inj ho, hk']

theorem Cloned.retained (hd : fs.dirent x = some d) (hk : (fs.inode d.obj).kind ≠ .dir)
    (h : Cloned fs fs' b r) (hway : ¬ InWay fs true b r x) :
    Retained fs fs' x d :=
  ⟨(Cloned.dirent_eq_iff hd h).2 hway, Cloned.inode_eq hd hk h⟩

/-- An entry at the end of cloned directories was not there before unless they were. -/
theorem Cloned.descend_of_dirent {w : Loc} (h : Cloned fs fs' b r)
    (hw : descend fs'.kindAt b r = .ok w) (hx : fs.dirent (n :: w) ≠ none) :
    descend fs.kindAt b r = .ok w := by
  have hkeeps := h.keeps
  obtain ⟨q, r₁, r₂, rfl, hq, hv, hg⟩ := h
  rw [descend_append, hkeeps.descend hq, Except.bind,
    descend_of_dirs (hg.isDir_base (descend_eq_ok.1 hq).2) fun s hs hs' => hg.isDir_made hs hs'] at hw
  obtain rfl := Except.ok.inj hw
  rcases List.eq_nil_or_concat' r₂ with rfl | ⟨t, c, rfl⟩
  · exact hq
  · have hs : [c] <:+ n :: (t ++ [c]) := ⟨n :: t, rfl⟩
    have := (hv t c rfl).blocked.not_isDir_of_suffix hs hx
    simp at this

/-- Where there is nothing to make, no entry changes. -/
theorem Cloned.dirent_of_descend {w : Loc} (h : Cloned fs fs' b r)
    (hw : descend fs.kindAt b r = .ok w) (y : Loc) : fs'.dirent y = fs.dirent y := by
  obtain ⟨q, r₁, r₂, rfl, hq, hv, hg⟩ := h
  rcases List.eq_nil_or_concat' r₂ with rfl | ⟨t, c, rfl⟩
  · exact hg.dirent y fun s hs hs' => absurd (List.suffix_nil.1 hs') hs
  · exact absurd hw (not_descend_of_blocked hq (hv t c rfl).blocked w)

/-! ## One call -/

/-- The names `r` of the entry below its mountpoint `m` are put below the recycler's directory `b`. -/
structure Lands (fs : FileSystem) (p : Process) (dir : Str) (isDir : Bool) (l : Loc) (n : Name)
    (m b r : Loc) : Prop where
  leads : fs.Leads p (isAbs dir) (segments dir) b
  names : n :: l = r ++ m
  file : isDir = false →
    r ≠ [] ∧ (isAbs dir = true ∨ ∀ x, p.fds 0 = some (.dir x) → x = p.cwd)

theorem inWay_file_iff : InWay fs false b (n :: r) x ↔
    InWay fs true b r x ∨ ∃ w, descend fs.kindAt b r = .ok w ∧ x = n :: w := by
  constructor
  · rintro ⟨r₁, c, r₂, q, hr, hq, rfl, h⟩
    cases r₂ with
    | nil =>
      cases hr
      exact Or.inr ⟨q, hq, rfl⟩
    | cons n' r₂ =>
      cases hr
      exact Or.inl ⟨r₁, c, r₂, q, rfl, hq, rfl, Or.inr (h.resolve_left (by simp))⟩
  · rintro (⟨r₁, c, r₂, q, rfl, hq, rfl, h⟩ | ⟨w, hw, rfl⟩)
    · exact ⟨r₁, c, n :: r₂, q, rfl, hq, rfl, Or.inr (h.resolve_left (by simp))⟩
    · exact ⟨r, n, [], w, rfl, hw, rfl, Or.inl ⟨rfl, rfl⟩⟩

/-- What a file takes from `x` when it is moved to the end `w` of the cloned directories. -/
theorem takes_renamed {w : Loc} (hd : fs.dirent x = some d)
    (ho : fs.objAt x ≠ fs.objAt (n :: l)) (hbelow : ¬ n :: l <:+ x) (hc : Cloned fs fs' b r)
    (hw : descend fs'.kindAt b r = .ok w)
    (hway : InWay fs true b r x ∨ ∃ w, descend fs.kindAt b r = .ok w ∧ x = n :: w)
    (hmove : fs'.objAt (n :: l) = fs'.objAt (n :: w) ∧ fs'' = fs' ∨
      fs'.Movable (n :: l) (n :: w) ∧ fs'' = fs'.move (n :: l) (n :: w)) :
    fs''.dirent x ≠ some d := by
  intro hafter
  rcases hway with hway | ⟨w', hw', rfl⟩
  · have hgone : fs'.dirent x ≠ some d := fun h => (Cloned.dirent_eq_iff hd hc).1 h hway
    rcases hmove with ⟨-, rfl⟩ | ⟨hm, rfl⟩
    · exact hgone hafter
    · have hdst : ¬ n :: w <:+ x := by
        -- what is in the way ends before the names do
        intro hs
        have hne : fs.dirent (n :: w) ≠ none := by
          by_cases e : n :: w = x
          · rw [e, hd]
            simp
          · exact (isDir_of_suffix (by simp [hd]) hs e).dirent_ne_none
        obtain ⟨r₁, c, r₂, q, rfl, hq, -, ⟨-, h⟩ | h⟩ := hway
        · cases h
        · refine not_descend_of_blocked hq h w (t := r₂) ?_
          rw [List.append_assoc]
          exact hc.descend_of_dirent hw hne
      rw [dirent_move hm.guard, origin_of_not_suffix hdst hbelow, Option.bind_some] at hafter
      exact hgone hafter
  · have hsame := hc.dirent_of_descend hw'
    obtain rfl : w' = w := Except.ok.inj ((hc.keeps.descend hw').symm.trans hw)
    rcases hmove with ⟨he, -⟩ | ⟨hm, rfl⟩
    · rw [objAt, objAt, hsame, hsame] at he
      exact ho he.symm
    · have horigin : origin (n :: l) (n :: w') (n :: w') = some (n :: l) :=
        origin_append (n :: l) (n :: w') []
      rw [dirent_move hm.guard, horigin, Option.bind_some, hsame] at hafter
      exact ho (by rw [objAt, objAt, hd, hafter])

section Recycle

variable (hst : fs.fstatat p dirfd pathname (statFlags flags) = .ok st1)
  (ht : fs.targetAt p dirfd pathname = .ok (.entry l n)) (hstat : fs.stat p dir = .ok st2)
  (hfuel : enough l ≤ fuel) (hlands : Lands fs p dir st1.isDir l n m b r)
  (hd : fs.dirent x = some d) (hk : (fs.inode d.obj).kind ≠ .dir) (hx : x ≠ n :: l)

include hst ht hstat hfuel hlands hd hk hx

theorem recycle_directory_retains (hdir : st1.isDir = true) :
    (¬ InWay fs true b r x → Retained fs ((recycle fuel dirfd pathname flags st1 dir
      (entryPath l n) (mountPath l n m)).run (exec p) fs).2 x d) ∧
    (((recycle fuel dirfd pathname flags st1 dir (entryPath l n) (mountPath l n m)).run
      (exec p) fs).1.map Exit.retval = some 0 → InWay fs true b r x →
      ((recycle fuel dirfd pathname flags st1 dir (entryPath l n) (mountPath l n m)).run
        (exec p) fs).2.dirent x ≠ some d) := by
  obtain ⟨hb, hr, -⟩ := hlands
  have hdeny : ∀ e : Errno, (fun _ => false) e = true → e.denial = true := fun e he => by cases he
  have hw := exists_descend_of_fstatat hst ht hdir
  have hspec := run_of_wp (wp_clone_directory_of_leads hstat (isDir_of_targetAt ht) hw hb hr hdeny
    hfuel)
  rw [run_recycle_directory hdir]
  generalize (recyclixClonepathRecursive fuel (recycledPath dir (entryPath l n)
    (mountPath l n m)) (entryPath l n)).run (exec p) fs = c at hspec
  obtain ⟨a, fs'⟩ := c
  rcases hspec with ⟨rfl, hc, -⟩ | ⟨rfl, ⟨e, he⟩ | ⟨rfl, -⟩⟩
  · have ht' := targetAt_keeps hc.keeps ht
    have hother : ∀ l' n', fs'.targetAt p dirfd pathname = .ok (.entry l' n') → x ≠ n' :: l' := by
      intro l' n' h
      rw [ht'] at h
      cases h
      exact hx
    dsimp only
    rw [if_pos rfl]
    refine ⟨fun hway => ?_, fun _ hway hafter => ?_⟩
    · have hret := Cloned.retained hd hk hc hway
      exact hret.trans (retained_unlinkat hret.dirent hother flags)
    · -- the removal does not put anything where it was not
      refine (Cloned.dirent_eq_iff hd hc).1 ?_ hway
      rcases fs'.unlinkat_cases p dirfd pathname flags with ⟨e, h⟩ | ⟨l', n', h', -, hcl, h⟩
      · rwa [h] at hafter
      · rw [h] at hafter
        rwa [dirent_erase (List.cons_ne_nil n' l') hcl, if_neg (hother l' n' h')] at hafter
  · cases he
  · refine ⟨fun _ => Retained.refl hd, fun h => ?_⟩
    cases h

theorem recycle_file_retains (hdir : st1.isDir = false) :
    (¬ InWay fs false b r x → Retained fs ((recycle fuel dirfd pathname flags st1 dir
      (entryPath l n) (mountPath l n m)).run (exec p) fs).2 x d) ∧
    (((recycle fuel dirfd pathname flags st1 dir (entryPath l n) (mountPath l n m)).run
      (exec p) fs).1.map Exit.retval = some 0 → fs.objAt x ≠ fs.objAt (n :: l) →
      InWay fs false b r x → ((recycle fuel dirfd pathname flags st1 dir (entryPath l n)
        (mountPath l n m)).run (exec p) fs).2.dirent x ≠ some d) := by
  obtain ⟨hb, hnames, hfile⟩ := hlands
  obtain ⟨hne, hnew⟩ := hfile hdir
  obtain ⟨n', r, rfl⟩ := List.exists_cons_of_ne_nil hne
  obtain ⟨rfl, hr⟩ : n = n' ∧ l = r ++ m := List.cons.inj hnames
  have hdeny : ∀ e : Errno, (fun _ => false) e = true → e.denial = true := fun e he => by cases he
  have hdir0 := ne_nil_of_stat hstat
  obtain ⟨-, hst1⟩ := statLoc_entry hst ht hdir
  obtain ⟨d₀, hd₀, rfl⟩ := statLoc_eq_ok.1 hst1
  have hk₀ := kind_of_fstatat hst ht hd₀ hdir
  -- there is nothing below the entry
  have hbelow : ¬ n :: l <:+ x := by
    intro hs
    have := dirent_eq_none_of_childless
      (childless_of_not_isDir fun h => hk₀ ((isDir_iff_kind hd₀).1 h)) hs hx
    rw [hd] at this
    cases this
  have hspec := run_of_wp (wp_clone_parent_of_leads (n := n) hstat (isDir_of_targetAt ht) hb hr
    hdeny hfuel)
  rw [run_recycle_file hdir, inWay_file_iff]
  generalize (recyclixClonepathRecursive fuel (dirname (recycledPath dir (entryPath l n)
    (mountPath l n m))) (dirname (entryPath l n))).run (exec p) fs = c at hspec
  obtain ⟨a, fs'⟩ := c
  rcases hspec with ⟨rfl, hc, -⟩ | ⟨rfl, ⟨e, he⟩ | ⟨rfl, -⟩⟩
  · obtain ⟨w, hw⟩ := hc.descend_ok
    have ht' := targetAt_keeps hc.keeps ht
    have hdst : ∀ l' n', fs'.targetAt p 0 (recycledPath dir (entryPath l n) (mountPath l n m)) =
        .ok (.entry l' n') → n' :: l' = n :: w := fun l' n' h =>
      targetAt_recycledPath hdir0 hr (hb.keeps hc.keeps) hw hnew h
    dsimp only
    rw [if_pos rfl]
    refine ⟨fun hway => ?_, fun hret ho hway => ?_⟩
    · rw [not_or] at hway
      have hret := Cloned.retained hd hk hc hway.1
      refine hret.trans (retained_renameat hret.dirent (fun l' n' h => ?_) fun l' n' h => ?_)
      · rw [ht'] at h
        cases h
        exact hbelow
      · rw [hdst l' n' h]
        rintro rfl
        exact hway.2 ⟨w, hc.descend_of_dirent hw (fun h => by rw [h] at hd; cases hd), rfl⟩
    · rcases fs'.renameat_cases p dirfd pathname 0 (recycledPath dir (entryPath l n)
          (mountPath l n m)) with ⟨e, h⟩ | ⟨l₁, n₁, l₂, n₂, h₁, h₂, hmove⟩
      · rw [h] at hret
        simp [Exit.plain, retvalOf] at hret
      · rw [ht'] at h₁
        cases h₁
        rw [hdst l₂ n₂ h₂] at hmove
        refine takes_renamed hd ho hbelow hc hw hway ?_
        rcases hmove with ⟨-, hsame, h⟩ | ⟨hm, h⟩
        · exact Or.inl ⟨hsame, by rw [h]⟩
        · exact Or.inr ⟨hm, by rw [h]⟩
  · cases he
  · refine ⟨fun _ => Retained.refl hd, fun h => ?_⟩
    cases h

end Recycle

/-- A call that recycles its entry takes away just the file that is in its way. -/
theorem unlinkat_retains_iff {bn : Bin} (hsel : env.Selects fs p pathname st1 bn st2)
    (hst : fs.fstatat p dirfd pathname (statFlags flags) = .ok st1)
    (ht : fs.targetAt p dirfd pathname = .ok (.entry l n)) (hfuel : enough l ≤ fuel)
    (hm : climb fs st1.obj.dev st2.obj.ino (n :: l) = some m)
    (hlands : Lands fs p bn.dir st1.isDir l n m b r)
    (hret : ((unlinkat env fuel dirfd pathname flags).run (exec p) fs).1.map Exit.retval = some 0)
    (hd : fs.dirent x = some d) (hk : (fs.inode d.obj).kind ≠ .dir) (hx : x ≠ n :: l)
    (ho : fs.objAt x ≠ fs.objAt (n :: l)) :
    ((unlinkat env fuel dirfd pathname flags).run (exec p) fs).2.dirent x = some d ↔
      ¬ InWay fs st1.isDir b r x := by
  have hstat := hsel.eligible.stat
  have hentry := run_unlinkat_entry hsel hst ht hfuel
  rw [hm] at hentry
  dsimp only at hentry
  rw [hentry] at hret ⊢
  cases hdir : st1.isDir with
  | true =>
    obtain ⟨hkeep, htake⟩ := recycle_directory_retains hst ht hstat hfuel hlands hd hk hx hdir
    exact ⟨fun h hway => htake hret hway h, fun h => (hkeep h).dirent⟩
  | false =>
    obtain ⟨hkeep, htake⟩ := recycle_file_retains hst ht hstat hfuel hlands hd hk hx hdir
    exact ⟨fun h hway => htake hret ho hway h, fun h => (hkeep h).dirent⟩

/-- Whatever becomes of the entry, a file stays that is not in its way. -/
theorem unlinkat_retains (ht : fs.targetAt p dirfd pathname = .ok (.entry l n))
    (hfuel : enough l ≤ fuel) (hd : fs.dirent x = some d) (hk : (fs.inode d.obj).kind ≠ .dir)
    (hx : x ≠ n :: l)
    (hpass : ∀ st1 bn st2 m, fs.fstatat p dirfd pathname (statFlags flags) = .ok st1 →
      env.Selects fs p pathname st1 bn st2 → climb fs st1.obj.dev st2.obj.ino (n :: l) = some m →
      ∃ b r, Lands fs p bn.dir st1.isDir l n m b r ∧ ¬ InWay fs st1.isDir b r x) :
    Retained fs ((unlinkat env fuel dirfd pathname flags).run (exec p) fs).2 x d := by
  rcases run_unlinkat_cases env flags ht hfuel with h | ⟨e, h⟩ | ⟨st1, bn, st2, m, hst, hsel, hm, h⟩
  · rw [h]
    refine retained_unlinkat hd (fun l' n' ht' => ?_) flags
    rw [ht] at ht'
    cases ht'
    exact hx
  · rw [h]
    exact Retained.refl hd
  · rw [h]
    obtain ⟨b, r, hlands, hway⟩ := hpass st1 bn st2 m hst hsel hm
    have hstat := hsel.eligible.stat
    cases hdir : st1.isDir with
    | true =>
      rw [hdir] at hway
      exact (recycle_directory_retains hst ht hstat hfuel hlands hd hk hx hdir).1 hway
    | false =>
      rw [hdir] at hway
      exact (recycle_file_retains hst ht hstat hfuel hlands hd hk hx hdir).1 hway

/-! ## Runs -/

/-- An operation does not name the file at `x`, and does not need its place in the recycler. -/
def Op.PassesBy (env : Env) (x : Loc) (fs : FileSystem) : Op → Prop
  | .make .. => True
  | .rename p old new =>
    (∀ l n, fs.targetAt p atFdcwd old = .ok (.entry l n) → ¬ n :: l <:+ x) ∧
      ∀ l n, fs.targetAt p atFdcwd new = .ok (.entry l n) → x ≠ n :: l
  | .delete p fuel dirfd pathname flags =>
    (∃ l n, fs.targetAt p dirfd pathname = .ok (.entry l n) ∧ enough l ≤ fuel ∧ x ≠ n :: l ∧
      ∀ st1 bn st2 m, fs.fstatat p dirfd pathname (statFlags flags) = .ok st1 →
        env.Selects fs p pathname st1 bn st2 →
        climb fs st1.obj.dev st2.obj.ino (n :: l) = some m →
        ∃ b r, Lands fs p bn.dir st1.isDir l n m b r ∧ ¬ InWay fs st1.isDir b r x) ∨
    ((∀ l n, fs.targetAt p dirfd pathname ≠ .ok (.entry l n)) ∧
      ∀ st1 bn st2, fs.fstatat p dirfd pathname (statFlags flags) = .ok st1 →
        ¬ env.Selects fs p pathname st1 bn st2)

theorem Op.PassesBy.retained {op : Op} (h : op.PassesBy env x fs) (hd : fs.dirent x = some d)
    (hk : (fs.inode d.obj).kind ≠ .dir) : Retained fs (op.apply env fs) x d := by
  cases op with
  | make p s i => exact retained_make hd s i
  | rename p old new => exact retained_renameat hd h.1 h.2
  | delete p fuel dirfd pathname flags =>
    rcases h with ⟨l, n, ht, hfuel, hx, hpass⟩ | ⟨hno, hsel⟩
    · exact unlinkat_retains ht hfuel hd hk hx hpass
    · rcases run_unlinkat_unselected env fs p fuel dirfd pathname flags with
        h | ⟨e, h⟩ | ⟨st1, bn, st2, hst, hs⟩
      · rw [Op.apply, h]
        exact retained_unlinkat hd (fun l n ht => absurd ht (hno l n)) flags
      · rw [Op.apply, h]
        exact Retained.refl hd
      · exact absurd hs (hsel st1 bn st2 hst)

/-- A file stays while the operations pass it by. -/
theorem throughout_retains {ops : List Op} (h : Throughout env (fun fs op => op.PassesBy env x fs) ops fs)
    (hd : fs.dirent x = some d) (hk : (fs.inode d.obj).kind ≠ .dir) :
    Retained fs (after env ops fs) x d := by
  induction ops generalizing fs with
  | nil => exact Retained.refl hd
  | cons op ops ih =>
    have hstep := h.1.retained hd hk
    exact hstep.trans (ih h.2 hstep.dirent (by rw [hstep.inode]; exact hk))

/-! ## Deleted files -/

section Deleted

variable {q r₁ r₂ : Loc} {bn : Bin} {S : Loc → Prop} [DecidablePred S]
  (hsel : env.Selects fs p pathname st1 bn st2)
  (hst : fs.fstatat p dirfd pathname (statFlags flags) = .ok st1)
  (ht : fs.targetAt p dirfd pathname = .ok (.entry l n)) (hfile : st1.isDir = false)
  (hfuel : enough l ≤ fuel) (hm : climb fs st1.obj.dev st2.obj.ino (n :: l) = some m)
  (hpath : BinPath S fs p bn.dir l n m b q r₁ r₂)
  (hret : ((unlinkat env fuel dirfd pathname flags).run (exec p) fs).1.map Exit.retval = some 0)

include hsel hst ht hfile hfuel hm hpath hret

/-- A file for which 0 is returned is in its place in the recycler. -/
theorem unlinkat_places : ∃ d, d.obj = st1.obj ∧ st1.inode.kind ≠ .dir ∧
    ((unlinkat env fuel dirfd pathname flags).run (exec p) fs).2.dirent (n :: (r₂ ++ q)) = some d ∧
    ((unlinkat env fuel dirfd pathname flags).run (exec p) fs).2.inode d.obj = st1.inode := by
  obtain ⟨hsl, hst1⟩ := statLoc_entry hst ht hfile
  obtain ⟨d, hd, rfl⟩ := statLoc_eq_ok.1 hst1
  have hk := kind_of_fstatat hst ht hd hfile
  have hstat := hsel.eligible.stat
  obtain ⟨a, fs'', hrun, hcases⟩ := hpath.run_recycle hstat ht hd hk hsl hfile hfuel
  have hentry := run_unlinkat_entry hsel hst ht hfuel
  rw [hm] at hentry
  dsimp only at hentry
  rw [hrun] at hentry
  rw [hentry] at hret ⊢
  rcases hcases with ⟨rfl, -⟩ | ⟨rfl, -, fs', hv, hg, hend⟩
  · simp [Exit.plain] at hret
  · have hc : Cloned fs fs' b (r₂ ++ r₁) := ⟨q, r₁, r₂, rfl, hpath.fs_descend, hv, hg⟩
    have hinode : fs'.inode d.obj = fs.inode d.obj := Cloned.inode_eq hd hk hc
    rcases hend with ⟨hdisp, rfl⟩ | ⟨hsame, rfl⟩
    · have hu : ∀ s c, r₂ = s ++ [c] → ∀ d, fs.dirent (c :: q) = some d → d.mounted = false :=
        fun s c e => (hv s c e).unmounted
      have hdisp' := (hg.displaces_iff hu hpath.blocked (hpath.entry_not_made (by simp [hd]))
        fun s _ => BinPath.dest_not_made s).2 hdisp
      have hk' : (fs'.inode d.obj).kind ≠ .dir := by
        rw [hinode]
        exact hk
      have hmove := hdisp'.dirent_move (List.cons_ne_nil _ _) (List.cons_ne_nil _ _)
        (hpath.dirent_grafted hg hd) hk' (hg.isDir_last hpath.isDir)
      refine ⟨d, rfl, hk, ?_, ?_⟩
      · rw [hmove, if_pos rfl]
      · rw [inode_move, hinode]
    · rw [objAt, hd] at hsame
      obtain ⟨d', hd', ho⟩ := Option.map_eq_some_iff.1 hsame.symm
      refine ⟨d', ho, hk, ?_, ?_⟩
      · rw [hg.dirent _ fun s _ => BinPath.dest_not_made s, hd']
      · rw [ho, hinode]

/-- What was deleted stays in its place in the recycler, whatever is done afterwards that passes by
this place. -/
theorem deleted_retained {ops : List Op}
    (hpass : Throughout env (fun fs op => op.PassesBy env (n :: (r₂ ++ q)) fs) ops
      ((unlinkat env fuel dirfd pathname flags).run (exec p) fs).2) :
    (after env (.delete p fuel dirfd pathname flags :: ops) fs).objAt (n :: (r₂ ++ q)) =
        some st1.obj ∧
      (after env (.delete p fuel dirfd pathname flags :: ops) fs).inode st1.obj = st1.inode := by
  obtain ⟨d, ho, hk, hd, hi⟩ := unlinkat_places hsel hst ht hfile hfuel hm hpath hret
  obtain ⟨hd', hi'⟩ := throughout_retains hpass hd (by rw [hi]; exact hk)
  rw [← ho, objAt]
  exact ⟨by rw [← Option.map_some, ← hd']; rfl, hi'.trans hi⟩

end Deleted

namespace Sample

/-- Another file of the directory is made and deleted. -/
def neighbour : List Op :=
  [.make process "/a/g".toList file, .delete process 15 atFdcwd "/a/g".toList 0]

theorem selects_fileTree (s : Str) (st : Stat) (fs : FileSystem) (hdev : st.obj.dev = 1)
    (hsize : (1 : ℤ) ≤ st.size) (hdir : fs.stat process "/bin".toList = .ok ⟨⟨1, 3⟩, Sample.dir⟩) :
    Sample.env.Selects fs process s st ⟨"/bin".toList, .initial⟩ ⟨⟨1, 3⟩, Sample.dir⟩ :=
  ⟨⟨"/bin".toList, [], "/bin".toList, [], rfl, by decide +kernel,
    fun x hx => absurd hx List.not_mem_nil, rfl⟩,
    ⟨hdir, hdev.symm, fun _ => ⟨hsize, fun h => absurd rfl h⟩, rfl⟩⟩

end Sample

/-- The first of two deleted files of one name is lost when the second is deleted. -/
theorem unlinkat_retains_iff_again :
    ((unlinkat Sample.env 15 atFdcwd "/a/f".toList 0).run (exec Sample.process)
      (after Sample.env Sample.again Sample.empty)).2.dirent [Sample.f, Sample.a, Sample.bin] ≠
        some ⟨⟨1, 5⟩, false⟩ := by
  have hsel := Sample.selects_fileTree "/a/f".toList ⟨⟨1, 7⟩, Sample.file⟩
    (after Sample.env Sample.again Sample.empty) rfl (by decide +kernel)
    (by decide +kernel)
  have hst : (after Sample.env Sample.again Sample.empty).fstatat Sample.process atFdcwd
      "/a/f".toList (statFlags 0) = .ok ⟨⟨1, 7⟩, Sample.file⟩ := by decide +kernel
  have hlands : Lands (after Sample.env Sample.again Sample.empty) Sample.process "/bin".toList false
      [Sample.a] Sample.f [] [Sample.bin] [Sample.f, Sample.a] :=
    ⟨⟨by decide +kernel, by decide +kernel⟩, rfl, fun _ => ⟨by simp, Or.inl rfl⟩⟩
  have hway : InWay (after Sample.env Sample.again Sample.empty) false [Sample.bin]
      [Sample.f, Sample.a] [Sample.f, Sample.a, Sample.bin] :=
    ⟨[Sample.a], Sample.f, [], [Sample.a, Sample.bin], rfl, by decide +kernel, rfl,
      Or.inl ⟨rfl, rfl⟩⟩
  have hiff := unlinkat_retains_iff hsel hst (show _ = Except.ok (Target.entry [Sample.a] Sample.f) by
    decide +kernel) (show enough _ ≤ 15 by decide) (by decide +kernel) hlands (by decide +kernel)
    (show _ = some ⟨⟨1, 5⟩, false⟩ by decide +kernel) (by decide +kernel)
    (show [Sample.f, Sample.a, Sample.bin] ≠ _ by decide) (by decide +kernel)
  exact fun h => hiff.1 h hway

theorem deleted_retained_neighbour :
    (after Sample.env (.delete Sample.process 15 atFdcwd "/a/f".toList 0 :: Sample.neighbour)
      Sample.fileTree).objAt [Sample.f, Sample.a, Sample.bin] = some ⟨1, 5⟩ := by
  have hsel := Sample.selects_fileTree "/a/f".toList ⟨⟨1, 5⟩, Sample.file⟩ Sample.fileTree rfl
    (by decide +kernel) (by decide +kernel)
  have hst : Sample.fileTree.fstatat Sample.process atFdcwd "/a/f".toList (statFlags 0) =
      .ok ⟨⟨1, 5⟩, Sample.file⟩ := by decide +kernel
  have ht : Sample.fileTree.targetAt Sample.process atFdcwd "/a/f".toList =
      .ok (.entry [Sample.a] Sample.f) := by decide +kernel
  have hpath : BinPath (fun _ => False) Sample.fileTree Sample.process
      "/bin".toList [Sample.a] Sample.f [] [Sample.bin] [Sample.bin] [] [Sample.a] := by
    refine ⟨Or.inl rfl, rfl, by decide +kernel, by decide +kernel, fun s c e => ?_, fun s c e => ?_⟩
    · obtain ⟨-, e⟩ := @List.append_inj' _ [] _ _ _ e rfl
      cases e
      exact blocked_of_none (by decide +kernel) (by decide +kernel)
    · obtain ⟨-, e⟩ := @List.append_inj' _ [] _ _ _ e rfl
      cases e
      decide
  refine (deleted_retained hsel hst ht rfl (by decide) (by decide +kernel) hpath
    (by decide +kernel) (show Throughout _ _ Sample.neighbour _ from ⟨trivial,
      Or.inl ⟨[Sample.a], Sample.name "g", by decide +kernel, by decide, by decide, ?_⟩,
      trivial⟩)).1
  intro st1 bn st2 m hst hsel hm
  have hstat := hsel.eligible.stat
  rw [Sample.dir_of_selects hsel] at hstat ⊢
  obtain rfl := Except.ok.inj (hst.symm.trans (show _ = Except.ok ⟨⟨1, 7⟩, Sample.file⟩ by
    decide +kernel))
  obtain rfl := Except.ok.inj (hstat.symm.trans (show _ = Except.ok ⟨⟨1, 3⟩, Sample.dir⟩ by
    decide +kernel))
  obtain rfl := Option.some.inj (hm.symm.trans (show _ = some [] by decide +kernel))
  refine ⟨[Sample.bin], [Sample.name "g", Sample.a], ⟨⟨by decide +kernel, by decide +kernel⟩, rfl,
    fun _ => ⟨by simp, Or.inl rfl⟩⟩, ?_⟩
  rintro ⟨r₁, c, r₂, q, hr, -, hx, -⟩
  have hc : c ∈ [Sample.name "g", Sample.a] := by simp [hr]
  obtain ⟨rfl, -⟩ := List.cons.inj hx
  revert hc
  decide

end YazzyPreload.Recyclix

import YazzyPreload.Place
import YazzyPreload.Recyclix.Unlinkat

/-!
# Where `unlinkat` finds the file

`climb` is the search for the mountpoint on locations: from an entry upwards until a directory has
the recycler's inode number or is on another device.  `wp_locate` says that the program computes
it, and `spells_recycledPath` what the pathname inside the recycler is made of.
-/

namespace YazzyPreload.Recyclix

open FileSystem Prog

/-- The mountpoint that the search from an entry upwards ends with; `none` when it meets the
recycler's inode number before. -/
def climb (fs : FileSystem) (dev rino : ℕ) : Loc → Option Loc
  | [] => some []
  | n :: l =>
    if (fs.objAt l).map Obj.ino = some rino then none
    else if (fs.objAt l).map Obj.dev = some dev then climb fs dev rino l
    else some (n :: l)

/-- The full pathname of the entry `n` of the directory at `l`, as `unlinkat` puts it together. -/
def entryPath (l : Loc) (n : Name) : Str := pathOf l ++ '/' :: n.1

/-- The text of the mountpoint: the full pathname of the entry itself when that is one. -/
def mountPath (l : Loc) (n : Name) (m : Loc) : Str := if m = n :: l then entryPath l n else pathOf m

/-- What `locate` ends with when no call fails. -/
def located (fs : FileSystem) (dev rino : ℕ) (l : Loc) (n : Name) : Found :=
  match climb fs dev rino (n :: l) with
  | none => .realUnlink
  | some m => .mountpoint (entryPath l n) (mountPath l n m)

variable {fs : FileSystem} {p : Process} {deny : Errno → Bool} {l m r : Loc} {n : Name}
  {dev rino fuel : ℕ} {st1 : Stat} {dirfd : ℤ} {pathname fq t : Str}

theorem climb_suffix (h : climb fs dev rino l = some m) : m <:+ l := by
  induction l with
  | nil =>
    cases h
    exact List.suffix_rfl
  | cons n l ih =>
    rw [climb] at h
    split_ifs at h
    · exact (ih h).trans (List.suffix_cons n l)
    · cases h
      exact List.suffix_rfl

/-- The pathname inside the recycler, of an entry in a directory at or below the mountpoint. -/
theorem spells_recycledPath_below {dir : Str} (hdir : dir ≠ []) (hr : l = r ++ m) :
    Spells (isAbs dir) (segments dir) (n :: r)
      (recycledPath dir (entryPath l n) (mountPath l n m)) := by
  have hne : m ≠ n :: l := by
    intro e
    have := congrArg List.length (e.trans (congrArg (n :: ·) hr))
    simp only [List.length_cons, List.length_append] at this
    omega
  rw [recycledPath, mountPath, if_neg hne, hr]
  exact spells_append_drop hdir r m n

/-- The pathname inside the recycler goes on from its directory with the names below the
mountpoint. -/
theorem spells_recycledPath {dir : Str} (hdir : dir ≠ []) (h : m <:+ n :: l) :
    ∃ r, n :: l = r ++ m ∧
      Spells (isAbs dir) (segments dir) r (recycledPath dir (entryPath l n) (mountPath l n m)) := by
  rcases List.suffix_cons_iff.1 h with rfl | ⟨r, hr⟩
  · refine ⟨[], rfl, ?_, isAbs_append hdir _, fun _ => rfl⟩
    rw [recycledPath, mountPath, if_pos rfl, List.drop_length, segments_concat_slash]
    simp
  · exact ⟨n :: r, congrArg (n :: ·) hr.symm, spells_recycledPath_below hdir hr.symm⟩

/-! ## The search -/

theorem stat_pathOf (hl : fs.IsDir l) :
    ∃ o, fs.objAt l = some o ∧ exec p (.stat (pathOf l)) fs = (.ok ⟨o, fs.inode o⟩, fs) := by
  obtain ⟨d, hd, -⟩ := isDir_iff.1 hl
  refine ⟨d.obj, by rw [objAt, hd]; rfl, ?_⟩
  rw [exec, stat, lookupAt_of_spells (spells_pathOf l) hl, Except.bind,
    statLoc_eq_ok.2 ⟨d, hd, rfl⟩]

/-- One turn of the loop, at a text whose directory is at `l`. -/
theorem wp_findRoot_step {Q : Option Found → Prop}
    (ht : (if dirname t = ['/', '/'] then ['/'] else dirname t) = pathOf l) (hne : t ≠ ['/'])
    (hl : fs.IsDir l) (hden : ∀ e, deny e = true → Q (some (.exit (.plain (-1)))))
    (hino : (fs.objAt l).map Obj.ino = some rino → Q (some .realUnlink))
    (hmp : (fs.objAt l).map Obj.ino ≠ some rino → (fs.objAt l).map Obj.dev ≠ some st1.obj.dev →
      Q (some (.mountpoint fq t)))
    (hrest : (fs.objAt l).map Obj.ino ≠ some rino → (fs.objAt l).map Obj.dev = some st1.obj.dev →
      wp (Sys p deny) (findRoot st1 rino fq fuel (pathOf l)) fs fun _ a fs' => fs' = fs ∧ Q a) :
    wp (Sys p deny) (findRoot st1 rino fq (fuel + 1) t) fs fun _ a fs' => fs' = fs ∧ Q a := by
  obtain ⟨o, ho, hst⟩ := stat_pathOf (p := p) hl
  rw [ho] at hino hmp hrest
  simp only [Option.map_some, Option.some_inj, Ne] at hino hmp hrest
  rw [findRoot, ht]
  refine wp_sys_call_of hst ?_ fun e he => ⟨rfl, hden e he⟩
  dsimp only
  split_ifs with h1 h2 h3
  · exact ⟨rfl, hino h1⟩
  · exact absurd h2.1 hne
  · exact ⟨rfl, hmp h1 (Ne.symm h3)⟩
  · exact hrest h1 (not_not.1 h3).symm

theorem wp_findRoot_pathOf (hfuel : l.length < fuel) (hl : fs.IsDir l)
    (hino : (fs.objAt l).map Obj.ino ≠ some rino) :
    wp (Sys p deny) (findRoot st1 rino fq fuel (pathOf l)) fs fun _ a fs' => fs' = fs ∧
      ((a = some (.exit (.plain (-1))) ∧ ∃ e, deny e = true) ∨
        a = some (match climb fs st1.obj.dev rino l with
          | none => .realUnlink
          | some m => .mountpoint fq (pathOf m))) := by
  induction l generalizing fuel with
  | nil =>
    obtain ⟨fuel, rfl⟩ : ∃ f, fuel = f + 1 := ⟨fuel - 1, by simp at hfuel; omega⟩
    obtain ⟨o, ho, hst⟩ := stat_pathOf (p := p) hl
    have hne : o.ino ≠ rino := fun e => hino (by rw [ho, ← e]; rfl)
    rw [findRoot]
    refine wp_sys_call_of hst ?_ fun e he => ⟨rfl, Or.inl ⟨rfl, e, he⟩⟩
    dsimp only
    rw [if_neg hne, if_pos ⟨rfl, by decide⟩]
    exact ⟨rfl, Or.inr rfl⟩
  | cons n l ih =>
    obtain ⟨fuel, rfl⟩ : ∃ f, fuel = f + 1 := ⟨fuel - 1, by simp at hfuel; omega⟩
    have hl' : fs.IsDir l := hl.tail
    have ht : (if dirname (pathOf (n :: l)) = ['/', '/'] then ['/'] else dirname (pathOf (n :: l))) =
        pathOf l := by
      rw [dirname_pathOf, if_neg (pathOf_ne_slash_slash l)]
    refine wp_findRoot_step ht (pathOf_cons_ne n l) hl' (fun e he => Or.inl ⟨rfl, e, he⟩)
      (fun h => Or.inr ?_) (fun h h' => Or.inr ?_) fun h h' => ?_
    · rw [climb, if_pos h]
    · rw [climb, if_neg h, if_neg h']
    · rw [climb, if_neg h, if_pos h']
      exact ih (by simpa using hfuel) hl' h

theorem wp_findRoot_entryPath (hfuel : l.length + 1 < fuel) (hl : fs.IsDir l) :
    wp (Sys p deny) (findRoot st1 rino (entryPath l n) fuel (entryPath l n)) fs fun _ a fs' =>
      fs' = fs ∧ ((a = some (.exit (.plain (-1))) ∧ ∃ e, deny e = true) ∨
        a = some (located fs st1.obj.dev rino l n)) := by
  obtain ⟨fuel, rfl⟩ : ∃ f, fuel = f + 1 := ⟨fuel - 1, by omega⟩
  have ht : (if dirname (entryPath l n) = ['/', '/'] then ['/'] else dirname (entryPath l n)) =
      pathOf l := by
    rw [entryPath, dirname_pathOf_name]
    by_cases h : l = []
    · subst h
      rfl
    · rw [if_neg h, if_neg (pathOf_ne_slash_slash l)]
  have hne : entryPath l n ≠ ['/'] := by
    intro h
    have := (spells_pathOf_name l n).segments
    rw [← entryPath, h] at this
    simp [segments_slash_cons] at this
  refine wp_findRoot_step ht hne hl (fun e he => Or.inl ⟨rfl, e, he⟩)
    (fun h => Or.inr ?_) (fun h h' => Or.inr ?_) fun h h' => ?_
  · rw [located, climb, if_pos h]
  · rw [located, climb, if_neg h, if_neg h']
    simp only [mountPath, if_true]
  · refine wp_mono (wp_findRoot_pathOf (by omega) hl h) fun _ a fs' ha =>
      ⟨ha.1, ha.2.imp_right fun ha => ?_⟩
    rw [ha, located, climb, if_neg h, if_pos h']
    cases hc : climb fs st1.obj.dev rino l with
    | none => rfl
    | some m =>
      have hm : m ≠ n :: l := by
        rintro rfl
        have := (climb_suffix hc).length_le
        rw [List.length_cons] at this
        omega
      simp only [mountPath, if_neg hm]

/-! ## The full pathname -/

/-- An absolute text that leads where the pathname does. -/
structure Locates (fs : FileSystem) (l : Loc) (n : Name) (s : Str) : Prop where
  isAbs : isAbs s = true
  walk : ∃ ys, segments s = ys ++ [n.1] ∧
    walk fs.kindAt maxSymlinks [] (ys.map Comp.ofStr) = .ok l

theorem locates_pathOf {cur : Loc} {ys : List Str} (hs : segments pathname = ys ++ [n.1])
    (hw : walk fs.kindAt maxSymlinks cur (ys.map Comp.ofStr) = .ok l) (hl : fs.IsDir l) :
    Locates fs l n (pathOf cur ++ '/' :: pathname) := by
  have hcur : fs.IsDir cur := walk_ok_dir hw hl
  have hsp := spells_pathOf cur
  have hroot := (descend_eq_ok.1 (descend_root hcur)).1
  refine ⟨?_, cur.reverse.map Subtype.val ++ ys, ?_, ?_⟩
  · rw [isAbs_append hsp.isAbs_ne_nil, hsp.isAbs]
  · rw [segments_append, hsp.segments, hs, List.nil_append, List.append_assoc]
  · have hn : (cur.reverse.map Subtype.val).map Comp.ofStr = names cur := by
      have := hsp.comps
      rwa [comps, hsp.segments, List.map_append, List.map_nil, List.nil_append] at this
    rw [List.map_append, hn, walk_append, hroot]
    exact hw

theorem wp_fullPath (ht : fs.targetAt p dirfd pathname = .ok (.entry l n)) :
    wp (Sys p deny) (fullPath dirfd pathname) fs fun _ a fs' => fs' = fs ∧
      ((a = .error (.plain (-1)) ∧ ∃ e, deny e = true) ∨
        ∃ s retval, a = .ok (s, retval) ∧ Locates fs l n s) := by
  obtain ⟨cur, ys, hb, hs, hw, hl⟩ := targetAt_entry ht
  rw [base] at hb
  rw [fullPath]
  split_ifs at hb ⊢ with habs hcwd
  · cases hb
    exact ⟨rfl, Or.inr ⟨_, _, rfl, habs, ys, hs, hw⟩⟩
  · cases hb
    have hcur : fs.IsDir p.cwd := walk_ok_dir hw hl
    refine wp_sys_query (r := .ok (pathOf p.cwd)) (by rw [exec, getcwd, if_pos hcur])
      ⟨rfl, Or.inr ⟨_, _, rfl, locates_pathOf hs hw hl⟩⟩ fun e he => ⟨rfl, Or.inl ⟨rfl, e, he⟩⟩
  · cases hf : p.fds dirfd with
    | none => rw [hf] at hb; cases hb
    | some d =>
      rw [hf] at hb
      cases d with
      | file o link => cases hb
      | dir l' =>
        cases hb
        exact wp_sys_query (r := .ok (pathOf cur)) (by rw [exec, readlinkFd, hf])
          ⟨rfl, Or.inr ⟨_, _, rfl, locates_pathOf hs hw hl⟩⟩ fun e he => ⟨rfl, Or.inl ⟨rfl, e, he⟩⟩

theorem Locates.realpath (h : Locates fs l n t) (hl : fs.IsDir l) :
    fs.realpath p (dirname t) = .ok (pathOf l) := by
  obtain ⟨habs, ys, hs, hw⟩ := h
  obtain ⟨hd, ha⟩ := segments_dirname hs (Or.inl habs)
  have hne : dirname t ≠ [] := by
    intro e
    rw [e] at ha
    rw [← ha] at habs
    cases habs
  have hw' : YazzyPreload.walk fs.kindAt maxSymlinks [] (lookupComps (dirname t)) = .ok l := by
    rw [lookupComps, comps, hd]
    split_ifs
    · rw [walk_concat, hw]
      exact step_here hl
    · rw [List.append_nil, hw]
  rw [FileSystem.realpath, lookupAt_follow hne, ha, habs]
  exact congrArg (Except.map pathOf) hw'

/-- What `locate` ends with for a pathname that names an entry. -/
theorem wp_locate (ht : fs.targetAt p dirfd pathname = .ok (.entry l n))
    (hfuel : l.length + 1 < fuel) :
    wp (Sys p deny) (locate fuel dirfd pathname st1 rino) fs fun _ a fs' => fs' = fs ∧
      (((∃ e, a = some (.exit e)) ∧ ∃ e, deny e = true) ∨
        a = some (located fs st1.obj.dev rino l n)) := by
  have hl := isDir_of_targetAt ht
  rw [locate, wp_bind]
  refine wp_mono (wp_fullPath ht) fun _ a fs' h => ?_
  obtain ⟨rfl, ⟨rfl, h⟩ | ⟨s, retval, rfl, h⟩⟩ := h
  · exact ⟨rfl, Or.inl ⟨⟨_, rfl⟩, h⟩⟩
  · obtain ⟨ys, hs, -⟩ := h.walk
    refine wp_sys_query (r := .ok (pathOf l)) (by rw [exec, h.realpath hl]) ?_
      fun e he => ⟨rfl, Or.inl ⟨⟨_, rfl⟩, e, he⟩⟩
    dsimp only
    rw [basename_eq hs]
    refine wp_mono (wp_findRoot_entryPath hfuel hl) fun _ a fs' h => ⟨h.1, h.2.imp_left fun h => ?_⟩
    exact ⟨⟨_, h.1⟩, h.2⟩

end YazzyPreload.Recyclix

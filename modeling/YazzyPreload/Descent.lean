import YazzyPreload.Syscall

/-!
# Paths below a directory

The pathnames the programs make up lead to a directory they know and go on with names from there.
`Spells abs xs r s` says that the text `s` consists of the segments `xs` and the names `r`, and
`descend v b r` is the directory that the names lead to from `b`.  The calls on a spelled pathname
are given in terms of `descend`; the names `r` stand leaf first, so that `dirname` takes the tail.
-/

namespace YazzyPreload

/-! ## Descending by names -/

section Descend

variable (v : View)

/-- The components that go down the names of `r`. -/
def names (r : Loc) : List Comp := r.reverse.map .name

/-- The directory the names `r` lead to from `b`. -/
def descend (b r : Loc) : Except Errno Loc := walk v maxSymlinks b (names r ++ [.here])

variable {v} {b l m r : Loc} {n : Name}

@[simp] theorem names_nil : names [] = [] := rfl

theorem names_cons (n : Name) (r : Loc) : names (n :: r) = names r ++ [.name n] := by
  rw [names, List.reverse_cons, List.map_append]
  rfl

theorem names_append (r r' : Loc) : names (r ++ r') = names r' ++ names r := by
  rw [names, List.reverse_append, List.map_append]
  rfl

theorem step_here_eq_ok : step v maxSymlinks m .here = .ok l ↔ l = m ∧ v m = some .dir := by
  constructor
  · intro h
    have hd := step_ok_dir h
    rw [step_here hd] at h
    cases h
    exact ⟨rfl, hd⟩
  · rintro ⟨rfl, h⟩
    exact step_here h

/-- A component cannot be entered from where a dot cannot. -/
theorem step_error_of_here {e : Errno} (h : step v maxSymlinks m .here = .error e) (c : Comp) :
    step v maxSymlinks m c = .error e := by
  cases hm : v m with
  | none => rw [step_of_none hm] at h ⊢; exact h
  | some k =>
    by_cases hk : k = .dir
    · rw [hk] at hm
      rw [step_here hm] at h
      cases h
    · rw [step_of_not_dir hm hk] at h ⊢
      exact h

theorem descend_eq_ok : descend v b r = .ok l ↔
    walk v maxSymlinks b (names r) = .ok l ∧ v l = some .dir := by
  rw [descend, walk_concat]
  cases hw : walk v maxSymlinks b (names r) with
  | error e => simp [Except.bind]
  | ok m =>
    simp only [Except.bind, step_here_eq_ok, Except.ok.injEq]
    constructor
    · rintro ⟨rfl, h⟩
      exact ⟨rfl, h⟩
    · rintro ⟨rfl, h⟩
      exact ⟨rfl, h⟩

theorem descend_nil (h : v b = some .dir) : descend v b [] = .ok b := descend_eq_ok.2 ⟨rfl, h⟩

/-- Going on by one component after a descent. -/
theorem walk_names_concat (c : Comp) : walk v maxSymlinks b (names r ++ [c]) =
    (descend v b r).bind fun l => step v maxSymlinks l c := by
  rw [descend, walk_concat, walk_concat]
  cases walk v maxSymlinks b (names r) with
  | error e => rfl
  | ok m =>
    simp only [Except.bind]
    cases hm : step v maxSymlinks m .here with
    | error e => exact step_error_of_here hm c
    | ok l =>
      obtain ⟨rfl, -⟩ := step_here_eq_ok.1 hm
      rfl

theorem descend_cons : descend v b (n :: r) = (descend v b r).bind fun l => descend v l [n] := by
  rw [descend, names_cons, walk_concat, walk_names_concat]
  cases descend v b r with
  | error e => rfl
  | ok l =>
    simp only [Except.bind, descend, names_cons, names_nil, List.nil_append]
    rw [walk_concat, walk_singleton]
    rfl

theorem descend_single_eq_ok {m : Loc} : descend v l [n] = .ok m ↔
    step v maxSymlinks l (.name n) = .ok m ∧ v m = some .dir := by
  rw [descend_eq_ok, names_cons, names_nil, List.nil_append, walk_singleton]

theorem descend_append (r' : Loc) :
    descend v b (r ++ r') = (descend v b r').bind fun l => descend v l r := by
  induction r with
  | nil =>
    cases h : descend v b r' with
    | error e => rw [List.nil_append, h]; rfl
    | ok l =>
      rw [List.nil_append, h, Except.bind]
      exact (descend_nil (descend_eq_ok.1 h).2).symm
  | cons n r ih =>
    rw [List.cons_append, descend_cons, ih]
    cases descend v b r' with
    | error e => rfl
    | ok l => exact descend_cons.symm

theorem descend_ok_of_append {r' : Loc} (h : descend v b (r ++ r') = .ok l) :
    ∃ m, descend v b r' = .ok m ∧ descend v m r = .ok l := by
  rw [descend_append] at h
  cases h' : descend v b r' with
  | error e => rw [h'] at h; cases h
  | ok m => exact ⟨m, rfl, by rw [h'] at h; exact h⟩

theorem descend_name_dir (h : v b = some .dir) (hn : v (n :: b) = some .dir) :
    descend v b [n] = .ok (n :: b) :=
  descend_eq_ok.2 ⟨by rw [names_cons, names_nil, List.nil_append, walk_singleton, step_name_dir h hn],
    hn⟩

theorem descend_name_none (h : v b = some .dir) (hn : v (n :: b) = none) :
    descend v b [n] = .error .ENOENT := by
  rw [descend, names_cons, names_nil, List.nil_append, walk_concat, walk_singleton,
    step_name_none h hn]
  rfl

theorem descend_of_dirs (hb : v b = some .dir)
    (h : ∀ s, s ≠ [] → s <:+ r → v (s ++ b) = some .dir) : descend v b r = .ok (r ++ b) := by
  induction r with
  | nil => exact descend_nil hb
  | cons n r ih =>
    have hr := ih fun s hs hs' => h s hs (hs'.trans (List.suffix_cons n r))
    rw [descend_cons, hr]
    exact descend_name_dir (descend_eq_ok.1 hr).2 (h (n :: r) (List.cons_ne_nil n r) List.suffix_rfl)

theorem Keeps.descend {v' : View} (h : Keeps v v') (hd : descend v b r = .ok l) :
    YazzyPreload.descend v' b r = .ok l := by
  obtain ⟨hw, hl⟩ := descend_eq_ok.1 hd
  exact descend_eq_ok.2 (h b (names r) l hw hl)

end Descend

/-! ## Spelled pathnames -/

/-- The text consists of the segments `xs` and the names `r`, and starts with a slash if `abs`. -/
structure Spells (abs : Bool) (xs : List Str) (r : Loc) (s : Str) : Prop where
  segments : segments s = xs ++ r.reverse.map Subtype.val
  isAbs : isAbs s = abs
  slashed : slashed s = true → r = []

namespace Spells

variable {abs : Bool} {xs : List Str} {r : Loc} {n : Name} {s : Str}

theorem comps (h : Spells abs xs r s) : comps s = xs.map Comp.ofStr ++ names r := by
  rw [YazzyPreload.comps, h.segments, List.map_append, names, List.map_map]
  congr 2
  funext n
  exact Comp.ofStr_name n

theorem ne_nil (h : Spells abs xs (n :: r) s) : s ≠ [] := by
  rintro rfl
  simpa using h.segments

theorem ne_nil_of (h : Spells abs xs r s) (hb : abs = true ∨ xs ≠ []) : s ≠ [] := by
  rintro rfl
  rcases hb with hb | hb
  · rw [← h.isAbs] at hb
    cases hb
  · exact hb (List.append_eq_nil_iff.1 h.segments.symm).1

theorem isAbs_ne_nil (h : Spells true xs r s) : s ≠ [] := h.ne_nil_of (Or.inl rfl)

theorem lookupComps (h : Spells abs xs (n :: r) s) :
    lookupComps s = xs.map Comp.ofStr ++ names r ++ [.name n] := by
  have hs : ¬ YazzyPreload.slashed s = true := fun e => List.cons_ne_nil n r (h.slashed e)
  rw [YazzyPreload.lookupComps, if_neg hs, List.append_nil, h.comps, names_cons, List.append_assoc]

/-- Cutting off the last name. -/
theorem parent (h : Spells abs xs (n :: r) s) (hr : abs = true ∨ xs ≠ [] ∨ r ≠ []) :
    Spells abs xs r (dirname s) := by
  have hseg : YazzyPreload.segments s = (xs ++ r.reverse.map Subtype.val) ++ [n.1] := by
    rw [h.segments, List.reverse_cons, List.map_append, List.append_assoc]
    rfl
  have hne : YazzyPreload.isAbs s = true ∨ xs ++ r.reverse.map Subtype.val ≠ [] := by
    rw [h.isAbs]
    refine hr.imp_right fun hr e => ?_
    simp only [List.append_eq_nil_iff, List.map_eq_nil_iff, List.reverse_eq_nil_iff] at e
    exact hr.elim (fun h => h e.1) fun h => h e.2
  obtain ⟨hd, ha⟩ := segments_dirname hseg hne
  refine ⟨hd, ha.trans h.isAbs, fun hsl => ?_⟩
  have := segments_of_slashed_dirname hsl
  rw [hd, List.append_eq_nil_iff, List.map_eq_nil_iff, List.reverse_eq_nil_iff] at this
  exact this.2

/-- Segments that are names may be counted among the names. -/
theorem rebase {s₀ : Loc} (h : Spells abs (xs ++ s₀.reverse.map Subtype.val) r s)
    (hr : YazzyPreload.slashed s = true → r ++ s₀ = []) : Spells abs xs (r ++ s₀) s :=
  ⟨by rw [h.segments, List.reverse_append, List.map_append, List.append_assoc], h.isAbs, hr⟩

end Spells

/-! ## Calls on spelled pathnames -/

namespace FileSystem

variable {fs : FileSystem} {p : Process} {abs : Bool} {xs : List Str} {b l r : Loc} {n : Name}
  {s : Str}

/-- Where a pathname starts, without a descriptor. -/
def start (p : Process) (abs : Bool) : Loc := if abs then [] else p.cwd

theorem base_atFdcwd (p : Process) (s : Str) : base p atFdcwd s = .ok (start p (isAbs s)) := by
  rw [base, start, if_pos rfl]
  split_ifs <;> rfl

/-- The segments lead to the directory `b`. -/
structure Leads (fs : FileSystem) (p : Process) (abs : Bool) (xs : List Str) (b : Loc) : Prop where
  walk : walk fs.kindAt maxSymlinks (start p abs) (xs.map Comp.ofStr) = .ok b
  isDir : fs.IsDir b

theorem Leads.keeps {fs' : FileSystem} (h : fs.Leads p abs xs b) (hk : Keeps fs.kindAt fs'.kindAt) :
    fs'.Leads p abs xs b :=
  have hw := hk _ _ _ h.walk h.isDir
  ⟨hw.1, hw.2⟩

theorem targetAt_congr {t : Str} (hs : s ≠ []) (ht : t ≠ []) (ha : isAbs s = isAbs t)
    (hc : comps s = comps t) : fs.targetAt p atFdcwd s = fs.targetAt p atFdcwd t := by
  rw [targetAt, targetAt, if_neg hs, if_neg ht, base_atFdcwd, base_atFdcwd, ha, Except.bind,
    Except.bind, target, target, if_neg hs, if_neg ht, hc]

section Spelled

variable (hl : fs.Leads p abs xs b)

include hl

theorem walk_comps (cs : List Comp) : YazzyPreload.walk fs.kindAt maxSymlinks (start p abs)
    (xs.map Comp.ofStr ++ cs) = YazzyPreload.walk fs.kindAt maxSymlinks b cs := by
  rw [walk_append, hl.walk]
  rfl

theorem targetAt_spells (hs : Spells abs xs (n :: r) s) :
    fs.targetAt p atFdcwd s = (descend fs.kindAt b r).map fun l => .entry l n := by
  have hc : comps s = (xs.map Comp.ofStr ++ names r) ++ [.name n] := by
    rw [hs.comps, names_cons, List.append_assoc]
  rw [targetAt, if_neg hs.ne_nil, base_atFdcwd, Except.bind, target_of_comps hc, hs.isAbs,
    walk_comps hl, descend, walk_concat]
  cases YazzyPreload.walk fs.kindAt maxSymlinks b (names r) with
  | error e => rfl
  | ok m =>
    cases hm : fs.kindAt m with
    | none =>
      simp only [Except.bind, lastTarget, hm, step_of_none hm]
      rfl
    | some k =>
      cases k <;> simp only [Except.bind, lastTarget, hm] <;>
        first | (rw [step_here hm]; rfl) | (rw [step_of_not_dir hm (by simp)]; rfl)

theorem stat_spells (hs : Spells abs xs (n :: r) s) : fs.stat p s =
    ((descend fs.kindAt b r).bind fun l => step fs.kindAt maxSymlinks l (.name n)).bind
      fs.statLoc := by
  rw [stat, lookupAt, if_neg hs.ne_nil, base_atFdcwd, Except.bind, lookup, if_neg hs.ne_nil,
    Bool.true_or, if_pos rfl, hs.lookupComps, hs.isAbs, List.append_assoc, walk_comps hl,
    walk_names_concat]

theorem stat_spells_nil (hs : Spells abs xs [] s) (hne : s ≠ []) : fs.stat p s = fs.statLoc b := by
  have hw : YazzyPreload.walk fs.kindAt maxSymlinks (start p abs) (lookupComps s) = .ok b := by
    rw [lookupComps, hs.comps, names_nil, List.append_nil, walk_comps hl]
    split_ifs
    · rw [walk_singleton, step_here hl.isDir]
    · rfl
  rw [stat, lookupAt, if_neg hne, base_atFdcwd, Except.bind, lookup, if_neg hne,
    Bool.true_or, if_pos rfl, hs.isAbs, hw]
  rfl

theorem mkdir_spells (hs : Spells abs xs (n :: r) s) (mode : Mode) : fs.mkdir p s mode =
    match descend fs.kindAt b r with
    | .error e => (.error e, fs)
    | .ok l =>
      if fs.dirent (n :: l) = none then (.ok (), fs.addChild l n (fs.newDir p l mode))
      else (.error .EEXIST, fs) := by
  rw [mkdir, targetAt_spells hl hs]
  cases descend fs.kindAt b r <;> rfl

theorem unlinkEntry_spells (hs : Spells abs xs (n :: r) s) : fs.unlinkEntry p atFdcwd s =
    match descend fs.kindAt b r with
    | .error e => (.error e, fs)
    | .ok l =>
      match fs.dirent (n :: l) with
      | none => (.error .ENOENT, fs)
      | some d =>
        if (fs.inode d.obj).kind = .dir then (.error .EISDIR, fs)
        else if d.mounted then (.error .EBUSY, fs)
        else (.ok (), fs.erase (n :: l)) := by
  have hsl : slashed s = false := by
    by_contra h
    exact List.cons_ne_nil n r (hs.slashed (by simpa using h))
  rw [unlinkEntry, targetAt_spells hl hs]
  cases descend fs.kindAt b r with
  | error e => rfl
  | ok l =>
    simp only [Except.map, hsl]
    rfl

/-- The last name is looked up without following a link. -/
theorem lookupAt_spells (hs : Spells abs xs (n :: r) s) (hd : descend fs.kindAt b r = .ok l)
    (hn : fs.dirent (n :: l) ≠ none) : fs.lookupAt p atFdcwd s false = .ok (n :: l) := by
  have hsl : slashed s = false := by
    by_contra h
    exact List.cons_ne_nil n r (hs.slashed (by simpa using h))
  have ht := targetAt_spells hl hs
  rw [hd, targetAt, if_neg hs.ne_nil, base_atFdcwd] at ht
  change target fs.kindAt (start p (isAbs s)) s = .ok (.entry l n) at ht
  rw [lookupAt, if_neg hs.ne_nil, base_atFdcwd, Except.bind, lookup, if_neg hs.ne_nil, hsl, ht]
  exact if_neg (kindAt_eq_none_iff.not.2 hn)

/-- A directory cannot be made where there is one. -/
theorem mkdir_spells_nil (hs : Spells abs xs [] s) (hne : s ≠ []) (mode : Mode) :
    fs.mkdir p s mode = (.error .EEXIST, fs) := by
  have hc : comps s = xs.map Comp.ofStr := by rw [hs.comps, names_nil, List.append_nil]
  rw [mkdir, targetAt, if_neg hne, base_atFdcwd, Except.bind, hs.isAbs]
  rcases List.eq_nil_or_concat (comps s) with h | ⟨cs, c, h⟩
  · rw [target, if_neg hne, h]
    rfl
  · rw [List.concat_eq_append] at h
    have hw := hl.walk
    rw [← hc, h, walk_concat] at hw
    rw [target_of_comps h]
    cases hm : YazzyPreload.walk fs.kindAt maxSymlinks (start p abs) cs with
    | error e => rw [hm] at hw; cases hw
    | ok m =>
      rw [hm] at hw
      have hd : fs.kindAt m = some .dir := step_ok_dir hw
      cases c with
      | here => simp only [Except.bind, lastTarget, hd]
      | up => simp only [Except.bind, lastTarget, hd]
      | name n =>
        have hne : fs.dirent (n :: m) ≠ none := by
          intro h0
          rw [Except.bind, step_name_none hd (kindAt_eq_none_iff.2 h0)] at hw
          cases hw
        simp only [Except.bind, lastTarget, hd, if_neg hne]

end Spelled

theorem lookupAt_follow (hne : s ≠ []) : fs.lookupAt p atFdcwd s true =
    YazzyPreload.walk fs.kindAt maxSymlinks (start p (isAbs s)) (lookupComps s) := by
  rw [lookupAt, if_neg hne, base_atFdcwd, Except.bind, lookup, if_neg hne, Bool.true_or, if_pos rfl]

/-- A pathname that is looked up as a directory, and its segments. -/
theorem lookupAt_iff_leads (hne : s ≠ []) :
    fs.lookupAt p atFdcwd s true = .ok b ∧ fs.IsDir b ↔ fs.Leads p (isAbs s) (segments s) b := by
  rw [lookupAt_follow hne, lookupComps]
  constructor
  · rintro ⟨hw, hb⟩
    refine ⟨?_, hb⟩
    split_ifs at hw
    · rw [walk_concat] at hw
      cases hc : YazzyPreload.walk fs.kindAt maxSymlinks (start p (isAbs s)) (comps s) with
      | error e => rw [hc] at hw; cases hw
      | ok m =>
        rw [hc] at hw
        rw [(step_here_eq_ok.1 hw).1]
        exact hc
    · rwa [List.append_nil] at hw
  · rintro ⟨hw, hb⟩
    refine ⟨?_, hb⟩
    split_ifs
    · rw [walk_append]
      change (YazzyPreload.walk fs.kindAt maxSymlinks (start p (isAbs s)) (comps s)) = .ok b at hw
      rw [hw]
      exact (walk_singleton _ _ _ _).trans (step_here hb)
    · rw [List.append_nil]
      exact hw

/-- The pathname leads to a directory. -/
def DirPath (fs : FileSystem) (p : Process) (s : Str) : Prop :=
  ∃ l, fs.lookupAt p atFdcwd s true = .ok l ∧ fs.IsDir l

theorem DirPath.keeps {fs' : FileSystem} (h : fs.DirPath p s) (hk : Keeps fs.kindAt fs'.kindAt) :
    fs'.DirPath p s := by
  obtain ⟨l, hw, hl⟩ := h
  by_cases hne : s = []
  · rw [lookupAt, if_pos hne] at hw
    cases hw
  · rw [lookupAt_follow hne] at hw
    obtain ⟨hw', hl'⟩ := hk _ _ _ hw hl
    exact ⟨l, by rw [lookupAt_follow hne, hw'], hl'⟩

theorem DirPath.stat (h : fs.DirPath p s) : ∃ st, fs.stat p s = .ok st := by
  obtain ⟨l, hw, hl⟩ := h
  obtain ⟨d, hd, -⟩ := isDir_iff.1 hl
  exact ⟨⟨d.obj, fs.inode d.obj⟩, by rw [FileSystem.stat, hw, Except.bind, statLoc, hd]⟩

theorem lookupAt_adjust (o : Obj) (f : Inode → Inode) (hf : ∀ i, (f i).kind = i.kind) (dirfd : ℤ)
    (follow : Bool) :
    (fs.adjust o f hf).lookupAt p dirfd s follow = fs.lookupAt p dirfd s follow := by
  rw [lookupAt, lookupAt, kindAt_adjust]

theorem stat_adjust {st : Stat} (h : fs.stat p s = .ok st) (o : Obj) (f : Inode → Inode)
    (hf : ∀ i, (f i).kind = i.kind) :
    (fs.adjust o f hf).stat p s = .ok ⟨st.obj, (fs.adjust o f hf).inode st.obj⟩ := by
  rw [stat] at h
  rw [stat, lookupAt_adjust]
  cases hl : fs.lookupAt p atFdcwd s true with
  | error e => rw [hl] at h; cases h
  | ok l =>
    rw [hl] at h
    simp only [Except.bind, statLoc, dirent_adjust] at h ⊢
    cases hd : fs.dirent l with
    | none => rw [hd] at h; cases h
    | some d =>
      rw [hd] at h
      cases h
      rfl

theorem statLoc_eq_ok {st : Stat} :
    fs.statLoc l = .ok st ↔ ∃ d, fs.dirent l = some d ∧ st = ⟨d.obj, fs.inode d.obj⟩ := by
  rw [statLoc]
  cases fs.dirent l with
  | none => simp
  | some d => simp [eq_comm]

theorem isDir_of_statLoc {st : Stat} (h : fs.statLoc l = .ok st) : fs.IsDir l ↔ st.isDir = true := by
  obtain ⟨d, hd, rfl⟩ := statLoc_eq_ok.1 h
  rw [isDir_iff_kind hd, Stat.isDir, decide_eq_true_eq]

theorem dirPath_of_stat {st : Stat} (h : fs.stat p s = .ok st) (hd : st.isDir = true) :
    fs.DirPath p s := by
  rw [FileSystem.stat] at h
  cases hl : fs.lookupAt p atFdcwd s true with
  | error e => rw [hl] at h; cases h
  | ok l =>
    rw [hl] at h
    exact ⟨l, hl, (isDir_of_statLoc h).2 hd⟩

theorem inode_of_stat {st : Stat} (h : fs.stat p s = .ok st) : fs.inode st.obj = st.inode := by
  rw [FileSystem.stat] at h
  cases hl : fs.lookupAt p atFdcwd s true with
  | error e => rw [hl] at h; cases h
  | ok l =>
    rw [hl] at h
    obtain ⟨d, -, rfl⟩ := statLoc_eq_ok.1 h
    rfl

theorem objAt_of_statLoc {st : Stat} (h : fs.statLoc l = .ok st) : fs.objAt l = some st.obj := by
  obtain ⟨d, hd, rfl⟩ := statLoc_eq_ok.1 h
  rw [objAt, hd]
  rfl

section Descends

variable (hl : fs.Leads p abs xs b) (hs : Spells abs xs r s) (hne : s ≠ [])
  (hd : descend fs.kindAt b r = .ok l)

include hl hs hne hd

/-- Names that lead to a directory spell the pathname of one. -/
theorem dirPath_of_descend : fs.DirPath p s := by
  obtain ⟨hw, hldir⟩ := descend_eq_ok.1 hd
  refine ⟨l, ?_, hldir⟩
  rw [lookupAt_follow hne, hs.isAbs, lookupComps, hs.comps]
  split_ifs
  · rw [List.append_assoc, walk_comps hl]
    exact hd
  · rw [List.append_nil, walk_comps hl]
    exact hw

theorem mkdir_of_descend (mode : Mode) : fs.mkdir p s mode = (.error .EEXIST, fs) := by
  cases r with
  | nil => exact mkdir_spells_nil hl hs hne mode
  | cons n r =>
    obtain ⟨m, hm, hn⟩ := descend_ok_of_append (r := [n]) hd
    rw [mkdir_spells hl hs, hm]
    refine if_neg fun h0 => ?_
    have hstep := (descend_single_eq_ok.1 hn).1
    rw [step_name_none (descend_eq_ok.1 hm).2 (kindAt_eq_none_iff.2 h0)] at hstep
    cases hstep

theorem stat_of_descend : ∃ st, fs.stat p s = .ok st ∧ fs.statLoc l = .ok st := by
  obtain ⟨d, hdl, -⟩ := isDir_iff.1 (descend_eq_ok.1 hd).2
  have hst : fs.statLoc l = .ok ⟨d.obj, fs.inode d.obj⟩ := statLoc_eq_ok.2 ⟨d, hdl, rfl⟩
  refine ⟨_, ?_, hst⟩
  cases r with
  | nil =>
    rw [descend_nil hl.isDir] at hd
    cases hd
    exact (stat_spells_nil hl hs hne).trans hst
  | cons n r =>
    obtain ⟨m, hm, hn⟩ := descend_ok_of_append (r := [n]) hd
    rw [stat_spells hl hs, hm, Except.bind, (descend_single_eq_ok.1 hn).1]
    exact hst

end Descends

/-- The names of a pathname that leads to a directory lead to it. -/
theorem descend_of_dirPath (hl : fs.Leads p abs xs b) (hs : Spells abs xs (n :: r) s)
    (h : fs.DirPath p s) : ∃ l, descend fs.kindAt b (n :: r) = .ok l := by
  obtain ⟨l, hw, hldir⟩ := h
  rw [lookupAt_follow hs.ne_nil, hs.isAbs, hs.lookupComps, List.append_assoc, ← names_cons,
    walk_comps hl] at hw
  exact ⟨l, descend_eq_ok.2 ⟨hw, hldir⟩⟩

theorem chmod_of_stat {st : Stat} (h : fs.stat p s = .ok st) (mode : Mode) :
    fs.chmod p s mode = (.ok (), fs.setMode st.obj mode) := by
  rw [stat] at h
  rw [chmod, h]

theorem chown_of_stat {st : Stat} (h : fs.stat p s = .ok st) (uid gid : ℕ) :
    fs.chown p s uid gid = (.ok (), fs.setOwner st.obj uid gid) := by
  rw [stat] at h
  rw [chown, h]

end FileSystem

end YazzyPreload

import YazzyPreload.Recyclix.Clone
import YazzyPreload.Recyclix.Locate
import YazzyPreload.Recyclix.Selection

/-!
# The pathname in the recycler

After the recycler and the mountpoint are known, `unlinkat` clones a directory path whose text
starts with the recycler's directory.  `exists_base` finds the place that text goes on from by
names: the recycler's directory, or the directory above when the recycler is not one.
`wp_clone_directory` and `wp_clone_parent` apply the specification of
`recyclix_clonepath_recursive` to the two pathnames it is called with.
-/

namespace YazzyPreload.Recyclix

open FileSystem Prog

variable {fs fs' : FileSystem} {p : Process} {deny : Errno → Bool} {l m r : Loc} {n : Name}
  {fuel : ℕ} {st st1 st2 : Stat} {dirfd : ℤ} {pathname dir s t : Str} {flags : Flags}

/-! ## The file -/

theorem statFlags_nofollow (flags : Flags) : statFlags flags &&& atSymlinkNofollow ≠ 0 := by
  have : statFlags flags &&& atSymlinkNofollow = atSymlinkNofollow := by
    ext i hi
    simp only [statFlags, BitVec.getElem_and, BitVec.getElem_or]
    cases (atSymlinkNofollow : BitVec 32)[i] <;> simp
  rw [this]
  decide

/-- What `fstatat` says about a pathname that names an entry. -/
theorem statLoc_of_fstatat (h : fs.fstatat p dirfd pathname (statFlags flags) = .ok st)
    (ht : fs.targetAt p dirfd pathname = .ok (.entry l n)) :
    if slashed pathname then ∃ w, descend fs.kindAt l [n] = .ok w ∧ fs.statLoc w = .ok st
    else fs.statLoc (n :: l) = .ok st := by
  obtain ⟨cur, ys, hb, hs, hw, hl⟩ := targetAt_entry ht
  have hne : pathname ≠ [] := by
    rintro rfl
    simp at hs
  rw [targetAt, if_neg hne, hb, Except.bind] at ht
  rw [fstatat] at h
  split_ifs at h with h1 h2
  · exact absurd h2.1 hne
  · rw [decide_eq_false (statFlags_nofollow flags), lookupAt, if_neg hne, hb, Except.bind, lookup,
      if_neg hne, Bool.false_or, ht] at h
    split_ifs with hsl
    · have hc : lookupComps pathname = ys.map Comp.ofStr ++ (names [n] ++ [.here]) := by
        rw [lookupComps, comps, hs, if_pos hsl, List.map_append, List.append_assoc]
        simp [names_cons]
      rw [if_pos hsl, hc, walk_append, hw] at h
      change (descend fs.kindAt l [n]).bind fs.statLoc = .ok st at h
      cases hd : descend fs.kindAt l [n] with
      | error e => rw [hd] at h; cases h
      | ok w => exact ⟨w, rfl, by rw [hd] at h; exact h⟩
    · rw [if_neg hsl] at h
      by_cases hk : fs.kindAt (n :: l) = none
      · simp only [hk, if_true] at h
        cases h
      · simp only [hk, if_false] at h
        exact h

/-- A file that is not a directory is the entry itself. -/
theorem statLoc_entry (h : fs.fstatat p dirfd pathname (statFlags flags) = .ok st)
    (ht : fs.targetAt p dirfd pathname = .ok (.entry l n)) (hd : st.isDir = false) :
    slashed pathname = false ∧ fs.statLoc (n :: l) = .ok st := by
  have := statLoc_of_fstatat h ht
  split_ifs at this with hs
  · obtain ⟨w, hw, hst⟩ := this
    rw [(isDir_of_statLoc hst).1 (descend_eq_ok.1 hw).2] at hd
    cases hd
  · exact ⟨by simpa using hs, this⟩

/-- A directory is the entry itself too. -/
theorem statLoc_directory (h : fs.fstatat p dirfd pathname (statFlags flags) = .ok st)
    (ht : fs.targetAt p dirfd pathname = .ok (.entry l n)) (hd : fs.IsDir (n :: l)) :
    fs.statLoc (n :: l) = .ok st := by
  have := statLoc_of_fstatat h ht
  split_ifs at this with hs
  · obtain ⟨w, hw, hst⟩ := this
    rw [descend_name_dir (isDir_of_child hd.dirent_ne_none) hd] at hw
    cases hw
    exact hst
  · exact this

/-! ## The recycler's directory -/

theorem ne_nil_of_stat (h : fs.stat p dir = .ok st) : dir ≠ [] := by
  rintro rfl
  cases h

theorem walk_of_stat (h : fs.stat p dir = .ok st) :
    ∃ m, walk fs.kindAt maxSymlinks (start p (isAbs dir)) (lookupComps dir) = .ok m ∧
      fs.statLoc m = .ok st := by
  rw [stat, lookupAt_follow (ne_nil_of_stat h)] at h
  cases hw : walk fs.kindAt maxSymlinks (start p (isAbs dir)) (lookupComps dir) with
  | error e => rw [hw] at h; cases h
  | ok m => exact ⟨m, rfl, by rw [hw] at h; exact h⟩

/-- A pathname that leads to a directory. -/
theorem leads_of_stat (h : fs.stat p dir = .ok st) (hd : st.isDir = true) :
    ∃ b, fs.Leads p (isAbs dir) (segments dir) b ∧ fs.statLoc b = .ok st := by
  have hne := ne_nil_of_stat h
  rw [stat] at h
  cases hb : fs.lookupAt p atFdcwd dir true with
  | error e => rw [hb] at h; cases h
  | ok b =>
    rw [hb] at h
    exact ⟨b, (lookupAt_iff_leads hne).1 ⟨hb, (isDir_of_statLoc h).2 hd⟩, h⟩

/-- Where the last segment of a pathname is looked up. -/
theorem leads_init {c : Str} {ys : List Str} (h : fs.stat p dir = .ok st)
    (hs : segments dir = ys ++ [c]) : ∃ b, fs.Leads p (isAbs dir) ys b ∧
      ∃ m, step fs.kindAt maxSymlinks b (Comp.ofStr c) = .ok m ∧ fs.statLoc m = .ok st ∧
        (slashed dir = true → fs.IsDir m) := by
  obtain ⟨m, hw, hst⟩ := walk_of_stat h
  have hc : comps dir = ys.map Comp.ofStr ++ [Comp.ofStr c] := by
    rw [comps, hs, List.map_append, List.map_singleton]
  rw [lookupComps, hc, List.append_assoc, walk_append] at hw
  cases hb : walk fs.kindAt maxSymlinks (start p (isAbs dir)) (ys.map Comp.ofStr) with
  | error e => rw [hb] at hw; cases hw
  | ok b =>
    rw [hb, Except.bind, walk_append, walk_singleton] at hw
    cases hm : step fs.kindAt maxSymlinks b (Comp.ofStr c) with
    | error e => rw [hm] at hw; cases hw
    | ok m' =>
      refine ⟨b, ⟨hb, step_ok_dir hm⟩, m', hm, ?_⟩
      rw [hm, Except.bind] at hw
      split_ifs at hw with hsl
      · rw [walk_singleton] at hw
        obtain ⟨rfl, hd⟩ := step_here_eq_ok.1 hw
        exact ⟨hst, fun _ => hd⟩
      · cases hw
        exact ⟨hst, fun e => absurd e hsl⟩

/-- A pathname that leads to something other than a directory. -/
theorem blocked_of_stat_file (h : fs.stat p dir = .ok st) (hd : ¬ st.isDir = true) :
    slashed dir = false ∧ ∃ ys b n, segments dir = ys ++ [n.1] ∧ fs.Leads p (isAbs dir) ys b ∧
      fs.Blocked b n ∧ fs.dirent (n :: b) ≠ none := by
  rcases List.eq_nil_or_concat' (segments dir) with hs | ⟨ys, c, hs⟩
  · exfalso
    have hall := stripSlashes_eq_nil_iff.1 (segments_eq_nil hs)
    have hroot : Spells true [] [] dir :=
      ⟨hs, isAbs_of_all_slash (ne_nil_of_stat h) hall, fun _ => rfl⟩
    rw [stat_spells_nil (leads_root fs p) hroot (ne_nil_of_stat h)] at h
    exact hd ((isDir_of_statLoc h).1 isDir_root)
  · obtain ⟨b, hb, m, hm, hst, hsl⟩ := leads_init h hs
    have hdm : ¬ fs.IsDir m := fun hm => hd ((isDir_of_statLoc hst).1 hm)
    refine ⟨by simpa using fun e => hdm (hsl e), ?_⟩
    cases hc : Comp.ofStr c with
    | here =>
      rw [hc] at hm
      obtain ⟨rfl, hb'⟩ := step_here_eq_ok.1 hm
      exact absurd hb' hdm
    | up =>
      rw [hc, step_up hb.isDir] at hm
      cases hm
      exact absurd hb.isDir.tail hdm
    | name n =>
      rw [hc] at hm
      refine ⟨ys, b, n, by rw [hs, Comp.ofStr_eq_name hc], hb, blocked_of_stat hm hst hd, fun h0 => ?_⟩
      rw [step_name_none hb.isDir (kindAt_eq_none_iff.2 h0)] at hm
      cases hm

/-- The pathname of the recycler is spelled from its own place, or by one name from the directory
above when it is not a directory. -/
theorem exists_base (h : fs.stat p dir = .ok st) : ∃ xs b s₀, fs.Leads p (isAbs dir) xs b ∧
    segments dir = xs ++ s₀.reverse.map Subtype.val ∧
    (s₀ = [] ∨ ∃ n, s₀ = [n] ∧ slashed dir = false ∧ fs.Blocked b n ∧ fs.dirent (n :: b) ≠ none) := by
  by_cases hd : st.isDir = true
  · obtain ⟨b, hb, -⟩ := leads_of_stat h hd
    exact ⟨segments dir, b, [], hb, by simp, Or.inl rfl⟩
  · obtain ⟨hsl, ys, b, n, hs, hb, hbl, hne⟩ := blocked_of_stat_file h hd
    exact ⟨ys, b, [n], hb, hs, Or.inr ⟨n, rfl, hsl, hbl, hne⟩⟩

/-! ## Cloning -/

theorem dirPath_entryPath (hl : fs.IsDir l) (hw : ∃ w, descend fs.kindAt l [n] = .ok w) (k : ℕ) :
    fs.DirPath p (dirname^[k] (entryPath l n)) := by
  have hs := spells_pathOf_name l n
  cases k with
  | zero =>
    obtain ⟨w, hw⟩ := hw
    have hsl : ¬ slashed (entryPath l n) = true := by
      rw [entryPath, slashed_append_slash_name]
      exact Bool.false_ne_true
    have hroot : walk fs.kindAt maxSymlinks (start p true) (names l) = .ok l :=
      (descend_eq_ok.1 (descend_root hl)).1
    refine ⟨w, ?_, (descend_eq_ok.1 hw).2⟩
    rw [Function.iterate_zero, id, entryPath, lookupAt_follow hs.isAbs_ne_nil, hs.isAbs,
      hs.lookupComps, List.map_nil, List.nil_append, walk_concat, hroot]
    exact (descend_single_eq_ok.1 hw).1
  | succ k => exact dirPath_dirname hs.parent_tail hl k

/-- The recycler is not a directory, and there are no names after it. -/
theorem wp_clone_slash (hdeny : ∀ e, deny e = true → e.denial = true) {xs : List Str} {b : Loc}
    {abs : Bool} (hs : Spells abs xs [n] dir) (hb : fs.Leads p abs xs b) (hbl : fs.Blocked b n)
    (hne : fs.dirent (n :: b) ≠ none) (hfuel : 2 ≤ fuel) :
    wp (Sys p deny) (recyclixClonepathRecursive fuel (dir ++ ['/']) s) fs fun _ a fs' =>
      a = some (-1) ∧ fs' = fs := by
  obtain ⟨fuel, rfl⟩ : ∃ f, fuel = f + 2 := ⟨fuel - 2, by omega⟩
  have hnil : dir ++ ['/'] ≠ [] := by simp
  have habs : isAbs (dir ++ ['/']) = abs := (isAbs_append hs.ne_nil _).trans hs.isAbs
  have hcomps : comps (dir ++ ['/']) = comps dir := by rw [comps, segments_concat_slash, comps]
  have hslash : slashed (dir ++ ['/']) = true := by simp [slashed]
  have hmk : ∀ mode, fs.mkdir p (dir ++ ['/']) mode = (.error .EEXIST, fs) := by
    intro mode
    rw [mkdir, targetAt_congr hnil hs.ne_nil (habs.trans hs.isAbs.symm) hcomps,
      targetAt_spells hb hs, descend_nil hb.isDir]
    exact if_neg hne
  obtain ⟨e, he⟩ : ∃ e, fs.stat p (dir ++ ['/']) = .error e := by
    rw [stat, lookupAt_follow hnil, lookupComps, if_pos hslash, hcomps, hs.comps, habs,
      List.append_assoc, walk_comps hb]
    change ∃ e, (descend fs.kindAt b [n]).bind fs.statLoc = .error e
    cases hd : descend fs.kindAt b [n] with
    | error e => exact ⟨e, rfl⟩
    | ok w => exact absurd hd (hbl w)
  have hdonor : exec p (.stat s) fs = (fs.stat p s, fs) := rfl
  rw [recyclixClonepathRecursive]
  refine wp_sys_call_of hdonor ?_ fun e he => ⟨rfl, rfl⟩
  cases fs.stat p s with
  | error e => exact ⟨rfl, rfl⟩
  | ok donor_st =>
    dsimp only
    rw [tryMkdir]
    refine wp_sys_call_of (hmk _) ?_ fun e he => ?_
    · exact wp_sys_query (r := .error e) (by rw [exec, he]) ⟨rfl, rfl⟩
        fun e he => ⟨rfl, rfl⟩
    · have := hdeny e he
      cases e <;> first | exact absurd this (by decide) | exact ⟨rfl, rfl⟩

/-- The bound on the steps of one call on an entry of the directory at `l`. -/
def enough (l : Loc) : ℕ := 3 * l.length + 9

section Clone

variable (hst : fs.stat p dir = .ok st2) (hl : fs.IsDir l) (hm : m <:+ n :: l)

include hst hl hm

/-- Cloning the path of a directory that is to be removed. -/
theorem wp_clone_directory (hw : ∃ w, descend fs.kindAt l [n] = .ok w) :
    ∃ xs b s₀ rel, n :: l = rel ++ m ∧ fs.Leads p (isAbs dir) xs b ∧
      segments dir = xs ++ s₀.reverse.map Subtype.val ∧
      (s₀ = [] ∨ ∃ n, s₀ = [n] ∧ fs.Blocked b n ∧ fs.dirent (n :: b) ≠ none) ∧
      ∀ deny, (∀ e, deny e = true → e.denial = true) → ∀ fuel, enough l ≤ fuel →
        wp (Sys p deny) (recyclixClonepathRecursive fuel
          (recycledPath dir (entryPath l n) (mountPath l n m)) (entryPath l n)) fs fun _ a fs' =>
            CloneSpec deny fs b (rel ++ s₀) a fs' ∨
              (a = some (-1) ∧ fs' = fs ∧ rel = [] ∧ s₀ ≠ []) := by
  obtain ⟨rel, hrel, hs⟩ := spells_recycledPath (ne_nil_of_stat hst) hm
  obtain ⟨xs, b, s₀, hb, hseg, hs₀⟩ := exists_base hst
  refine ⟨xs, b, s₀, rel, hrel, hb, hseg, hs₀.imp_right fun ⟨n, h, _, h'⟩ => ⟨n, h, h'⟩,
    fun deny hdeny fuel hfuel => ?_⟩
  have hlen : rel.length ≤ l.length + 1 := by
    have := congrArg List.length hrel
    simp only [List.length_cons, List.length_append] at this
    omega
  rw [enough] at hfuel
  by_cases hspecial : rel = [] ∧ s₀ ≠ []
  · obtain ⟨rfl, hne⟩ := hspecial
    obtain ⟨n', rfl, hsl, hbl, hne'⟩ := hs₀.resolve_left hne
    have htext : recycledPath dir (entryPath l n) (mountPath l n m) = dir ++ ['/'] := by
      rw [List.nil_append] at hrel
      rw [recycledPath, mountPath, if_pos hrel.symm, List.drop_length]
    have hsp : Spells (isAbs dir) xs [n'] dir :=
      ⟨hseg, rfl, fun e => absurd e (by simp [hsl])⟩
    rw [htext]
    exact wp_mono (wp_clone_slash hdeny hsp hb hbl hne' (by omega)) fun _ a fs' h =>
      Or.inr ⟨h.1, h.2, rfl, hne⟩
  · have hs₀len : s₀.length ≤ 1 := by
      rcases hs₀ with rfl | ⟨n, rfl, -⟩ <;> simp
    rw [hseg] at hs
    have hs' : Spells (isAbs dir) xs (rel ++ s₀)
        (recycledPath dir (entryPath l n) (mountPath l n m)) := hs.rebase fun hsl => by
      have hr := hs.slashed hsl
      rw [hr, List.nil_append]
      exact by_contra fun h => hspecial ⟨hr, h⟩
    refine wp_mono (wp_recyclixClonepathRecursive hdeny (rel ++ s₀) fuel fs _ _ ?_ hs' ?_ hb
      (dirPath_entryPath hl hw)) fun _ a fs' h => Or.inl h
    · rw [List.length_append]
      omega
    · rw [recycledPath]
      simp

omit hl in
/-- Where the path of the directory above a file is cloned to. -/
theorem exists_base_parent : ∃ abs xs b r, fs.Leads p abs xs b ∧ r.length ≤ l.length + 1 ∧
    Spells abs xs r (dirname (recycledPath dir (entryPath l n) (mountPath l n m))) ∧
    dirname (recycledPath dir (entryPath l n) (mountPath l n m)) ≠ [] := by
  have hdir := ne_nil_of_stat hst
  obtain ⟨rel, hrel, hs⟩ := spells_recycledPath hdir hm
  cases rel with
  | nil =>
    have hne : recycledPath dir (entryPath l n) (mountPath l n m) ≠ [] := by simp [recycledPath]
    generalize recycledPath dir (entryPath l n) (mountPath l n m) = t at hs hne ⊢
    have hseg : segments t = segments dir := by simpa using hs.segments
    rcases List.eq_nil_or_concat' (segments dir) with h0 | ⟨ys, c, hc⟩
    · have habs : isAbs dir = true := (isAbs_or_segments hdir).resolve_right fun h => h h0
      rw [h0, habs] at hs
      exact ⟨true, [], [], [], leads_root fs p, by simp, hs.parent_tail, hs.parent_tail.isAbs_ne_nil⟩
    · obtain ⟨b, hb, -⟩ := leads_init hst hc
      by_cases h : isAbs t = true ∨ ys ≠ []
      · obtain ⟨hd, ha⟩ := segments_dirname (hseg.trans hc) h
        have hs' : Spells (isAbs dir) ys [] (dirname t) :=
          ⟨by simpa using hd, ha.trans hs.isAbs, fun _ => rfl⟩
        exact ⟨isAbs dir, ys, b, [], hb, by simp, hs', hs'.ne_nil_of (hs.isAbs ▸ h)⟩
      · push Not at h
        obtain ⟨habs, rfl⟩ := h
        rw [dirname_of_single (hseg.trans hc) (by simpa using habs)]
        have hstart : fs.IsDir (start p false) := by
          have := hb.walk
          rw [← hs.isAbs, Bool.eq_false_iff.2 habs] at this
          cases this
          exact hb.isDir
        refine ⟨false, [['.']], start p false, [], ⟨?_, hstart⟩, by simp,
          ⟨by decide, by decide, fun _ => rfl⟩, by simp⟩
        rw [List.map_singleton, walk_singleton]
        exact step_here hstart
  | cons n' r =>
    obtain ⟨xs, b, s₀, hb, hseg, hs₀⟩ := exists_base hst
    have hs₀len : s₀.length ≤ 1 := by
      rcases hs₀ with rfl | ⟨n, rfl, -⟩ <;> simp
    have hlen : r.length ≤ l.length := by
      have := congrArg List.length hrel
      simp only [List.length_cons, List.length_append] at this
      omega
    have hs' := hs.parent ((isAbs_or_segments hdir).imp_right Or.inl)
    have hnil := hs'.ne_nil_of (isAbs_or_segments hdir)
    rw [hseg] at hs'
    refine ⟨isAbs dir, xs, b, r ++ s₀, hb, ?_, hs'.rebase fun hsl => ?_, hnil⟩
    · rw [List.length_append]
      omega
    · have := hs'.segments
      rw [segments_of_slashed_dirname hsl] at this
      simp only [List.nil_eq, List.append_eq_nil_iff, List.map_eq_nil_iff,
        List.reverse_eq_nil_iff] at this
      rw [this.2, this.1.2, List.nil_append]

/-- Cloning the path of the directory above a file. -/
theorem wp_clone_parent : ∃ b r, ∀ deny, (∀ e, deny e = true → e.denial = true) →
    ∀ fuel, enough l ≤ fuel →
      wp (Sys p deny) (recyclixClonepathRecursive fuel
        (dirname (recycledPath dir (entryPath l n) (mountPath l n m))) (dirname (entryPath l n))) fs
        fun _ => CloneSpec deny fs b r := by
  obtain ⟨abs, xs, b, r, hb, hr, hs, hne⟩ := exists_base_parent (p := p) hst hm
  refine ⟨b, r, fun deny hdeny fuel hfuel => ?_⟩
  rw [enough] at hfuel
  exact wp_recyclixClonepathRecursive hdeny r fuel fs _ _ (by omega) hs hne hb
    fun k => dirPath_dirname (spells_pathOf_name l n).parent_tail hl k

omit hm in
/-- The same, for a recycler that is a directory and a file below the mountpoint. -/
theorem wp_clone_parent_of_leads {b r : Loc} (hb : fs.Leads p (isAbs dir) (segments dir) b)
    (hr : l = r ++ m) (hdeny : ∀ e, deny e = true → e.denial = true) (hfuel : enough l ≤ fuel) :
    wp (Sys p deny) (recyclixClonepathRecursive fuel
      (dirname (recycledPath dir (entryPath l n) (mountPath l n m))) (dirname (entryPath l n))) fs
      fun _ => CloneSpec deny fs b r := by
  have hdir := ne_nil_of_stat hst
  have hs := (spells_recycledPath_below (n := n) hdir hr).parent
    ((isAbs_or_segments hdir).imp_right Or.inl)
  have hlen := congrArg List.length hr
  rw [List.length_append] at hlen
  rw [enough] at hfuel
  exact wp_recyclixClonepathRecursive hdeny r fuel fs _ _ (by omega) hs
    (hs.ne_nil_of (isAbs_or_segments hdir)) hb fun k =>
      dirPath_dirname (spells_pathOf_name l n).parent_tail hl k

omit hm in
/-- Cloning the path of a directory in a recycler that is a directory. -/
theorem wp_clone_directory_of_leads {b r : Loc} (hw : ∃ w, descend fs.kindAt l [n] = .ok w)
    (hb : fs.Leads p (isAbs dir) (segments dir) b) (hr : n :: l = r ++ m)
    (hdeny : ∀ e, deny e = true → e.denial = true) (hfuel : enough l ≤ fuel) :
    wp (Sys p deny) (recyclixClonepathRecursive fuel
      (recycledPath dir (entryPath l n) (mountPath l n m)) (entryPath l n)) fs
      fun _ => CloneSpec deny fs b r := by
  have hdir := ne_nil_of_stat hst
  obtain ⟨rel, hrel, hs⟩ := spells_recycledPath hdir (hr ▸ List.suffix_append r m)
  obtain rfl : rel = r := List.append_cancel_right (hrel.symm.trans hr)
  have hlen := congrArg List.length hr
  rw [List.length_cons, List.length_append] at hlen
  rw [enough] at hfuel
  exact wp_recyclixClonepathRecursive hdeny rel fuel fs _ _ (by omega) hs
    (hs.ne_nil_of (isAbs_or_segments hdir)) hb (dirPath_entryPath hl hw)

end Clone

/-! ## The call on an entry -/

theorem targetAt_keeps (hk : Keeps fs.kindAt fs'.kindAt)
    (ht : fs.targetAt p dirfd pathname = .ok (.entry l n)) :
    fs'.targetAt p dirfd pathname = .ok (.entry l n) := by
  rw [targetAt] at ht ⊢
  split_ifs at ht ⊢
  cases hb : base p dirfd pathname with
  | error e => rw [hb] at ht; cases ht
  | ok cur =>
    rw [hb] at ht
    exact hk.target ht

theorem run_locate {rino : ℕ} (ht : fs.targetAt p dirfd pathname = .ok (.entry l n))
    (hfuel : enough l ≤ fuel) : (locate fuel dirfd pathname st1 rino).run (exec p) fs =
      (some (located fs st1.obj.dev rino l n), fs) := by
  rw [enough] at hfuel
  obtain ⟨hfs, ⟨-, e, he⟩ | h⟩ := run_of_wp (@wp_locate fs p (fun _ => false) l n rino fuel st1 dirfd
    pathname ht (by omega))
  · cases he
  · exact Prod.ext h hfs

/-- The call on an entry for which there is a recycler: the real call when the search meets the
recycler's inode number, and otherwise recycling. -/
theorem run_unlinkat_entry {env : Env} {b : Bin} (hsel : env.Selects fs p pathname st1 b st2)
    (hst : fs.fstatat p dirfd pathname (statFlags flags) = .ok st1)
    (ht : fs.targetAt p dirfd pathname = .ok (.entry l n)) (hfuel : enough l ≤ fuel) :
    (unlinkat env fuel dirfd pathname flags).run (exec p) fs =
      match climb fs st1.obj.dev st2.obj.ino (n :: l) with
      | none => (some (.plain (retvalOf (fs.unlinkat p dirfd pathname flags).1)),
          (fs.unlinkat p dirfd pathname flags).2)
      | some m => (recycle fuel dirfd pathname flags st1 b.dir (entryPath l n)
          (mountPath l n m)).run (exec p) fs := by
  rw [run_unlinkat_selects hsel hst, dropFile, run_bind, run_locate ht hfuel, located]
  cases climb fs st1.obj.dev st2.obj.ino (n :: l) <;> rfl

/-- Recycling a directory: the clone, and the real call on what it leaves. -/
theorem run_recycle_directory {fq mp : Str} (hd : st1.isDir = true) :
    (recycle fuel dirfd pathname flags st1 dir fq mp).run (exec p) fs =
      match (recyclixClonepathRecursive fuel (recycledPath dir fq mp) fq).run (exec p) fs with
      | (none, fs') => (none, fs')
      | (some retval, fs') =>
        if retval = 0 then (some (.plain (retvalOf (fs'.unlinkat p dirfd pathname flags).1)),
          (fs'.unlinkat p dirfd pathname flags).2)
        else (some (.plain retval), fs') := by
  rw [recycle, run_bind]
  simp only [clonePaths, hd, if_true]
  generalize (recyclixClonepathRecursive fuel (recycledPath dir fq mp) fq).run (exec p) fs = c
  obtain ⟨_ | retval, fs'⟩ := c
  · rfl
  · dsimp only
    split_ifs with h1 h2 <;> first | rfl | exact absurd h2 h1

theorem retvalOf_eq_zero_iff {r : Except Errno Unit} : retvalOf r = 0 ↔ r = .ok () := by
  cases r with
  | error e => simp [retvalOf]
  | ok u => simp [retvalOf]

end YazzyPreload.Recyclix

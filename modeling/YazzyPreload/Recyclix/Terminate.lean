import YazzyPreload.Recyclix.Recycle
import YazzyPreload.Update

/-!
# Cloning comes to an end

`recyclix_clonepath_recursive` goes back to `try_mkdir` in three places and calls itself.  It goes
back after it has removed something that is not a directory, or after a call on a pathname with one
component less.  `clone_stops` bounds the calls it makes, in any file system, by the number of
components.
-/

namespace YazzyPreload.Recyclix

open FileSystem Prog

variable {fs fs' : FileSystem} {p : Process} {l : Loc} {n : Name} {s donor : Str} {fuel k : ℕ}
  {donor_st : Stat} {t : Target} {xs : List Str} {c : Str}

/-- The function has returned, after at most `k` calls, and with 0 only when its pathname leads to a
directory. -/
def Stops (p : Process) (s : Str) (k : ℕ) (es : List (Event Call Call.Answer FileSystem))
    (a : Option ℤ) (fs : FileSystem) : Prop :=
  a ≠ none ∧ es.length ≤ k ∧ (a = some 0 → fs.DirPath p s)

/-! ## Pathnames -/

/-- A pathname and what `dirname` makes of it: the current directory, or the components but the
last. -/
theorem dirname_cases (s : Str) : dirname s = ['.'] ∨ (segments s = [] ∧ s ≠ []) ∨
    ∃ xs c, segments s = xs ++ [c] ∧ segments (dirname s) = xs ∧ isAbs (dirname s) = isAbs s := by
  rcases List.eq_nil_or_concat' (segments s) with hs | ⟨xs, c, hs⟩
  · by_cases hne : s = []
    · subst hne
      exact Or.inl rfl
    · exact Or.inr (Or.inl ⟨hs, hne⟩)
  · by_cases h : isAbs s = true ∨ xs ≠ []
    · obtain ⟨hxs, habs⟩ := segments_dirname hs h
      exact Or.inr (Or.inr ⟨xs, c, hs, hxs, habs⟩)
    · push Not at h
      obtain ⟨habs, rfl⟩ := h
      exact Or.inl (dirname_of_single hs (by simpa using habs))

/-- The entry that a pathname names is in the directory its other segments lead to. -/
theorem leads_of_targetAt (ht : fs.targetAt p atFdcwd s = .ok (.entry l n)) :
    ∃ ys, segments s = ys ++ [n.1] ∧ fs.Leads p (isAbs s) ys l := by
  obtain ⟨cur, ys, hb, hs, hw, hl⟩ := targetAt_entry ht
  rw [base_atFdcwd] at hb
  cases hb
  exact ⟨ys, hs, hw, hl⟩

theorem targetAt_of_leads (hs : segments s = xs ++ [c]) (hl : fs.Leads p (isAbs s) xs l) :
    ∃ t, fs.targetAt p atFdcwd s = .ok t := by
  have hc : comps s = xs.map Comp.ofStr ++ [Comp.ofStr c] := by
    rw [comps, hs, List.map_append, List.map_singleton]
  have hd : fs.kindAt l = some .dir := hl.isDir
  rw [targetAt, if_neg (ne_nil_of_comps hc), base_atFdcwd, Except.bind, target_of_comps hc, hl.walk,
    Except.bind]
  cases Comp.ofStr c <;> simp only [lastTarget, hd] <;> exact ⟨_, rfl⟩

theorem lastTarget_error {v : View} {x : Comp} {e : Errno} (h : lastTarget v l x = .error e) :
    e.OfWalk := by
  cases x <;> rcases hv : v l with _ | k <;> (try cases k) <;> simp only [lastTarget, hv] at h <;>
    cases h <;> first | exact Or.inl rfl | exact Or.inr (Or.inl rfl)

/-- A pathname with nothing to name has a directory missing on its way. -/
theorem targetAt_error {e : Errno} (h : fs.targetAt p atFdcwd s = .error e) : e.OfWalk := by
  rw [targetAt] at h
  split_ifs at h with hs
  · cases h
    exact Or.inl rfl
  · rw [base_atFdcwd] at h
    rcases List.eq_nil_or_concat' (comps s) with hc | ⟨cs, x, hc⟩
    · rw [Except.bind, target, if_neg hs, hc] at h
      cases h
    · rw [Except.bind, target_of_comps hc] at h
      cases hw : walk fs.kindAt maxSymlinks (start p (isAbs s)) cs with
      | error e' =>
        rw [hw] at h
        cases h
        exact walk_error hw
      | ok d =>
        rw [hw] at h
        exact lastTarget_error h

/-- The current directory cannot be removed with `unlink`. -/
theorem unlinkEntry_dot (fs : FileSystem) (p : Process) :
    ∃ e, fs.unlinkEntry p atFdcwd ['.'] = (.error e, fs) ∧ e ≠ .ENOENT := by
  have hc : comps ['.'] = [] ++ [.here] := by decide
  have ht : fs.targetAt p atFdcwd ['.'] = lastTarget fs.kindAt p.cwd .here := by
    rw [targetAt, if_neg (by decide), base_atFdcwd, Except.bind, target_of_comps hc]
    rfl
  rw [unlinkEntry, ht]
  rcases hk : fs.kindAt p.cwd with _ | k
  · exact ⟨.EISDIR, by simp only [lastTarget, hk], by decide⟩
  · cases k with
    | dir => exact ⟨.EISDIR, by simp only [lastTarget, hk], by decide⟩
    | _ => exact ⟨.ENOTDIR, by simp only [lastTarget, hk], by decide⟩

/-! ## Rules -/

theorem stops_mono {m : ℕ} {prog : Code (Option ℤ)}
    (h : wp (Sys p Errno.denial) prog fs (Stops p s k)) (hk : k ≤ m) :
    wp (Sys p Errno.denial) prog fs (Stops p s m) :=
  wp_mono h fun _ _ _ h => ⟨h.1, h.2.1.trans hk, h.2.2⟩

/-- One call. -/
theorem stops_call {c : Call} {q : c.Answer → Code (Option ℤ)} {r : c.Answer}
    (hr : exec p c fs = (r, fs')) (h : wp (Sys p Errno.denial) (q r) fs' (Stops p s k))
    (hd : ∀ e : Errno, e.denial = true → wp (Sys p Errno.denial) (q (.error e)) fs (Stops p s k)) :
    wp (Sys p Errno.denial) (.call c q) fs (Stops p s (k + 1)) := by
  rw [wp_sys_call, hr]
  have hcons : ∀ (ev : Event Call Call.Answer FileSystem) es a fs',
      Stops p s k es a fs' → Stops p s (k + 1) (ev :: es) a fs' :=
    fun _ _ _ _ h => ⟨h.1, Nat.succ_le_succ h.2.1, h.2.2⟩
  exact ⟨wp_mono h (hcons _), fun e he => wp_mono (hd e he) (hcons _)⟩

theorem stops_fail (p : Process) (fs : FileSystem) (s : Str) (k : ℕ) :
    wp (Sys p Errno.denial) (.ret (some (-1)) : Code (Option ℤ)) fs (Stops p s k) :=
  ⟨by simp, Nat.zero_le k, by simp⟩

theorem stops_chown (h : fs.DirPath p s) (uid gid : ℕ) :
    wp (Sys p Errno.denial) (.call (.chown s uid gid) fun _ => .ret (some 0)) fs (Stops p s 1) := by
  obtain ⟨st, hst⟩ := h.stat
  have hk : (fs.setOwner st.obj uid gid).DirPath p s :=
    h.keeps (by rw [setOwner, kindAt_adjust]; exact Keeps.refl _)
  exact stops_call (chown_of_stat hst uid gid) ⟨by simp, le_rfl, fun _ => hk⟩
    fun e _ => ⟨by simp, le_rfl, fun _ => h⟩

/-! ## The directory above is there -/

/-- `mkdir` where there is nothing. -/
theorem stops_make (ht : fs.targetAt p atFdcwd s = .ok (.entry l n))
    (hn : fs.dirent (n :: l) = none) :
    wp (Sys p Errno.denial) (tryMkdir (fuel + 1) s donor donor_st) fs (Stops p s 2) := by
  obtain ⟨ys, hs, hl⟩ := leads_of_targetAt ht
  have hmk : exec p (.mkdir s donor_st.inode.mode) fs =
      (.ok (), fs.addChild l n (fs.newDir p l donor_st.inode.mode)) := by
    simp only [exec, mkdir, ht, hn, if_true]
  have hdir : (fs.addChild l n (fs.newDir p l donor_st.inode.mode)).DirPath p s := by
    have hl' := hl.keeps (keeps_addChild hl.isDir hn (fs.newDir p l donor_st.inode.mode))
    have hk : (fs.addChild l n (fs.newDir p l donor_st.inode.mode)).kindAt (n :: l) = some .dir := by
      rw [kindAt_addChild hl.isDir hn, if_pos rfl, newDir_kind]
    have hne : s ≠ [] := by
      rintro rfl
      cases ht
    refine ⟨n :: l, (lookupAt_iff_leads hne).2 ⟨?_, hk⟩⟩
    rw [hs, List.map_append, walk_append, hl'.walk, List.map_singleton, Comp.ofStr_name]
    exact (walk_singleton _ _ _ _).trans (step_name_dir hl'.isDir hk)
  rw [tryMkdir]
  refine stops_call hmk (stops_chown hdir _ _) fun e he => ?_
  cases e <;> first | exact absurd he (by decide) | exact stops_fail p fs s 1

/-- `mkdir` where there is something that is a directory, cannot be removed, or is removed. -/
theorem stops_exists (hmk : fs.mkdir p s donor_st.inode.mode = (.error .EEXIST, fs))
    (hu : ∀ st, fs.stat p s = .ok st → ¬ st.isDir = true →
      (∃ e, fs.unlinkEntry p atFdcwd s = (.error e, fs)) ∨
        ∃ fs', fs.unlinkEntry p atFdcwd s = (.ok (), fs') ∧
          wp (Sys p Errno.denial) (tryMkdir fuel s donor donor_st) fs' (Stops p s 2)) :
    wp (Sys p Errno.denial) (tryMkdir (fuel + 1) s donor donor_st) fs (Stops p s 5) := by
  rw [tryMkdir]
  refine stops_call hmk ?_ fun e he => ?_
  · refine stops_call (r := fs.stat p s) rfl ?_ fun e _ => stops_fail p fs s 3
    cases hst : fs.stat p s with
    | error e => exact stops_fail p fs s 3
    | ok st =>
      dsimp only
      split_ifs with hd
      · have hdir := dirPath_of_stat hst hd
        have hdir' : (fs.setMode st.obj donor_st.inode.mode).DirPath p s :=
          hdir.keeps (by rw [setMode, kindAt_adjust]; exact Keeps.refl _)
        exact stops_mono (stops_call (chmod_of_stat hst _) (stops_chown hdir' _ _)
          fun e _ => stops_chown hdir _ _) (by decide)
      · rcases hu st hst hd with ⟨e, hu⟩ | ⟨fs', hu, h⟩
        · exact stops_call hu (stops_fail p fs s 2) fun e _ => stops_fail p fs s 2
        · exact stops_call hu h fun e _ => stops_fail p fs s 2
  · cases e <;> first | exact absurd he (by decide) | exact stops_fail p fs s 4

/-- Where the pathname can be resolved but for its last component, one removal is enough. -/
theorem stops_target (ht : fs.targetAt p atFdcwd s = .ok t) :
    wp (Sys p Errno.denial) (tryMkdir (fuel + 2) s donor donor_st) fs (Stops p s 5) := by
  cases t with
  | entry l n =>
    by_cases hn : fs.dirent (n :: l) = none
    · exact stops_mono (stops_make ht hn) (by decide)
    · refine stops_exists (by rw [mkdir, ht]; exact if_neg hn) fun st hst hd => ?_
      rcases fs.unlinkEntry_cases p atFdcwd s with h | ⟨l', n', ht', -, -, hu⟩
      · exact Or.inl h
      · rw [ht] at ht'
        cases ht'
        obtain ⟨ys, hs, hl⟩ := leads_of_targetAt ht
        obtain ⟨b, hb, m, hm, hstm, -⟩ := leads_init hst hs
        obtain rfl : b = l := Except.ok.inj (hb.walk.symm.trans hl.walk)
        rw [Comp.ofStr_name] at hm
        have hblock := blocked_of_stat hm hstm hd
        exact Or.inr ⟨_, hu, stops_make (targetAt_keeps (keeps_erase hl.isDir hblock) ht)
          hblock.dirent_erase_self⟩
  | _ =>
    refine stops_exists (by rw [mkdir, ht]) fun st _ _ => Or.inl ⟨.EISDIR, ?_⟩
    rw [unlinkEntry, ht]

/-! ## The directory above is not there -/

section Missing

variable {e : Errno} (ht : fs.targetAt p atFdcwd s = .error e)

include ht

/-- `unlink` on the directory above is answered with an error, which ends the run unless it is
`ENOENT`, or removes what is in the way. -/
theorem stops_missing
    (hu : (∃ e', fs.unlinkEntry p atFdcwd (dirname s) = (.error e', fs) ∧ (e' = .ENOENT →
        wp (Sys p Errno.denial)
          (do let retval ← recyclixClonepathRecursive fuel (dirname s) (dirname donor)
              if retval = some 0 then tryMkdir fuel s donor donor_st else .ret retval) fs
          (Stops p s k))) ∨
      ∃ fs', fs.unlinkEntry p atFdcwd (dirname s) = (.ok (), fs') ∧
        wp (Sys p Errno.denial) (tryMkdir fuel s donor donor_st) fs' (Stops p s k)) :
    wp (Sys p Errno.denial) (tryMkdir (fuel + 1) s donor donor_st) fs (Stops p s (k + 2)) := by
  have hmk : fs.mkdir p s donor_st.inode.mode = (.error e, fs) := by rw [mkdir, ht]
  rw [tryMkdir]
  refine stops_call hmk ?_ fun e he => ?_
  · rcases targetAt_error ht with rfl | rfl | rfl
    all_goals first | exact stops_fail p fs s (k + 1) | skip
    all_goals
      rcases hu with ⟨e', hu, hrec⟩ | ⟨fs', hu, h⟩
      · refine stops_call hu ?_ fun e he => ?_
        · by_cases he' : e' = .ENOENT
          · subst he'
            exact hrec rfl
          · cases e' <;> first | exact absurd rfl he' | exact stops_fail p fs s k
        · cases e <;> first | exact absurd he (by decide) | exact stops_fail p fs s k
      · refine stops_call hu h fun e he => ?_
        cases e <;> first | exact absurd he (by decide) | exact stops_fail p fs s k
  · cases e <;> first | exact absurd he (by decide) | exact stops_fail p fs s (k + 1)

end Missing

section Recurse

variable {m bound : ℕ} (hs : segments s = xs ++ [c]) (hxs : segments (dirname s) = xs)
  (habs : isAbs (dirname s) = isAbs s) (hbound : 2 ≤ bound)
  (ih : ∀ fs fuel, bound ≤ fuel → wp (Sys p Errno.denial)
    (recyclixClonepathRecursive fuel (dirname s) (dirname donor)) fs (Stops p (dirname s) m))

include hs hxs habs hbound ih

/-- The recursive call, after which the pathname can be resolved but for its last component. -/
theorem stops_recurse (hfuel : bound ≤ fuel) : wp (Sys p Errno.denial)
    (do let retval ← recyclixClonepathRecursive fuel (dirname s) (dirname donor)
        if retval = some 0 then tryMkdir fuel s donor donor_st else .ret retval) fs
    (Stops p s (m + 5)) := by
  obtain ⟨f, rfl⟩ : ∃ f, fuel = f + 2 := ⟨fuel - 2, by omega⟩
  rw [wp_bind]
  refine wp_mono (ih fs _ hfuel) ?_
  rintro es a fs' ⟨ha, hlen, hdir⟩
  split_ifs with h0
  · obtain ⟨l, hl, hd⟩ := hdir h0
    have hne : dirname s ≠ [] := by
      intro h
      rw [h, lookupAt, if_pos rfl] at hl
      cases hl
    have hlead := (lookupAt_iff_leads hne).1 ⟨hl, hd⟩
    rw [hxs, habs] at hlead
    obtain ⟨t, ht⟩ := targetAt_of_leads hs hlead
    refine wp_mono (stops_target ht) ?_
    rintro es' a' fs'' ⟨ha', hlen', hdir'⟩
    refine ⟨ha', ?_, hdir'⟩
    rw [List.length_append]
    omega
  · refine ⟨ha, ?_, fun h => absurd h h0⟩
    rw [List.append_nil]
    omega

omit hbound ih in
/-- What `dirname` names is not a directory, or else the pathname could be resolved. -/
theorem blocked_above {e : Errno} (ht : fs.targetAt p atFdcwd s = .error e)
    (hd : fs.targetAt p atFdcwd (dirname s) = .ok (.entry l n)) : fs.Blocked l n := by
  intro q hq
  obtain ⟨hstep, hqd⟩ := descend_single_eq_ok.1 hq
  obtain ⟨ys, hys, hl⟩ := leads_of_targetAt hd
  have hlead : fs.Leads p (isAbs s) xs q := by
    refine ⟨?_, hqd⟩
    rw [← hxs, hys, ← habs, List.map_append, walk_append, hl.walk, List.map_singleton,
      Comp.ofStr_name]
    exact (walk_singleton _ _ _ _).trans hstep
  obtain ⟨t, ht'⟩ := targetAt_of_leads hs hlead
  rw [ht] at ht'
  cases ht'

/-- What is in the way of the directory above is removed once. -/
theorem stops_above {e : Errno} (ht : fs.targetAt p atFdcwd s = .error e)
    (hfuel : bound + 2 ≤ fuel) :
    wp (Sys p Errno.denial) (tryMkdir fuel s donor donor_st) fs (Stops p s (m + 9)) := by
  obtain ⟨f, rfl⟩ : ∃ f, fuel = f + 2 := ⟨fuel - 2, by omega⟩
  rcases fs.unlinkEntry_cases p atFdcwd (dirname s) with ⟨e', hu⟩ | ⟨l, n, hd, -, -, hu⟩
  · exact stops_missing ht (Or.inl ⟨e', hu, fun _ =>
      stops_mono (stops_recurse hs hxs habs hbound ih (by omega)) (by omega)⟩)
  · refine stops_missing ht (Or.inr ⟨_, hu, ?_⟩)
    have hblock := blocked_above hs hxs habs ht hd
    have hd' := targetAt_keeps (keeps_erase (isDir_of_targetAt hd) hblock) hd
    have hgone := hblock.dirent_erase_self
    have hu' : (fs.erase (n :: l)).unlinkEntry p atFdcwd (dirname s) =
        (.error .ENOENT, fs.erase (n :: l)) := by
      rw [unlinkEntry, hd']
      simp only [hgone]
    cases ht' : (fs.erase (n :: l)).targetAt p atFdcwd s with
    | error e' => exact stops_missing ht' (Or.inl ⟨_, hu', fun _ =>
        stops_recurse hs hxs habs hbound ih (by omega)⟩)
    | ok t =>
      obtain ⟨g, rfl⟩ : ∃ g, f = g + 1 := ⟨f - 1, by omega⟩
      exact stops_mono (stops_target ht') (by omega)

end Recurse

/-! ## Every pathname -/

theorem stops_try {bound m : ℕ} (hbound : 2 ≤ bound) (hfuel : bound + 2 ≤ fuel)
    (ih : ∀ xs c, segments s = xs ++ [c] → segments (dirname s) = xs → ∀ fs fuel, bound ≤ fuel →
      wp (Sys p Errno.denial) (recyclixClonepathRecursive fuel (dirname s) (dirname donor)) fs
        (Stops p (dirname s) m)) :
    wp (Sys p Errno.denial) (tryMkdir fuel s donor donor_st) fs (Stops p s (m + 9)) := by
  obtain ⟨f, rfl⟩ : ∃ f, fuel = f + 2 := ⟨fuel - 2, by omega⟩
  cases ht : fs.targetAt p atFdcwd s with
  | ok t => exact stops_mono (stops_target ht) (by omega)
  | error e =>
    rcases dirname_cases s with hdot | ⟨hs, hne⟩ | ⟨xs, c, hs, hxs, habs⟩
    · obtain ⟨e', hu, he'⟩ := unlinkEntry_dot fs p
      rw [← hdot] at hu
      exact stops_missing ht (Or.inl ⟨e', hu, fun h => absurd h he'⟩)
    · rw [targetAt, if_neg hne, base_atFdcwd, Except.bind, target, if_neg hne,
        comps_eq_nil_iff.2 hs] at ht
      cases ht
    · exact stops_above hs hxs habs hbound (ih xs c hs hxs) ht hfuel

theorem stops_clone (n : ℕ) : ∀ s donor, (segments s).length = n → ∀ fs fuel, 3 * n + 5 ≤ fuel →
    wp (Sys p Errno.denial) (recyclixClonepathRecursive fuel s donor) fs
      (Stops p s (10 * n + 10)) := by
  induction n with
  | zero =>
    intro s donor hn fs fuel hfuel
    obtain ⟨f, rfl⟩ : ∃ f, fuel = f + 1 := ⟨fuel - 1, by omega⟩
    rw [recyclixClonepathRecursive]
    refine stops_call (r := fs.stat p donor) rfl ?_ fun e _ => stops_fail p fs s 9
    cases fs.stat p donor with
    | error e => exact stops_fail p fs s 9
    | ok st =>
      refine stops_try (m := 0) le_rfl (by omega) fun xs c hs _ => ?_
      rw [List.length_eq_zero_iff.1 hn] at hs
      simp at hs
  | succ n ih =>
    intro s donor hn fs fuel hfuel
    obtain ⟨f, rfl⟩ : ∃ f, fuel = f + 1 := ⟨fuel - 1, by omega⟩
    rw [recyclixClonepathRecursive]
    refine stops_call (r := fs.stat p donor) rfl ?_ fun e _ => stops_fail p fs s (10 * n + 19)
    cases fs.stat p donor with
    | error e => exact stops_fail p fs s (10 * n + 19)
    | ok st =>
      have hbound : 2 ≤ 3 * n + 5 := by omega
      refine stops_try (m := 10 * n + 10) hbound (by omega) fun xs c hs hxs => ih _ _ ?_
      rw [hxs]
      rw [hs, List.length_append] at hn
      exact Nat.succ.inj hn

/-- Whatever the file system holds and whichever calls are denied, the function has returned after
a number of calls that depends only on the number of components of its pathname. -/
theorem clone_stops (hfuel : 3 * (segments s).length + 5 ≤ fuel) :
    wp (Sys p Errno.denial) (recyclixClonepathRecursive fuel s donor) fs fun es a _ =>
      a ≠ none ∧ es.length ≤ 10 * (segments s).length + 10 :=
  wp_mono (stops_clone _ s donor rfl fs fuel hfuel) fun _ _ _ h => ⟨h.1, h.2.1⟩

/-- The directory is missing from the recycler. -/
theorem clone_stops_tree :
    wp (Sys Sample.process Errno.denial)
      (recyclixClonepathRecursive 11 "/bin/a".toList "/a".toList) Sample.tree fun es a _ =>
        a ≠ none ∧ es.length ≤ 30 := by
  have hs : segments "/bin/a".toList = ["bin".toList, "a".toList] := by decide
  have h := @clone_stops Sample.tree Sample.process "/bin/a".toList "/a".toList 11 (by rw [hs]; decide)
  rwa [hs] at h

end YazzyPreload.Recyclix

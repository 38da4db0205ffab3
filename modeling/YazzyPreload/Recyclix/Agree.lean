import YazzyPreload.Recyclix.Ancestor
import YazzyPreload.Recyclix.Return

/-!
# Where `renameat` puts a file

The directory of a recycler is looked up three times: by `stat`, by the clone, and by `renameat` with
the descriptor 0.  `Agrees` says that they mean the same directory; `renameat_agrees_iff` says for
which directories and descriptors they do, whenever a run comes to `renameat`.
-/

namespace YazzyPreload.Recyclix

open FileSystem Prog

variable {fs fs' fs₁ : FileSystem} {p : Process} {b l m r w : Loc} {n : Name} {fuel : ℕ}
  {st1 st2 : Stat} {dirfd : ℤ} {pathname dir : Str} {flags : Flags} {env : Env} {es : List Ev}
  {ev : Ev} {a : Option Exit} {deny : Errno → Bool}

/-- The pathname of the entry `n :: l` in the recycler, when its mountpoint is `m`. -/
def binPath (dir : Str) (l : Loc) (n : Name) (m : Loc) : Str :=
  recycledPath dir (entryPath l n) (mountPath l n m)

/-- The new name of the entry is in the directory `w` that the clone has ensured, which is where its
names lead to from the directory `b` that `stat` has examined.  The state was `fs` then, and is `fs'`
now. -/
def Agrees (fs fs' : FileSystem) (p : Process) (dir : Str) (l : Loc) (n : Name) (m : Loc) : Prop :=
  ∃ b r w, fs.lookupAt p atFdcwd dir true = .ok b ∧ fs.IsDir b ∧ l = r ++ m ∧
    descend fs'.kindAt b r = .ok w ∧
    fs'.lookupAt p atFdcwd (dirname (binPath dir l n m)) true = .ok w ∧
    fs'.targetAt p 0 (binPath dir l n m) = .ok (.entry w n)

/-- The pathname of the directory leads from the descriptor 0 to the place it leads to from the
current directory. -/
def SameFromZero (fs' : FileSystem) (p : Process) (s : Str) : Prop :=
  ∃ x, p.fds 0 = some (.dir x) ∧
    walk fs'.kindAt maxSymlinks x (comps s) = walk fs'.kindAt maxSymlinks p.cwd (comps s)

/-! ## Directories -/

theorem isDir_of_stat (h : fs.stat p dir = .ok st2) (hb : fs.lookupAt p atFdcwd dir true = .ok b)
    (hd : fs.IsDir b) : st2.isDir = true := by
  rw [stat, hb] at h
  exact (isDir_of_statLoc h).1 hd

/-! ## The pathname in the recycler -/

section Path

variable (hdir : dir ≠ []) (hr : l = r ++ m)

include hdir hr

theorem spells_binPath : Spells (isAbs dir) (segments dir) (n :: r) (binPath dir l n m) :=
  spells_recycledPath_below hdir hr

theorem spells_dirname_binPath :
    Spells (isAbs dir) (segments dir) r (dirname (binPath dir l n m)) :=
  (spells_binPath hdir hr).parent ((isAbs_or_segments hdir).imp_right Or.inl)

theorem dirname_binPath_ne_nil : dirname (binPath dir l n m) ≠ [] :=
  (spells_dirname_binPath hdir hr).ne_nil_of (isAbs_or_segments hdir)

theorem segments_binPath :
    segments (binPath dir l n m) = segments (dirname (binPath dir l n m)) ++ [n.1] := by
  rw [(spells_binPath hdir hr).segments, (spells_dirname_binPath hdir hr).segments,
    List.reverse_cons, List.map_append, List.append_assoc]
  rfl

theorem comps_binPath :
    comps (binPath dir l n m) = comps (dirname (binPath dir l n m)) ++ [.name n] := by
  rw [comps, segments_binPath hdir hr, List.map_append, List.map_singleton, Comp.ofStr_name, comps]

end Path

/-- Where the names lead to is where the pathname leads to. -/
theorem leads_of_descend {abs : Bool} {xs : List Str} {s : Str} (hl : fs.Leads p abs xs b)
    (hs : Spells abs xs r s) (hw : descend fs.kindAt b r = .ok w) :
    fs.Leads p (isAbs s) (segments s) w := by
  obtain ⟨hwalk, hwd⟩ := descend_eq_ok.1 hw
  refine ⟨?_, hwd⟩
  show walk fs.kindAt maxSymlinks (start p (isAbs s)) (comps s) = .ok w
  rw [hs.comps, hs.isAbs, walk_comps hl, hwalk]

/-- A pathname that is not absolute starts from the descriptor. -/
theorem base_eq_ok_iff {s : Str} {x : Loc} (habs : isAbs s = false) :
    base p 0 s = .ok x ↔ p.fds 0 = some (.dir x) := by
  rw [base, habs, if_neg (by decide), if_neg (by decide)]
  cases p.fds 0 with
  | none => simp
  | some d => cases d <;> simp

/-! ## Agreement in one state -/

/-- What the clone leaves, and `renameat` finds: the directories agree if and only if the recycler is
a directory, the entry is below its mountpoint, and the pathname is absolute or leads to the same
place from the descriptor 0. -/
theorem agrees_iff (hstat : fs.stat p dir = .ok st2) (hm : m <:+ n :: l)
    (hclone : ∀ b r, fs.Leads p (isAbs dir) (segments dir) b → l = r ++ m → Cloned fs fs' b r) :
    Agrees fs fs' p dir l n m ↔ st2.isDir = true ∧ m ≠ n :: l ∧
      (isAbs dir = true ∨ SameFromZero fs' p (dirname (binPath dir l n m))) := by
  have hdir := ne_nil_of_stat hstat
  constructor
  · rintro ⟨b, r, w, hb, hbd, hr, hw, hlook, ht⟩
    have hs := spells_binPath (n := n) hdir hr
    have hs' := spells_dirname_binPath (n := n) hdir hr
    refine ⟨isDir_of_stat hstat hb hbd, ?_, or_iff_not_imp_left.2 fun habs => ?_⟩
    · rintro rfl
      have := congrArg List.length hr
      simp at this
      omega
    · rw [Bool.not_eq_true, ← hs.isAbs] at habs
      obtain ⟨x, ys, hbase, hseg, hwalk, hwd⟩ := targetAt_entry ht
      rw [segments_binPath hdir hr] at hseg
      rw [← (List.append_inj' hseg rfl).1] at hwalk
      obtain ⟨hcwd, -⟩ := (lookupAt_iff_leads (dirname_binPath_ne_nil hdir hr)).1 ⟨hlook, hwd⟩
      rw [hs'.isAbs, ← hs.isAbs, habs] at hcwd
      exact ⟨x, (base_eq_ok_iff habs).1 hbase, hwalk.trans hcwd.symm⟩
  · rintro ⟨hd, hne, hfd⟩
    obtain ⟨b, hb, -⟩ := leads_of_stat hstat hd
    obtain ⟨r, hr⟩ : ∃ r, l = r ++ m := by
      rcases List.suffix_cons_iff.1 hm with rfl | ⟨r, hr⟩
      · exact absurd rfl hne
      · exact ⟨r, hr.symm⟩
    have hc := hclone b r hb hr
    obtain ⟨w, hw⟩ := hc.descend_ok
    have hs := spells_binPath (n := n) hdir hr
    have hs' := spells_dirname_binPath (n := n) hdir hr
    have hlead := leads_of_descend (hb.keeps hc.keeps) hs' hw
    obtain ⟨hlook, hbd⟩ := (lookupAt_iff_leads hdir).2 hb
    refine ⟨b, r, w, hlook, hbd, hr, hw, ?_, ?_⟩
    · exact ((lookupAt_iff_leads (dirname_binPath_ne_nil hdir hr)).2 hlead).1
    · by_cases habs : isAbs dir = true
      · rw [targetAt_newdirfd (Or.inl (hs.isAbs.trans habs)),
          targetAt_spells (hb.keeps hc.keeps) hs, hw]
        rfl
      · obtain ⟨x, hx, hsame⟩ := hfd.resolve_left habs
        rw [Bool.not_eq_true] at habs
        obtain ⟨hcwd, hwd⟩ := hlead
        rw [hs'.isAbs, habs] at hcwd
        rw [targetAt, if_neg hs.ne_nil, (base_eq_ok_iff (hs.isAbs.trans habs)).2 hx]
        exact target_eq_entry_iff.2 ⟨_, comps_binPath hdir hr, hsame.trans hcwd, hwd⟩

/-! ## Agreement in a run -/

/-- What holds of a call of `renameat`: its new name is that of the entry in the recycler `dir` that
the run has examined, for the descriptor 0, and `Agrees` holds under the condition. -/
def Meets (fs fs' : FileSystem) (p : Process) (dirfd : ℤ) (pathname : Str) (flags : Flags) (l : Loc)
    (n : Name) (newdirfd : ℤ) (new : Str) (es : List Ev) : Prop :=
  ∃ st1 st2 dir m, (⟨fs, .fstatat dirfd pathname (statFlags flags), .ok st1⟩ : Ev) ∈ es ∧
    (⟨fs, .stat dir, .ok st2⟩ : Ev) ∈ es ∧ climb fs st1.obj.dev st2.obj.ino (n :: l) = some m ∧
    newdirfd = 0 ∧ new = binPath dir l n m ∧
    (Agrees fs fs' p dir l n m ↔ st2.isDir = true ∧ m ≠ n :: l ∧
      (isAbs dir = true ∨ SameFromZero fs' p (dirname new)))

/-- `P` holds of the new name and the state, if the event is a `renameat`. -/
def Renames (P : ℤ → Str → FileSystem → Prop) (ev : Ev) : Prop :=
  ∀ olddirfd old newdirfd new, ev.call = .renameat olddirfd old newdirfd new →
    P newdirfd new ev.before

theorem Meets.mono {newdirfd : ℤ} {new : Str} {es' : List Ev}
    (h : Meets fs fs' p dirfd pathname flags l n newdirfd new es) (hes : es ⊆ es') :
    Meets fs fs' p dirfd pathname flags l n newdirfd new es' := by
  obtain ⟨st1, st2, dir, m, h1, h2, h⟩ := h
  exact ⟨st1, st2, dir, m, hes h1, hes h2, h⟩

variable {P : ℤ → Str → FileSystem → Prop}

theorem Renames.mono {P' : ℤ → Str → FileSystem → Prop} (h : Renames P ev)
    (hP : ∀ newdirfd new fs', P newdirfd new fs' → P' newdirfd new fs') : Renames P' ev :=
  fun _ _ _ _ hcall => hP _ _ _ (h _ _ _ _ hcall)

theorem renames_of_only {α : Type} {C : Call → Prop} {prog : Code α} (h : prog.Only C)
    (hC : ∀ olddirfd old newdirfd new, ¬C (.renameat olddirfd old newdirfd new)) :
    wp (Sys p deny) prog fs fun es _ _ => ∀ ev ∈ es, Renames P ev := by
  have hes : ∀ ev ∈ ([] : List Ev), C ev.call := fun ev hev => absurd hev List.not_mem_nil
  refine wp_mono (h.wp (K := fun es _ => ∀ ev ∈ es, C ev.call)
    (fun es s c r s' hc _ h => forall_mem_concat h hc) hes) fun es _ _ h ev hev => ?_
  intro olddirfd old newdirfd new hcall
  exact absurd (hcall ▸ h ev hev) (hC _ _ _ _)

/-- A run of `recycle` calls `renameat` in a state that the clone leaves. -/
theorem wp_recycle_renames (hdeny : ∀ e, deny e = true → e.denial = true)
    (hstat : fs.stat p dir = .ok st2) (hl : fs.IsDir l) (hfuel : enough l ≤ fuel)
    (hP : ∀ fs', (∀ b r, fs.Leads p (isAbs dir) (segments dir) b → l = r ++ m →
      Cloned fs fs' b r) → P 0 (binPath dir l n m) fs') :
    wp (Sys p deny) (recycle fuel dirfd pathname flags st1 dir (entryPath l n) (mountPath l n m)) fs
      fun es _ _ => ∀ ev ∈ es, Renames P ev := by
  have hcalls : ∀ s donor, wp (Sys p deny) (recyclixClonepathRecursive fuel s donor) fs
      fun es _ _ => ∀ ev ∈ es, Renames P ev := fun s donor =>
    renames_of_only ((only_clone fuel).1 s donor) fun _ _ _ _ => id
  rw [recycle, wp_bind]
  cases hdir : st1.isDir with
  | true =>
    refine wp_mono (hcalls _ _) fun es a fs' h => ?_
    cases a with
    | none => rwa [wp_ret, List.append_nil]
    | some retval =>
      dsimp only
      split_ifs with h0 h1
      · rwa [wp_ret, List.append_nil]
      · rw [realUnlink, wp_call]
        exact fun r fs'' _ => forall_mem_concat h fun _ _ _ _ hcall => by cases hcall
      · exact absurd rfl h1
  | false =>
    have hclone : wp (Sys p deny) (recyclixClonepathRecursive fuel (dirname (binPath dir l n m))
        (dirname (entryPath l n))) fs fun _ a fs' => a = some 0 → ∀ b r,
          fs.Leads p (isAbs dir) (segments dir) b → l = r ++ m → Cloned fs fs' b r := by
      refine wp_iff_runs.2 fun es a fs' hrun ha b r hb hr => ?_
      rcases wp_iff_runs.1 (wp_clone_parent_of_leads hstat hl hb hr hdeny hfuel) es a fs' hrun with
        ⟨-, hc, -⟩ | ⟨h, -⟩
      · exact hc
      · rw [ha] at h
        cases h
    refine wp_mono (wp_and (hcalls _ _) hclone) fun es a fs' h => ?_
    obtain ⟨h, hc⟩ := h
    cases a with
    | none => rwa [wp_ret, List.append_nil]
    | some retval =>
      dsimp only
      split_ifs with h0 h1
      · rwa [wp_ret, List.append_nil]
      · cases h1
      · rw [wp_call]
        refine fun r fs'' _ => forall_mem_concat h fun olddirfd old newdirfd new hcall => ?_
        cases hcall
        exact hP fs' (hc (by rw [not_not.1 h0]))

theorem wp_dropFile_renames (hdeny : ∀ e, deny e = true → e.denial = true)
    (ht : fs.targetAt p dirfd pathname = .ok (.entry l n)) (hfuel : enough l ≤ fuel)
    (hstat : fs.stat p dir = .ok st2)
    (hP : ∀ m fs', climb fs st1.obj.dev st2.obj.ino (n :: l) = some m →
      (∀ b r, fs.Leads p (isAbs dir) (segments dir) b → l = r ++ m → Cloned fs fs' b r) →
        P 0 (binPath dir l n m) fs') :
    wp (Sys p deny) (dropFile fuel dirfd pathname flags st1 (.recycler dir st2.obj.ino)) fs
      fun es _ _ => ∀ ev ∈ es, Renames P ev := by
  have hlen : l.length + 1 < fuel := by
    rw [enough] at hfuel
    omega
  have hcalls : wp (Sys p deny) (locate fuel dirfd pathname st1 st2.obj.ino) fs
      fun es _ _ => ∀ ev ∈ es, Renames P ev := renames_of_only only_locate fun _ _ _ _ => id
  rw [dropFile, wp_bind]
  refine wp_mono (wp_and hcalls (wp_locate ht hlen)) fun es a fs' h => ?_
  obtain ⟨hes, rfl, ⟨⟨x, rfl⟩, -⟩ | rfl⟩ := h
  · rwa [wp_ret, List.append_nil]
  · rw [located]
    cases hm : climb fs' st1.obj.dev st2.obj.ino (n :: l) with
    | none =>
      dsimp only
      rw [realUnlink, wp_call]
      exact fun r fs'' _ => forall_mem_concat hes fun _ _ _ _ hcall => by cases hcall
    | some m =>
      refine wp_mono (wp_recycle_renames hdeny hstat (isDir_of_targetAt ht) hfuel
        fun fs'' hc => hP m fs'' hm hc) fun es' a fs'' hes' ev hev => ?_
      exact (List.mem_append.1 hev).elim (hes ev) (hes' ev)

/-- `renameat` is called on a directory that the clone ensured, if and only if it was examined by
`stat` as a directory, the entry is not a mountpoint itself, and the pathname of the recycler is
absolute or leads to the same place from the descriptor 0 as from the current directory. -/
theorem renameat_agrees_iff {olddirfd newdirfd : ℤ} {old new : Str}
    (ht : fs.targetAt p dirfd pathname = .ok (.entry l n)) (hfuel : enough l ≤ fuel)
    (hrun : Runs (Sys p Errno.denial) (unlinkat env fuel dirfd pathname flags) fs es a fs₁)
    (hev : ev ∈ es) (hcall : ev.call = .renameat olddirfd old newdirfd new) :
    Meets fs ev.before p dirfd pathname flags l n newdirfd new es := by
  suffices hwp : wp (Sys p Errno.denial) (unlinkat env fuel dirfd pathname flags) fs
      fun es _ _ => ∀ ev ∈ es, Renames (fun newdirfd new fs' => Meets fs fs' p dirfd pathname flags
        l n newdirfd new es) ev from
    wp_iff_runs.1 hwp es a fs₁ hrun ev hev olddirfd old newdirfd new hcall
  have hreal : ∀ {fs₂} {P : ℤ → Str → FileSystem → Prop}, wp (Sys p Errno.denial)
      (realUnlink dirfd pathname flags) fs₂ fun es _ _ => ∀ ev ∈ es, Renames P ev :=
    renames_of_only (C := fun c => ∀ olddirfd old newdirfd new, c ≠ .renameat olddirfd old newdirfd new)
      ⟨fun _ _ _ _ e => (by cases e), fun _ => trivial⟩ fun _ _ _ _ h => h _ _ _ _ rfl
  have hquery : ∀ {P : ℤ → Str → FileSystem → Prop} {r},
      Renames P ⟨fs, .fstatat dirfd pathname (statFlags flags), r⟩ := fun _ _ _ _ e => by cases e
  unfold unlinkat
  cases env.recycler with
  | none =>
    intro r fs' _ ev hev
    rw [List.mem_singleton.1 hev]
    exact fun _ _ _ _ e => by cases e
  | some recyclers =>
    dsimp only
    rw [wp_sys_call]
    refine ⟨?_, fun x _ ev hev => by rw [List.mem_singleton.1 hev]; exact hquery⟩
    rw [exec]
    dsimp only
    cases hst : fs.fstatat p dirfd pathname (statFlags flags) with
    | error x => exact fun ev hev => by rw [List.mem_singleton.1 hev]; exact hquery
    | ok st1 =>
      dsimp only
      rw [wp_bind]
      refine wp_mono (wp_nextRecycler _) fun es₁ c fs' h => ?_
      obtain ⟨rfl, hes₁, -, hstat⟩ := h
      -- the events so far tell which recycler is used
      suffices hdrop : wp (Sys p Errno.denial) (dropFile fuel dirfd pathname flags st1 c) fs'
          fun es' _ _ => ∀ ev ∈ es', Renames (fun newdirfd new fs₂ => Meets fs' fs₂ p dirfd pathname
            flags l n newdirfd new (⟨fs', .fstatat dirfd pathname (statFlags flags), .ok st1⟩ :: es₁))
              ev by
        refine wp_mono hdrop fun es' _ _ h ev hev => ?_
        rcases List.mem_cons.1 hev with rfl | hev
        · exact hquery
        · rcases List.mem_append.1 hev with hev | hev
          · obtain ⟨dir, hdir⟩ := hes₁ ev hev
            exact fun _ _ _ _ hcall => by rw [hdir] at hcall; cases hcall
          · exact (h ev hev).mono fun _ _ _ hm => hm.mono (List.subset_append_left _ es')
      cases c with
      | realUnlink => exact hreal
      | exit x => exact fun ev hev => absurd hev List.not_mem_nil
      | recycler dir ino =>
        obtain ⟨st2, hst2, hmem, rfl⟩ := hstat dir ino rfl
        refine wp_dropFile_renames (fun _ => id) ht hfuel hst2 fun m fs₂ hm hc => ?_
        exact ⟨st1, st2, dir, m, List.mem_cons_self, List.mem_cons_of_mem _ hmem, hm, rfl, rfl,
          agrees_iff hst2 (climb_suffix hm) hc⟩

/-- A call that is made without denials is an event of a run. -/
theorem exists_event {α : Type} (prog : Code α) (p : Process) (fs : FileSystem) {c : Call}
    (h : c ∈ prog.calls (exec p) fs) :
    ∃ es a fs₁ ev, Runs (Sys p Errno.denial) prog fs es a fs₁ ∧ ev ∈ es ∧ ev.call = c := by
  obtain ⟨es, hes, hcs⟩ := exists_runs_run (sys_exec p Errno.denial) prog fs
  rw [← hcs] at h
  obtain ⟨ev, hev, hc⟩ := List.mem_map.1 h
  exact ⟨es, _, _, ev, hes, hev, hc⟩

theorem renameat_agrees_iff_fileTree : ∃ es ev, ev ∈ es ∧ Meets Sample.fileTree ev.before
    Sample.process atFdcwd "/a/f".toList 0 [Sample.a] Sample.f 0 "/bin/a/f".toList es := by
  obtain ⟨es, a, fs₁, ev, hrun, hev, hcall⟩ := exists_event
    (unlinkat Sample.env 15 atFdcwd "/a/f".toList 0) Sample.process Sample.fileTree
    (c := .renameat atFdcwd "/a/f".toList 0 "/bin/a/f".toList) (by decide +kernel)
  exact ⟨es, ev, hev, renameat_agrees_iff (by decide +kernel) (by decide) hrun hev hcall⟩

/-- A recycler that is relative to the current directory, in a process without descriptors. -/
theorem renameat_disagrees : ∃ es a fs₁ ev,
    Runs (Sys Sample.process Errno.denial)
      (unlinkat ⟨some "bin".toList, none, fun _ => none⟩ 15 atFdcwd "/a/f".toList 0)
      Sample.fileTree es a fs₁ ∧ ev ∈ es ∧
    ev.call = .renameat atFdcwd "/a/f".toList 0 (binPath "bin".toList [Sample.a] Sample.f []) ∧
    ¬Agrees Sample.fileTree ev.before Sample.process "bin".toList [Sample.a] Sample.f [] := by
  obtain ⟨es, a, fs₁, ev, hrun, hev, hcall⟩ := exists_event
    (unlinkat ⟨some "bin".toList, none, fun _ => none⟩ 15 atFdcwd "/a/f".toList 0) Sample.process
    Sample.fileTree
    (c := .renameat atFdcwd "/a/f".toList 0 (binPath "bin".toList [Sample.a] Sample.f []))
    (by decide +kernel)
  refine ⟨es, a, fs₁, ev, hrun, hev, hcall, ?_⟩
  rintro ⟨b, r, w, -, -, -, -, -, ht⟩
  obtain ⟨x, ys, hbase, -⟩ := targetAt_entry ht
  have hx := (base_eq_ok_iff (by decide)).1 hbase
  cases hx

end YazzyPreload.Recyclix

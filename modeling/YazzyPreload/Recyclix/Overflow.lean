import YazzyPreload.Place
import YazzyPreload.Recyclix.Buffers
import YazzyPreload.Recyclix.Exclude
import YazzyPreload.Recyclix.Selection
import YazzyPreload.Recyclix.Walk

/-!
# When the buffers hold

The limits given to `strncpy` and `snprintf` are computed from the string that is stored, and the
other stores have none, so that nothing keeps a string from being too long.  `AllFit` is what the
lengths of the items of `RECYCLER`, of the home directory and of the pathnames must be like;
`buffersHold_iff` says that the buffers hold in exactly this case.
-/

namespace YazzyPreload.Recyclix

open FileSystem Prog

variable {env : Env} {fs : FileSystem} {p : Process} {st1 : Stat} {dirfd : ℤ} {pathname : Str}
  {flags : Flags} {fuel rino : ℕ} {dir fq s t : Str}

/-! ## What must fit -/

/-- The loop over the items comes to this one. -/
def Reads (env : Env) (fs : FileSystem) (p : Process) (pathname : Str) (st1 : Stat)
    (items : List Str) (item : Str) : Prop :=
  ∃ pre post, items = pre ++ item :: post ∧ ∀ x ∈ pre, PassedOver env fs p pathname st1 x

/-- The pathname with the directory it is relative to.  There is none when that directory cannot be
named, or does not fit in the buffer given to `getcwd`. -/
def FullText (fs : FileSystem) (p : Process) (dirfd : ℤ) (pathname t : Str) : Prop :=
  if isAbs pathname then t = pathname
  else if dirfd = atFdcwd then ∃ cwd, fs.getcwd p = .ok cwd ∧ Fits cwd ∧ t = cwd ++ '/' :: pathname
  else ∃ link, readlinkFd p dirfd = .ok link ∧ t = link ++ '/' :: pathname

/-- The pathname with its directory resolved. -/
def Resolved (fs : FileSystem) (p : Process) (dirfd : ℤ) (pathname fq : Str) : Prop :=
  ∃ t r, FullText fs p dirfd pathname t ∧ fs.realpath p (dirname t) = .ok r ∧
    fq = r ++ '/' :: basename t

/-- The way up from `t` is on the device and without the recycler as far as `mp`, and not above. -/
inductive MountpointText (fs : FileSystem) (p : Process) (dev rino : ℕ) : Str → Str → Prop
  | here {t : Str} {st : Stat} (hst : fs.stat p (upper t) = .ok st) (hino : st.obj.ino ≠ rino)
      (h : t = ['/'] ∨ st.obj.dev ≠ dev) : MountpointText fs p dev rino t t
  | above {t mp : Str} {st : Stat} (hst : fs.stat p (upper t) = .ok st)
      (hino : st.obj.ino ≠ rino) (hne : t ≠ ['/']) (hdev : st.obj.dev = dev)
      (h : MountpointText fs p dev rino (upper t) mp) : MountpointText fs p dev rino t mp

/-- The pathnames that come to be with the recycler at `dir` fit. -/
structure PathsFit (fs : FileSystem) (p : Process) (dirfd : ℤ) (pathname : Str) (dev rino : ℕ)
    (dir : Str) : Prop where
  full : ∀ t, FullText fs p dirfd pathname t → Fits t
  resolved : ∀ fq, Resolved fs p dirfd pathname fq → Fits fq
  recycled : ∀ fq mp, Resolved fs p dirfd pathname fq → MountpointText fs p dev rino fq mp →
    Fits (recycledPath dir fq mp)

/-- Everything fits: the items up to the one that is used, as they are and with the home directory,
and with the recycler that is used the pathnames of the file. -/
structure AllFit (env : Env) (fs : FileSystem) (p : Process) (dirfd : ℤ) (pathname : Str)
    (flags : Flags) : Prop where
  items : ∀ recyclers st1 item, env.recycler = some recyclers →
    fs.fstatat p dirfd pathname (statFlags flags) = .ok st1 →
    Reads env fs p pathname st1 (recyclers.splitOn ':') item →
    Fits item ∧ Fits (expandHome env.home item)
  paths : ∀ st1 b st2, fs.fstatat p dirfd pathname (statFlags flags) = .ok st1 →
    env.Selects fs p pathname st1 b st2 →
    PathsFit fs p dirfd pathname st1.obj.dev st2.obj.ino b.dir

/-! ## Lengths -/

theorem Fits.of_length_le (h : Fits t) (hs : s.length ≤ t.length) : Fits s :=
  Nat.le_trans (Nat.succ_le_succ hs) h

theorem Fits.dirname (h : Fits s) : Fits (dirname s) := by
  have := length_dirname_le s
  rw [Fits, posixPathMax] at h ⊢
  omega

theorem Fits.upper (h : Fits s) : Fits (upper s) := by
  rw [Recyclix.upper]
  split_ifs
  · decide
  · exact h.dirname

/-- The link of a descriptor is short, since a descriptor has 32 bits. -/
theorem fits_fdPath (fd : BitVec 32) : Fits (Bounded.fdPath fd.toInt) := by
  have hlt : fd.toInt.natAbs < 10000000000 := by
    have h := fd.isLt
    rw [BitVec.toInt_eq_toNat_cond]
    split_ifs <;> omega
  have hlen : (Nat.toDigits 10 fd.toInt.natAbs).length ≤ 10 :=
    (Nat.length_toDigits_le_iff (b := 10) (k := 10) (by decide) (by decide)).2 hlt
  unfold Bounded.fdPath
  generalize Nat.toDigits 10 fd.toInt.natAbs = digits at hlen ⊢
  rw [Fits, List.length_append, List.length_append]
  have hfd : "/proc/self/fd/".toList.length = 14 := by decide
  have hmax : posixPathMax = 256 := rfl
  split_ifs <;> simp only [List.length_cons, List.length_nil] <;> omega

/-- What stands between separators is not longer than the whole. -/
theorem length_le_of_mem_splitOn {c : Char} {o : Str} (h : o ∈ s.splitOn c) :
    o.length ≤ s.length := by
  induction s generalizing o with
  | nil =>
    rw [List.splitOn_nil, List.mem_singleton] at h
    rw [h]
  | cons x s ih =>
    rw [List.length_cons]
    rw [List.splitOn_cons_eq_if_modifyHead] at h
    split_ifs at h
    · rcases List.mem_cons.1 h with rfl | h
      · exact Nat.zero_le _
      · exact Nat.le_succ_of_le (ih h)
    · obtain ⟨u, us, hu⟩ := List.exists_cons_of_ne_nil (List.splitOn_ne_nil c s)
      rw [hu, List.modifyHead_cons] at h
      rcases List.mem_cons.1 h with rfl | h
      · exact Nat.succ_le_succ (ih (hu ▸ List.mem_cons_self))
      · exact Nat.le_succ_of_le (ih (hu ▸ List.mem_cons_of_mem u h))

/-! ## Moving the file -/

theorem parallel_neverFails : Bounded.Parallel Fits fun q _ => NeverFails q where
  ret := .ret
  call c _ _ := .call c
  store _ _ _ _ hs h := .require hs h
  andThen _ _ _ _ := .andThen
  dirname _ := Fits.dirname

/-- The buffers of `recyclix_clonepath_recursive` hold at every depth, since `dirname` does not make
a pathname longer. -/
theorem neverFails_clone (hs : Fits s) (ht : Fits t) :
    NeverFails (Bounded.recyclixClonepathRecursive fuel s t) :=
  (parallel_neverFails.clone fuel).1 s t hs ht

theorem neverFails_realUnlink : NeverFails (Bounded.realUnlink dirfd pathname flags) :=
  .call _ fun _ => .ret _

/-- Nothing can go wrong after the pathname in the recycler. -/
theorem runsTo_recycle_iff {mp : Str} (hfq : Fits fq) :
    RunsTo (execIn p) (Bounded.recycle fuel dirfd pathname flags st1 dir fq mp) fs (fun _ _ => True) ↔
      Fits (recycledPath dir fq mp) := by
  rw [Bounded.recycle, Bounded.store, runsTo_require, and_iff_left_iff_imp]
  intro h
  refine NeverFails.runsTo (.require h (.andThen ?_ fun a => ?_)) fs
  · rw [clonePaths]
    split_ifs
    · exact neverFails_clone h hfq
    · exact neverFails_clone h.dirname hfq.dirname
  · cases a with
    | none => exact .ret _
    | some retval =>
      dsimp only
      split_ifs
      · exact .ret _
      · exact neverFails_realUnlink
      · exact .call _ fun _ => .ret _

/-! ## Locating the file -/

theorem execIn_stat (s : Str) : execIn p (.stat s) fs = (fs.stat p s, fs) := rfl

/-- The buffers of the loop hold, and it ends at the mountpoint. -/
theorem runsTo_findRoot (ht : isAbs t = true) (hfits : Fits t) :
    RunsTo (execIn p) (Bounded.findRoot st1 rino fq fuel t) fs fun a fs' => fs' = fs ∧
      ∀ fq' mp, a = some (.mountpoint fq' mp) →
        fq' = fq ∧ MountpointText fs p st1.obj.dev rino t mp := by
  induction fuel generalizing t with
  | zero => exact runsTo_ok.2 ⟨rfl, fun _ _ h => by cases h⟩
  | succ fuel ih =>
    have hup : (if dirname t = ['/', '/'] then ['/'] else dirname t) = upper t := rfl
    rw [Bounded.findRoot, hup, Bounded.store, runsTo_require, runsTo_call, execIn_stat]
    refine ⟨hfits, ?_⟩
    cases hst : fs.stat p (upper t) with
    | error e => exact runsTo_ok.2 ⟨rfl, fun _ _ h => by cases h⟩
    | ok st2 =>
      dsimp only
      split_ifs with hino hroot hdev
      · exact runsTo_ok.2 ⟨rfl, fun _ _ h => by cases h⟩
      · refine runsTo_ok.2 ⟨rfl, fun fq' mp h => ?_⟩
        cases h
        exact ⟨rfl, .here hst hino (Or.inl hroot.1)⟩
      · refine runsTo_ok.2 ⟨rfl, fun fq' mp h => ?_⟩
        cases h
        exact ⟨rfl, .here hst hino (Or.inr (Ne.symm hdev))⟩
      · have hne : t ≠ ['/'] := fun e => hroot ⟨e, e ▸ upper_root⟩
        rw [Bounded.store, runsTo_require]
        refine ⟨hfits.upper, (ih (isAbs_upper ht) hfits.upper).mono fun a fs' h => ⟨h.1, ?_⟩⟩
        intro fq' mp ha
        obtain ⟨hfq, hmp⟩ := h.2 fq' mp ha
        exact ⟨hfq, .above hst hino hne (not_not.1 hdev).symm hmp⟩

/-- The loop comes to the mountpoint. -/
theorem run_findRoot_mountpoint {mp : Str} (hfits : Fits t)
    (h : MountpointText fs p st1.obj.dev rino t mp) :
    ∃ fuel, (Bounded.findRoot st1 rino fq fuel t).run (execIn p) fs =
      (.ok (some (.mountpoint fq mp)), fs) := by
  induction h with
  | @here t st hst hino h =>
    refine ⟨1, ?_⟩
    have hup : (if dirname t = ['/', '/'] then ['/'] else dirname t) = upper t := rfl
    rw [Bounded.findRoot, hup, Bounded.store, require, if_pos hfits, run_call, execIn_stat, hst]
    dsimp only
    rw [if_neg hino]
    by_cases hroot : t = ['/'] ∧ upper t = ['/']
    · rw [if_pos hroot]
      rfl
    · have hdev : st1.obj.dev ≠ st.obj.dev := by
        rcases h with rfl | h
        · exact absurd ⟨rfl, upper_root⟩ hroot
        · exact Ne.symm h
      rw [if_neg hroot, if_pos hdev]
      rfl
  | @above t mp st hst hino hne hdev _ ih =>
    obtain ⟨fuel, hrun⟩ := ih hfits.upper
    refine ⟨fuel + 1, ?_⟩
    have hup : (if dirname t = ['/', '/'] then ['/'] else dirname t) = upper t := rfl
    rw [Bounded.findRoot, hup, Bounded.store, require, if_pos hfits, run_call, execIn_stat, hst]
    dsimp only
    rw [if_neg hino, if_neg fun h => hne h.1, if_neg (not_not.2 hdev.symm), Bounded.store, require,
      if_pos hfits.upper]
    exact hrun

theorem execIn_getcwd_ok {cwd : Str} (h : fs.getcwd p = .ok cwd) (hfits : Fits cwd) :
    execIn p .getcwd fs = (.ok cwd, fs) := by
  rw [execIn, h]
  dsimp only
  rw [if_pos hfits]

theorem execIn_getcwd_error (h : ∀ cwd, fs.getcwd p = .ok cwd → ¬ Fits cwd) :
    ∃ e, execIn p .getcwd fs = (.error e, fs) := by
  rw [execIn]
  cases hcwd : fs.getcwd p with
  | error e => exact ⟨e, rfl⟩
  | ok cwd =>
    dsimp only
    rw [if_neg (h cwd hcwd)]
    exact ⟨_, rfl⟩

/-- The text put together from a directory and a pathname. -/
theorem Fits.left {a : Str} (h : Fits (a ++ '/' :: s)) : Fits a :=
  h.of_length_le (by rw [List.length_append]; exact Nat.le_add_right _ _)

theorem take_of_fits (h : Fits (List.take posixPathMax s)) : List.take posixPathMax s = s := by
  refine List.take_of_length_le ?_
  rw [Fits, List.length_take] at h
  omega

theorem take_fits (h : Fits s) : List.take posixPathMax s = s :=
  List.take_of_length_le (Nat.le_of_succ_le h)

section FullPath

variable {Q : Except Exit (Str × ℤ) → FileSystem → Prop} {G : Str → Prop}
  (hexit : ∀ e, Q (.error e) fs) (hok : ∀ t r, Q (.ok (t, r)) fs ↔ G t)

include hexit hok

/-- The text in `fqpath` fits, when there is one; `G` is what comes after. -/
theorem runsTo_fullPath_iff (hfd : Fits (Bounded.fdPath dirfd)) :
    RunsTo (execIn p) (Bounded.fullPath dirfd pathname) fs Q ↔
      ∀ t, FullText fs p dirfd pathname t → Fits t ∧ G t := by
  unfold Bounded.fullPath FullText Bounded.store
  by_cases habs : isAbs pathname = true
  · simp only [habs, if_true, runsTo_require, runsTo_ok, hok, forall_eq]
  by_cases hcwd : dirfd = atFdcwd
  · simp only [if_neg habs, if_pos hcwd]
    by_cases h : ∃ cwd, fs.getcwd p = .ok cwd ∧ Fits cwd
    · obtain ⟨cwd, hcwd, hfits⟩ := h
      rw [runsTo_call, execIn_getcwd_ok hcwd hfits]
      simp only [runsTo_require, runsTo_ok, hok]
      constructor
      · rintro h t ⟨cwd', hcwd', -, rfl⟩
        rw [hcwd] at hcwd'
        cases hcwd'
        exact h
      · exact fun h => h _ ⟨cwd, hcwd, hfits, rfl⟩
    · push Not at h
      obtain ⟨e, he⟩ := execIn_getcwd_error h
      rw [runsTo_call, he]
      refine iff_of_true (runsTo_ok.2 (hexit _)) ?_
      rintro t ⟨cwd, hc, hf, -⟩
      exact absurd hf (h cwd hc)
  · simp only [if_neg habs, if_neg hcwd]
    rw [runsTo_require, and_iff_right hfd, runsTo_call]
    have hex : execIn p (.readlinkFd dirfd) fs = (readlinkFd p dirfd, fs) := rfl
    rw [hex]
    cases hlink : readlinkFd p dirfd with
    | error e =>
      refine iff_of_true (runsTo_ok.2 (hexit _)) ?_
      rintro t ⟨link, hl, -⟩
      cases hl
    | ok link =>
      simp only [runsTo_require, runsTo_ok, hok]
      constructor
      · rintro ⟨hl, h⟩ t ⟨link', hlink', rfl⟩
        cases hlink'
        rwa [take_of_fits hl] at h
      · intro h
        have h' := h _ ⟨link, rfl, rfl⟩
        rw [take_fits h'.1.left]
        exact ⟨h'.1.left, h'⟩

end FullPath

theorem isAbs_resolved (h : Resolved fs p dirfd pathname fq) : isAbs fq = true := by
  obtain ⟨t, r, -, hr, rfl⟩ := h
  rw [realpath] at hr
  cases hl : fs.lookupAt p atFdcwd (dirname t) true with
  | error e => rw [hl] at hr; cases hr
  | ok l =>
    rw [hl] at hr
    cases hr
    have hs := spells_pathOf l
    rw [isAbs_append hs.isAbs_ne_nil, hs.isAbs]

theorem runsTo_locate_iff (hfd : Fits (Bounded.fdPath dirfd)) {Q : Option Found → FileSystem → Prop}
    (hexit : ∀ e, Q (some (.exit e)) fs) :
    RunsTo (execIn p) (Bounded.locate fuel dirfd pathname st1 rino) fs Q ↔
      (∀ t, FullText fs p dirfd pathname t → Fits t) ∧
      ∀ fq, Resolved fs p dirfd pathname fq → Fits fq ∧
        RunsTo (execIn p) (Bounded.findRoot st1 rino fq fuel fq) fs Q := by
  rw [Bounded.locate, runsTo_andThen]
  refine (runsTo_fullPath_iff (G := fun t => Fits t ∧ ∀ r, fs.realpath p (dirname t) = .ok r →
    Fits (r ++ '/' :: basename t) ∧ RunsTo (execIn p)
      (Bounded.findRoot st1 rino (r ++ '/' :: basename t) fuel (r ++ '/' :: basename t)) fs Q)
    (fun e => runsTo_ok.2 (hexit e)) (fun t retval => ?_) hfd).trans ⟨fun h => ⟨?_, ?_⟩, fun h => ?_⟩
  · have hex : execIn p (.realpath (dirname t)) fs = (fs.realpath p (dirname t), fs) := rfl
    dsimp only
    rw [Bounded.store, runsTo_require, runsTo_call, hex]
    refine and_congr_right fun ht => ?_
    cases fs.realpath p (dirname t) with
    | error e => exact iff_of_true (runsTo_ok.2 (hexit _)) fun r h => by cases h
    | ok r =>
      simp only [Bounded.store, runsTo_require, ht, true_and, Except.ok.injEq, forall_eq']
      exact ⟨fun h => h.2, fun h => ⟨h.1, h⟩⟩
  · exact fun t ht => (h t ht).1
  · rintro _ ⟨t, r, ht, hr, rfl⟩
    exact (h t ht).2.2 r hr
  · exact fun t ht => ⟨h.1 t ht, h.1 t ht, fun r hr => h.2 _ ⟨t, r, ht, hr, rfl⟩⟩

/-- With a recycler chosen, the buffers hold if and only if the pathnames fit. -/
theorem runsTo_dropFile_iff (hfd : Fits (Bounded.fdPath dirfd)) :
    (∀ fuel, RunsTo (execIn p)
      (Bounded.dropFile fuel dirfd pathname flags st1 (.recycler dir rino)) fs fun _ _ => True) ↔
      PathsFit fs p dirfd pathname st1.obj.dev rino dir := by
  simp only [Bounded.dropFile, runsTo_andThen]
  constructor
  · intro h
    have hloc := fun fuel =>
      (runsTo_locate_iff hfd (by exact fun e => runsTo_ok.2 trivial)).1 (h fuel)
    refine ⟨(hloc 0).1, fun fq hfq => ((hloc 0).2 fq hfq).1, fun fq mp hfq hmp => ?_⟩
    have hfits := ((hloc 0).2 fq hfq).1
    obtain ⟨fuel, hrun⟩ := @run_findRoot_mountpoint _ _ _ _ fq _ _ hfits hmp
    obtain ⟨-, a, fs', hrun', hrest⟩ := (hloc fuel).2 fq hfq
    rw [hrun] at hrun'
    cases hrun'
    exact (runsTo_recycle_iff hfits).1 hrest
  · intro h fuel
    refine (runsTo_locate_iff hfd (by exact fun e => runsTo_ok.2 trivial)).2
      ⟨h.full, fun fq hfq => ?_⟩
    refine ⟨h.resolved fq hfq, (runsTo_findRoot (isAbs_resolved hfq) (h.resolved fq hfq)).mono ?_⟩
    rintro a fs' ⟨rfl, hmp⟩
    rcases a with _ | e | _ | ⟨fq', mp⟩
    · exact runsTo_ok.2 trivial
    · exact runsTo_ok.2 trivial
    · exact neverFails_realUnlink.runsTo fs'
    · obtain ⟨rfl, hmp⟩ := hmp fq' mp rfl
      exact (runsTo_recycle_iff (h.resolved fq' hfq)).2 (h.recycled fq' mp hfq hmp)

/-! ## Choosing a recycler -/

theorem fits_copied {o : Str} {opt : Opt} (h : recognizeOption o = some opt) (ho : Fits o) :
    Fits (Bounded.copied opt) := by
  cases opt with
  | size szMin szMax => exact ho.of_length_le (Nat.zero_le _)
  | exclude pattern =>
    have hp : excludePattern o = some pattern := excludePattern_eq h
    refine ho.of_length_le ?_
    unfold excludePattern at hp
    split at hp
    · cases hp
      exact Nat.le_succ _
    · cases hp

/-- The patterns of an item that fits are copied to a buffer that holds them. -/
theorem readOptions_of_fits {regcomp : Regcomp} {os : List Str} {lim : Limits}
    (h : ∀ o ∈ os, Fits o) : Bounded.readOptions regcomp pathname os lim =
      .ok (readOptions regcomp pathname os lim) := by
  suffices hok : ∃ r, Bounded.readOptions regcomp pathname os lim = .ok r by
    obtain ⟨r, hr⟩ := hok
    rw [hr, Bounded.readOptions_eq hr]
  induction os generalizing lim with
  | nil => exact ⟨_, rfl⟩
  | cons o os ih =>
    by_cases hend : o = [] ∧ os = []
    · obtain ⟨rfl, rfl⟩ := hend
      exact ⟨_, rfl⟩
    · have hne : o = [] → os = [] → False := fun ho hos => hend ⟨ho, hos⟩
      simp only [Bounded.readOptions]
      cases ho : recognizeOption o with
      | none => exact ⟨_, rfl⟩
      | some opt =>
        dsimp only
        rw [if_pos (fits_copied ho (h o List.mem_cons_self))]
        cases lim.apply regcomp pathname opt with
        | none => exact ⟨_, rfl⟩
        | some lim' => exact ih fun o ho => h o (List.mem_cons_of_mem _ ho)

/-- The recycler of an item is used, or the loop goes on. -/
theorem runsTo_bin_iff {item : Str} {b : Bin} {q : BoundedCode Choice}
    {k : Except Errno Stat → BoundedCode Choice} {Q : Choice → FileSystem → Prop}
    (hread : env.readItem pathname item = .bin b) (herror : ∀ e, k (.error e) = q)
    (hok : ∀ st2, k (.ok st2) = if st2.obj.dev ≠ st1.obj.dev then q
      else if b.lim.admits st1.isReg st1.size then .ret (.ok (.recycler b.dir st2.obj.ino))
      else q) :
    RunsTo (execIn p) (.call (.stat b.dir) k) fs Q ↔
      (PassedOver env fs p pathname st1 item → RunsTo (execIn p) q fs Q) ∧
      ∀ b st2, env.readItem pathname item = .bin b → b.Eligible fs p st1 st2 →
        Q (.recycler b.dir st2.obj.ino) fs := by
  have hpassed : PassedOver env fs p pathname st1 item ↔ ∀ st2, ¬ b.Eligible fs p st1 st2 := by
    simp only [PassedOver, hread, reduceCtorEq, false_or, Reading.bin.injEq, exists_eq_left']
  have hused : (∀ b st2, env.readItem pathname item = .bin b → b.Eligible fs p st1 st2 →
      Q (.recycler b.dir st2.obj.ino) fs) ↔
      ∀ st2, b.Eligible fs p st1 st2 → Q (.recycler b.dir st2.obj.ino) fs := by
    refine ⟨fun h st2 => h b st2 hread, fun h b' st2 hb' => ?_⟩
    rw [hread] at hb'
    cases hb'
    exact h st2
  have hgoes : (∀ st2, ¬ b.Eligible fs p st1 st2) → (RunsTo (execIn p) q fs Q ↔
      ((∀ st2, ¬ b.Eligible fs p st1 st2) → RunsTo (execIn p) q fs Q) ∧
        ∀ st2, b.Eligible fs p st1 st2 → Q (.recycler b.dir st2.obj.ino) fs) := fun hno =>
    ⟨fun h => ⟨fun _ => h, fun st2 he => absurd he (hno st2)⟩, fun h => h.1 hno⟩
  rw [hpassed, hused, runsTo_call, execIn_stat]
  cases hst : fs.stat p b.dir with
  | error e =>
    rw [herror]
    refine hgoes fun st2 he => ?_
    have := he.stat
    rw [hst] at this
    cases this
  | ok st2 =>
    have huniq : ∀ st2', b.Eligible fs p st1 st2' → st2' = st2 := fun st2' he =>
      Except.ok.inj (he.stat.symm.trans hst)
    rw [hok]
    split_ifs with hdev hadm
    · refine hgoes fun st2' he => hdev ?_
      rw [← huniq st2' he]
      exact he.dev
    · obtain ⟨hsize, hex⟩ := (b.lim.admits_iff st1).1 hadm
      have helig : b.Eligible fs p st1 st2 := ⟨hst, not_not.1 hdev, hsize, hex⟩
      rw [runsTo_ok]
      refine ⟨fun h => ⟨fun hno => absurd helig (hno st2), fun st2' he => ?_⟩, fun h => h.2 st2 helig⟩
      rwa [huniq st2' he]
    · exact hgoes fun st2' he => hadm ((b.lim.admits_iff st1).2 ⟨he.size, he.notExcluded⟩)

/-- One item: it fits, and if it is passed over the same goes for the rest. -/
theorem runsTo_nextRecycler_cons {item : Str} {items : List Str} {Q : Choice → FileSystem → Prop}
    (hexit : ∀ e, Q (.exit e) fs) :
    RunsTo (execIn p) (Bounded.nextRecycler env pathname st1 (item :: items)) fs Q ↔
      Fits item ∧ Fits (expandHome env.home item) ∧
      (PassedOver env fs p pathname st1 item →
        RunsTo (execIn p) (Bounded.nextRecycler env pathname st1 items) fs Q) ∧
      ∀ b st2, env.readItem pathname item = .bin b → b.Eligible fs p st1 st2 →
        Q (.recycler b.dir st2.obj.ino) fs := by
  rw [Bounded.nextRecycler, Bounded.store, Bounded.store, runsTo_require, runsTo_require]
  refine and_congr_right fun _ => and_congr_right fun hrec => ?_
  by_cases h0 : expandHome env.home item = []
  · have hread : env.readItem pathname item = .skipped := if_pos h0
    rw [if_pos h0]
    refine ⟨fun h => ⟨fun _ => h, fun b st2 hb => ?_⟩, fun h => h.1 (Or.inl hread)⟩
    rw [hread] at hb
    cases hb
  have hopts : ∀ o ∈ binOptions (expandHome env.home item), Fits o := fun o ho =>
    hrec.of_length_le (length_le_of_mem_splitOn (List.mem_of_mem_tail ho))
  rw [if_neg h0, readOptions_of_fits hopts]
  cases hr : readOptions env.regcomp pathname (binOptions (expandHome env.home item)) .initial with
  | none =>
    have hread : env.readItem pathname item = .malformed := by
      simp only [Env.readItem, if_neg h0, hr]
    refine iff_of_true (runsTo_ok.2 (hexit _)) ⟨fun h => ?_, fun b st2 hb => ?_⟩
    · rcases h with h | ⟨b, h, -⟩ <;> rw [hread] at h <;> cases h
    · rw [hread] at hb
      cases hb
  | some lim =>
    have hread : env.readItem pathname item = .bin ⟨binDir (expandHome env.home item), lim⟩ := by
      simp only [Env.readItem, if_neg h0, hr]
    exact runsTo_bin_iff hread (fun _ => rfl) fun _ => rfl

/-- The items that are read fit, and then it depends on the recycler that is used. -/
theorem runsTo_nextRecycler_iff {items : List Str} {Q : Choice → FileSystem → Prop}
    (hreal : Q .realUnlink fs) (hexit : ∀ e, Q (.exit e) fs) :
    RunsTo (execIn p) (Bounded.nextRecycler env pathname st1 items) fs Q ↔
      ∀ item, Reads env fs p pathname st1 items item →
        Fits item ∧ Fits (expandHome env.home item) ∧
        ∀ b st2, env.readItem pathname item = .bin b → b.Eligible fs p st1 st2 →
          Q (.recycler b.dir st2.obj.ino) fs := by
  induction items with
  | nil =>
    refine iff_of_true (runsTo_ok.2 hreal) ?_
    rintro item ⟨pre, post, h, -⟩
    simp at h
  | cons x items ih =>
    have hreads : ∀ item, Reads env fs p pathname st1 (x :: items) item ↔
        item = x ∨ (PassedOver env fs p pathname st1 x ∧ Reads env fs p pathname st1 items item) := by
      intro item
      constructor
      · rintro ⟨pre, post, h, hpre⟩
        cases pre with
        | nil => exact Or.inl (List.cons.inj h).1.symm
        | cons y pre =>
          obtain ⟨rfl, hitems⟩ := List.cons.inj h
          obtain ⟨hx, hpre⟩ := List.forall_mem_cons.1 hpre
          exact Or.inr ⟨hx, pre, post, hitems, hpre⟩
      · rintro (rfl | ⟨hx, pre, post, rfl, hpre⟩)
        · exact ⟨[], items, rfl, fun y hy => absurd hy List.not_mem_nil⟩
        · exact ⟨x :: pre, post, rfl, List.forall_mem_cons.2 ⟨hx, hpre⟩⟩
    rw [runsTo_nextRecycler_cons hexit]
    simp only [hreads]
    constructor
    · rintro ⟨hx, hx', hrest, hused⟩ item (rfl | ⟨hpass, hitem⟩)
      · exact ⟨hx, hx', hused⟩
      · exact ih.1 (hrest hpass) item hitem
    · intro h
      obtain ⟨hx, hx', hused⟩ := h x (Or.inl rfl)
      exact ⟨hx, hx', fun hpass => ih.2 fun item hitem => h item (Or.inr ⟨hpass, hitem⟩), hused⟩

/-! ## `unlinkat` -/

/-- The items that are read fit, and with the recycler that is used the pathnames. -/
theorem runsTo_items_iff (hfd : Fits (Bounded.fdPath dirfd)) {items : List Str} :
    (∀ fuel, RunsTo (execIn p) (andThen (Bounded.nextRecycler env pathname st1 items)
      (Bounded.dropFile fuel dirfd pathname flags st1)) fs fun _ _ => True) ↔
      ∀ item, Reads env fs p pathname st1 items item →
        Fits item ∧ Fits (expandHome env.home item) ∧
        ∀ b st2, env.readItem pathname item = .bin b → b.Eligible fs p st1 st2 →
          PathsFit fs p dirfd pathname st1.obj.dev st2.obj.ino b.dir := by
  have hloop : ∀ fuel, RunsTo (execIn p) (andThen (Bounded.nextRecycler env pathname st1 items)
      (Bounded.dropFile fuel dirfd pathname flags st1)) fs (fun _ _ => True) ↔
      ∀ item, Reads env fs p pathname st1 items item →
        Fits item ∧ Fits (expandHome env.home item) ∧
        ∀ b st2, env.readItem pathname item = .bin b → b.Eligible fs p st1 st2 →
          RunsTo (execIn p) (Bounded.dropFile fuel dirfd pathname flags st1
            (.recycler b.dir st2.obj.ino)) fs fun _ _ => True := by
    intro fuel
    rw [runsTo_andThen]
    exact runsTo_nextRecycler_iff (neverFails_realUnlink.runsTo fs) fun e => runsTo_ok.2 trivial
  simp only [hloop]
  constructor
  · intro h item hitem
    obtain ⟨hfits, hfits', -⟩ := h 0 item hitem
    exact ⟨hfits, hfits', fun b st2 hread helig => (runsTo_dropFile_iff hfd).1 fun fuel =>
      (h fuel item hitem).2.2 b st2 hread helig⟩
  · intro h fuel item hitem
    obtain ⟨hfits, hfits', hpaths⟩ := h item hitem
    exact ⟨hfits, hfits', fun b st2 hread helig =>
      (runsTo_dropFile_iff hfd).2 (hpaths b st2 hread helig) fuel⟩

/-- The buffers hold if and only if the items of `RECYCLER` that are read, also with the home
directory, the pathname with its directory, also resolved, and the pathname in the recycler all
have less than `_POSIX_PATH_MAX` characters. -/
theorem buffersHold_iff (env : Env) (fs : FileSystem) (p : Process) (fd : BitVec 32)
    (pathname : Str) (flags : Flags) :
    Bounded.BuffersHold env fs p fd.toInt pathname flags ↔
      AllFit env fs p fd.toInt pathname flags := by
  have hfd := fits_fdPath fd
  generalize fd.toInt = dirfd at hfd ⊢
  have hrun : Bounded.BuffersHold env fs p dirfd pathname flags ↔ ∀ fuel, RunsTo (execIn p)
      (Bounded.unlinkat env fuel dirfd pathname flags) fs fun _ _ => True :=
    forall_congr' fun fuel => runsTo_iff_ne_error.symm
  rw [hrun]
  unfold Bounded.unlinkat
  cases hr : env.recycler with
  | none =>
    refine iff_of_true (fun fuel => neverFails_realUnlink.runsTo fs) ⟨fun recyclers st1 item h => ?_, ?_⟩
    · rw [hr] at h
      cases h
    · rintro st1 b st2 - ⟨⟨recyclers, pre, item, post, h, -⟩, -⟩
      rw [hr] at h
      cases h
  | some recyclers =>
    have hex : execIn p (.fstatat dirfd pathname (statFlags flags)) fs =
        (fs.fstatat p dirfd pathname (statFlags flags), fs) := rfl
    simp only [runsTo_call, hex]
    cases hst : fs.fstatat p dirfd pathname (statFlags flags) with
    | error e =>
      refine iff_of_true (fun fuel => runsTo_ok.2 trivial)
        ⟨fun recyclers st1 item _ h => ?_, fun st1 b st2 h => ?_⟩ <;> rw [hst] at h <;> cases h
    | ok st1 =>
      refine (runsTo_items_iff hfd).trans ⟨fun h => ⟨?_, ?_⟩, fun h item hitem => ?_⟩
      · intro recyclers' st1' item hr' hst' hitem
        rw [hr] at hr'
        rw [hst] at hst'
        cases hr'
        cases hst'
        exact ⟨(h item hitem).1, (h item hitem).2.1⟩
      · rintro st1' b st2 hst' ⟨⟨recyclers', pre, item, post, hr', hsplit, hpre, hread⟩, helig⟩
        rw [hr] at hr'
        rw [hst] at hst'
        cases hr'
        cases hst'
        exact (h item ⟨pre, post, hsplit, hpre⟩).2.2 b st2 hread helig
      · obtain ⟨hfits, hfits'⟩ := h.items recyclers st1 item hr hst hitem
        obtain ⟨pre, post, hsplit, hpre⟩ := hitem
        exact ⟨hfits, hfits', fun b st2 hread helig => h.paths st1 b st2 hst
          ⟨⟨recyclers, pre, item, post, hr, hsplit, hpre, hread⟩, helig⟩⟩

section Sample

open Sample

/-- A pathname of 256 characters overflows `fqpath`, and an item of 256 characters `recycler`. -/
theorem buffers_overflow :
    ¬ Bounded.BuffersHold Sample.env fileTree process atFdcwd
        (List.replicate 253 '/' ++ "a/f".toList) 0 ∧
      ¬ Bounded.BuffersHold ⟨some (List.replicate 256 'b'), none, fun _ => none⟩ fileTree process
        atFdcwd "/a/f".toList 0 := by
  constructor
  · exact fun h => h 9 .fqpath (by decide +kernel)
  · exact fun h => h 9 .recycler (by decide +kernel)

end Sample

end YazzyPreload.Recyclix

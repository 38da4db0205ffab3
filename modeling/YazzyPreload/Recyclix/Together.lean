import YazzyPreload.Pool
import YazzyPreload.Recyclix.Rules

/-!
# Calls of `unlinkat` together

Every call of `unlinkat` keeps to the rules of `May`, whatever the others do that keep to them.  So
in any interleaving nothing changes outside of the recyclers but that entries go which are asked for
(`removals_contained`).
-/

namespace YazzyPreload.Recyclix

open FileSystem Prog

variable {fs₀ fs fs' : FileSystem} {bins asked : Loc → Prop} {q : Request} {b e l m r x y : Loc}
  {n : Name} {dir s t donor : Str} {fuel : ℕ} {st st1 : Stat}
  {h : Handler Call Call.Answer FileSystem}

/-- As long as the changes of others are contained, the program makes only calls that the request may
make, and ends as `Q` says. -/
abbrev Obeys (fs₀ : FileSystem) (bins asked : Loc → Prop) (h : Handler Call Call.Answer FileSystem)
    (q : Request) {α : Type} (Q : α → FileSystem → Prop) : Code α → FileSystem → Prop :=
  Follows h (Contained fs₀ bins asked) (Stays bins) (May fs₀ bins h q) Q

/-- A handler answers for a process, and may deny calls. -/
def AnswersFor (p : Process) (h : Handler Call Call.Answer FileSystem) : Prop :=
  ∀ c fs, Sys p Errno.denial fs c (h c fs).1 (h c fs).2

/-! ## The entry -/

/-- What the request knows of the entry `n` of the directory at `l` once it has seen its status. -/
structure Seen (fs₀ : FileSystem) (q : Request) (l : Loc) (n : Name) (st1 : Stat) (cur : Loc)
    (cs : List Comp) : Prop where
  base : base q.process q.dirfd q.pathname = .ok cur
  comps : comps q.pathname = cs ++ [.name n]
  dir : lexical cur cs = l
  direct : Direct (IsLink fs₀.kindAt) [] (names cur ++ cs)
  status : fs₀.statLoc (n :: l) = .ok st1

variable {cur : Loc} {cs : List Comp}

theorem seen_of_fstatat (hq : Orderly fs₀ bins q) (h₀ : Furnished fs₀ bins)
    (hcont : Contained fs₀ bins asked fs)
    (hst : fs.fstatat q.process q.dirfd q.pathname (statFlags q.flags) = .ok st1) :
    ∃ l n cur cs, Seen fs₀ q l n st1 cur cs := by
  obtain ⟨cs, n, hc⟩ := hq.name
  have hne : comps q.pathname ≠ [] := by simp [hc]
  obtain ⟨cur, hb⟩ := exists_base_of_fstatat hne hst
  have hd := hq.direct cur hb
  obtain ⟨hloc, hcur⟩ := fstatat_lexical hne hb (hd.mono fun y hy => hcont.isLink hy) hst
  have hloc := hcont.statLoc_eq (hq.outside _ ⟨cur, hb, rfl⟩) hloc
  rw [hc, lexical_concat] at hloc
  refine ⟨_, n, cur, cs, hb, hc, rfl, Direct.append_iff.2 ⟨?_, ?_⟩, hloc⟩
  · refine direct_names fun y hy => hcont.not_isLink_of_isDir h₀ (hcur.above ?_)
    rwa [List.append_nil] at hy
  · rw [lexical_names, List.append_nil]
    rw [hc] at hd
    exact (Direct.append_iff.1 hd).1

theorem Seen.asks (hs : Seen fs₀ q l n st1 cur cs) : q.Asks (n :: l) :=
  ⟨cur, hs.base, by rw [hs.comps, lexical_concat, hs.dir]; rfl⟩

theorem Seen.objAt (hs : Seen fs₀ q l n st1 cur cs) : fs₀.objAt (n :: l) = some st1.obj :=
  objAt_of_statLoc hs.status

theorem Seen.dirent (hs : Seen fs₀ q l n st1 cur cs) : fs₀.dirent (n :: l) ≠ none := by
  obtain ⟨d, hd, -⟩ := statLoc_eq_ok.1 hs.status
  simp [hd]

theorem Seen.isDir (hs : Seen fs₀ q l n st1 cur cs) : fs₀.IsDir l := isDir_of_child hs.dirent

theorem Seen.isDir_iff (hs : Seen fs₀ q l n st1 cur cs) :
    fs₀.IsDir (n :: l) ↔ st1.isDir = true := isDir_of_statLoc hs.status

/-- The status of a directory above the entry. -/
theorem Seen.stat_above (hs : Seen fs₀ q l n st1 cur cs) (hq : Orderly fs₀ bins q)
    (hcont : Contained fs₀ bins asked fs) (hx : x <:+ l)
    (hst : fs.stat q.process (pathOf x) = .ok st) : fs₀.objAt x = some st.obj := by
  have hplain := plainly_pathOf q.process x
  have hlink : ∀ y, y <:+ x → ¬ IsLink fs.kindAt y := fun y hy hl => by
    obtain ⟨t, ht⟩ := hcont.isLink hl
    have hd := hs.isDir.above (hy.trans hx)
    rw [IsDir, ht] at hd
    cases hd
  have hloc := stat_lexical (hplain.direct hlink) hst
  rw [hplain.spelled] at hloc
  have hout : ¬ InBins bins x := fun hb =>
    hq.outside _ hs.asks (hb.below (hx.trans (List.suffix_cons n l)))
  exact objAt_of_statLoc (hcont.statLoc_eq hout hloc)

section Calls

variable (hh : AnswersFor q.process h) (hq : Orderly fs₀ bins q) (hasked : ∀ x, q.Asks x → asked x)

include hh hq hasked

/-- The rule for a call. -/
theorem obeys_call {α : Type} {Q : α → FileSystem → Prop} {c : Call} {k : c.Answer → Code α}
    (hmay : ∀ fs', Stays bins fs fs' → May fs₀ bins h q fs' c)
    (hok : ∀ fs' a fs'', Stays bins fs fs'' → Contained fs₀ bins asked fs' →
      exec q.process c fs' = (a, fs'') → Obeys fs₀ bins asked h q Q (k a) fs'')
    (hdeny : ∀ fs' e, Stays bins fs fs' → Contained fs₀ bins asked fs' → e.denial = true →
      h c fs' = (.error e, fs') → Obeys fs₀ bins asked h q Q (k (.error e)) fs') :
    Obeys fs₀ bins asked h q Q (.call c k) fs := by
  intro fs' hs hc
  refine ⟨hmay fs' hs, ?_⟩
  rcases hh c fs' with heq | ⟨e, he, h₁, h₂⟩
  · obtain ⟨-, hs'⟩ := (hmay fs' hs).keeps hc hq hasked
    rw [heq] at hs'
    exact hok fs' _ _ (hs.trans hs') hc heq
  · rw [h₁, h₂]
    exact hdeny fs' e hs hc he (Prod.ext h₁ h₂)

/-! ## Cloning -/

/-- The clone has made its directory. -/
def Makes (b r : Loc) (a : Option ℤ) (fs : FileSystem) : Prop := a = some 0 → fs.IsDir (r ++ b)

omit hh hq hasked in
theorem obeys_fails {a : Option ℤ} (ha : a ≠ some 0) :
    Obeys fs₀ bins asked h q (Makes b r) (.ret a) fs := fun _ _ h0 => absurd h0 ha

omit hh hq hasked in
/-- With a directory the one above may be cloned. -/
theorem clonable_tail (hr : r ++ m <:+ e ∧ fs₀.IsDir (r ++ m)) :
    r.tail ++ m <:+ e ∧ fs₀.IsDir (r.tail ++ m) := by
  have hsuf : r.tail ++ m <:+ r ++ m :=
    (List.suffix_append_inj_of_length_eq rfl).2 ⟨List.tail_suffix r, rfl⟩
  exact ⟨hsuf.trans hr.1, hr.2.above hsuf⟩

omit hh hq hasked in
theorem isDir_of_mkdir {mode : Mode} {u : Unit} (hcont : Contained fs₀ bins asked fs)
    (hc : Clones fs₀ bins q s x) (heq : exec q.process (.mkdir s mode) fs = (.ok u, fs')) :
    fs'.IsDir x := by
  change fs.mkdir q.process s mode = (.ok u, fs') at heq
  rcases fs.mkdir_cases q.process s mode with ⟨e, hm⟩ | ⟨l, n, ht, hn, hm⟩
  · rw [hm] at heq
    cases (Prod.ext_iff.1 heq).1
  · obtain rfl := hcont.targetAt_eq hc.inBins hc.plainly ht
    rw [hm] at heq
    obtain rfl := (Prod.ext_iff.1 heq).2
    rw [IsDir, kindAt_addChild (isDir_of_targetAt ht) hn, if_pos rfl, newDir_kind]

section Clone

variable (hb : bins b) (hdir : Plainly q.process dir b) (he : q.Asks e) (hm : Mounts fs₀ e m)
  (hr : r ++ m <:+ e ∧ fs₀.IsDir (r ++ m)) (hs : Spells (isAbs dir) (segments dir) r s)
  (hne : s ≠ [])

include hb hdir he hm hr hs hne

omit hh hq hasked in
theorem clones_of : Clones fs₀ bins q s (r ++ b) :=
  ⟨e, b, m, r, he, hb, hm, hr.1, hr.2, rfl, hdir.spells hs hne⟩

theorem obeys_chown (hd : fs.IsDir (r ++ b)) (uid gid : ℕ) :
    Obeys fs₀ bins asked h q (Makes b r) (.call (.chown s uid gid) fun _ => .ret (some 0)) fs := by
  have hc := clones_of hb hdir he hm hr hs hne
  have hstay : ∀ fs', Stays bins fs fs' → fs'.IsDir (r ++ b) := fun fs' h => h _ hc.inBins hd
  exact obeys_call hh hq hasked (fun fs' h => ⟨_, hc, hstay fs' h⟩)
    (fun _ _ _ h _ _ _ h' _ => hstay _ (h.trans h')) fun _ _ h _ _ _ _ h' _ => hstay _ (h.trans h')

/-- There is a directory already. -/
theorem obeys_chmod (hd : fs.IsDir (r ++ b)) (st : Stat) :
    Obeys fs₀ bins asked h q (Makes b r) (.call (.chmod s st.inode.mode) fun _ =>
      .call (.chown s st.inode.uid st.inode.gid) fun _ => .ret (some 0)) fs := by
  have hc := clones_of hb hdir he hm hr hs hne
  have hchown : ∀ fs', Stays bins fs fs' → Obeys fs₀ bins asked h q (Makes b r)
      (.call (.chown s st.inode.uid st.inode.gid) fun _ => .ret (some 0)) fs' := fun fs' h =>
    obeys_chown hh hq hasked hb hdir he hm hr hs hne (h _ hc.inBins hd) _ _
  exact obeys_call hh hq hasked (fun fs' h => ⟨_, hc, h _ hc.inBins hd⟩)
    (fun _ _ fs'' h _ _ => hchown fs'' h) fun fs' _ h _ _ _ => hchown fs' h

variable (hretry : ∀ fs', Obeys fs₀ bins asked h q (Makes b r) (tryMkdir fuel s donor st) fs')

include hretry

/-- Something has the name already. -/
theorem obeys_exists : Obeys fs₀ bins asked h q (Makes b r)
    (.call (.stat s) fun
      | .error _ => .ret (some (-1))
      | .ok st' =>
        if st'.isDir then
          .call (.chmod s st.inode.mode) fun _ =>
            .call (.chown s st.inode.uid st.inode.gid) fun _ => .ret (some 0)
        else
          .call (.unlink s) fun
            | .ok _ => tryMkdir fuel s donor st
            | .error _ => .ret (some (-1))) fs := by
  have hc := clones_of hb hdir he hm hr hs hne
  refine obeys_call hh hq hasked (fun _ _ => trivial) ?_ fun _ _ _ _ _ _ => obeys_fails (by decide)
  rintro fs' (_ | st') fs'' - hcont heq
  · exact obeys_fails (by decide)
  · obtain ⟨hst, rfl⟩ := Prod.ext_iff.1 heq
    dsimp only
    split_ifs with hd
    · have hloc := hcont.statLoc_of_stat hc.inBins hc.plainly hst
      exact obeys_chmod hh hq hasked hb hdir he hm hr hs hne ((isDir_of_statLoc hloc).2 hd) st
    · refine obeys_call hh hq hasked (fun _ _ => ⟨_, hc⟩) ?_ fun _ _ _ _ _ _ =>
        obeys_fails (by decide)
      rintro fs' (_ | _) fs'' - - -
      · exact obeys_fails (by decide)
      · exact hretry fs''

omit hs hne in
/-- The directory above is missing. -/
theorem obeys_missing (hs' : Spells (isAbs dir) (segments dir) r.tail (dirname s))
    (hne' : dirname s ≠ [])
    (hclone : ∀ fs', Obeys fs₀ bins asked h q (Makes b r.tail)
      (recyclixClonepathRecursive fuel (dirname s) (dirname donor)) fs') :
    Obeys fs₀ bins asked h q (Makes b r)
      (.call (.unlink (dirname s)) fun
        | .ok _ => tryMkdir fuel s donor st
        | .error .ENOENT => do
          let retval ← recyclixClonepathRecursive fuel (dirname s) (dirname donor)
          if retval = some 0 then tryMkdir fuel s donor st else .ret retval
        | .error _ => .ret (some (-1))) fs := by
  have hc := clones_of hb hdir he hm (clonable_tail hr) hs' hne'
  have hrecurse : ∀ fs', Obeys fs₀ bins asked h q (Makes b r) (do
      let retval ← recyclixClonepathRecursive fuel (dirname s) (dirname donor)
      if retval = some 0 then tryMkdir fuel s donor st else .ret retval) fs' := fun fs' =>
    Follows.bind (Stays.refl bins) (hclone fs') fun a fs'' _ => by
      split_ifs with ha
      · exact hretry fs''
      · exact obeys_fails ha
  refine obeys_call hh hq hasked (fun _ _ => ⟨_, hc⟩) ?_ fun fs' e _ _ _ _ => ?_
  · rintro fs' (err | _) fs'' - - -
    · cases err <;> first | exact hrecurse fs'' | exact obeys_fails (by decide)
    · exact hretry fs''
  · cases e <;> first | exact hrecurse fs' | exact obeys_fails (by decide)

end Clone

/-- A clone keeps to the rules. -/
theorem obeys_clone (hb : bins b) (hdir : Plainly q.process dir b) (he : q.Asks e)
    (hm : Mounts fs₀ e m) (fuel : ℕ) :
    (∀ fs r s donor, (r ++ m <:+ e ∧ fs₀.IsDir (r ++ m)) →
      Spells (isAbs dir) (segments dir) r s → s ≠ [] →
      Obeys fs₀ bins asked h q (Makes b r) (recyclixClonepathRecursive fuel s donor) fs) ∧
    ∀ fs r s donor st, (r ++ m <:+ e ∧ fs₀.IsDir (r ++ m)) →
      Spells (isAbs dir) (segments dir) r s → s ≠ [] →
      Obeys fs₀ bins asked h q (Makes b r) (tryMkdir fuel s donor st) fs := by
  induction fuel with
  | zero =>
    refine ⟨fun fs r s donor _ _ _ => ?_, fun fs r s donor st _ _ _ => ?_⟩
    · unfold recyclixClonepathRecursive
      exact obeys_fails (by decide)
    · unfold tryMkdir
      exact obeys_fails (by decide)
  | succ fuel ih =>
    refine ⟨fun fs r s donor hr hs hne => ?_, fun fs r s donor st hr hs hne => ?_⟩
    · unfold recyclixClonepathRecursive
      refine obeys_call hh hq hasked (fun _ _ => trivial) ?_ fun _ _ _ _ _ _ =>
        obeys_fails (by decide)
      rintro fs' (_ | st) fs'' - - -
      · exact obeys_fails (by decide)
      · exact ih.2 fs'' r s donor st hr hs hne
    · have hc := clones_of hb hdir he hm hr hs hne
      have hretry := fun fs' => ih.2 fs' r s donor st hr hs hne
      have hexists := fun fs₁ : FileSystem => @obeys_exists fs₀ fs₁ bins asked q b e m r dir s donor
        fuel st h hh hq hasked hb hdir he hm hr hs hne hretry
      unfold tryMkdir
      refine obeys_call hh hq hasked (fun _ _ => ⟨_, hc⟩) ?_ fun fs' e _ _ he' _ => ?_
      · intro fs' a fs'' _ hcont heq
        cases a with
        | ok u =>
          have hd : fs''.IsDir (r ++ b) := isDir_of_mkdir hcont hc heq
          exact obeys_chown hh hq hasked hb hdir he hm hr hs hne hd _ _
        | error err =>
          cases r with
          | nil =>
            -- the recycler itself is there
            have hlead := hdir.leads (hcont.furnished.bin b hb)
            have hm := mkdir_spells_nil hlead hs hne st.inode.mode
            obtain ⟨hm, -⟩ := Prod.ext_iff.1 (heq.symm.trans hm)
            obtain rfl := Except.error.inj hm
            exact hexists fs''
          | cons n r =>
            have hs' := hs.parent ((isAbs_or_segments hdir.1).imp_right Or.inl)
            have hne' := hs'.ne_nil_of (isAbs_or_segments hdir.1)
            have hclone := fun fs' => ih.1 fs' r _ (dirname donor) (clonable_tail hr) hs' hne'
            have hmissing := fun fs₁ : FileSystem => @obeys_missing fs₀ fs₁ bins asked q b e m
              (n :: r) dir s donor fuel st h hh hq hasked hb hdir he hm hr hretry hs' hne' hclone
            cases err <;> first
              | exact hmissing fs''
              | exact hexists fs''
              | exact obeys_fails (by decide)
      · cases e <;> first | exact absurd he' (by decide) | exact obeys_fails (by decide)

/-! ## Choosing a recycler -/

/-- What is known of the choice: a recycler, or none takes the entry. -/
def Chosen (fs₀ : FileSystem) (bins : Loc → Prop) (h : Handler Call Call.Answer FileSystem)
    (q : Request) : Choice → FileSystem → Prop
  | .realUnlink, _ => ¬ Sure fs₀ bins h q
  | .exit _, _ => True
  | .recycler dir ino, _ => ∃ b, bins b ∧ Plainly q.process dir b ∧
      (isAbs dir = true ∨ ∀ y, q.process.fds 0 = some (.dir y) → y = q.process.cwd) ∧
      (fs₀.objAt b).map Obj.ino = some ino

theorem obeys_nextRecycler (h₀ : Furnished fs₀ bins) {items : List Str}
    (hitems : ∀ item ∈ items, ∀ b, q.env.readItem q.pathname item = .bin b → b.dir ≠ [] →
      ∃ x, bins x ∧ Plainly q.process b.dir x ∧
        (isAbs b.dir = true ∨ ∀ y, q.process.fds 0 = some (.dir y) → y = q.process.cwd))
    (hsure : Sure fs₀ bins h q → ∃ item ∈ items, ∃ b st2, q.env.readItem q.pathname item = .bin b ∧
      b.Eligible fs₀ q.process st1 st2) (fs : FileSystem) :
    Obeys fs₀ bins asked h q (Chosen fs₀ bins h q) (nextRecycler q.env q.pathname st1 items) fs := by
  induction items generalizing fs with
  | nil =>
    refine fun _ _ hs => ?_
    obtain ⟨item, hi, -⟩ := hsure hs
    exact absurd hi List.not_mem_nil
  | cons item items ih =>
    have hrest : (Sure fs₀ bins h q → ∀ b st2, q.env.readItem q.pathname item = .bin b →
        ¬ b.Eligible fs₀ q.process st1 st2) → ∀ fs, Obeys fs₀ bins asked h q (Chosen fs₀ bins h q)
          (nextRecycler q.env q.pathname st1 items) fs := by
      refine fun hne => ih (fun i hi => hitems i (List.mem_cons_of_mem item hi)) fun hs => ?_
      obtain ⟨i, hi, b, st2, hb, hel⟩ := hsure hs
      rcases List.mem_cons.1 hi with rfl | hi
      · exact absurd hel (hne hs b st2 hb)
      · exact ⟨i, hi, b, st2, hb, hel⟩
    cases hr : q.env.readItem q.pathname item with
    | skipped =>
      rw [nextRecycler_skipped items hr]
      exact hrest (fun _ b _ hb => by rw [hr] at hb; cases hb) fs
    | malformed =>
      rw [nextRecycler_malformed items hr]
      exact fun _ _ => trivial
    | bin b =>
      have hplain := hitems item List.mem_cons_self b hr
      -- the directory of an eligible item has that status at any time
      have hseen : ∀ fs' b' st2, Contained fs₀ bins asked fs' →
          q.env.readItem q.pathname item = .bin b' → b'.Eligible fs₀ q.process st1 st2 →
          b = b' ∧ ∃ st, fs'.stat q.process b.dir = .ok st ∧ st.obj = st2.obj := by
        intro fs' b' st2 hcont hb' hel
        obtain rfl : b = b' := Reading.bin.inj (hr.symm.trans hb')
        obtain ⟨x, hx, hpl, -⟩ := hplain (ne_nil_of_stat hel.stat)
        obtain ⟨st, hst, ho⟩ := hcont.stat_bin hx hpl
        have hrefl : Contained fs₀ bins asked fs₀ := .refl h₀
        obtain ⟨st', hst', ho'⟩ := hrefl.stat_bin hx hpl
        obtain rfl := Except.ok.inj (hel.stat.symm.trans hst')
        exact ⟨rfl, st, hst, Option.some.inj (ho.symm.trans ho')⟩
      rw [nextRecycler_bin items hr]
      refine obeys_call hh hq hasked (fun _ _ => trivial) ?_ ?_
      · rintro fs' (e | st2) fs'' - hcont heq
        · refine hrest (fun _ b' st2 hb' hel => ?_) fs''
          obtain ⟨-, st, hst, -⟩ := hseen fs' b' st2 hcont hb' hel
          cases hst.symm.trans (Prod.ext_iff.1 heq).1
        · have hst := (Prod.ext_iff.1 heq).1
          have hgo : (st2.obj.dev = st1.obj.dev → b.lim.admits st1.isReg st1.size = false) →
              Obeys fs₀ bins asked h q (Chosen fs₀ bins h q)
                (nextRecycler q.env q.pathname st1 items) fs'' := by
            refine fun hno => hrest (fun _ b' st2' hb' hel => ?_) fs''
            obtain ⟨rfl, st, hst', ho⟩ := hseen fs' b' st2' hcont hb' hel
            obtain rfl := Except.ok.inj (hst.symm.trans hst')
            have hadm := (b.lim.admits_iff st1).2 ⟨hel.size, hel.notExcluded⟩
            rw [hno (ho ▸ hel.dev)] at hadm
            cases hadm
          dsimp only
          split_ifs with hdev hadm
          · exact hgo fun h => absurd h hdev
          · obtain ⟨x, hx, hpl, hfd⟩ := hplain (ne_nil_of_stat hst)
            obtain ⟨st, hst', ho⟩ := hcont.stat_bin hx hpl
            obtain rfl := Except.ok.inj (hst.symm.trans hst')
            exact fun _ _ => ⟨x, hx, hpl, hfd, by rw [ho]; rfl⟩
          · exact hgo fun _ => by simpa using hadm
      · intro fs' e _ hcont _ hdeny
        refine hrest (fun hs b' st2 hb' hel => ?_) fs'
        obtain ⟨-, st, hst, -⟩ := hseen fs' b' st2 hcont hb' hel
        rw [hs.answers] at hdeny
        cases hst.symm.trans (Prod.ext_iff.1 hdeny).1

/-! ## Locating the entry -/

/-- An absolute text that spells the entry `n` of the directory at `l`. -/
structure EntryText (fs₀ : FileSystem) (l : Loc) (n : Name) (s : Str) : Prop where
  isAbs : isAbs s = true
  comps : ∃ cs, comps s = cs ++ [.name n] ∧ Direct (IsLink fs₀.kindAt) [] cs ∧ lexical [] cs = l

omit hh hq hasked in
theorem Seen.entryText (hs : Seen fs₀ q l n st1 cur cs) :
    EntryText fs₀ l n (pathOf cur ++ '/' :: q.pathname) := by
  have hsp := spells_pathOf cur
  refine ⟨by rw [isAbs_append hsp.isAbs_ne_nil, hsp.isAbs], names cur ++ cs, ?_, hs.direct, ?_⟩
  · have hc := hsp.comps
    rw [List.map_nil, List.nil_append] at hc
    rw [YazzyPreload.comps, segments_append, List.map_append, ← YazzyPreload.comps,
      ← YazzyPreload.comps, hc, hs.comps, List.append_assoc]
  · rw [lexical_append, lexical_names, List.append_nil, hs.dir]

theorem obeys_fullPath (hs : Seen fs₀ q l n st1 cur cs) (fs : FileSystem) :
    Obeys fs₀ bins asked h q (fun a _ => ∀ s retval, a = .ok (s, retval) → EntryText fs₀ l n s)
      (fullPath q.dirfd q.pathname) fs := by
  have hb := hs.base
  rw [base] at hb
  rw [fullPath]
  split_ifs at hb ⊢ with habs hcwd
  · rintro fs' - s retval ⟨⟩
    have hd := hs.direct
    obtain rfl := Except.ok.inj hb
    exact ⟨habs, cs, hs.comps, hd, hs.dir⟩
  · refine obeys_call hh hq hasked (fun _ _ => trivial) ?_ fun _ _ _ _ _ _ => ?_
    · rintro fs₁ (e | atdir) fs₂ - - heq
      · rintro fs' - s retval ⟨⟩
      · rintro fs' - s retval ⟨⟩
        have hcwd := (Prod.ext_iff.1 heq).1
        change fs₁.getcwd q.process = .ok atdir at hcwd
        rw [getcwd] at hcwd
        split_ifs at hcwd
        obtain rfl := Except.ok.inj hcwd
        obtain rfl := Except.ok.inj hb
        exact hs.entryText
    · rintro fs' - s retval ⟨⟩
  · refine obeys_call hh hq hasked (fun _ _ => trivial) ?_ fun _ _ _ _ _ _ => ?_
    · rintro fs₁ (e | atdir) fs₂ - - heq
      · rintro fs' - s retval ⟨⟩
      · rintro fs' - s retval ⟨⟩
        have hfd := (Prod.ext_iff.1 heq).1
        change readlinkFd q.process q.dirfd = .ok atdir at hfd
        rw [readlinkFd] at hfd
        cases hf : q.process.fds q.dirfd with
        | none => rw [hf] at hb; cases hb
        | some d =>
          rw [hf] at hb hfd
          cases d with
          | file o link => cases hb
          | dir l' =>
            obtain rfl := Except.ok.inj hb
            obtain rfl := Except.ok.inj hfd
            exact hs.entryText
    · rintro fs' - s retval ⟨⟩

omit hh hq hasked in
/-- The directory of such a text. -/
theorem EntryText.realpath (ht : EntryText fs₀ l n s) (hcont : Contained fs₀ bins asked fs)
    (hr : fs.realpath q.process (dirname s) = .ok t) : t = pathOf l ∧ basename s = n.1 := by
  obtain ⟨habs, cs, hc, hd, hl⟩ := ht
  obtain ⟨ys, zs, hseg, rfl, hzs⟩ := List.map_eq_append_iff.1 hc
  obtain ⟨c, rfl, hcn⟩ := List.map_eq_singleton_iff.1 hzs
  obtain rfl := Comp.ofStr_eq_name hcn
  obtain ⟨hdir, ha⟩ := segments_dirname hseg (Or.inl habs)
  refine ⟨?_, basename_eq hseg⟩
  rw [FileSystem.realpath] at hr
  cases hlook : fs.lookupAt q.process atFdcwd (dirname s) true with
  | error e => rw [hlook] at hr; cases hr
  | ok y =>
    rw [hlook] at hr
    obtain rfl := Except.ok.inj hr
    have hb : base q.process atFdcwd (dirname s) = .ok [] := by
      rw [base_atFdcwd, start, ha, habs, if_pos rfl]
    have hcomps : YazzyPreload.comps (dirname s) = ys.map Comp.ofStr := by
      rw [YazzyPreload.comps, hdir]
    rw [← hcomps] at hd hl
    rw [lookupAt_lexical hb (hd.mono fun y hy => hcont.isLink hy) hlook, hl]

omit hh hq hasked in
theorem mountPath_eq_slash (h : mountPath l n m = ['/']) : m = [] := by
  rw [mountPath] at h
  split_ifs at h
  · have hseg := (spells_pathOf_name l n).segments
    rw [← entryPath, h] at hseg
    simp [segments_slash_cons] at hseg
  · cases m with
    | nil => rfl
    | cons c m => exact absurd h (pathOf_cons_ne c m)

omit hh hq hasked in
/-- The directory above, as the loop computes it. -/
theorem dirname_mountPath (l m : Loc) (n : Name) :
    (if dirname (mountPath l n m) = ['/', '/'] then ['/'] else dirname (mountPath l n m)) =
      pathOf m.tail := by
  rw [mountPath]
  by_cases hself : m = n :: l
  · rw [if_pos hself, hself, entryPath, dirname_pathOf_name]
    by_cases hl : l = []
    · subst hl
      rfl
    · rw [if_neg hl, if_neg (pathOf_ne_slash_slash l), List.tail_cons]
  · rw [if_neg hself]
    cases m with
    | nil => rfl
    | cons c m => rw [dirname_pathOf, if_neg (pathOf_ne_slash_slash m), List.tail_cons]

/-- What the search ends with. -/
def Finds (fs₀ : FileSystem) (bins : Loc → Prop) (h : Handler Call Call.Answer FileSystem)
    (q : Request) (l : Loc) (n : Name) : Option Found → FileSystem → Prop
  | some .realUnlink, _ => ¬ Sure fs₀ bins h q
  | some (.mountpoint fq mp), _ => fq = entryPath l n ∧
      ∃ m, Mounts fs₀ (n :: l) m ∧ mp = mountPath l n m
  | _, _ => True

theorem obeys_findRoot (hs : Seen fs₀ q l n st1 cur cs) {rino : ℕ}
    (hino : Sure fs₀ bins h q → ∀ y, y <:+ l → (fs₀.objAt y).map Obj.ino ≠ some rino) (fuel : ℕ)
    (hm : m <:+ n :: l) (fs : FileSystem) :
    Obeys fs₀ bins asked h q (Finds fs₀ bins h q l n)
      (findRoot st1 rino (entryPath l n) fuel (mountPath l n m)) fs := by
  induction fuel generalizing m fs with
  | zero => exact fun _ _ => trivial
  | succ fuel ih =>
    have htail : m.tail <:+ l := by
      rcases List.suffix_cons_iff.1 hm with rfl | hm
      · exact List.suffix_rfl
      · exact (List.tail_suffix m).trans hm
    have hne : m.tail ≠ n :: l := fun e => by
      have hlen := htail.length_le
      rw [e, List.length_cons] at hlen
      omega
    rw [findRoot, dirname_mountPath l m n]
    refine obeys_call hh hq hasked (fun _ _ => trivial) ?_ fun _ _ _ _ _ _ _ _ => trivial
    rintro fs₁ (e | st2) fs₂ - hcont heq
    · exact fun _ _ => trivial
    · have ho := hs.stat_above hq hcont htail (Prod.ext_iff.1 heq).1
      dsimp only
      split_ifs with h₁ h₂ h₃
      · exact fun _ _ hsure => hino hsure _ htail (by rw [ho, ← h₁]; rfl)
      · obtain rfl := mountPath_eq_slash h₂.1
        exact fun _ _ => ⟨rfl, [], ⟨hs.dirent, List.nil_suffix, fun h => absurd rfl h⟩, rfl⟩
      · refine fun _ _ => ⟨rfl, m, ⟨hs.dirent, hm, fun _ => ?_⟩, rfl⟩
        rw [ho, hs.objAt]
        exact fun e => h₃ (Option.some.inj e).symm
      · have hpath : pathOf m.tail = mountPath l n m.tail := by rw [mountPath, if_neg hne]
        rw [hpath]
        exact ih (htail.trans (List.suffix_cons n l)) fs₂

theorem obeys_locate (hs : Seen fs₀ q l n st1 cur cs) {rino : ℕ}
    (hino : Sure fs₀ bins h q → ∀ y, y <:+ l → (fs₀.objAt y).map Obj.ino ≠ some rino) (fuel : ℕ)
    (fs : FileSystem) : Obeys fs₀ bins asked h q (Finds fs₀ bins h q l n)
      (locate fuel q.dirfd q.pathname st1 rino) fs := by
  refine Follows.bind (Stays.refl bins) (obeys_fullPath hh hq hasked hs fs) fun a fs₁ ha => ?_
  rcases a with e | ⟨s, retval⟩
  · exact fun _ _ => trivial
  · have htext := ha s retval rfl
    refine obeys_call hh hq hasked (fun _ _ => trivial) ?_ fun _ _ _ _ _ _ _ _ => trivial
    rintro fs₂ (e | ptr) fs₃ - hcont heq
    · exact fun _ _ => trivial
    · obtain ⟨rfl, hbase⟩ := htext.realpath hcont (Prod.ext_iff.1 heq).1
      have hroot := obeys_findRoot hh hq hasked hs hino fuel (List.suffix_refl (n :: l)) fs₃
      rw [mountPath, if_pos rfl] at hroot
      dsimp only
      rw [hbase]
      exact hroot

/-! ## Recycling -/

theorem obeys_realUnlink (fs : FileSystem)
    (hmay : ∀ fs', Stays bins fs fs' → Sure fs₀ bins h q →
      ∃ e b r, KeptAt fs₀ bins q e b r ∧ fs₀.IsDir e ∧ fs'.IsDir (r ++ b)) :
    Obeys fs₀ bins asked h q (fun _ _ => True) (realUnlink q.dirfd q.pathname q.flags) fs :=
  obeys_call hh hq hasked (fun fs' hs => ⟨rfl, rfl, hmay fs' hs⟩)
    (fun _ _ _ _ _ _ _ _ => trivial) fun _ _ _ _ _ _ _ _ => trivial

variable (hs : Seen fs₀ q l n st1 cur cs) (hb : bins b) (hdir : Plainly q.process dir b)
  (hm : Mounts fs₀ (n :: l) m)

include hs hb hdir hm

theorem obeys_recycle_directory (hd : st1.isDir = true) (fuel : ℕ) (fs : FileSystem) :
    Obeys fs₀ bins asked h q (fun _ _ => True)
      (recycle fuel q.dirfd q.pathname q.flags st1 dir (entryPath l n) (mountPath l n m)) fs := by
  obtain ⟨rel, hrel, hspells⟩ := spells_recycledPath hdir.1 hm.above
  have hne : recycledPath dir (entryPath l n) (mountPath l n m) ≠ [] := by simp [recycledPath]
  have hdir₀ : fs₀.IsDir (n :: l) := hs.isDir_iff.2 hd
  have hclone := (obeys_clone hh hq hasked hb hdir hs.asks hm fuel).1 fs rel _ (entryPath l n)
    ⟨hrel ▸ List.suffix_rfl, hrel ▸ hdir₀⟩ hspells hne
  unfold recycle clonePaths
  simp only [hd, if_true]
  refine Follows.bind (Stays.refl bins) hclone fun a fs₁ hmakes => ?_
  rcases a with _ | retval
  · exact fun _ _ => trivial
  · dsimp only
    split_ifs with hret
    · exact fun _ _ => trivial
    · rw [not_not.1 hret] at hmakes
      exact obeys_realUnlink hh hq hasked fs₁ fun fs₂ hs₂ _ =>
        ⟨n :: l, b, rel, ⟨hs.asks, hb, m, hm, hrel⟩, hdir₀, hs₂ _ (.of_bin hb rel) (hmakes rfl)⟩

theorem obeys_recycle_file (hd : st1.isDir = false)
    (hfd : isAbs dir = true ∨ ∀ y, q.process.fds 0 = some (.dir y) → y = q.process.cwd)
    (fuel : ℕ) (fs : FileSystem) : Obeys fs₀ bins asked h q (fun _ _ => True)
      (recycle fuel q.dirfd q.pathname q.flags st1 dir (entryPath l n) (mountPath l n m)) fs := by
  obtain ⟨rel, hrel, hspells⟩ := spells_recycledPath hdir.1 hm.above
  have hnd : ¬ fs₀.IsDir (n :: l) := by simp [hs.isDir_iff, hd]
  cases rel with
  | nil =>
    -- the entry would be a mountpoint
    obtain rfl : n :: l = m := hrel
    exact absurd (hq.unmounted _ hs.asks hs.dirent hnd) (hm.dev (List.cons_ne_nil n l))
  | cons c r =>
    obtain ⟨rfl, rfl⟩ := List.cons.inj hrel
    have hs' := hspells.parent ((isAbs_or_segments hdir.1).imp_right Or.inl)
    have hclone := (obeys_clone hh hq hasked hb hdir hs.asks hm fuel).1 fs r _
      (dirname (entryPath (r ++ m) n)) ⟨List.suffix_cons n _, hs.isDir⟩ hs'
      (hs'.ne_nil_of (isAbs_or_segments hdir.1))
    unfold recycle clonePaths
    simp only [hd, Bool.false_eq_true, if_false]
    refine Follows.bind (Stays.refl bins) hclone fun a fs₁ _ => ?_
    rcases a with _ | retval
    · exact fun _ _ => trivial
    · dsimp only
      split_ifs with hret
      · exact fun _ _ => trivial
      · refine obeys_call hh hq hasked (fun _ _ => ⟨rfl, rfl, ?_, _, b, n :: r,
          ⟨hs.asks, hb, m, hm, rfl⟩, hnd, hdir.spells hspells hspells.ne_nil⟩)
          (fun _ _ _ _ _ _ _ _ => trivial) fun _ _ _ _ _ _ _ _ => trivial
        intro cur hcur
        rw [base, hspells.isAbs] at hcur
        rw [hspells.isAbs, start]
        split_ifs at hcur ⊢ with habs h0
        · exact (Except.ok.inj hcur).symm
        · exact absurd h0 (by decide)
        · cases hf : q.process.fds 0 with
          | none => rw [hf] at hcur; cases hcur
          | some d =>
            rw [hf] at hcur
            cases d with
            | file o link => cases hcur
            | dir y =>
              rw [← Except.ok.inj hcur]
              exact hfd.resolve_left habs y hf

end Calls

/-! ## A whole call -/

/-- The call of `unlinkat` that the request is. -/
def Request.program (q : Request) : Code (Option Exit) :=
  unlinkat q.env q.fuel q.dirfd q.pathname q.flags

theorem obeys_unlinkat (hh : AnswersFor q.process h) (hq : Orderly fs₀ bins q)
    (hasked : ∀ x, q.Asks x → asked x) (h₀ : Furnished fs₀ bins) (fs : FileSystem) :
    Obeys fs₀ bins asked h q (fun _ _ => True) q.program fs := by
  unfold Request.program unlinkat
  cases hr : q.env.recycler with
  | none => exact obeys_realUnlink hh hq hasked fs fun _ _ hsure => absurd hr hsure.recycler
  | some recyclers =>
    refine obeys_call hh hq hasked (fun _ _ => trivial) ?_ fun _ _ _ _ _ _ _ _ => trivial
    rintro fs₁ (e | st1) fs₂ - hcont heq
    · exact fun _ _ => trivial
    · obtain ⟨l, n, cur, cs, hs⟩ := seen_of_fstatat hq h₀ hcont (Prod.ext_iff.1 heq).1
      have hsure : Sure fs₀ bins h q → ∃ item ∈ recyclers.splitOn ':', ∃ b st2,
          q.env.readItem q.pathname item = .bin b ∧ b.Eligible fs₀ q.process st1 st2 := by
        intro hsure
        obtain ⟨b, st2, ⟨recyclers', pre, item, post, hr', hi, -, hb⟩, hel⟩ :=
          hsure.selects _ st1 hs.asks hs.status
        obtain rfl := Option.some.inj (hr.symm.trans hr')
        exact ⟨item, by rw [hi]; simp, b, st2, hb, hel⟩
      refine Follows.bind (Stays.refl bins)
        (obeys_nextRecycler hh hq hasked h₀ (hq.recyclers _ hr) hsure fs₂) fun choice fs₃ hch => ?_
      cases choice with
      | realUnlink =>
        exact obeys_realUnlink hh hq hasked fs₃ fun _ _ hs => absurd hs hch
      | exit e => exact fun _ _ => trivial
      | recycler dir ino =>
        obtain ⟨b, hb, hdir, hfd, hino⟩ := hch
        refine Follows.bind (Stays.refl bins) (obeys_locate hh hq hasked hs (fun hsure y hy => ?_)
          q.fuel fs₃) fun found fs₄ hfound => ?_
        · rw [← hino]
          exact hsure.number _ b y hs.asks hb hy
        rcases found with _ | (e | _ | ⟨fq, mp⟩)
        · exact fun _ _ => trivial
        · exact fun _ _ => trivial
        · exact obeys_realUnlink hh hq hasked fs₄ fun _ _ hs => absurd hs hfound
        · obtain ⟨rfl, m, hm, rfl⟩ := hfound
          cases hd : st1.isDir with
          | true => exact obeys_recycle_directory hh hq hasked hs hb hdir hm hd q.fuel fs₄
          | false => exact obeys_recycle_file hh hq hasked hs hb hdir hm hd hfd q.fuel fs₄

/-! ## All calls -/

variable {ι : Type}

/-- The calls before they begin. -/
def removals (qs : ι → Request) (fs : FileSystem) : Pool ι Call Call.Answer FileSystem (Option Exit) :=
  ⟨fs, fun i => (qs i).program⟩

/-- The place of an entry that one of the requests is to remove. -/
def Asked (qs : ι → Request) (x : Loc) : Prop := ∃ i, (qs i).Asks x

variable [DecidableEq ι]

/-- The calls of several processes, in whatever order they are made and whichever of them are denied,
change nothing outside of the recyclers but that entries go which are asked for. -/
theorem removals_contained (qs : ι → Request) (h : ι → Handler Call Call.Answer FileSystem)
    (hh : ∀ i, AnswersFor (qs i).process (h i)) (h₀ : Furnished fs bins)
    (hq : ∀ i, Orderly fs bins (qs i)) (sched : List ι) :
    Contained fs bins (Asked qs) ((removals qs fs).run h sched).state := by
  have hobeys : ∀ i, Obeys fs bins (Asked qs) (h i) (qs i) (fun _ _ => True) (qs i).program fs :=
    fun i => obeys_unlinkat (hh i) (hq i) (fun x hx => ⟨i, hx⟩) h₀ fs
  have hkeeps : ∀ i fs' c, Contained fs bins (Asked qs) fs' → May fs bins (h i) (qs i) fs' c →
      Contained fs bins (Asked qs) (h i c fs').2 ∧ Stays bins fs' (h i c fs').2 := by
    intro i fs' c hc hmay
    rcases hh i c fs' with heq | ⟨e, -, -, hfs⟩
    · have hexec := hmay.keeps hc (hq i) fun x hx => ⟨i, hx⟩
      rwa [heq] at hexec
    · rw [hfs]
      exact ⟨hc, Stays.refl bins fs'⟩
  exact (Pool.follows_run (Stays.refl bins) (fun _ _ _ => Stays.trans) hkeeps (Contained.refl h₀)
    hobeys sched).1

namespace Sample

def request (s : Str) (flags : Flags) : Request := ⟨process, env, 9, atFdcwd, s, flags⟩

section Request

variable (habs : isAbs s = true) (flags : Flags)

include habs

theorem asks_request : (request s flags).Asks x ↔ x = lexical [] (comps s) := by
  have hb : base process atFdcwd s = .ok [] := by rw [base, habs, if_pos rfl]
  constructor
  · rintro ⟨cur, hb', rfl⟩
    rw [Except.ok.inj (hb'.symm.trans hb)]
    rfl
  · exact fun h => ⟨[], hb, h⟩

theorem orderly_request (hx : lexical [] (comps s) = x) (hname : ∃ cs n, comps s = cs ++ [.name n])
    (hd : Direct (IsLink fs.kindAt) [] (comps s)) (hout : ¬ [bin] <:+ x)
    (hm : (fs.objAt x.tail).map Obj.dev = (fs.objAt x).map Obj.dev) :
    Orderly fs (· = [bin]) (request s flags) := by
  refine ⟨hname, fun cur hb => ?_, ?_, fun y hy _ _ => ?_, fun t ht item hi b hb _ => ?_⟩
  · rw [base, show isAbs (request s flags).pathname = true from habs, if_pos rfl] at hb
    obtain rfl := Except.ok.inj hb
    exact hd
  · rintro y hy ⟨b, rfl, hs⟩
    rw [(asks_request habs flags).1 hy, hx] at hs
    exact hout hs
  · rw [(asks_request habs flags).1 hy, hx]
    exact hm
  · obtain rfl : t = "/bin".toList := (Option.some.inj ht).symm
    rw [show "/bin".toList.splitOn ':' = ["/bin".toList] by decide +kernel] at hi
    obtain rfl := List.mem_singleton.1 hi
    obtain rfl : b = ⟨"/bin".toList, .initial⟩ := (Reading.bin.inj hb).symm
    exact ⟨[bin], rfl, ⟨by decide, [bin], by decide, rfl⟩, Or.inl (by decide)⟩

end Request

def sub : Name := name "sub"

/-- A file and a directory in `/a`. -/
def pairTree : FileSystem := fileTree.addChild [a] sub Sample.dir

/-- Two calls, for the file and for the directory. -/
def requests : Bool → Request
  | true => request "/a/f".toList 0
  | false => request "/a/sub".toList atRemovedir

/-- They take turns. -/
def turns : List Bool := (List.replicate 10 [true, false]).flatten

theorem furnished_pairTree : Furnished pairTree (· = [bin]) := by
  have h : ∀ l ∈ pairTree.locs, [bin] <:+ l → ¬ IsLink pairTree.kindAt l := by decide
  refine ⟨fun b hb => hb ▸ by decide, ?_⟩
  rintro x ⟨b, rfl, hs⟩ ⟨t, ht⟩
  exact h x (pairTree.mem_locs x fun hn => by rw [kindAt, hn] at ht; cases ht) hs ⟨t, ht⟩

theorem orderly_requests (i : Bool) : Orderly pairTree (· = [bin]) (requests i) := by
  cases i
  · exact orderly_request (x := [sub, a]) (by decide) _ (by decide) ⟨[.name a], sub, by decide⟩
      (by decide) (by decide) (by decide)
  · exact orderly_request (x := [f, a]) (by decide) _ (by decide) ⟨[.name a], f, by decide⟩
      (by decide) (by decide) (by decide)

end Sample

theorem removals_contained_pairTree :
    Contained Sample.pairTree (· = [Sample.bin]) (Asked Sample.requests)
      ((removals Sample.requests Sample.pairTree).run (fun _ => exec Sample.process)
        Sample.turns).state :=
  removals_contained Sample.requests (fun _ => exec Sample.process)
    (fun i _ _ => by cases i <;> exact Or.inl rfl) Sample.furnished_pairTree Sample.orderly_requests
    Sample.turns

end YazzyPreload.Recyclix

import YazzyPreload.Access
import YazzyPreload.Recyclix.Metadata

/-!
# Cloning without privileges

Every directory is made with the mode of its donor before the next one is made in it.  A process
that is not the superuser needs write and search permission there, so a donor without them for its
owner stops the clone (`clone_permitted_iff`); the mode of the last donor does not matter.
-/

namespace YazzyPreload.Recyclix

open FileSystem Prog

variable {fs fs' : FileSystem} {p : Process} {b l q w r : Loc} {n n' : Name} {abs : Bool}
  {xs : List Str} {s donor : Str} {fuel : ℕ} {donor_st : Stat} {mode : Mode}

/-! ## Directories of the process -/

/-- The process owns what is at `l`, and the bits for it to write and search are those of `mode`. -/
def OwnedAs (fs : FileSystem) (p : Process) (l : Loc) (mode : Mode) : Prop :=
  ∃ i, inodeAt fs l = some i ∧ p.uid = i.uid ∧ i.mode &&& 0o300 = mode &&& 0o300

theorem inodeAt_eq_some {i : Inode} (h : inodeAt fs l = some i) :
    ∃ d, fs.dirent l = some d ∧ fs.inode d.obj = i := by
  obtain ⟨o, ho, rfl⟩ := Option.map_eq_some_iff.1 h
  obtain ⟨d, hd, rfl⟩ := Option.map_eq_some_iff.1 ho
  exact ⟨d, hd, rfl⟩

theorem inodeAt_of_dirent {d : Dent} (h : fs.dirent l = some d) :
    inodeAt fs l = some (fs.inode d.obj) := by rw [inodeAt, objAt, h]; rfl

theorem OwnedAs.grants_iff (h : OwnedAs fs p l mode) :
    fs.grantsAt p l search = true ∧ fs.grantsAt p l write = true ↔ mode &&& 0o300 = 0o300 := by
  obtain ⟨i, hi, huid, hmode⟩ := h
  obtain ⟨d, hd, rfl⟩ := inodeAt_eq_some hi
  rw [grantsAt, grantsAt, hd, ← hmode]
  exact grants_owner_iff huid

/-- An owner that is not the superuser cannot give the object away. -/
theorem OwnedAs.chown (h : OwnedAs fs p l mode) (s : Str) (uid gid : ℕ) :
    OwnedAs (execAs p (.chown s uid gid) fs).2 p l mode := by
  cases hx : fs.denies p (.chown s uid gid) with
  | some e =>
    rw [execAs_of_denied hx]
    exact h
  | none =>
    rw [execAs_of_permitted hx]
    cases hst : fs.stat p s with
    | error e =>
      rw [stat] at hst
      change OwnedAs (fs.chown p s uid gid).2 p l mode
      rw [FileSystem.chown, hst]
      exact h
    | ok st =>
      have hx' : exec p (.chown s uid gid) fs = _ := chown_of_stat hst uid gid
      rw [hx']
      rw [denies, hst] at hx
      dsimp only at hx
      split_ifs at hx with _ hc
      obtain ⟨i, hi, huid, hmode⟩ := h
      obtain ⟨d, hd, rfl⟩ := inodeAt_eq_some hi
      refine ⟨_, inodeAt_of_dirent hd, ?_⟩
      dsimp only [setOwner]
      rw [inode_adjust]
      split_ifs
      · exact ⟨hc.1.trans hc.2.1.symm, hmode⟩
      · exact ⟨huid, hmode⟩

section AddChild

variable (hl : fs.IsDir l) (hn : fs.dirent (n :: l) = none)

include hl hn

theorem OwnedAs.addChild (h : OwnedAs fs p w mode) (i : Inode) :
    OwnedAs (fs.addChild l n i) p w mode := by
  obtain ⟨j, hj, huid, hmode⟩ := h
  obtain ⟨d, hd, rfl⟩ := inodeAt_eq_some hj
  have hne : w ≠ n :: l := by
    rintro rfl
    rw [hn] at hd
    cases hd
  have hd' : (fs.addChild l n i).dirent w = some d := by rw [dirent_addChild_of_ne hl hn i hne, hd]
  refine ⟨_, inodeAt_of_dirent hd', ?_⟩
  rw [inode_addChild hl hn, if_neg (ne_of_unused (fs.unused_newObj l) hd)]
  exact ⟨huid, hmode⟩

/-- A new directory, without a umask. -/
theorem ownedAs_newDir (humask : p.umask = 0) :
    OwnedAs (fs.addChild l n (fs.newDir p l mode)) p (n :: l) mode := by
  obtain ⟨d, hd, -⟩ := isDir_iff.1 hl
  refine ⟨_, inodeAt_of_dirent (dirent_addChild_self hl hn _), ?_⟩
  rw [inode_addChild hl hn, if_pos rfl, newDir_mode hd, madeMode, humask]
  refine ⟨?_, ?_⟩
  · rw [newDir, hd]
    dsimp only [Option.map_some]
    split_ifs <;> rfl
  · have hmask : (0o1777 : Mode) &&& (~~~0 &&& 0o300) = 0o300 := by decide
    have hsetgid : (0o2000 : Mode) &&& 0o300 = 0 := by decide
    have hzero : ∀ m : Mode, m &&& 0 = 0 := fun _ => BitVec.and_zero
    have hor : ∀ m : Mode, m ||| 0 = m := fun _ => BitVec.or_zero
    rw [BitVec.and_or_distrib_right, BitVec.and_assoc, BitVec.and_assoc, hmask, BitVec.and_assoc,
      hsetgid, hzero, hor]

end AddChild

/-! ## One directory -/

theorem denies_mkdir (hs : Spells abs xs (n :: r) s) (hl : fs.Leads p abs xs b)
    (hd : descend fs.kindAt b r = .ok w) (hn : fs.dirent (n :: w) = none) (mode : Mode) :
    fs.denies p (.mkdir s mode) =
      if fs.Searchable p (fs.targetDirs p s) ∧ fs.grantsAt p w write = true then none
      else some .EACCES := by
  have ht : fs.targetAt p atFdcwd s = .ok (.entry w n) := by rw [targetAt_spells hl hs, hd]; rfl
  rw [denies, ht]
  dsimp only
  by_cases hsearch : fs.Searchable p (fs.targetDirs p s) <;>
    cases hwrite : fs.grantsAt p w write <;> simp [hsearch, hn]

theorem run_tryMkdir_refused (h : fs.denies p (.mkdir s donor_st.inode.mode) = some .EACCES) :
    (tryMkdir (fuel + 1) s donor donor_st).run (execAs p) fs = (some (-1), fs) := by
  rw [tryMkdir, run_call, execAs_of_denied h]
  rfl

theorem run_tryMkdir_permitted (hs : Spells abs xs (n :: r) s) (hl : fs.Leads p abs xs b)
    (hd : descend fs.kindAt b r = .ok w) (hn : fs.dirent (n :: w) = none)
    (h : fs.denies p (.mkdir s donor_st.inode.mode) = none) :
    (tryMkdir (fuel + 1) s donor donor_st).run (execAs p) fs =
      (some 0, (execAs p (.chown s donor_st.inode.uid donor_st.inode.gid)
        (fs.addChild w n (fs.newDir p w donor_st.inode.mode))).2) := by
  have hm : exec p (.mkdir s donor_st.inode.mode) fs =
      (.ok (), fs.addChild w n (fs.newDir p w donor_st.inode.mode)) := by
    simp only [exec, mkdir_spells hl hs, hd, hn, if_true]
  rw [tryMkdir, run_call, execAs_of_permitted h, hm]
  rfl

/-! ## An empty directory -/

/-- A directory of the process that can be reached, with nothing in it. -/
structure EmptyBin (fs : FileSystem) (p : Process) (abs : Bool) (xs : List Str) (b : Loc) :
    Prop where
  leads : fs.Leads p abs xs b
  reach : fs.Searchable p (fs.reachDirs p abs xs)
  owned : OwnedAs fs p b 0o700
  empty : fs.childless b = true

section Empty

variable (hbin : EmptyBin fs p abs xs b)

include hbin

theorem EmptyBin.search : fs.grantsAt p b search = true := (hbin.owned.grants_iff.2 (by decide)).1

theorem EmptyBin.write : fs.grantsAt p b write = true := (hbin.owned.grants_iff.2 (by decide)).2

theorem EmptyBin.dirent (hr : r ≠ []) : fs.dirent (r ++ b) = none :=
  dirent_eq_none_of_childless hbin.empty (List.suffix_append r b) fun h =>
    hr (List.append_left_eq_self.1 h)

/-- No names lead anywhere. -/
theorem EmptyBin.names (hr : r ≠ []) : descend fs.kindAt b r = .error .ENOENT ∧
    walkDirs fs.kindAt maxSymlinks b (names r) = [b] := by
  obtain ⟨t, c, rfl⟩ := (List.eq_nil_or_concat' r).resolve_left hr
  have hc : fs.kindAt (c :: b) = none := kindAt_eq_none_iff.2 (hbin.dirent (List.cons_ne_nil c []))
  have hb := hbin.leads.isDir
  constructor
  · rw [descend_append, descend_name_none hb hc]
    rfl
  · rw [names_append, names_cons, names_nil, List.nil_append, List.singleton_append, walkDirs_cons,
      enterDirs_name hb (by rw [hc]; simp), step_name_none hb hc]
    rfl

theorem EmptyBin.splits (r : Loc) : Splits fs b r b [] r :=
  ⟨(List.append_nil r).symm, descend_nil hbin.leads.isDir, fun _ c _ =>
    blocked_of_none hbin.leads.isDir (hbin.dirent (List.cons_ne_nil c []))⟩

theorem EmptyBin.searchable (hs : Spells abs xs (n :: r) s) :
    fs.Searchable p (fs.targetDirs p s) := by
  have hwalk : ∀ l ∈ walkDirs fs.kindAt maxSymlinks b (YazzyPreload.names r) ++
      (descend fs.kindAt b r).toOption.toList, l = b := by
    intro l hl
    by_cases hr : r = []
    · rw [hr, descend_nil hbin.leads.isDir] at hl
      exact List.mem_singleton.1 hl
    · rw [(hbin.names hr).1, (hbin.names hr).2] at hl
      exact List.mem_singleton.1 hl
  rw [targetDirs_spells hbin.leads hs]
  intro l hl
  rcases List.mem_append.1 hl with hl | hl
  · exact hbin.reach l hl
  · rw [hwalk l hl]
    exact hbin.search

theorem EmptyBin.execAs_mkdir (hs : Spells abs xs (n :: n' :: r) s) (mode : Mode) :
    execAs p (.mkdir s mode) fs = (.error .ENOENT, fs) := by
  have hd := (hbin.names (List.cons_ne_nil n' r)).1
  have ht : fs.targetAt p atFdcwd s = .error .ENOENT := by
    rw [targetAt_spells hbin.leads hs, hd]
    rfl
  have hx : fs.denies p (.mkdir s mode) = none := by rw [denies, if_pos (hbin.searchable hs), ht]
  rw [execAs_of_permitted hx, exec, mkdir_spells hbin.leads hs, hd]

theorem EmptyBin.execAs_unlink (hs : Spells abs xs (n :: r) s) :
    execAs p (.unlink s) fs = (.error .ENOENT, fs) := by
  have hn : fs.dirent (n :: b) = none := hbin.dirent (List.cons_ne_nil n [])
  have ht := targetAt_spells hbin.leads hs
  have hx : fs.denies p (.unlink s) = none := by
    rw [denies, if_pos (hbin.searchable hs), ht]
    by_cases hr : r = []
    · rw [hr, descend_nil hbin.leads.isDir]
      simp [Except.map, hn]
    · rw [(hbin.names hr).1]
      rfl
  rw [execAs_of_permitted hx, exec, unlinkEntry_spells hbin.leads hs]
  by_cases hr : r = []
  · rw [hr, descend_nil hbin.leads.isDir]
    simp only [hn]
  · rw [(hbin.names hr).1]

/-- When the directory above is missing too, the clone turns to that one. -/
theorem EmptyBin.run_tryMkdir (hs : Spells abs xs (n :: n' :: r) s) :
    (tryMkdir (fuel + 1) s donor donor_st).run (execAs p) fs =
      (do let retval ← recyclixClonepathRecursive fuel (dirname s) (dirname donor)
          if retval = some 0 then tryMkdir fuel s donor donor_st else .ret retval :
        Code (Option ℤ)).run (execAs p) fs := by
  have hs' := hs.parent (Or.inr (Or.inr (List.cons_ne_nil n' r)))
  rw [tryMkdir, run_call, hbin.execAs_mkdir hs]
  dsimp only
  rw [run_call, hbin.execAs_unlink hs']

end Empty

/-! ## After a clone -/

section Cloned

variable (hbin : EmptyBin fs p abs xs b) (hr : r ≠ []) (hc : Cloned fs fs' b r)

include hbin hr hc

theorem EmptyBin.grantsAt_cloned {bits : Mode} (h : fs.grantsAt p l bits = true) :
    fs'.grantsAt p l bits = true := by
  have hg := (hbin.splits r).grafted hc
  rw [grantsAt] at h ⊢
  cases hd : fs.dirent l with
  | none => rw [hd] at h; cases h
  | some d =>
    have hd' : fs'.dirent l = some d := by
      rw [hg.dirent, hd]
      rintro t ht - rfl
      rw [hbin.dirent ht] at hd
      cases hd
    rw [hd] at h
    rw [hd']
    dsimp only at h ⊢
    rwa [hg.inode d.obj (fs.ino_lt l d hd) fun e => absurd e hr]

theorem EmptyBin.reach_cloned : fs'.Searchable p (fs'.reachDirs p abs xs) := by
  have hsp := hbin.splits r
  have hspares := (hsp.grafted hc).spares hsp.blocked hbin.leads.isDir
  have hdirs : fs'.reachDirs p abs xs = fs.reachDirs p abs xs :=
    walkDirs_of_spares hspares le_rfl hbin.leads.walk hbin.leads.isDir
  rw [hdirs]
  exact fun l hl => hbin.grantsAt_cloned hr hc (hbin.reach l hl)

end Cloned

/-- The owner bits of the new directories along `r` are those of their donors: the first for the last
name, and so on upwards. -/
def OwnedAlong (fs : FileSystem) (p : Process) (b : Loc) (st : ℕ → Stat) (r : Loc) : Prop :=
  ∀ t c u, r = t ++ c :: u → OwnedAs fs p (c :: u ++ b) (st t.length).inode.mode

/-- Every donor above the last lets its owner search and write. -/
def OpenAbove (st : ℕ → Stat) (k : ℕ) : Prop :=
  ∀ i, 0 < i → i < k → (st i).inode.mode &&& 0o300 = 0o300

/-- The next directory can be made just when the one above it is open. -/
theorem denies_mkdir_cloned {st : ℕ → Stat} (hbin : EmptyBin fs p abs xs b)
    (hc : Cloned fs fs' b (n' :: r)) (hs : Spells abs xs (n :: n' :: r) s)
    (howned : OwnedAlong fs' p b (fun k => st (k + 1)) (n' :: r))
    (hopen : OpenAbove (fun k => st (k + 1)) (n' :: r).length)
    (hn : fs'.dirent (n :: (n' :: r ++ b)) = none) (mode : Mode) :
    fs'.denies p (.mkdir s mode) =
      if (st 1).inode.mode &&& 0o300 = 0o300 then none else some .EACCES := by
  have hne := List.cons_ne_nil n' r
  have hsp := hbin.splits (n' :: r)
  have hl := hbin.leads.keeps hc.keeps
  have hd := hsp.descend_cloned hc
  have hwalk : ∀ l ∈ walkDirs fs'.kindAt maxSymlinks b (names (n' :: r)),
      fs'.grantsAt p l search = true := by
    intro l hmem
    have hg := hsp.grafted hc
    obtain ⟨t, ⟨u, hu⟩, hne', rfl⟩ := (mem_walkDirs_names (hg.isDir_base hbin.leads.isDir)
      fun t ht ht' => hg.isDir_made ht ht').1 hmem
    cases t with
    | nil => exact hbin.grantsAt_cloned hne hc hbin.search
    | cons c t =>
      have hpos : 0 < u.length := List.length_pos_iff.2 fun e => hne' (by rw [← hu, e]; rfl)
      have hlt : u.length < (n' :: r).length := by
        rw [← hu, List.length_append, List.length_cons]
        omega
      exact ((howned u c t hu.symm).grants_iff.2 (hopen u.length hpos hlt)).1
  rw [denies_mkdir hs hl hd hn]
  refine if_congr (Iff.trans ?_ (howned [] n' r rfl).grants_iff) rfl rfl
  refine and_congr_left fun _ => ?_
  rw [targetDirs_spells hl hs, hd]
  constructor
  · exact fun h => h _ (List.mem_append_right _ (List.mem_append_right _ List.mem_cons_self))
  · intro h l hmem
    rcases List.mem_append.1 hmem with hmem | hmem
    · exact hbin.reach_cloned hne hc l hmem
    · rcases List.mem_append.1 hmem with hmem | hmem
      · exact hwalk l hmem
      · rw [List.mem_singleton.1 hmem]
        exact h

theorem openAbove_succ {st : ℕ → Stat} {k : ℕ} : OpenAbove st (k + 2) ↔
    OpenAbove (fun k => st (k + 1)) (k + 1) ∧ (st 1).inode.mode &&& 0o300 = 0o300 := by
  constructor
  · exact fun h => ⟨fun i _ hi => h (i + 1) (by omega) (by omega), h 1 (by omega) (by omega)⟩
  · rintro ⟨h, h1⟩ i hpos hi
    by_cases hi1 : i = 1
    · rw [hi1]
      exact h1
    · obtain ⟨j, rfl⟩ : ∃ j, i = j + 1 := ⟨i - 1, by omega⟩
      exact h j (by omega) (by omega)

/-! ## The clone -/

/-- The donors as the process sees them. -/
def SeenDonors (fs : FileSystem) (p : Process) (donor : Str) (st : ℕ → Stat) : Prop :=
  ∀ k, execAs p (.stat (dirname^[k] donor)) fs = (.ok (st k), fs) ∧ (st k).isDir = true

theorem SeenDonors.donors {st : ℕ → Stat} (h : SeenDonors fs p donor st) : Donors fs p donor st := by
  refine fun k => ⟨?_, (h k).2⟩
  have hk := (h k).1
  rw [execAs] at hk
  cases hx : fs.denies p (.stat (dirname^[k] donor)) with
  | some e => rw [hx] at hk; cases hk
  | none =>
    rw [hx] at hk
    exact (Prod.ext_iff.1 hk).1

theorem SeenDonors.up {st : ℕ → Stat} (h : SeenDonors fs p donor st) :
    SeenDonors fs p (dirname donor) fun k => st (k + 1) := fun k => h (k + 1)

theorem cloned_of_run {st : ℕ → Stat} (hs : Spells abs xs r s) (hne : s ≠ [])
    (hl : fs.Leads p abs xs b) (hdonor : SeenDonors fs p donor st) (hfuel : 3 * r.length + 3 ≤ fuel)
    (h : (recyclixClonepathRecursive fuel s donor).run (execAs p) fs = (some 0, fs')) :
    Cloned fs fs' b r := by
  have hspec := wp_recyclixClonepathRecursive (p := p) Errno.denial_of_permission r fuel fs s donor
    hfuel hs hne hl hdonor.donors.dirPath
  have := hspec.run (sys_execAs p)
  rw [h] at this
  exact this.cloned

/-- A new directory next to those along `r`. -/
theorem OwnedAlong.cons {st : ℕ → Stat} (h : OwnedAlong fs p b (fun k => st (k + 1)) r)
    (humask : p.umask = 0) (hl : fs.IsDir (r ++ b)) (hn : fs.dirent (n :: (r ++ b)) = none)
    (uid gid : ℕ) (s : Str) : OwnedAlong (execAs p (.chown s uid gid)
      (fs.addChild (r ++ b) n (fs.newDir p (r ++ b) (st 0).inode.mode))).2 p b st (n :: r) := by
  intro t c u e
  cases t with
  | nil =>
    obtain ⟨rfl, rfl⟩ := List.cons.inj e
    exact (ownedAs_newDir hl hn humask).chown s uid gid
  | cons c' t =>
    obtain ⟨rfl, hr⟩ : n = c' ∧ r = t ++ c :: u := List.cons.inj e
    exact ((h t c u hr).addChild hl hn _).chown s uid gid

/-- What the process finds after cloning in an empty directory. -/
theorem run_clone_permitted (humask : p.umask = 0) (hbin : EmptyBin fs p abs xs b) (r : Loc) :
    ∀ {fuel : ℕ} {s donor : Str} {st : ℕ → Stat}, 3 * r.length + 3 ≤ fuel → Spells abs xs r s →
      r ≠ [] → SeenDonors fs p donor st →
      ∃ a fs', (recyclixClonepathRecursive fuel s donor).run (execAs p) fs = (a, fs') ∧
        (a = some 0 ↔ OpenAbove st r.length) ∧ (a = some 0 → OwnedAlong fs' p b st r) := by
  induction r with
  | nil => exact fun _ _ hr => absurd rfl hr
  | cons n r ih =>
    intro fuel s donor st hfuel hs _ hdonor
    rw [List.length_cons] at hfuel
    obtain ⟨fuel, rfl⟩ : ∃ f, fuel = f + 4 := ⟨fuel - 4, by omega⟩
    have hb := hbin.leads.isDir
    have hstat : execAs p (.stat donor) fs = (.ok (st 0), fs) := (hdonor 0).1
    rw [recyclixClonepathRecursive, run_call, hstat]
    dsimp only
    cases r with
    | nil =>
      have hn : fs.dirent (n :: b) = none := hbin.dirent (List.cons_ne_nil n [])
      have hx : fs.denies p (.mkdir s (st 0).inode.mode) = none := by
        rw [denies_mkdir hs hbin.leads (descend_nil hb) hn,
          if_pos ⟨hbin.searchable hs, hbin.write⟩]
      refine ⟨some 0, _, run_tryMkdir_permitted hs hbin.leads (descend_nil hb) hn hx,
        iff_of_true rfl fun i hpos hi => absurd hi (by simp; omega), fun _ => ?_⟩
      exact OwnedAlong.cons (r := []) (fun t c u e => by simp at e) humask hb hn _ _ s
    | cons n' r =>
      have hne := List.cons_ne_nil n' r
      have hs' := hs.parent (Or.inr (Or.inr hne))
      have hfuel' : 3 * (n' :: r).length + 3 ≤ fuel + 2 := by omega
      obtain ⟨a, fs₁, hrun, hiff, howned⟩ := ih hfuel' hs' hne hdonor.up
      rw [hbin.run_tryMkdir hs, run_bind, hrun]
      dsimp only
      rw [List.length_cons, List.length_cons, openAbove_succ]
      by_cases ha : a = some 0
      · subst ha
        have hopen := hiff.1 rfl
        have hc := cloned_of_run hs' hs'.ne_nil hbin.leads hdonor.up hfuel' hrun
        have hsp := hbin.splits (n' :: r)
        have hd := hsp.descend_cloned hc
        obtain ⟨w, hw, hn, -⟩ := hc.next (n := n) (hsp.not_descend hne)
        rw [hd] at hw
        cases hw
        have hx := denies_mkdir_cloned hbin hc hs (howned rfl) hopen hn (st 0).inode.mode
        rw [if_pos rfl]
        by_cases hbits : (st 1).inode.mode &&& 0o300 = 0o300
        · rw [if_pos hbits] at hx
          refine ⟨some 0, _, run_tryMkdir_permitted hs (hbin.leads.keeps hc.keeps) hd hn hx,
            iff_of_true rfl ⟨hopen, hbits⟩, fun _ => ?_⟩
          exact (howned rfl).cons humask (descend_eq_ok.1 hd).2 hn _ _ s
        · rw [if_neg hbits] at hx
          exact ⟨some (-1), fs₁, run_tryMkdir_refused hx,
            iff_of_false (by simp) fun h => hbits h.2, fun h => by cases h⟩
      · rw [if_neg ha]
        exact ⟨a, fs₁, rfl, iff_of_false ha fun h => ha (hiff.2 h.1), fun h => absurd h ha⟩

/-! ## The bin itself -/

section Self

variable (hbin : EmptyBin fs p abs xs b) (hs : Spells abs xs [] s) (hne : s ≠ [])

include hbin hs hne

theorem EmptyBin.execAs_mkdir_self (mode : Mode) :
    execAs p (.mkdir s mode) fs = (.error .EEXIST, fs) := by
  have hmk := mkdir_spells_nil hbin.leads hs hne mode
  have hsearch : fs.Searchable p (fs.targetDirs p s) := by
    have hc : comps s = xs.map Comp.ofStr := by rw [hs.comps, names_nil, List.append_nil]
    have hreach := hbin.reach
    rw [reachDirs, ← hc, ← hs.isAbs] at hreach
    rw [targetDirs]
    cases hrev : (comps s).reverse with
    | nil => exact fun l hl => absurd hl List.not_mem_nil
    | cons c init =>
      have hsplit : comps s = init.reverse ++ [c] := by
        rw [← List.reverse_reverse (comps s), hrev, List.reverse_cons]
      rw [hsplit, walkDirs_append] at hreach
      intro l hl
      rcases List.mem_append.1 hl with hl | hl
      · exact hreach l (List.mem_append_left _ hl)
      · refine hreach l (List.mem_append_right _ ?_)
        cases hw : walk fs.kindAt maxSymlinks (start p (isAbs s)) init.reverse with
        | error e => rw [hw] at hl; cases hl
        | ok d =>
          rw [hw] at hl
          dsimp only at hl ⊢
          rw [walkDirs_singleton]
          by_cases hd : fs.kindAt d = some .dir
          · rw [enterDirs_nofollow hd, List.mem_singleton] at hl
            rw [hl]
            exact mem_enterDirs hd _ c
          · rw [enterDirs_of_not_dir hd] at hl
            cases hl
  have hx : fs.denies p (.mkdir s mode) = none := by
    rw [denies, if_pos hsearch]
    rw [FileSystem.mkdir] at hmk
    cases ht : fs.targetAt p atFdcwd s with
    | error e => rfl
    | ok t =>
      rw [ht] at hmk
      cases t with
      | entry l n =>
        dsimp only at hmk ⊢
        by_cases hn : fs.dirent (n :: l) = none
        · rw [if_pos hn] at hmk
          cases hmk
        · exact if_neg fun h => hn h.1
      | _ => rfl
  rw [execAs_of_permitted hx, exec, hmk]

theorem EmptyBin.execAs_stat_self :
    ∃ st, execAs p (.stat s) fs = (.ok st, fs) ∧ st.isDir = true := by
  obtain ⟨st, hst, hloc⟩ := stat_of_descend hbin.leads hs hne (descend_nil hbin.leads.isDir)
  have hsearch : fs.Searchable p (fs.lookupDirs p s) := by
    rw [lookupDirs, lookupComps, hs.comps, names_nil, List.append_nil, hs.isAbs,
      walkDirs_append_of_ok hbin.leads.walk]
    intro l hl
    rcases List.mem_append.1 hl with hl | hl
    · exact hbin.reach l hl
    · split_ifs at hl
      · rw [walkDirs_singleton, enterDirs_here hbin.leads.isDir, List.mem_singleton] at hl
        rw [hl]
        exact hbin.search
      · cases hl
  have hx : fs.denies p (.stat s) = none := by rw [denies, if_pos hsearch]
  exact ⟨st, by rw [execAs_of_permitted hx, exec, hst], (isDir_of_statLoc hloc).1 hbin.leads.isDir⟩

theorem EmptyBin.run_self {st : Stat} (h : execAs p (.stat donor) fs = (.ok st, fs)) :
    ((recyclixClonepathRecursive (fuel + 2) s donor).run (execAs p) fs).1 = some 0 := by
  obtain ⟨st', hst, hdir⟩ := hbin.execAs_stat_self hs hne
  rw [recyclixClonepathRecursive, run_call, h]
  dsimp only
  rw [tryMkdir, run_call, hbin.execAs_mkdir_self hs hne]
  dsimp only
  rw [run_call, hst]
  dsimp only
  rw [if_pos hdir]
  rfl

end Self

/-! ## The result -/

/-- In an empty directory of its own a process makes every path, provided that each donor above the
last one lets its owner write and search. -/
theorem clone_permitted_iff (dir : Str) (humask : p.umask = 0)
    (hbin : EmptyBin fs p (isAbs dir) (segments dir) b)
    (hs : Spells (isAbs dir) (segments dir) r s) (hne : s ≠ [])
    (hdonor : ∀ k, ∃ st, execAs p (.stat (dirname^[k] donor)) fs = (.ok st, fs) ∧ st.isDir = true)
    (hfuel : 3 * r.length + 3 ≤ fuel) :
    ((recyclixClonepathRecursive fuel s donor).run (execAs p) fs).1 = some 0 ↔
      ∀ k, 0 < k → k < r.length → ∀ st, fs.stat p (dirname^[k] donor) = .ok st →
        st.inode.mode &&& 0o300 = 0o300 := by
  choose st hst using hdonor
  by_cases hr : r = []
  · subst hr
    obtain ⟨fuel, rfl⟩ : ∃ f, fuel = f + 2 := ⟨fuel - 2, by omega⟩
    exact iff_of_true (hbin.run_self hs hne (hst 0).1) fun k _ hk => absurd hk (Nat.not_lt_zero k)
  · obtain ⟨a, fs', hrun, hiff, -⟩ := run_clone_permitted humask hbin r hfuel hs hr hst
    rw [hrun]
    refine hiff.trans ⟨fun h k hpos hk st' hst' => ?_, fun h k hpos hk => ?_⟩
    · rw [(SeenDonors.donors hst k).1] at hst'
      cases hst'
      exact h k hpos hk
    · exact h k hpos hk _ (SeenDonors.donors hst k).1

namespace Sample

/-- An ordinary user, in the root directory. -/
def user : Process := ⟨[], fun _ => none, 0, 1000, 1000⟩

/-- The bin `/bin` and the directories `/a/f` are the user's; `/a` has the mode `mode`. -/
def userTree (mode : Mode) : FileSystem :=
  (((FileSystem.bare ⟨1, 2⟩).addChild [] bin ⟨.dir, 0o700, 1000, 1000⟩).addChild [] a
    ⟨.dir, mode, 1000, 1000⟩).addChild [a] f ⟨.dir, 0o755, 1000, 1000⟩

theorem emptyBin_userTree {mode : Mode} (h : mode = 0o555 ∨ mode = 0o755) :
    EmptyBin (userTree mode) user true (segments "/bin".toList) [bin] := by
  rcases h with rfl | rfl <;>
    exact ⟨⟨by decide +kernel, by decide +kernel⟩, by decide +kernel,
      ⟨⟨.dir, 0o700, 1000, 1000⟩, by decide +kernel, rfl, by decide⟩, by decide +kernel⟩

/-- The user can look at every donor. -/
theorem stat_donors {mode : Mode} (h : mode = 0o555 ∨ mode = 0o755) (k : ℕ) :
    ∃ st, execAs user (.stat (dirname^[k] "/a/f".toList)) (userTree mode) = (.ok st, userTree mode) ∧
      st.isDir = true := by
  have hroot : ∀ k, dirname^[k + 2] "/a/f".toList = "/".toList := fun k =>
    Function.iterate_fixed (by decide : dirname "/".toList = "/".toList) k
  rcases h with rfl | rfl <;> match k with
  | 0 => exact ⟨⟨⟨1, 5⟩, ⟨.dir, 0o755, 1000, 1000⟩⟩, Prod.ext (by decide +kernel) rfl, rfl⟩
  | 1 => exact ⟨⟨⟨1, 4⟩, ⟨.dir, _, 1000, 1000⟩⟩, Prod.ext (by decide +kernel) rfl, rfl⟩
  | k + 2 =>
    rw [hroot]
    exact ⟨⟨⟨1, 2⟩, ⟨.dir, 0o755, 0, 0⟩⟩, Prod.ext (by decide +kernel) rfl, rfl⟩

end Sample

/-- The directory `/a` may not be written to, so nothing can be made in its clone. -/
theorem clone_blocked_by_mode :
    EmptyBin (Sample.userTree 0o555) Sample.user true (segments "/bin".toList) [Sample.bin] ∧
    Spells true (segments "/bin".toList) [Sample.f, Sample.a] "/bin/a/f".toList ∧
    (∀ k, ∃ st, execAs Sample.user (.stat (dirname^[k] "/a/f".toList)) (Sample.userTree 0o555) =
      (.ok st, Sample.userTree 0o555) ∧ st.isDir = true) ∧
    ((recyclixClonepathRecursive 9 "/bin/a/f".toList "/a/f".toList).run (execAs Sample.user)
      (Sample.userTree 0o555)).1 = some (-1) :=
  ⟨Sample.emptyBin_userTree (Or.inl rfl), ⟨by decide +kernel, by decide, by decide⟩,
    Sample.stat_donors (Or.inl rfl), by decide +kernel⟩

theorem clone_permitted_iff_userTree :
    ((recyclixClonepathRecursive 9 "/bin/a/f".toList "/a/f".toList).run (execAs Sample.user)
      (Sample.userTree 0o755)).1 = some 0 ↔
    ∀ k, 0 < k → k < [Sample.f, Sample.a].length → ∀ st,
      (Sample.userTree 0o755).stat Sample.user (dirname^[k] "/a/f".toList) = .ok st →
        st.inode.mode &&& 0o300 = 0o300 :=
  clone_permitted_iff "/bin".toList rfl (Sample.emptyBin_userTree (Or.inr rfl))
    ⟨by decide +kernel, by decide, by decide⟩ (by decide) (Sample.stat_donors (Or.inr rfl))
    (by decide)

end YazzyPreload.Recyclix

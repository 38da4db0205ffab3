import Mathlib.Data.Nat.Bitwise
import YazzyPreload.Place
import YazzyPreload.Recyclix.Clone

/-!
# Mode and owner of cloned directories

A directory that is there gets the donor's mode with `chmod`; one that is made gets it with `mkdir`
only, which leaves out the bits of the umask and passes on the set-group-ID bit of the directory
above (`madeMode`).  `Marked` says what the new directories are like, and `clone_copies_iff` when
that is what their donors are like.
-/

namespace YazzyPreload.Recyclix

open FileSystem Prog

variable {fs fs' : FileSystem} {p : Process} {b l q w r r₁ r₂ : Loc} {n n' : Name} {abs : Bool}
  {xs : List Str} {s donor : Str} {fuel : ℕ} {donor_st : Stat}

/-! ## The mode of a new directory -/

/-- The mode `mkdir` gives a directory below one with the mode `parent`. -/
def madeMode (umask parent mode : Mode) : Mode := mode &&& 0o1777 &&& ~~~umask ||| parent &&& 0o2000

theorem and_setgid (m : Mode) : m &&& 0o2000 = 0 ∨ m &&& 0o2000 = 0o2000 := by
  have h : (m &&& 0o2000).toNat = m.toNat &&& 2 ^ 10 := by simp
  rw [Nat.and_two_pow] at h
  cases hb : m.toNat.testBit 10 <;> rw [hb] at h
  · exact Or.inl (BitVec.eq_of_toNat_eq (by simpa using h))
  · exact Or.inr (BitVec.eq_of_toNat_eq (by simpa using h))

/-- The set-group-ID bit goes down all new directories. -/
theorem madeMode_setgid (umask parent mode : Mode) :
    madeMode umask parent mode &&& 0o2000 = parent &&& 0o2000 := by
  ext i hi
  simp only [madeMode, BitVec.getElem_and, BitVec.getElem_or, BitVec.getElem_not]
  have h : ((0o1777 : Mode)[i] && (0o2000 : Mode)[i]) = false := by
    revert i
    decide
  cases h1 : (0o1777 : Mode)[i] <;> cases h2 : (0o2000 : Mode)[i] <;> simp_all

theorem madeMode_madeMode (umask parent mode mode' : Mode) :
    madeMode umask (madeMode umask parent mode') mode = madeMode umask parent mode := by
  rw [madeMode, madeMode_setgid, madeMode]

theorem newDir_mode {d : Dent} (hd : fs.dirent l = some d) (mode : Mode) :
    (fs.newDir p l mode).mode = madeMode p.umask (fs.inode d.obj).mode mode := by
  rw [newDir, hd, madeMode]
  dsimp only [Option.map_some]
  rcases and_setgid (fs.inode d.obj).mode with h | h
  · rw [h, if_neg (not_not.2 rfl)]
    exact BitVec.or_zero.symm
  · rw [h, if_pos (by decide)]

/-- `mkdir` below a directory with the mode `parent` gives exactly this mode. -/
structure Survives (umask parent mode : Mode) : Prop where
  umask : mode &&& umask &&& 0o1777 = 0
  setuid : mode &&& 0o4000 = 0
  setgid : mode &&& 0o2000 = parent &&& 0o2000

/-- Every bit of a mode is in one of three groups. -/
theorem mode_bits (i : ℕ) (hi : i < 12) :
    (0o1777 : Mode)[i] = true ∧ (0o2000 : Mode)[i] = false ∧ (0o4000 : Mode)[i] = false ∨
    (0o1777 : Mode)[i] = false ∧ (0o2000 : Mode)[i] = true ∧ (0o4000 : Mode)[i] = false ∨
    (0o1777 : Mode)[i] = false ∧ (0o2000 : Mode)[i] = false ∧ (0o4000 : Mode)[i] = true := by
  revert i
  decide

theorem getElem_madeMode (umask parent mode : Mode) (i : ℕ) (hi : i < 12) :
    (madeMode umask parent mode)[i] =
      (mode[i] && (0o1777 : Mode)[i] && !umask[i] || parent[i] && (0o2000 : Mode)[i]) := by
  simp only [madeMode, BitVec.getElem_and, BitVec.getElem_or, BitVec.getElem_not]

theorem madeMode_eq_iff {umask parent mode : Mode} :
    madeMode umask parent mode = mode ↔ Survives umask parent mode := by
  have hzero : ∀ (i : ℕ) (hi : i < 12), (0 : Mode)[i] = false := by decide
  constructor
  · intro h
    have hbit := fun (i : ℕ) (hi : i < 12) =>
      (getElem_madeMode umask parent mode i hi).symm.trans (congrArg (fun m : Mode => m[i]) h)
    refine ⟨?_, ?_, ?_⟩ <;> ext i hi <;> have h := hbit i hi <;>
      simp only [BitVec.getElem_and, hzero] <;>
      rcases mode_bits i hi with ⟨h₁, h₂, h₃⟩ | ⟨h₁, h₂, h₃⟩ | ⟨h₁, h₂, h₃⟩ <;>
      rw [h₁, h₂] at h <;> simp only [h₁, h₂, h₃] <;> rw [← h] <;>
      cases mode[i] <;> cases umask[i] <;> cases parent[i] <;> rfl
  · rintro ⟨humask, hsetuid, hsetgid⟩
    ext i hi
    have hu := congrArg (fun m : Mode => m[i]) humask
    have hs := congrArg (fun m : Mode => m[i]) hsetuid
    have hg := congrArg (fun m : Mode => m[i]) hsetgid
    simp only [BitVec.getElem_and, hzero] at hu hs hg
    rw [getElem_madeMode]
    rcases mode_bits i hi with ⟨h₁, h₂, h₃⟩ | ⟨h₁, h₂, h₃⟩ | ⟨h₁, h₂, h₃⟩ <;>
      rw [h₁] at hu ⊢ <;> rw [h₂] at hg ⊢ <;> rw [h₃] at hs <;>
      revert hu hs hg <;> cases mode[i] <;> cases umask[i] <;> cases parent[i] <;> decide

/-! ## The state after one directory -/

/-- With a new directory for the donor. -/
def makeDir (fs : FileSystem) (p : Process) (l : Loc) (n : Name) (st : Stat) : FileSystem :=
  (fs.addChild l n (fs.newDir p l st.inode.mode)).setOwner (fs.newObj l) st.inode.uid st.inode.gid

/-- With the mode and owner of the donor on the object. -/
def dress (fs : FileSystem) (o : Obj) (st : Stat) : FileSystem :=
  (fs.setMode o st.inode.mode).setOwner o st.inode.uid st.inode.gid

theorem run_tryMkdir_makeDir (hs : Spells abs xs (n :: r) s) (hl : fs.Leads p abs xs b)
    (hd : descend fs.kindAt b r = .ok l) (hn : fs.dirent (n :: l) = none) :
    (tryMkdir (fuel + 1) s donor donor_st).run (exec p) fs =
      (some 0, makeDir fs p l n donor_st) := by
  have hst := stat_newDir hs hl hd hn donor_st.inode.mode
  rw [tryMkdir]
  simp only [run_call, exec, mkdir_spells hl hs, hd, hn, if_true,
    chown_of_stat hst donor_st.inode.uid donor_st.inode.gid]
  rfl

/-- A directory that is there already only gets mode and owner of the donor. -/
theorem run_clone_dress {fuel : ℕ} (hfuel : 2 ≤ fuel) (hs : Spells abs xs r s) (hne : s ≠ [])
    (hl : fs.Leads p abs xs b) (hd : descend fs.kindAt b r = .ok w)
    (hdonor : fs.stat p donor = .ok donor_st) : ∃ st, fs.stat p s = .ok st ∧ fs.objAt w = some st.obj ∧
      (recyclixClonepathRecursive fuel s donor).run (exec p) fs =
        (some 0, dress fs st.obj donor_st) := by
  obtain ⟨fuel, rfl⟩ : ∃ f, fuel = f + 2 := ⟨fuel - 2, by omega⟩
  obtain ⟨st, hst, hloc⟩ := stat_of_descend hl hs hne hd
  have hdir := (isDir_of_statLoc hloc).1 (descend_eq_ok.1 hd).2
  refine ⟨st, hst, objAt_of_statLoc hloc, ?_⟩
  have hst' := stat_adjust hst st.obj (fun i => { i with mode := donor_st.inode.mode }) fun _ => rfl
  rw [recyclixClonepathRecursive]
  simp only [run_call, exec, hdonor]
  rw [tryMkdir]
  simp only [run_call, exec, mkdir_of_descend hl hs hne hd, hst, hdir, if_true,
    chmod_of_stat hst donor_st.inode.mode]
  have hc := congrArg Prod.snd (chown_of_stat hst' donor_st.inode.uid donor_st.inode.gid)
  exact Prod.ext rfl hc

/-! ## The way to the first new directory -/

/-- The names `r₁` lead to the directory `q`, and the names `r₂` after them do not lead on. -/
structure Splits (fs : FileSystem) (b r q r₁ r₂ : Loc) : Prop where
  names : r = r₂ ++ r₁
  descend : descend fs.kindAt b r₁ = .ok q
  blocked : ∀ s c, r₂ = s ++ [c] → fs.Blocked q c

theorem Splits.single (hd : YazzyPreload.descend fs.kindAt b r = .ok l) (hbl : fs.Blocked l n) :
    Splits fs b (n :: r) l r [n] := by
  refine ⟨rfl, hd, fun s c e => ?_⟩
  obtain ⟨-, e⟩ := @List.append_inj' _ [] _ _ _ e rfl
  cases e
  exact hbl

theorem Splits.unique {q' r₁' r₂' : Loc} (h : Splits fs b r q r₁ r₂)
    (h' : Splits fs b r q' r₁' r₂') : q = q' ∧ r₁ = r₁' ∧ r₂ = r₂' := by
  have hr : r₂ ++ r₁ = r₂' ++ r₁' := h.names.symm.trans h'.names
  obtain rfl : r₁ = r₁' := blocked_unique hr h.descend h'.descend h.blocked h'.blocked
  have hq := h.descend
  rw [h'.descend] at hq
  cases hq
  exact ⟨rfl, rfl, List.append_cancel_right hr⟩

/-- What has to be made is known before. -/
theorem Splits.grafted (h : Splits fs b r q r₁ r₂) (hc : Cloned fs fs' b r) :
    fs.Grafted fs' q r₂ := by
  obtain ⟨q', r₁', r₂', hr, hq, hv, hg⟩ := hc
  obtain ⟨rfl, rfl, rfl⟩ := h.unique ⟨hr, hq, fun s c e => (hv s c e).blocked⟩
  exact hg

theorem Splits.not_descend (h : Splits fs b r q r₁ r₂) (hr₂ : r₂ ≠ []) (w : Loc) :
    YazzyPreload.descend fs.kindAt b r ≠ .ok w := by
  obtain ⟨t, c, rfl⟩ := (List.eq_nil_or_concat' r₂).resolve_left hr₂
  rw [h.names]
  exact not_descend_of_blocked h.descend (h.blocked t c rfl) w

/-- Where the parts of the path lead when the directories are made. -/
theorem Splits.descend_made (h : Splits fs b r q r₁ r₂) (hc : Cloned fs fs' b r) {t : Loc}
    (ht : t <:+ r₂) : YazzyPreload.descend fs'.kindAt b (t ++ r₁) = .ok (t ++ q) := by
  have hg := h.grafted hc
  rw [descend_append, hc.keeps.descend h.descend]
  exact descend_of_dirs (hg.isDir_base (descend_eq_ok.1 h.descend).2) fun s hs hs' =>
    hg.isDir_made hs (hs'.trans ht)

theorem Splits.descend_cloned (h : Splits fs b r q r₁ r₂) (hc : Cloned fs fs' b r) :
    YazzyPreload.descend fs'.kindAt b r = .ok (r₂ ++ q) := by
  rw [h.names]
  exact h.descend_made hc List.suffix_rfl

/-- The same for the path of a directory above. -/
theorem Splits.drop (h : Splits fs b r q r₁ r₂) {k : ℕ} (hk : k ≤ r₂.length) :
    Splits fs b (r.drop k) q r₁ (r₂.drop k) :=
  ⟨by rw [h.names, List.drop_append_of_le_length hk], h.descend, fun s c e =>
    h.blocked (r₂.take k ++ s) c (by rw [List.append_assoc, ← e, List.take_append_drop])⟩

theorem Splits.tail (h : Splits fs b (n :: r) q r₁ (n :: r₂)) : Splits fs b r q r₁ r₂ :=
  h.drop (k := 1) (Nat.le_add_left 1 _)

/-- Removing what is in the way leaves the way to it. -/
theorem Splits.erase (h : Splits fs b r q r₁ r₂) {c : Name} (hc : [c] <:+ r₂) :
    Splits (fs.erase (c :: q)) b r q r₁ r₂ := by
  obtain ⟨t, rfl⟩ := hc
  have hbl := h.blocked t c rfl
  have hq : fs.IsDir q := (descend_eq_ok.1 h.descend).2
  have hk := keeps_erase hq hbl
  refine ⟨h.names, hk.descend h.descend, fun s c' e => ?_⟩
  obtain ⟨-, e⟩ := List.append_inj' e rfl
  cases e
  refine blocked_of_none (hk.dir hq) ?_
  exact hbl.dirent_erase_self

/-! ## The donors -/

/-- The status of every directory `dirname` makes out of the donor. -/
def Donors (fs : FileSystem) (p : Process) (donor : Str) (st : ℕ → Stat) : Prop :=
  ∀ k, fs.stat p (dirname^[k] donor) = .ok (st k) ∧ (st k).isDir = true

theorem Donors.dirPath {st : ℕ → Stat} (h : Donors fs p donor st) (k : ℕ) :
    fs.DirPath p (dirname^[k] donor) := dirPath_of_stat (h k).1 (h k).2

theorem exists_donors (h : ∀ k, fs.DirPath p (dirname^[k] donor)) : ∃ st, Donors fs p donor st := by
  have hst : ∀ k, ∃ st, fs.stat p (dirname^[k] donor) = .ok st ∧ st.isDir = true := by
    intro k
    obtain ⟨l, hl, hdir⟩ := h k
    obtain ⟨d, hd, hk⟩ := isDir_iff.1 hdir
    refine ⟨⟨d.obj, fs.inode d.obj⟩, ?_, by simpa [Stat.isDir] using hk⟩
    rw [stat, hl]
    exact statLoc_eq_ok.2 ⟨d, hd, rfl⟩
  choose st hst using hst
  exact ⟨st, hst⟩

theorem Donors.up {st : ℕ → Stat} (h : Donors fs p donor st) :
    Donors fs p (dirname donor) fun k => st (k + 1) := fun k => h (k + 1)

/-- Changes elsewhere leave the status of a directory. -/
theorem stat_of_keeps {st : Stat} (hk : Keeps fs.kindAt fs'.kindAt)
    (hdir : ∀ l, fs.IsDir l → fs'.dirent l = fs.dirent l)
    (hi : ∀ l o, fs.IsDir l → fs.objAt l = some o → fs'.inode o = fs.inode o)
    (h : fs.stat p s = .ok st) (hd : st.isDir = true) : fs'.stat p s = .ok st := by
  obtain ⟨l, hl, hldir⟩ := dirPath_of_stat h hd
  rw [stat, hl] at h
  obtain ⟨d, hdl, rfl⟩ := statLoc_eq_ok.1 h
  have hne : s ≠ [] := by
    rintro rfl
    cases hl
  rw [lookupAt_follow hne] at hl
  rw [stat, lookupAt_follow hne, (hk _ _ _ hl hldir).1, Except.bind]
  refine statLoc_eq_ok.2 ⟨d, (hdir l hldir).trans hdl, ?_⟩
  rw [hi l d.obj hldir (by rw [objAt, hdl]; rfl)]

theorem Donors.erase {st : ℕ → Stat} (h : Donors fs p donor st) {c : Name} (hq : fs.IsDir q)
    (hbl : fs.Blocked q c) : Donors (fs.erase (c :: q)) p donor st := by
  refine fun k => ⟨stat_of_keeps (keeps_erase hq hbl) (fun l hl => ?_) (fun l o _ _ => ?_) (h k).1
    (h k).2, (h k).2⟩
  · rw [hbl.dirent_erase, if_neg]
    rintro rfl
    exact hbl.not_isDir hl
  · rw [inode_erase]

/-! ## Successful runs -/

theorem cloned_of_exec (hs : Spells abs xs r s) (hne : s ≠ []) (hl : fs.Leads p abs xs b)
    (hdonor : ∀ k, fs.DirPath p (dirname^[k] donor)) (hfuel : 3 * r.length + 3 ≤ fuel)
    (h : (recyclixClonepathRecursive fuel s donor).run (exec p) fs = (some 0, fs')) :
    Cloned fs fs' b r := by
  have hspec := run_recyclixClonepathRecursive hs hne hl hdonor hfuel
  rw [h] at hspec
  exact hspec.cloned

theorem run_call_of {α : Type} {c : Call} {k : c.Answer → Code α} {a : c.Answer}
    (h : exec p c fs = (a, fs')) : (Prog.call c k).run (exec p) fs = (k a).run (exec p) fs' := by
  rw [run_call, h]

theorem not_failed : ((some (-1) : Option ℤ), fs) ≠ (some 0, fs') := nofun

/-- Where something stands in the way of the last directory, that is removed first. -/
theorem run_tryMkdir_last (hs : Spells abs xs (n :: r) s) (hl : fs.Leads p abs xs b)
    (hd : descend fs.kindAt b r = .ok l) (hbl : fs.Blocked l n)
    (h : (tryMkdir (fuel + 2) s donor donor_st).run (exec p) fs = (some 0, fs')) :
    ∃ fs₀, (fs₀ = fs ∨ fs₀ = fs.erase (n :: l)) ∧ fs₀.IsDir l ∧ fs₀.dirent (n :: l) = none ∧
      fs' = makeDir fs₀ p l n donor_st := by
  have hldir : fs.IsDir l := (descend_eq_ok.1 hd).2
  cases hn : fs.dirent (n :: l) with
  | none =>
    rw [run_tryMkdir_makeDir hs hl hd hn] at h
    exact ⟨fs, Or.inl rfl, hldir, hn, (Prod.ext_iff.1 h).2.symm⟩
  | some d =>
    have hkeep := keeps_erase hldir hbl
    have hn' := hbl.dirent_erase_self
    have hmake : (tryMkdir (fuel + 1) s donor donor_st).run (exec p) (fs.erase (n :: l)) = _ :=
      run_tryMkdir_makeDir hs (hl.keeps hkeep) (hkeep.descend hd) hn'
    have hmk : exec p (.mkdir s donor_st.inode.mode) fs = (.error .EEXIST, fs) := by
      simp only [exec, mkdir_spells hl hs, hd, hn, reduceCtorEq, if_false]
    have hstat : exec p (.stat s) fs = (fs.stat p s, fs) := rfl
    rw [tryMkdir, run_call_of hmk, run_call_of hstat] at h
    cases hst : fs.stat p s with
    | error e =>
      rw [hst] at h
      exact absurd h not_failed
    | ok st =>
      have hnot : ¬ st.isDir = true := by
        intro hdir
        rw [stat_spells hl hs, hd, Except.bind] at hst
        cases hm : step fs.kindAt maxSymlinks l (.name n) with
        | error e => rw [hm] at hst; cases hst
        | ok m =>
          rw [hm] at hst
          exact hbl m (descend_single_eq_ok.2 ⟨hm, (isDir_of_statLoc hst).2 hdir⟩)
      rw [hst] at h
      dsimp only at h
      rw [if_neg hnot] at h
      have hu : exec p (.unlink s) fs =
          if d.mounted then (.error .EBUSY, fs) else (.ok (), fs.erase (n :: l)) :=
        unlinkEntry_blocked hs hl hd hbl hn
      cases hmount : d.mounted with
      | true =>
        rw [hmount, if_pos rfl] at hu
        rw [run_call_of hu] at h
        exact absurd h not_failed
      | false =>
        rw [hmount, if_neg Bool.false_ne_true] at hu
        rw [run_call_of hu] at h
        dsimp only at h
        rw [hmake] at h
        exact ⟨_, Or.inr rfl, hkeep.dir hldir, hn', (Prod.ext_iff.1 h).2.symm⟩

/-- What the recursive call and the retry start from, when the directory above is missing. -/
theorem run_recurse {fs₀ : FileSystem}
    (h : (do let retval ← recyclixClonepathRecursive fuel (dirname s) (dirname donor)
             if retval = some 0 then tryMkdir fuel s donor donor_st else .ret retval :
          Code (Option ℤ)).run (exec p) fs₀ = (some 0, fs')) :
    ∃ fs₁, (recyclixClonepathRecursive fuel (dirname s) (dirname donor)).run (exec p) fs₀ =
        (some 0, fs₁) ∧ (tryMkdir fuel s donor donor_st).run (exec p) fs₁ = (some 0, fs') := by
  rw [run_bind] at h
  generalize hc : (recyclixClonepathRecursive fuel (dirname s) (dirname donor)).run (exec p) fs₀ = c
    at h
  obtain ⟨a, fs₁⟩ := c
  dsimp only at h
  by_cases ha : a = some 0
  · subst ha
    rw [if_pos rfl] at h
    exact ⟨fs₁, rfl, h⟩
  · rw [if_neg ha] at h
    exact absurd (Prod.ext_iff.1 h).1 ha

/-- What follows the answer of `unlink` when the directory above is missing. -/
theorem run_tryMkdir_unlink {e : Errno} {a : Except Errno Unit} {fs₀ : FileSystem}
    (hm : exec p (.mkdir s donor_st.inode.mode) fs = (.error e, fs))
    (he : e = .ENOENT ∨ e = .ENOTDIR) (hu : fs.unlinkEntry p atFdcwd (dirname s) = (a, fs₀)) :
    (tryMkdir (fuel + 1) s donor donor_st).run (exec p) fs =
      match a with
      | .ok _ => (tryMkdir fuel s donor donor_st).run (exec p) fs₀
      | .error .ENOENT =>
        (do let retval ← recyclixClonepathRecursive fuel (dirname s) (dirname donor)
            if retval = some 0 then tryMkdir fuel s donor donor_st else .ret retval :
          Code (Option ℤ)).run (exec p) fs₀
      | .error _ => (some (-1), fs₀) := by
  have hx : exec p (.unlink (dirname s)) fs = (a, fs₀) := hu
  rw [tryMkdir, run_call_of hm]
  rcases he with rfl | rfl
  all_goals
    dsimp only
    rw [run_call_of hx]
    cases a with
    | ok u => rfl
    | error e => cases e <;> rfl

/-- A path whose parent is missing: what blocks the parent may be removed, the parent is cloned and
the last directory made in it. -/
theorem run_tryMkdir_missing (hs : Spells abs xs (n :: n' :: r) s) (hl : fs.Leads p abs xs b)
    (hne : ∀ w, descend fs.kindAt b (n' :: r) ≠ .ok w)
    (h : (tryMkdir (fuel + 2) s donor donor_st).run (exec p) fs = (some 0, fs')) :
    ∃ fs₀ fs₁ fuel', fuel ≤ fuel' ∧
      (fs₀ = fs ∨ ∃ l, descend fs.kindAt b r = .ok l ∧ fs.Blocked l n' ∧ fs₀ = fs.erase (n' :: l)) ∧
      (recyclixClonepathRecursive fuel' (dirname s) (dirname donor)).run (exec p) fs₀ =
        (some 0, fs₁) ∧
      (tryMkdir fuel' s donor donor_st).run (exec p) fs₁ = (some 0, fs') := by
  have hs' := hs.parent (Or.inr (Or.inr (List.cons_ne_nil n' r)))
  obtain ⟨e, he⟩ : ∃ e, descend fs.kindAt b (n' :: r) = .error e := by
    cases hd : descend fs.kindAt b (n' :: r) with
    | error e => exact ⟨e, rfl⟩
    | ok w => exact absurd hd (hne w)
  have hmk : exec p (.mkdir s donor_st.inode.mode) fs = (.error e, fs) := by
    rw [exec, mkdir_spells hl hs, he]
  have hu := unlinkEntry_spells hl hs'
  by_cases hp : e = .ENOENT ∨ e = .ENOTDIR
  · cases hr : descend fs.kindAt b r with
    | error e' =>
      rw [hr] at hu
      rw [run_tryMkdir_unlink hmk hp hu] at h
      cases e' with
      | ENOENT =>
        obtain ⟨fs₁, hc, ht⟩ := run_recurse h
        exact ⟨fs, fs₁, fuel + 1, Nat.le_succ fuel, Or.inl rfl, hc, ht⟩
      | _ => exact absurd h not_failed
    | ok l =>
      rw [hr] at hu
      have hldir : fs.IsDir l := (descend_eq_ok.1 hr).2
      have hbl : fs.Blocked l n' := fun m hm => hne m (by rw [descend_cons, hr]; exact hm)
      have hkeep := keeps_erase hldir hbl
      cases hn : fs.dirent (n' :: l) with
      | none =>
        simp only [hn] at hu
        rw [run_tryMkdir_unlink hmk hp hu] at h
        obtain ⟨fs₁, hc, ht⟩ := run_recurse h
        exact ⟨fs, fs₁, fuel + 1, Nat.le_succ fuel, Or.inl rfl, hc, ht⟩
      | some d =>
        simp only [hn, if_neg (hbl.kind_ne hn)] at hu
        cases hmount : d.mounted with
        | true =>
          rw [hmount, if_pos rfl] at hu
          rw [run_tryMkdir_unlink hmk hp hu] at h
          exact absurd h not_failed
        | false =>
          rw [hmount, if_neg Bool.false_ne_true] at hu
          rw [run_tryMkdir_unlink hmk hp hu] at h
          -- what was in the way is gone, so that the next `mkdir` fails with `ENOENT`
          have hn' := hbl.dirent_erase_self
          have hr' := hkeep.descend hr
          have hmk' : exec p (.mkdir s donor_st.inode.mode) (fs.erase (n' :: l)) =
              (.error .ENOENT, fs.erase (n' :: l)) := by
            rw [exec, mkdir_spells (hl.keeps hkeep) hs, descend_cons, hr', Except.bind,
              descend_name_none (hkeep.dir hldir) (kindAt_eq_none_iff.2 hn')]
          have hu' := unlinkEntry_spells (hl.keeps hkeep) hs'
          rw [hr'] at hu'
          simp only [hn'] at hu'
          dsimp only at h
          rw [run_tryMkdir_unlink hmk' (Or.inl rfl) hu'] at h
          obtain ⟨fs₁, hc, ht⟩ := run_recurse h
          exact ⟨_, fs₁, fuel, Nat.le_refl fuel, Or.inr ⟨l, rfl, hbl, rfl⟩, hc, ht⟩
  · exfalso
    have hexist : e ≠ .EEXIST := by
      rintro rfl
      rcases walk_error he with h | h | h <;> cases h
    rw [tryMkdir, run_call_of hmk] at h
    cases e <;>
      first | exact absurd h not_failed | exact absurd rfl hexist | exact absurd (by simp) hp

/-! ## The new directories -/

/-- The inode of the object at a place. -/
def inodeAt (fs : FileSystem) (l : Loc) : Option Inode := (fs.objAt l).map fs.inode

/-- What a directory made for the donor is like, below directories with the mode `parent`. -/
structure Inherits (umask parent : Mode) (st : Stat) (i : Inode) : Prop where
  mode : i.mode = madeMode umask parent st.inode.mode
  uid : i.uid = st.inode.uid
  gid : i.gid = st.inode.gid

/-- The directories along the names `r₂` under `q` are like those made for the donors: the first donor
for the last name, and so on upwards. -/
def Marked (umask parent : Mode) (fs : FileSystem) (q : Loc) (st : ℕ → Stat) (r₂ : Loc) : Prop :=
  ∀ t c s, r₂ = t ++ c :: s →
    ∃ i, inodeAt fs (c :: s ++ q) = some i ∧ Inherits umask parent (st t.length) i

section Make

variable (hl : fs.IsDir l) (hn : fs.dirent (n :: l) = none)

include hl hn

theorem inodeAt_makeDir_self {i : Inode} (hi : inodeAt fs l = some i) (st : Stat) :
    ∃ i', inodeAt (makeDir fs p l n st) (n :: l) = some i' ∧ Inherits p.umask i.mode st i' := by
  obtain ⟨o, ho, rfl⟩ := Option.map_eq_some_iff.1 hi
  obtain ⟨d, hd, rfl⟩ := Option.map_eq_some_iff.1 ho
  have hobj : (makeDir fs p l n st).objAt (n :: l) = some (fs.newObj l) := by
    rw [objAt, makeDir, setOwner, dirent_adjust, dirent_addChild_self hl hn]
    rfl
  refine ⟨_, by rw [inodeAt, hobj, Option.map_some], ?_, ?_, ?_⟩ <;>
    rw [makeDir, setOwner, inode_adjust, if_pos rfl, inode_addChild hl hn, if_pos rfl]
  exact newDir_mode hd st.inode.mode

theorem inodeAt_makeDir_of_ne {l' : Loc} (hne : l' ≠ n :: l) (st : Stat) :
    inodeAt (makeDir fs p l n st) l' = inodeAt fs l' := by
  have hobj : (makeDir fs p l n st).objAt l' = fs.objAt l' := by
    rw [objAt, makeDir, setOwner, dirent_adjust, dirent_addChild_of_ne hl hn _ hne, objAt]
  rw [inodeAt, inodeAt, hobj]
  cases ho : fs.objAt l' with
  | none => rfl
  | some o =>
    obtain ⟨d, hd, rfl⟩ := Option.map_eq_some_iff.1 ho
    have hnew := ne_of_unused (fs.unused_newObj l) hd
    rw [Option.map_some, Option.map_some, makeDir, setOwner, inode_adjust, if_neg hnew,
      inode_addChild hl hn, if_neg hnew]

end Make

theorem inodeAt_erase (hl : fs.IsDir l) (hbl : fs.Blocked q n) :
    inodeAt (fs.erase (n :: q)) l = inodeAt fs l := by
  have hne : l ≠ n :: q := by
    rintro rfl
    exact hbl.not_isDir hl
  rw [inodeAt, inodeAt, inode_erase, objAt, hbl.dirent_erase, if_neg hne, objAt]

theorem Marked.single (hq : fs.IsDir q) (hn : fs.dirent (n :: q) = none) {i : Inode}
    (hi : inodeAt fs q = some i) (st : ℕ → Stat) :
    Marked p.umask i.mode (makeDir fs p q n (st 0)) q st [n] := by
  intro t c s e
  obtain ⟨rfl, rfl, rfl⟩ : t = [] ∧ c = n ∧ s = [] := by
    cases t with
    | nil =>
      cases e
      exact ⟨rfl, rfl, rfl⟩
    | cons c' t => simp at e
  exact inodeAt_makeDir_self hq hn hi (st 0)

/-- One more directory, below those made before. -/
theorem Marked.cons {parent : Mode} {st : ℕ → Stat}
    (h : Marked p.umask parent fs q (fun k => st (k + 1)) r₂) (hr₂ : r₂ ≠ [])
    (hw : fs.IsDir (r₂ ++ q)) (hn : fs.dirent (n :: (r₂ ++ q)) = none) :
    Marked p.umask parent (makeDir fs p (r₂ ++ q) n (st 0)) q st (n :: r₂) := by
  intro t c s e
  cases t with
  | nil =>
    obtain ⟨rfl, rfl⟩ := List.cons.inj e
    cases hs : r₂ with
    | nil => exact absurd hs hr₂
    | cons c' s' =>
      obtain ⟨i, hi, htake⟩ := h [] c' s' hs
      rw [← hs] at hi ⊢
      obtain ⟨i', hi', hmode, huid, hgid⟩ := inodeAt_makeDir_self (p := p) hw hn hi (st 0)
      exact ⟨i', hi', by rw [hmode, htake.mode, madeMode_madeMode]; rfl, huid, hgid⟩
  | cons c' t =>
    obtain ⟨rfl, hr⟩ : n = c' ∧ r₂ = t ++ c :: s := List.cons.inj e
    obtain ⟨i, hi, htake⟩ := h t c s hr
    refine ⟨i, (inodeAt_makeDir_of_ne hw hn ?_ _).trans hi, htake⟩
    intro e'
    have hlen := congrArg List.length hr
    have hlen' := congrArg List.length e'
    simp only [List.length_append, List.length_cons] at hlen hlen'
    omega

/-- The directories a successful run makes. -/
theorem marked_of_run (r : Loc) : ∀ {fuel : ℕ} {fs fs' : FileSystem} {s donor : Str} {st : ℕ → Stat}
    {q r₁ r₂ : Loc} {i : Inode}, 3 * r.length + 3 ≤ fuel → Spells abs xs r s → s ≠ [] →
    fs.Leads p abs xs b → Donors fs p donor st → Splits fs b r q r₁ r₂ → r₂ ≠ [] →
    inodeAt fs q = some i →
    (recyclixClonepathRecursive fuel s donor).run (exec p) fs = (some 0, fs') →
    Marked p.umask i.mode fs' q st r₂ := by
  induction r with
  | nil =>
    intro fuel fs fs' s donor st q r₁ r₂ i _ _ _ _ _ hsp hr₂
    exact absurd (List.append_eq_nil_iff.1 hsp.names.symm).1 hr₂
  | cons n r ih =>
    intro fuel fs fs' s donor st q r₁ r₂ i hfuel hs hne hl hdonor hsp hr₂ hi h
    rw [List.length_cons] at hfuel
    obtain ⟨fuel, rfl⟩ : ∃ f, fuel = f + 3 := ⟨fuel - 3, by omega⟩
    have hstat : exec p (.stat donor) fs = (.ok (st 0), fs) := congrArg (·, fs) (hdonor 0).1
    rw [recyclixClonepathRecursive, run_call_of hstat] at h
    dsimp only at h
    have hq : fs.IsDir q := (descend_eq_ok.1 hsp.descend).2
    cases r₂ with
    | nil => exact absurd rfl hr₂
    | cons c r₂ =>
      have hnames := hsp.names
      rw [List.cons_append] at hnames
      obtain ⟨rfl, rfl⟩ := List.cons.inj hnames
      by_cases hlast : r₂ = []
      · -- only the last directory is missing
        subst hlast
        have hbl := hsp.blocked [] n rfl
        obtain ⟨fs₀, hfs₀, hq₀, hn, rfl⟩ := run_tryMkdir_last hs hl hsp.descend hbl h
        refine Marked.single hq₀ hn ?_ st
        rcases hfs₀ with rfl | rfl
        · exact hi
        · exact (inodeAt_erase hq hbl).trans hi
      · -- the directories above are cloned first
        obtain ⟨n', r₂, rfl⟩ := List.exists_cons_of_ne_nil hlast
        have hsp' := hsp.tail
        have hs' := hs.parent (Or.inr (Or.inr (List.cons_ne_nil n' (r₂ ++ r₁))))
        obtain ⟨fs₀, fs₁, fuel', hle, hfs₀, hclone, hlast⟩ :=
          run_tryMkdir_missing hs hl (hsp'.not_descend (List.cons_ne_nil n' r₂)) h
        obtain ⟨hl₀, hdonor₀, hsp₀, hi₀⟩ : fs₀.Leads p abs xs b ∧ Donors fs₀ p donor st ∧
            Splits fs₀ b (n' :: r₂ ++ r₁) q r₁ (n' :: r₂) ∧ inodeAt fs₀ q = some i := by
          rcases hfs₀ with rfl | ⟨l, hd, hbl, rfl⟩
          · exact ⟨hl, hdonor, hsp', hi⟩
          · obtain ⟨rfl, -, hr⟩ := (Splits.single hd hbl).unique hsp'
            have hk := keeps_erase hq hbl
            exact ⟨hl.keeps hk, hdonor.erase hq hbl, hsp'.erase (hr ▸ List.suffix_rfl),
              (inodeAt_erase hq hbl).trans hi⟩
        have hm := ih (by omega) hs' hs'.ne_nil hl₀ hdonor₀.up hsp₀ (List.cons_ne_nil n' r₂) hi₀ hclone
        have hc := cloned_of_exec hs' hs'.ne_nil hl₀ hdonor₀.up.dirPath (by omega) hclone
        obtain ⟨w, hw, hn, -⟩ := hc.next (n := n) (hsp₀.not_descend (List.cons_ne_nil n' r₂))
        have hw' := hsp₀.descend_cloned hc
        rw [hw] at hw'
        cases hw'
        obtain ⟨fuel', rfl⟩ : ∃ f, fuel' = f + 1 := ⟨fuel' - 1, by omega⟩
        rw [run_tryMkdir_makeDir hs (hl₀.keeps hc.keeps) hw hn] at hlast
        cases hlast
        exact hm.cons (List.cons_ne_nil n' r₂) (descend_eq_ok.1 hw).2 hn

/-! ## The result -/

/-- Both pathnames lead to objects with the same mode and owner. -/
def SameMeta (fs : FileSystem) (p : Process) (s t : Str) : Prop :=
  ∃ st st', fs.stat p s = .ok st ∧ fs.stat p t = .ok st' ∧ st.inode.mode = st'.inode.mode ∧
    st.inode.uid = st'.inode.uid ∧ st.inode.gid = st'.inode.gid

/-- The directory the pathname `s` spells, and every directory above it that is new in `fs'`, is like
its donor. -/
def Copied (fs fs' : FileSystem) (p : Process) (r : Loc) (s donor : Str) : Prop :=
  SameMeta fs' p s donor ∧ ∀ k < r.length, ¬ fs.DirPath p (dirname^[k] s) →
    SameMeta fs' p (dirname^[k] s) (dirname^[k] donor)

theorem spells_iterate (hs : Spells abs xs r s) :
    ∀ k < r.length, Spells abs xs (r.drop k) (dirname^[k] s) := by
  induction r generalizing s with
  | nil => exact fun k hk => absurd hk (Nat.not_lt_zero k)
  | cons n r ih =>
    intro k hk
    cases k with
    | zero => exact hs
    | succ k =>
      have hk : k < r.length := Nat.lt_of_succ_lt_succ hk
      exact ih (hs.parent (Or.inr (Or.inr (List.ne_nil_of_length_pos (by omega))))) k hk

/-- The new directories are those along `r₂`. -/
theorem not_dirPath_iff (hs : Spells abs xs r s) (hl : fs.Leads p abs xs b)
    (hsp : Splits fs b r q r₁ r₂) {k : ℕ} (hk : k < r.length) :
    ¬ fs.DirPath p (dirname^[k] s) ↔ k < r₂.length := by
  have hsk := spells_iterate hs k hk
  obtain ⟨n, t, hr⟩ := List.exists_cons_of_length_pos (List.length_drop ▸ Nat.sub_pos_of_lt hk)
  rw [hr] at hsk
  rw [not_iff_comm, not_lt]
  constructor
  · intro hle
    have hdrop : n :: t = r₁.drop (k - r₂.length) := by
      rw [← hr, hsp.names, List.drop_append, List.drop_eq_nil_of_le hle, List.nil_append]
    obtain ⟨w, hw, -⟩ := descend_ok_of_append (r := r₁.take (k - r₂.length))
      (by rw [List.take_append_drop]; exact hsp.descend)
    exact dirPath_of_descend hl hsk hsk.ne_nil (hdrop ▸ hw)
  · intro hdir
    by_contra hlt
    obtain ⟨w, hw⟩ := descend_of_dirPath hl hsk hdir
    have hlt : k < r₂.length := Nat.lt_of_not_le hlt
    rw [← hr] at hw
    exact (hsp.drop hlt.le).not_descend
      (List.ne_nil_of_length_pos (by rw [List.length_drop]; omega)) w hw

/-- The donors are as they were. -/
theorem Donors.cloned {st : ℕ → Stat} (h : Donors fs p donor st) (hsp : Splits fs b r q r₁ r₂)
    (hr₂ : r₂ ≠ []) (hc : Cloned fs fs' b r) : Donors fs' p donor st := by
  have hg := hsp.grafted hc
  refine fun k => ⟨stat_of_keeps hc.keeps (fun l hl => hg.dirent_of_isDir hsp.blocked hl)
    (fun l o _ ho => ?_) (h k).1 (h k).2, (h k).2⟩
  obtain ⟨d, hd, rfl⟩ := Option.map_eq_some_iff.1 ho
  exact hg.inode _ (fs.ino_lt l d hd) fun e => absurd e hr₂

/-- The status of the new directories. -/
theorem stat_marked {parent : Mode} {st : ℕ → Stat} (hs : Spells abs xs r s)
    (hl : fs.Leads p abs xs b) (hsp : Splits fs b r q r₁ r₂) (hc : Cloned fs fs' b r)
    (hm : Marked p.umask parent fs' q st r₂) {k : ℕ} (hk : k < r₂.length) :
    ∃ st', fs'.stat p (dirname^[k] s) = .ok st' ∧ Inherits p.umask parent (st k) st'.inode := by
  have hlen : k < r.length := by
    rw [hsp.names, List.length_append]
    omega
  have hd := hsp.descend_made hc (List.drop_suffix k r₂)
  rw [← (hsp.drop hk.le).names] at hd
  obtain ⟨c, t, ht⟩ := List.exists_cons_of_length_pos
    (List.length_drop ▸ Nat.sub_pos_of_lt hk : 0 < (r₂.drop k).length)
  have hsk := spells_iterate hs k hlen
  have hne : dirname^[k] s ≠ [] := by
    rw [(hsp.drop hk.le).names, ht] at hsk
    exact hsk.ne_nil
  obtain ⟨st', hst, hloc⟩ := stat_of_descend (hl.keeps hc.keeps) hsk hne hd
  refine ⟨st', hst, ?_⟩
  obtain ⟨i, hi, htake⟩ := hm (r₂.take k) c t (by rw [← ht, List.take_append_drop])
  obtain ⟨d, hdl, rfl⟩ := statLoc_eq_ok.1 hloc
  rw [← ht, inodeAt, objAt, hdl] at hi
  obtain rfl : fs'.inode d.obj = i := Option.some_inj.1 hi
  rwa [List.length_take_of_le hk.le] at htake

theorem stat_dress {st st' : Stat} (h : fs.stat p s = .ok st') (o : Obj) :
    (dress fs o st).stat p s = .ok ⟨st'.obj, (dress fs o st).inode st'.obj⟩ :=
  stat_adjust (stat_adjust h o (fun i => { i with mode := st.inode.mode }) fun _ => rfl) o
    (fun i => { i with uid := st.inode.uid, gid := st.inode.gid }) fun _ => rfl

theorem inode_dress (o o' : Obj) (st : Stat) : (dress fs o st).inode o' =
    if o' = o then ⟨(fs.inode o).kind, st.inode.mode, st.inode.uid, st.inode.gid⟩
    else fs.inode o' := by
  rw [dress, setOwner, inode_adjust, setMode, inode_adjust]
  split_ifs with h
  · rw [h]
  · rfl

/-- When nothing has to be made the directory has what its donor has. -/
theorem sameMeta_dress {st st' : Stat} (hs : fs.stat p s = .ok st')
    (hd : fs.stat p donor = .ok st) : SameMeta (dress fs st'.obj st) p s donor := by
  refine ⟨_, _, stat_dress hs _, stat_dress hd _, ?_⟩
  rw [inode_dress, inode_dress, if_pos rfl]
  split_ifs
  · exact ⟨rfl, rfl, rfl⟩
  · rw [inode_of_stat hd]
    exact ⟨rfl, rfl, rfl⟩

/-- A new directory and its donor. -/
theorem sameMeta_iff {umask parent : Mode} {st st' : Stat} {t : Str} (hs : fs.stat p s = .ok st')
    (ht : fs.stat p t = .ok st) (htake : Inherits umask parent st st'.inode) :
    SameMeta fs p s t ↔ Survives umask parent st.inode.mode := by
  rw [← madeMode_eq_iff, ← htake.mode]
  constructor
  · rintro ⟨st₁, st₂, h₁, h₂, hmode, -⟩
    rw [hs] at h₁
    rw [ht] at h₂
    cases h₁
    cases h₂
    exact hmode
  · exact fun h => ⟨st', st, hs, ht, h, htake.uid, htake.gid⟩

/-- `recyclix_clonepath_recursive` gives the directories mode and owner of their donors, except where
`mkdir` cannot give that mode to a new directory. -/
theorem clone_copies_iff (dir : Str) (hb : fs.Leads p (isAbs dir) (segments dir) b)
    (hs : Spells (isAbs dir) (segments dir) r s) (hne : s ≠ [])
    (hdonor : ∀ k, fs.DirPath p (dirname^[k] donor)) (hfuel : 3 * r.length + 3 ≤ fuel)
    (h : (recyclixClonepathRecursive fuel s donor).run (exec p) fs = (some 0, fs')) :
    Copied fs fs' p r s donor ↔
      ∀ q r₁ r₂ i, Splits fs b r q r₁ r₂ → inodeAt fs q = some i → ∀ k < r₂.length,
        ∀ st, fs.stat p (dirname^[k] donor) = .ok st → Survives p.umask i.mode st.inode.mode := by
  obtain ⟨st, hst⟩ := exists_donors hdonor
  have hc := cloned_of_exec hs hne hb hdonor hfuel h
  obtain ⟨q, r₁, r₂, hr, hq, hv, -⟩ := id hc
  have hsp : Splits fs b r q r₁ r₂ := ⟨hr, hq, fun t c e => (hv t c e).blocked⟩
  have hle : r₂.length ≤ r.length := by
    rw [hr, List.length_append]
    omega
  by_cases hr₂ : r₂ = []
  · -- the directory is there, and so are all above it
    subst hr₂
    refine iff_of_true ⟨?_, fun k hk hn => ?_⟩ fun q' r₁' r₂' i hsp' _ k hk _ _ => ?_
    · have hw : descend fs.kindAt b r = .ok q := by rw [hr]; exact hq
      have hdonor0 : fs.stat p donor = .ok (st 0) := (hst 0).1
      have hfuel' : 2 ≤ fuel := by omega
      obtain ⟨st', hst', -, hrun⟩ := run_clone_dress hfuel' hs hne hb hw hdonor0
      cases h.symm.trans hrun
      exact sameMeta_dress hst' (hst 0).1
    · exact absurd ((not_dirPath_iff hs hb hsp hk).1 hn) (Nat.not_lt_zero k)
    · obtain ⟨-, -, rfl⟩ := hsp.unique hsp'
      exact absurd hk (Nat.not_lt_zero k)
  · obtain ⟨d, hd, -⟩ := isDir_iff.1 (descend_eq_ok.1 hq).2
    have hi : inodeAt fs q = some (fs.inode d.obj) := by rw [inodeAt, objAt, hd]; rfl
    have hm := marked_of_run r hfuel hs hne hb hst hsp hr₂ hi h
    have hdonor' := hst.cloned hsp hr₂ hc
    have hlevel : ∀ k < r₂.length, SameMeta fs' p (dirname^[k] s) (dirname^[k] donor) ↔
        Survives p.umask (fs.inode d.obj).mode (st k).inode.mode := by
      intro k hk
      obtain ⟨st', hst', htake⟩ := stat_marked hs hb hsp hc hm hk
      exact sameMeta_iff hst' (hdonor' k).1 htake
    constructor
    · rintro ⟨-, hc⟩ q' r₁' r₂' i hsp' hi' k hk st' hst'
      obtain ⟨rfl, -, rfl⟩ := hsp.unique hsp'
      rw [hi] at hi'
      cases hi'
      rw [(hst k).1] at hst'
      cases hst'
      have hk' := hk.trans_le hle
      exact (hlevel k hk).1 (hc k hk' ((not_dirPath_iff hs hb hsp hk').2 hk))
    · intro hcond
      have hall := fun k hk => (hlevel k hk).2 (hcond q r₁ r₂ _ hsp hi k hk _ (hst k).1)
      exact ⟨hall 0 (List.length_pos_iff.2 hr₂), fun k hk hn =>
        hall k ((not_dirPath_iff hs hb hsp hk).1 hn)⟩

namespace Sample

/-- The tree where the group may write to `/a`. -/
def groupTree : FileSystem :=
  ((FileSystem.bare ⟨1, 2⟩).addChild [] bin dir).addChild [] a ⟨.dir, 0o775, 0, 0⟩

/-- The superuser with a umask that takes this from new directories. -/
def masked : Process := ⟨[], fun _ => none, 0o022, 0, 0⟩

/-- After cloning `/a` in the bin. -/
def clonedTree : FileSystem :=
  ((recyclixClonepathRecursive 6 "/bin/a".toList "/a".toList).run (exec masked) groupTree).2

theorem leads_bin_groupTree (p : Process) : groupTree.Leads p true (segments "/bin".toList) [bin] := by
  refine ⟨?_, by decide⟩
  change walk groupTree.kindAt maxSymlinks [] ((segments "/bin".toList).map Comp.ofStr) = .ok [bin]
  decide +kernel

theorem dirPath_donor (p : Process) (k : ℕ) : groupTree.DirPath p (dirname^[k] "/a".toList) :=
  dirPath_dirname (l := [a]) ⟨by decide, by decide, by decide⟩ (by decide) k

end Sample

/-- The new directory is made with `mkdir` and not changed afterwards. -/
theorem clone_misses_mode :
    Sample.groupTree.Leads Sample.masked true (segments "/bin".toList) [Sample.bin] ∧
    Spells true (segments "/bin".toList) [Sample.a] "/bin/a".toList ∧
    (∀ k, Sample.groupTree.DirPath Sample.masked (dirname^[k] "/a".toList)) ∧
    ((recyclixClonepathRecursive 6 "/bin/a".toList "/a".toList).run (exec Sample.masked)
      Sample.groupTree).1 = some 0 ∧
    ¬ Copied Sample.groupTree Sample.clonedTree Sample.masked [Sample.a] "/bin/a".toList
      "/a".toList := by
  refine ⟨Sample.leads_bin_groupTree _, ⟨by decide +kernel, by decide, by decide⟩,
    Sample.dirPath_donor _, by decide +kernel, ?_⟩
  rintro ⟨⟨st, st', hst, hst', hmode, -⟩, -⟩
  have h : (Sample.clonedTree.stat Sample.masked "/bin/a".toList).map (fun st => st.inode.mode) ≠
      (Sample.clonedTree.stat Sample.masked "/a".toList).map fun st => st.inode.mode := by
    decide +kernel
  rw [hst, hst'] at h
  exact h (congrArg Except.ok hmode)

/-- Without a umask the mode gets there. -/
theorem clone_copies_iff_groupTree :
    Copied Sample.groupTree ((recyclixClonepathRecursive 6 "/bin/a".toList "/a".toList).run
      (exec Sample.process) Sample.groupTree).2 Sample.process [Sample.a] "/bin/a".toList
      "/a".toList ↔
    ∀ q r₁ r₂ i, Splits Sample.groupTree [Sample.bin] [Sample.a] q r₁ r₂ →
      inodeAt Sample.groupTree q = some i → ∀ k < r₂.length, ∀ st,
        Sample.groupTree.stat Sample.process (dirname^[k] "/a".toList) = .ok st →
          Survives Sample.process.umask i.mode st.inode.mode :=
  clone_copies_iff "/bin".toList (Sample.leads_bin_groupTree _)
    ⟨by decide +kernel, by decide, by decide⟩ (by decide) (Sample.dirPath_donor _) (by decide)
    (Prod.ext (by decide +kernel) rfl)

end YazzyPreload.Recyclix

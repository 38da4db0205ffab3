import Mathlib.Logic.Function.Iterate
import YazzyPreload.Graft
import YazzyPreload.Recyclix.Unlinkat

/-!
# What `recyclix_clonepath_recursive` does

The function is called with a pathname that spells names `r` below a directory `b`.  It finds the
longest part of `r` that leads to a directory already and grafts directories for the rest onto it:
`Cloned` is the effect when it returns 0.  `Clonable` says when it does: what stands in the way at
the first missing place may be replaced only in some positions.  Both are in
`wp_recyclixClonepathRecursive`, which also allows for calls that are denied.
-/

namespace YazzyPreload.Recyclix

open FileSystem Prog

/-! ## The specification -/

/-- There is no directory under the name, and nothing that `unlink` cannot remove. -/
structure Vacant (fs : FileSystem) (q : Loc) (n : Name) : Prop where
  blocked : fs.Blocked q n
  unmounted : ∀ d, fs.dirent (n :: q) = some d → d.mounted = false

/-- There are new directories where the names `r` did not lead to directories. -/
def Cloned (fs fs' : FileSystem) (b r : Loc) : Prop :=
  ∃ q r₁ r₂, r = r₂ ++ r₁ ∧ descend fs.kindAt b r₁ = .ok q ∧
    (∀ s n, r₂ = s ++ [n] → Vacant fs q n) ∧ fs.Grafted fs' q r₂

/-- `mkdir` with the name `n` succeeds in the directory `l`, at once or after `unlink`, or there is a
directory of that name. -/
def Usable (fs : FileSystem) (l : Loc) (n : Name) : Prop :=
  match fs.dirent (n :: l) with
  | none => True
  | some d =>
    match (step fs.kindAt maxSymlinks l (.name n)).bind fs.statLoc with
    | .error _ => False
    | .ok st => st.isDir = true ∨ d.mounted = false

/-- The directories along `r` below `b` can be made. -/
def Clonable (fs : FileSystem) (b : Loc) : Loc → Prop
  | [] => True
  | [n] => Usable fs b n
  | n :: n' :: r =>
    match descend fs.kindAt b (n' :: r) with
    | .ok l => Usable fs l n
    | .error e =>
      match descend fs.kindAt b r with
      | .ok l => (e = .ENOENT ∨ e = .ENOTDIR) ∧ ∀ d, fs.dirent (n' :: l) = some d → d.mounted = false
      | .error e' => e' = .ENOENT ∧ Clonable fs b (n' :: r)

/-- The two ways to end. -/
def CloneSpec (deny : Errno → Bool) (fs : FileSystem) (b r : Loc) (a : Option ℤ)
    (fs' : FileSystem) : Prop :=
  (a = some 0 ∧ Cloned fs fs' b r ∧ Clonable fs b r) ∨
    (a = some (-1) ∧ ((∃ e, deny e = true) ∨ fs' = fs ∧ ¬ Clonable fs b r))

variable {fs fs' fs'' : FileSystem} {b l r : Loc} {n n' : Name} {s donor : Str} {abs : Bool}
  {xs : List Str} {p : Process} {deny : Errno → Bool}

theorem CloneSpec.cloned (h : CloneSpec deny fs b r (some 0) fs') : Cloned fs fs' b r := by
  rcases h with ⟨-, hc, -⟩ | ⟨h, -⟩
  · exact hc
  · cases h

theorem clonable_cons_of_ok (hb : fs.IsDir b) (h : descend fs.kindAt b r = .ok l) :
    Clonable fs b (n :: r) ↔ Usable fs l n := by
  cases r with
  | nil =>
    rw [descend_nil hb] at h
    cases h
    rfl
  | cons n' r => rw [Clonable, h]

theorem usable_of_none (h : fs.dirent (n :: l) = none) : Usable fs l n := by
  rw [Usable, h]
  trivial

theorem vacant_of_none (hl : fs.IsDir l) (hn : fs.dirent (n :: l) = none) : Vacant fs l n :=
  ⟨blocked_of_none hl hn, fun d hd => by rw [hn] at hd; cases hd⟩

theorem Cloned.keeps (h : Cloned fs fs' b r) : Keeps fs.kindAt fs'.kindAt := by
  obtain ⟨q, r₁, r₂, -, hq, hb, hg⟩ := h
  exact hg.keeps (fun s n e => (hb s n e).blocked) (descend_eq_ok.1 hq).2

theorem Cloned.descend_ok (h : Cloned fs fs' b r) : ∃ w, descend fs'.kindAt b r = .ok w := by
  have hk := h.keeps
  obtain ⟨q, r₁, r₂, rfl, hq, -, hg⟩ := h
  refine ⟨r₂ ++ q, ?_⟩
  rw [descend_append, hk.descend hq]
  exact descend_of_dirs (hg.isDir_base (descend_eq_ok.1 hq).2) fun s hs hs' => hg.isDir_made hs hs'

theorem Cloned.of_grafted_nil (hl : descend fs.kindAt b r = .ok l) (h : fs.Grafted fs' l []) :
    Cloned fs fs' b r :=
  ⟨l, r, [], rfl, hl, by simp, h⟩

theorem Cloned.of_grafted_single (hl : descend fs.kindAt b r = .ok l) (hb : Vacant fs l n)
    (h : fs.Grafted fs' l [n]) : Cloned fs fs' b (n :: r) := by
  refine ⟨l, r, [n], rfl, hl, fun s m e => ?_, h⟩
  obtain ⟨-, e⟩ := @List.append_inj' _ [] _ _ _ e rfl
  cases e
  exact hb

theorem not_descend_of_blocked {q r₁ t : Loc} {m : Name} (hq : descend fs.kindAt b r₁ = .ok q)
    (hb : fs.Blocked q m) (w : Loc) : descend fs.kindAt b (t ++ [m] ++ r₁) ≠ .ok w := by
  intro h
  obtain ⟨q', hq', h⟩ := descend_ok_of_append h
  rw [hq] at hq'
  cases hq'
  obtain ⟨q', hq', -⟩ := descend_ok_of_append h
  exact hb q' hq'

/-- The place where the names stop leading to directories is determined. -/
theorem blocked_unique {q q' r₁ r₁' r₂ r₂' : Loc} (hr : r₂ ++ r₁ = r₂' ++ r₁')
    (hq : descend fs.kindAt b r₁ = .ok q) (hq' : descend fs.kindAt b r₁' = .ok q')
    (hb : ∀ s n, r₂ = s ++ [n] → fs.Blocked q n) (hb' : ∀ s n, r₂' = s ++ [n] → fs.Blocked q' n) :
    r₁ = r₁' := by
  rcases List.append_eq_append_iff.1 hr with ⟨t, h₂, h₁⟩ | ⟨t, h₂, h₁⟩
  · rcases List.eq_nil_or_concat' t with rfl | ⟨t, m, rfl⟩
    · simpa using h₁
    · rw [← List.append_assoc] at h₂
      rw [h₁] at hq
      exact absurd hq (not_descend_of_blocked hq' (hb' _ m h₂) q)
  · rcases List.eq_nil_or_concat' t with rfl | ⟨t, m, rfl⟩
    · simpa using h₁.symm
    · rw [← List.append_assoc] at h₂
      rw [h₁] at hq'
      exact absurd hq' (not_descend_of_blocked hq (hb _ m h₂) q')

/-- What blocked the first place may be removed before. -/
theorem Cloned.of_erase (hl : descend fs.kindAt b r = .ok l) (hv : Vacant fs l n')
    (h : Cloned (fs.erase (n' :: l)) fs' b (n :: n' :: r)) : Cloned fs fs' b (n :: n' :: r) := by
  have hblock := hv.blocked
  have hldir : fs.IsDir l := (descend_eq_ok.1 hl).2
  have hkeep := keeps_erase hldir hblock
  have hc := hblock.childless
  have hn' := hblock.dirent_erase_self
  obtain ⟨q, r₁, r₂, hr, hq, hb, hg⟩ := h
  have hr₁ : r₁ = r := by
    refine @blocked_unique _ _ _ _ _ _ _ [n, n'] hr.symm hq (hkeep.descend hl)
      (fun s m e => (hb s m e).blocked) fun s m e => ?_
    obtain ⟨-, e⟩ := @List.append_inj' _ [n] _ _ _ e rfl
    cases e
    exact blocked_of_none (hkeep.dir hldir) hn'
  subst hr₁
  obtain rfl : r₂ = [n] ++ [n'] := (List.append_cancel_right hr).symm
  rw [hkeep.descend hl] at hq
  cases hq
  refine ⟨l, r₁, [n] ++ [n'], rfl, hl, fun s m e => ?_, hg.of_erase hc⟩
  obtain ⟨-, e⟩ := List.append_inj' e rfl
  cases e
  exact hv

/-- Where a directory was cloned there is room for one more. -/
theorem Cloned.next (h : Cloned fs fs' b r) (hne : ∀ l, descend fs.kindAt b r ≠ .ok l) :
    ∃ w, descend fs'.kindAt b r = .ok w ∧ fs'.dirent (n :: w) = none ∧
      ∀ fs'', fs'.Grafted fs'' w [n] → Cloned fs fs'' b (n :: r) := by
  have hk := h.keeps
  obtain ⟨q, r₁, r₂, rfl, hq, hb, hg⟩ := h
  have hr₂ : r₂ ≠ [] := by
    rintro rfl
    exact hne q hq
  have hdir : ¬ fs.IsDir (r₂ ++ q) := by
    intro hd
    obtain ⟨t, m, rfl⟩ := (List.eq_nil_or_concat' r₂).resolve_left hr₂
    have hbm := (hb t m rfl).blocked
    have := hbm.not_isDir_of_suffix (List.suffix_append t [m]) (IsDir.dirent_ne_none hd)
    rw [this] at hd
    exact hbm.not_isDir hd
  refine ⟨r₂ ++ q, ?_, ?_, fun fs'' hg' => ?_⟩
  · rw [descend_append, hk.descend hq]
    exact descend_of_dirs (hg.isDir_base (descend_eq_ok.1 hq).2) fun s hs hs' => hg.isDir_made hs hs'
  · rw [hg.dirent]
    · exact dirent_child_of_not_isDir hdir n
    · intro s _ hs e
      have := congrArg List.length e
      have := hs.length_le
      simp only [List.length_cons, List.length_append] at *
      omega
  · refine ⟨q, r₁, n :: r₂, rfl, hq, fun s m e => ?_, hg.trans hr₂ hg'⟩
    obtain ⟨t, m', rfl⟩ := (List.eq_nil_or_concat' r₂).resolve_left hr₂
    rw [← List.cons_append] at e
    obtain ⟨-, e⟩ := List.append_inj' e rfl
    cases e
    exact hb t m rfl

/-! ## The program -/

/-- The calls that cloning makes. -/
def ClonesWith : Call → Prop
  | .stat _ | .mkdir .. | .unlink _ | .chmod .. | .chown .. => True
  | _ => False

/-- The call is an `unlink`. -/
def Unlinking : Call → Prop
  | .unlink _ => True
  | _ => False

/-- Enough calls for a run. -/
def cloneSteps : ℕ → ℕ
  | 0 => 0
  | fuel + 1 => 2 * cloneSteps fuel + 4

/-- A property of programs that make at most `n` calls which follows from that of their parts. -/
structure Composes (M : ℕ → Code (Option ℤ) → Prop) : Prop where
  ret : ∀ n a, M n (.ret a)
  mono : ∀ n m p, n ≤ m → M n p → M m p
  call : ∀ n (c : Call) (k : c.Answer → Code (Option ℤ)), ClonesWith c → ¬ Unlinking c →
    (∀ r, M n (k r)) → M (n + 1) (.call c k)
  unlink : ∀ n s (k : (Call.unlink s).Answer → Code (Option ℤ)),
    k (.error .EISDIR) = .ret (some (-1)) → (∀ r, M n (k r)) → M (n + 1) (.call (.unlink s) k)
  bind : ∀ n m p (f : Option ℤ → Code (Option ℤ)), f (some (-1)) = .ret (some (-1)) → M n p →
    (∀ a, M m (f a)) → M (n + m) (p >>= f)

/-- The structure of the two functions, once for all properties of this kind. -/
theorem Composes.clone {M : ℕ → Code (Option ℤ) → Prop} (h : Composes M) (fuel : ℕ) :
    (∀ s donor, M (cloneSteps fuel) (recyclixClonepathRecursive fuel s donor)) ∧
      ∀ s donor st, M (cloneSteps fuel) (tryMkdir fuel s donor st) := by
  induction fuel with
  | zero =>
    refine ⟨fun s donor => ?_, fun s donor st => ?_⟩
    · unfold recyclixClonepathRecursive
      exact h.ret _ _
    · unfold tryMkdir
      exact h.ret _ _
  | succ fuel ih =>
    refine ⟨fun s donor => ?_, fun s donor st => ?_⟩
    · unfold recyclixClonepathRecursive
      refine h.mono (cloneSteps fuel + 1) _ _ (by rw [cloneSteps]; omega)
        (h.call _ _ _ trivial id fun r => ?_)
      cases r with
      | error e => exact h.ret _ _
      | ok st => exact ih.2 s donor st
    · have hretry : ∀ n, cloneSteps fuel ≤ n → M n (tryMkdir fuel s donor st) :=
        fun n hn => h.mono _ n _ hn (ih.2 s donor st)
      have hchown : ∀ n, M (n + 1)
          (Prog.call (.chown s st.inode.uid st.inode.gid) fun _ => .ret (some 0)) :=
        fun n => h.call n _ _ trivial id fun _ => h.ret n _
      have hrecurse : M (cloneSteps fuel + cloneSteps fuel) (do
          let retval ← recyclixClonepathRecursive fuel (dirname s) (dirname donor)
          if retval = some 0 then tryMkdir fuel s donor st else .ret retval) := by
        refine h.bind _ _ _ _ (if_neg (by decide)) (ih.1 _ _) fun a => ?_
        split_ifs
        · exact hretry _ (Nat.le_refl _)
        · exact h.ret _ _
      unfold tryMkdir
      refine h.mono (cloneSteps fuel + cloneSteps fuel + 2 + 1 + 1) _ _ (by rw [cloneSteps]; omega)
        (h.call _ _ _ trivial id fun r => ?_)
      cases r with
      | ok _ => exact hchown _
      | error e =>
        by_cases hp : e = .ENOENT ∨ e = .ENOTDIR
        · rcases hp with rfl | rfl <;> refine h.unlink _ _ _ rfl fun r => ?_ <;> cases r with
          | ok _ => exact hretry _ (by omega)
          | error e =>
            cases e <;>
              first | exact h.mono _ _ _ (Nat.le_add_right _ 2) hrecurse | exact h.ret _ _
        · by_cases he : e = .EEXIST
          · subst he
            refine h.call _ _ _ trivial id fun r => ?_
            cases r with
            | error e => exact h.ret _ _
            | ok st' =>
              dsimp only
              split_ifs
              · exact h.call _ _ _ trivial id fun _ => hchown _
              · refine h.unlink _ _ _ rfl fun r => ?_
                cases r with
                | ok _ => exact hretry _ (by omega)
                | error e => exact h.ret _ _
          · cases e <;> first | exact h.ret _ _ | exact absurd rfl he | exact absurd (by simp) hp

theorem composes_only : Composes fun _ p => p.Only ClonesWith where
  ret _ _ := trivial
  mono _ _ _ _ h := h
  call _ _ _ hc _ h := ⟨hc, h⟩
  unlink _ _ _ _ h := ⟨trivial, h⟩
  bind _ _ _ _ _ hp hf := hp.bind hf

theorem only_clone (fuel : ℕ) :
    (∀ s donor, (recyclixClonepathRecursive fuel s donor).Only ClonesWith) ∧
      ∀ s donor st, (tryMkdir fuel s donor st).Only ClonesWith :=
  composes_only.clone fuel

theorem newDir_kind (fs : FileSystem) (p : Process) (l : Loc) (mode : Mode) :
    (fs.newDir p l mode).kind = .dir := by
  rw [newDir]
  split
  · split_ifs <;> rfl
  · rfl

theorem stat_newDir (hs : Spells abs xs (n :: r) s) (hl : fs.Leads p abs xs b)
    (hd : descend fs.kindAt b r = .ok l) (hn : fs.dirent (n :: l) = none) (mode : Mode) :
    (fs.addChild l n (fs.newDir p l mode)).stat p s = .ok ⟨fs.newObj l, fs.newDir p l mode⟩ := by
  have hldir : fs.IsDir l := (descend_eq_ok.1 hd).2
  have hkeep := keeps_addChild hldir hn (fs.newDir p l mode)
  have hdn : (fs.addChild l n (fs.newDir p l mode)).kindAt (n :: l) = some .dir := by
    rw [kindAt_addChild hldir hn, if_pos rfl, newDir_kind fs p l mode]
  rw [stat_spells (hl.keeps hkeep) hs, hkeep.descend hd, Except.bind,
    step_name_dir (hkeep.dir hldir) hdn, Except.bind, statLoc, dirent_addChild_self hldir hn]
  dsimp only
  rw [inode_addChild hldir hn, if_pos rfl]

theorem unlinkEntry_blocked {d : Dent} (hs : Spells abs xs (n :: r) s) (hl : fs.Leads p abs xs b)
    (hd : descend fs.kindAt b r = .ok l) (hbl : fs.Blocked l n) (hn : fs.dirent (n :: l) = some d) :
    fs.unlinkEntry p atFdcwd s =
      if d.mounted then (.error .EBUSY, fs) else (.ok (), fs.erase (n :: l)) := by
  rw [unlinkEntry_spells hl hs, hd]
  simp only [hn, if_neg (hbl.kind_ne hn)]

section Program

variable (hdeny : ∀ e, deny e = true → e.denial = true)

include hdeny

/-- `mkdir` where nothing is in the way. -/
theorem wp_tryMkdir_make {fuel : ℕ} {donor_st : Stat} (hs : Spells abs xs (n :: r) s)
    (hl : fs.Leads p abs xs b) (hd : descend fs.kindAt b r = .ok l)
    (hn : fs.dirent (n :: l) = none) :
    wp (Sys p deny) (tryMkdir (fuel + 1) s donor donor_st) fs fun _ a fs' =>
      (a = some 0 ∧ fs.Grafted fs' l [n]) ∨ (a = some (-1) ∧ ∃ e, deny e = true) := by
  have hldir : fs.IsDir l := (descend_eq_ok.1 hd).2
  have hi := newDir_kind fs p l donor_st.inode.mode
  have hg := Grafted.single hldir hn hi
  have hm : exec p (.mkdir s donor_st.inode.mode) fs =
      (.ok (), fs.addChild l n (fs.newDir p l donor_st.inode.mode)) := by
    simp only [exec, mkdir_spells hl hs, hd, hn, if_true]
  rw [tryMkdir]
  refine wp_sys_call_of hm ?_ ?_
  · have hst := stat_newDir hs hl hd hn donor_st.inode.mode
    have ho : (fs.addChild l n (fs.newDir p l donor_st.inode.mode)).objAt ([n] ++ l) =
        some (fs.newObj l) := by
      rw [objAt, List.singleton_append, dirent_addChild_self hldir hn]
      rfl
    exact wp_sys_call_of (chown_of_stat hst donor_st.inode.uid donor_st.inode.gid)
      (Or.inl ⟨rfl, hg.setOwner ho _ _⟩) fun e he => Or.inl ⟨rfl, hg⟩
  · intro e he
    have := hdeny e he
    cases e <;> first | exact absurd this (by decide) | exact Or.inr ⟨rfl, _, he⟩

/-- `mkdir` where there is a directory. -/
theorem wp_tryMkdir_dir {fuel : ℕ} {donor_st st : Stat} (hw : fs.objAt l = some st.obj)
    (hm : fs.mkdir p s donor_st.inode.mode = (.error .EEXIST, fs)) (hst : fs.stat p s = .ok st)
    (hd : st.isDir = true) :
    wp (Sys p deny) (tryMkdir (fuel + 1) s donor donor_st) fs fun _ a fs' =>
      (a = some 0 ∧ fs.Grafted fs' l []) ∨ (a = some (-1) ∧ ∃ e, deny e = true) := by
  have hg := Grafted.refl fs l
  have hst' := stat_adjust hst st.obj (fun i => { i with mode := donor_st.inode.mode }) fun _ => rfl
  rw [tryMkdir]
  refine wp_sys_call_of hm ?_ fun e he => ?_
  · refine wp_sys_query (r := .ok st) (by rw [exec, hst]) ?_ fun e he =>
      Or.inr ⟨rfl, e, he⟩
    simp only [hd, if_true]
    refine wp_sys_call_of (chmod_of_stat hst donor_st.inode.mode) ?_ fun e he => ?_
    · exact wp_sys_call_of (chown_of_stat hst' donor_st.inode.uid donor_st.inode.gid)
        (Or.inl ⟨rfl, (hg.setMode hw _).setOwner hw _ _⟩) fun e he => Or.inl ⟨rfl, hg.setMode hw _⟩
    · exact wp_sys_call_of (chown_of_stat hst donor_st.inode.uid donor_st.inode.gid)
        (Or.inl ⟨rfl, hg.setOwner hw _ _⟩) fun e he => Or.inl ⟨rfl, hg⟩
  · have := hdeny e he
    cases e <;> first | exact absurd this (by decide) | exact Or.inr ⟨rfl, _, he⟩

/-- One more directory, where those above it have just been made. -/
theorem wp_tryMkdir_next {fuel : ℕ} {donor_st : Stat} (hs : Spells abs xs (n :: r) s)
    (hl : fs.Leads p abs xs b) (hne : ∀ l, descend fs.kindAt b r ≠ .ok l)
    (hc : Cloned fs fs' b r) :
    wp (Sys p deny) (tryMkdir (fuel + 1) s donor donor_st) fs' fun _ a fs'' =>
      (a = some 0 ∧ Cloned fs fs'' b (n :: r)) ∨ (a = some (-1) ∧ ∃ e, deny e = true) := by
  obtain ⟨w, hw, hn, hnext⟩ := hc.next (n := n) hne
  refine wp_mono (wp_tryMkdir_make hdeny hs (hl.keeps hc.keeps) hw hn) fun _ a fs'' h => ?_
  exact h.imp_left fun h => ⟨h.1, hnext _ h.2⟩

/-- `mkdir` where something other than a directory stands. -/
theorem wp_tryMkdir_replace {fuel : ℕ} {donor_st st : Stat} {d : Dent} {m : Loc}
    (hs : Spells abs xs (n :: r) s) (hl : fs.Leads p abs xs b)
    (hd : descend fs.kindAt b r = .ok l) (hn : fs.dirent (n :: l) = some d)
    (hm : step fs.kindAt maxSymlinks l (.name n) = .ok m) (hst : fs.statLoc m = .ok st)
    (hdir : ¬ st.isDir = true) :
    wp (Sys p deny) (tryMkdir (fuel + 2) s donor donor_st) fs fun _ a fs' =>
      (a = some 0 ∧ fs.Grafted fs' l [n] ∧ d.mounted = false) ∨
        (a = some (-1) ∧ ((∃ e, deny e = true) ∨ fs' = fs ∧ d.mounted = true)) := by
  have hldir : fs.IsDir l := (descend_eq_ok.1 hd).2
  have hblock := blocked_of_stat hm hst hdir
  have hc := hblock.childless
  have hkeep := keeps_erase hldir hblock
  have hmk : fs.mkdir p s donor_st.inode.mode = (.error .EEXIST, fs) := by
    rw [mkdir_spells hl hs, hd]
    simp [hn]
  have hstat : fs.stat p s = .ok st := by
    rw [stat_spells hl hs, hd, Except.bind, hm]
    exact hst
  have hu := unlinkEntry_blocked hs hl hd hblock hn
  rw [tryMkdir]
  refine wp_sys_call_of hmk ?_ fun e he => ?_
  · refine wp_sys_query (r := .ok st) (by rw [exec, hstat]) ?_
      fun e he => Or.inr ⟨rfl, Or.inl ⟨e, he⟩⟩
    simp only [hdir]
    by_cases hmount : d.mounted = true
    · rw [if_pos hmount] at hu
      exact wp_sys_call_of hu (Or.inr ⟨rfl, Or.inr ⟨rfl, hmount⟩⟩)
        fun e he => Or.inr ⟨rfl, Or.inl ⟨e, he⟩⟩
    · rw [if_neg hmount] at hu
      refine wp_sys_call_of hu ?_ fun e he => Or.inr ⟨rfl, Or.inl ⟨e, he⟩⟩
      have hn' := hblock.dirent_erase_self
      refine wp_mono (wp_tryMkdir_make hdeny hs (hl.keeps hkeep) (hkeep.descend hd) hn')
        fun _ a fs' h => ?_
      rcases h with ⟨rfl, hg⟩ | ⟨rfl, h⟩
      · exact Or.inl ⟨rfl, Grafted.of_erase (s := []) hc hg, by simpa using hmount⟩
      · exact Or.inr ⟨rfl, Or.inl h⟩
  · have := hdeny e he
    cases e <;> first | exact absurd this (by decide) | exact Or.inr ⟨rfl, Or.inl ⟨_, he⟩⟩

/-- The directory above is there. -/
theorem wp_tryMkdir_at {fuel : ℕ} {donor_st : Stat} (hs : Spells abs xs (n :: r) s)
    (hl : fs.Leads p abs xs b) (hd : descend fs.kindAt b r = .ok l) :
    wp (Sys p deny) (tryMkdir (fuel + 2) s donor donor_st) fs fun _ =>
      CloneSpec deny fs b (n :: r) := by
  have hldir : fs.IsDir l := (descend_eq_ok.1 hd).2
  have hclon : Clonable fs b (n :: r) ↔ Usable fs l n := clonable_cons_of_ok hl.isDir hd
  cases hn : fs.dirent (n :: l) with
  | none =>
    refine wp_mono (wp_tryMkdir_make hdeny hs hl hd hn) fun _ a fs' h => ?_
    rcases h with ⟨rfl, hg⟩ | ⟨rfl, h⟩
    · exact Or.inl ⟨rfl, Cloned.of_grafted_single hd (vacant_of_none hldir hn) hg,
        hclon.2 (usable_of_none hn)⟩
    · exact Or.inr ⟨rfl, Or.inl h⟩
  | some d =>
    have hmk : fs.mkdir p s donor_st.inode.mode = (.error .EEXIST, fs) := by
      rw [mkdir_spells hl hs, hd]
      simp [hn]
    have hstat : fs.stat p s = (step fs.kindAt maxSymlinks l (.name n)).bind fs.statLoc := by
      rw [stat_spells hl hs, hd]
      rfl
    cases hst : (step fs.kindAt maxSymlinks l (.name n)).bind fs.statLoc with
    | error e =>
      have hnot : ¬ Clonable fs b (n :: r) := by simp [hclon, Usable, hn, hst]
      rw [tryMkdir]
      refine wp_sys_call_of hmk ?_ fun e he => ?_
      · exact wp_sys_query (r := .error e) (by rw [exec, hstat, hst])
          (Or.inr ⟨rfl, Or.inr ⟨rfl, hnot⟩⟩) fun e he => Or.inr ⟨rfl, Or.inl ⟨e, he⟩⟩
      · have := hdeny e he
        cases e <;> first | exact absurd this (by decide) | exact Or.inr ⟨rfl, Or.inl ⟨_, he⟩⟩
    | ok st =>
      obtain ⟨m, hm, hstm⟩ : ∃ m, step fs.kindAt maxSymlinks l (.name n) = .ok m ∧
          fs.statLoc m = .ok st := by
        cases hstep : step fs.kindAt maxSymlinks l (.name n) with
        | error e => rw [hstep] at hst; cases hst
        | ok m => exact ⟨m, rfl, by rw [hstep] at hst; exact hst⟩
      by_cases hdir : st.isDir = true
      · have hdm : descend fs.kindAt b (n :: r) = .ok m := by
          rw [descend_cons, hd, Except.bind]
          exact descend_single_eq_ok.2 ⟨hm, (isDir_of_statLoc hstm).2 hdir⟩
        refine wp_mono (wp_tryMkdir_dir hdeny (objAt_of_statLoc hstm) hmk (hstat.trans hst) hdir)
          fun _ a fs' h => ?_
        rcases h with ⟨rfl, hg⟩ | ⟨rfl, h⟩
        · exact Or.inl ⟨rfl, Cloned.of_grafted_nil hdm hg,
            hclon.2 (by simp [Usable, hn, hst, hdir])⟩
        · exact Or.inr ⟨rfl, Or.inl h⟩
      · refine wp_mono (wp_tryMkdir_replace hdeny hs hl hd hn hm hstm hdir) fun _ a fs' h => ?_
        rcases h with ⟨rfl, hg, hmount⟩ | ⟨rfl, h | ⟨rfl, hmount⟩⟩
        · have hv : Vacant fs l n := ⟨blocked_of_stat hm hstm hdir, fun d' hd' => by
            rw [hn] at hd'
            cases hd'
            exact hmount⟩
          exact Or.inl ⟨rfl, Cloned.of_grafted_single hd hv hg,
            hclon.2 (by simp [Usable, hn, hst, hmount])⟩
        · exact Or.inr ⟨rfl, Or.inl h⟩
        · exact Or.inr ⟨rfl, Or.inr ⟨rfl, by simp [hclon, Usable, hn, hst, hdir, hmount]⟩⟩

/-- What the function does at a pathname that spells the names `r`. -/
def ClonesAt (p : Process) (deny : Errno → Bool) (abs : Bool) (xs : List Str) (b r : Loc) : Prop :=
  ∀ (fuel : ℕ) (fs : FileSystem) (s donor : Str), 3 * r.length + 3 ≤ fuel → Spells abs xs r s →
    s ≠ [] → fs.Leads p abs xs b → (∀ k, fs.DirPath p (dirname^[k] donor)) →
    wp (Sys p deny) (recyclixClonepathRecursive fuel s donor) fs fun _ => CloneSpec deny fs b r

/-- The rule for `unlink` on the directory above and what comes after it. -/
theorem wp_unlink_above {fuel : ℕ} {donor_st : Stat} {a : Except Errno Unit}
    {Q : Option ℤ → FileSystem → Prop} (hu : exec p (.unlink (dirname s)) fs = (a, fs'))
    (hok : a = .ok () → wp (Sys p deny) (tryMkdir fuel s donor donor_st) fs' fun _ => Q)
    (hmissing : a = .error .ENOENT → wp (Sys p deny)
      (do let retval ← recyclixClonepathRecursive fuel (dirname s) (dirname donor)
          if retval = some 0 then tryMkdir fuel s donor donor_st else .ret retval) fs' fun _ => Q)
    (hfail : ∀ e, a = .error e → e ≠ .ENOENT → Q (some (-1)) fs')
    (hdenied : ∀ e, deny e = true → Q (some (-1)) fs) :
    wp (Sys p deny)
      (.call (.unlink (dirname s)) fun
        | .ok _ => tryMkdir fuel s donor donor_st
        | .error .ENOENT => do
          let retval ← recyclixClonepathRecursive fuel (dirname s) (dirname donor)
          if retval = some 0 then tryMkdir fuel s donor donor_st else .ret retval
        | .error _ => .ret (some (-1))) fs
      fun _ => Q := by
  refine wp_sys_call_of hu ?_ fun e he => ?_
  · cases a with
    | ok u => exact hok rfl
    | error e =>
      by_cases hne : e = .ENOENT
      · subst hne
        exact hmissing rfl
      · cases e <;> first | exact absurd rfl hne | exact hfail _ rfl hne
  · have := hdeny e he
    cases e <;> first | exact absurd this (by decide) | exact hdenied _ he

section Parent

variable {fuel : ℕ} (donor_st : Stat) (ih : ClonesAt p deny abs xs b (n' :: r))
  (hfuel : 3 * (n' :: r).length + 3 ≤ fuel) (hs : Spells abs xs (n :: n' :: r) s)
  (hl : fs.Leads p abs xs b) (hdonor : ∀ k, fs.DirPath p (dirname^[k] donor))

include ih hfuel hs hl hdonor

/-- The recursive call and the retry. -/
theorem wp_recurse (hne : ∀ l, descend fs.kindAt b (n' :: r) ≠ .ok l) :
    wp (Sys p deny)
      (do let retval ← recyclixClonepathRecursive fuel (dirname s) (dirname donor)
          if retval = some 0 then tryMkdir fuel s donor donor_st else .ret retval) fs
      fun _ a fs' =>
        (a = some 0 ∧ Cloned fs fs' b (n :: n' :: r) ∧ Clonable fs b (n' :: r)) ∨
          (a = some (-1) ∧ ((∃ e, deny e = true) ∨ fs' = fs ∧ ¬ Clonable fs b (n' :: r))) := by
  obtain ⟨fuel, rfl⟩ : ∃ f, fuel = f + 1 := ⟨fuel - 1, by omega⟩
  have hs' := hs.parent (Or.inr (Or.inr (List.cons_ne_nil n' r)))
  rw [wp_bind]
  refine wp_mono (ih (fuel + 1) fs _ _ hfuel hs' hs'.ne_nil hl fun k => hdonor (k + 1))
    fun _ a fs' h => ?_
  rcases h with ⟨rfl, hc, hok⟩ | ⟨rfl, h⟩
  · rw [if_pos rfl]
    refine wp_mono (wp_tryMkdir_next hdeny hs hl hne hc) fun _ a fs'' h => ?_
    rcases h with ⟨rfl, h⟩ | ⟨rfl, h⟩
    · exact Or.inl ⟨rfl, h, hok⟩
    · exact Or.inr ⟨rfl, Or.inl h⟩
  · rw [if_neg (by decide)]
    exact Or.inr ⟨rfl, h⟩

/-- Nothing is in the way, but the directory above is missing too. -/
theorem wp_tryMkdir_missing (hd : descend fs.kindAt b r = .ok l)
    (hn : fs.dirent (n' :: l) = none) :
    wp (Sys p deny) (tryMkdir (fuel + 1) s donor donor_st) fs fun _ a fs' =>
      (a = some 0 ∧ Cloned fs fs' b (n :: n' :: r)) ∨ (a = some (-1) ∧ ∃ e, deny e = true) := by
  have hs' := hs.parent (Or.inr (Or.inr (List.cons_ne_nil n' r)))
  have herr : descend fs.kindAt b (n' :: r) = .error .ENOENT := by
    rw [descend_cons, hd]
    exact descend_name_none (descend_eq_ok.1 hd).2 (kindAt_eq_none_iff.2 hn)
  have hok : Clonable fs b (n' :: r) := (clonable_cons_of_ok hl.isDir hd).2 (usable_of_none hn)
  have hm : exec p (.mkdir s donor_st.inode.mode) fs = (.error .ENOENT, fs) := by
    rw [exec, mkdir_spells hl hs, herr]
  have hu : exec p (.unlink (dirname s)) fs = (.error .ENOENT, fs) := by
    rw [exec, unlinkEntry_spells hl hs', hd]
    simp only [hn]
  rw [tryMkdir]
  refine wp_sys_call_of hm ?_ fun e he => ?_
  · refine wp_unlink_above hdeny hu (fun h => by cases h) (fun _ => ?_)
      (fun e h hne => absurd (Except.error.inj h).symm hne) fun e he => Or.inr ⟨rfl, e, he⟩
    refine wp_mono (wp_recurse hdeny donor_st ih hfuel hs hl hdonor fun l => by simp [herr])
      fun _ a fs' h => ?_
    rcases h with ⟨rfl, h, -⟩ | ⟨rfl, h | h⟩
    · exact Or.inl ⟨rfl, h⟩
    · exact Or.inr ⟨rfl, h⟩
    · exact absurd hok h.2
  · have := hdeny e he
    cases e <;> first | exact absurd this (by decide) | exact Or.inr ⟨rfl, _, he⟩

/-- Something is in the way of the directory above, or of one further up. -/
theorem wp_unlink_parent {e : Errno} (hd : descend fs.kindAt b (n' :: r) = .error e)
    (he : e = .ENOENT ∨ e = .ENOTDIR) :
    wp (Sys p deny)
      (.call (.unlink (dirname s)) fun
        | .ok _ => tryMkdir (fuel + 1) s donor donor_st
        | .error .ENOENT => do
          let retval ← recyclixClonepathRecursive (fuel + 1) (dirname s) (dirname donor)
          if retval = some 0 then tryMkdir (fuel + 1) s donor donor_st else .ret retval
        | .error _ => .ret (some (-1))) fs
      fun _ => CloneSpec deny fs b (n :: n' :: r) := by
  have hs' := hs.parent (Or.inr (Or.inr (List.cons_ne_nil n' r)))
  have hne : ∀ l, descend fs.kindAt b (n' :: r) ≠ .ok l := by simp [hd]
  have hrecurse := wp_recurse hdeny donor_st ih (Nat.le_succ_of_le hfuel) hs hl hdonor hne
  have hu := unlinkEntry_spells hl hs'
  have hclon : Clonable fs b (n :: n' :: r) ↔
      match descend fs.kindAt b r with
      | .ok l => (e = .ENOENT ∨ e = .ENOTDIR) ∧ ∀ d, fs.dirent (n' :: l) = some d → d.mounted = false
      | .error e' => e' = .ENOENT ∧ Clonable fs b (n' :: r) := by
    rw [Clonable, hd]
  have hdenied : ∀ e, deny e = true → CloneSpec deny fs b (n :: n' :: r) (some (-1)) fs :=
    fun e he => Or.inr ⟨rfl, Or.inl ⟨e, he⟩⟩
  cases hr : descend fs.kindAt b r with
  | error e' =>
    rw [hr] at hu hclon
    refine wp_unlink_above hdeny hu (fun h => by cases h) (fun he' => ?_) (fun e h hne => ?_) hdenied
    · obtain rfl := Except.error.inj he'
      refine wp_mono hrecurse fun _ a fs' h => ?_
      rcases h with ⟨rfl, h, hok⟩ | ⟨rfl, h | ⟨rfl, h⟩⟩
      · exact Or.inl ⟨rfl, h, hclon.2 ⟨rfl, hok⟩⟩
      · exact Or.inr ⟨rfl, Or.inl h⟩
      · exact Or.inr ⟨rfl, Or.inr ⟨rfl, fun hc => h (hclon.1 hc).2⟩⟩
    · obtain rfl := Except.error.inj h
      exact Or.inr ⟨rfl, Or.inr ⟨rfl, fun hc => hne (hclon.1 hc).1⟩⟩
  | ok l =>
    rw [hr] at hu hclon
    have hldir : fs.IsDir l := (descend_eq_ok.1 hr).2
    have hblock : fs.Blocked l n' := by
      intro m hm
      refine hne m ?_
      rw [descend_cons, hr]
      exact hm
    cases hn : fs.dirent (n' :: l) with
    | none =>
      simp only [hn] at hu
      refine wp_unlink_above hdeny hu (fun h => by cases h) (fun _ => ?_)
        (fun e h hne => absurd (Except.error.inj h).symm hne) hdenied
      refine wp_mono hrecurse fun _ a fs' h => ?_
      rcases h with ⟨rfl, h, -⟩ | ⟨rfl, h | ⟨-, h⟩⟩
      · exact Or.inl ⟨rfl, h, hclon.2 ⟨he, by simp [hn]⟩⟩
      · exact Or.inr ⟨rfl, Or.inl h⟩
      · exact absurd ((clonable_cons_of_ok hl.isDir hr).2 (usable_of_none hn)) h
    | some d =>
      have hkeep := keeps_erase hldir hblock
      simp only [hn, if_neg (hblock.kind_ne hn)] at hu
      by_cases hmount : d.mounted = true
      · rw [if_pos hmount] at hu
        refine wp_unlink_above hdeny hu (fun h => by cases h) (fun h => by cases h)
          (fun _ _ _ => Or.inr ⟨rfl, Or.inr ⟨rfl, ?_⟩⟩) hdenied
        rw [hclon]
        simp [hn, hmount]
      · rw [if_neg hmount] at hu
        refine wp_unlink_above hdeny hu (fun _ => ?_) (fun h => by cases h) (fun e h => by cases h)
          hdenied
        have hn' := hblock.dirent_erase_self
        refine wp_mono (wp_tryMkdir_missing hdeny donor_st ih hfuel hs (hl.keeps hkeep)
          (fun k => (hdonor k).keeps hkeep) (hkeep.descend hr) hn') fun _ a fs' h => ?_
        rcases h with ⟨rfl, h⟩ | ⟨rfl, h⟩
        · have hunm : ∀ d', fs.dirent (n' :: l) = some d' → d'.mounted = false := by
            simpa [hn] using hmount
          exact Or.inl ⟨rfl, h.of_erase hr ⟨hblock, hunm⟩, hclon.2 ⟨he, by simpa [hn] using hunm⟩⟩
        · exact Or.inr ⟨rfl, Or.inl h⟩

/-- The directory above is not there. -/
theorem wp_tryMkdir_above {e : Errno} (hd : descend fs.kindAt b (n' :: r) = .error e) :
    wp (Sys p deny) (tryMkdir (fuel + 2) s donor donor_st) fs fun _ =>
      CloneSpec deny fs b (n :: n' :: r) := by
  have hm : fs.mkdir p s donor_st.inode.mode = (.error e, fs) := by rw [mkdir_spells hl hs, hd]
  have hparent := wp_unlink_parent hdeny donor_st ih hfuel hs hl hdonor hd
  rw [tryMkdir]
  refine wp_sys_call_of hm ?_ fun e he => ?_
  · by_cases he : e = .ENOENT ∨ e = .ENOTDIR
    · have := hparent he
      rcases he with rfl | rfl <;> exact this
    · have hfail : CloneSpec deny fs b (n :: n' :: r) (some (-1)) fs := by
        refine Or.inr ⟨rfl, Or.inr ⟨rfl, ?_⟩⟩
        rw [Clonable, hd]
        cases hr : descend fs.kindAt b r with
        | ok l => exact fun h => he h.1
        | error e' =>
          rw [descend_cons, hr] at hd
          cases hd
          exact fun h => he (Or.inl h.1)
      have hne : e ≠ .EEXIST := by
        rintro rfl
        rcases walk_error hd with h | h | h <;> cases h
      cases e <;> first | exact hfail | exact absurd rfl hne | exact absurd (by simp) he
  · have := hdeny e he
    cases e <;> first | exact absurd this (by decide) | exact Or.inr ⟨rfl, Or.inl ⟨_, he⟩⟩

end Parent

/-- `recyclix_clonepath_recursive` makes the directories when they can be made, and otherwise
leaves the file system alone unless a call is denied on the way. -/
theorem wp_recyclixClonepathRecursive (r : Loc) : ClonesAt p deny abs xs b r := by
  induction r with
  | nil =>
    intro fuel fs s donor hfuel hs hne hl hdonor
    obtain ⟨fuel, rfl⟩ : ∃ f, fuel = f + 2 := ⟨fuel - 2, by simp at hfuel; omega⟩
    obtain ⟨donor_st, hst⟩ := (hdonor 0).stat
    obtain ⟨d, hd, hk⟩ := isDir_iff.1 hl.isDir
    have hb : fs.statLoc b = .ok ⟨d.obj, fs.inode d.obj⟩ := statLoc_eq_ok.2 ⟨d, hd, rfl⟩
    rw [recyclixClonepathRecursive]
    refine wp_sys_query (r := .ok donor_st) (by rw [exec]; exact congrArg (·, fs) hst)
      ?_ fun e he => Or.inr ⟨rfl, Or.inl ⟨e, he⟩⟩
    refine wp_mono (wp_tryMkdir_dir hdeny (objAt_of_statLoc hb)
      (mkdir_spells_nil hl hs hne donor_st.inode.mode) ((stat_spells_nil hl hs hne).trans hb)
      ((isDir_of_statLoc hb).1 hl.isDir)) fun _ a fs' h => ?_
    rcases h with ⟨rfl, hg⟩ | ⟨rfl, h⟩
    · exact Or.inl ⟨rfl, Cloned.of_grafted_nil (descend_nil hl.isDir) hg, trivial⟩
    · exact Or.inr ⟨rfl, Or.inl h⟩
  | cons n r ih =>
    intro fuel fs s donor hfuel hs hne hl hdonor
    rw [List.length_cons] at hfuel
    obtain ⟨fuel, rfl⟩ : ∃ f, fuel = f + 3 := ⟨fuel - 3, by omega⟩
    obtain ⟨donor_st, hst⟩ := (hdonor 0).stat
    rw [recyclixClonepathRecursive]
    refine wp_sys_query (r := .ok donor_st) (by rw [exec]; exact congrArg (·, fs) hst)
      ?_ fun e he => Or.inr ⟨rfl, Or.inl ⟨e, he⟩⟩
    cases hd : descend fs.kindAt b r with
    | ok l => exact wp_tryMkdir_at hdeny hs hl hd
    | error e =>
      cases r with
      | nil =>
        rw [descend_nil hl.isDir] at hd
        cases hd
      | cons n' r => exact wp_tryMkdir_above hdeny donor_st ih (by omega) hs hl hdonor hd

end Program

/-- The same, for the run in which no call is denied. -/
theorem run_recyclixClonepathRecursive {fuel : ℕ} (hs : Spells abs xs r s) (hne : s ≠ [])
    (hl : fs.Leads p abs xs b) (hdonor : ∀ k, fs.DirPath p (dirname^[k] donor))
    (hfuel : 3 * r.length + 3 ≤ fuel) :
    CloneSpec (fun _ => false) fs b r
      ((recyclixClonepathRecursive fuel s donor).run (exec p) fs).1
      ((recyclixClonepathRecursive fuel s donor).run (exec p) fs).2 :=
  run_of_wp (wp_recyclixClonepathRecursive (fun e he => by cases he) r fuel fs s donor hfuel hs hne
    hl hdonor)

end YazzyPreload.Recyclix

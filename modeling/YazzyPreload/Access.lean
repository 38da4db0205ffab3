import YazzyPreload.Descent

/-!
# Permissions

The permission checks for a process without privileges.  The resolution of a pathname needs search
permission on every directory in which a component is looked up (`walkDirs`), links included.  To
make or remove an entry takes write permission on its directory, and only the owner may change a
mode.  `denies` gives the error of a call for these reasons, and `execAs` the answers.
-/

namespace YazzyPreload

/-! ## The directories a pathname is looked up in -/

section Walk

variable (v : View)

/-- The directory in which the component is looked up, and those in which the target of a link found
there is. -/
def enterDirs (dirs : Loc → Str → List Loc) (cur : Loc) (c : Comp) : List Loc :=
  if v cur = some .dir then
    cur ::
      match c with
      | .name n =>
        match v (n :: cur) with
        | some (.symlink t) => dirs cur t
        | _ => []
      | _ => []
  else []

def walkDirsWith (follow : Loc → Str → Except Errno Loc) (dirs : Loc → Str → List Loc) :
    Loc → List Comp → List Loc
  | _, [] => []
  | cur, c :: cs => enterDirs v dirs cur c ++
      match enter v follow cur c with
      | .error _ => []
      | .ok l => walkDirsWith follow dirs l cs

def chaseDirs : ℕ → Loc → Str → List Loc
  | 0, _, _ => []
  | d + 1, cur, t =>
    if t = [] then []
    else walkDirsWith v (chase v d) (chaseDirs d) (if isAbs t then [] else cur) (lookupComps t)

/-- The directories in which `walk` looks for a component. -/
def walkDirs (d : ℕ) : Loc → List Comp → List Loc := walkDirsWith v (chase v d) (chaseDirs v d)

variable {v} {v' : View} {d : ℕ} {cur l : Loc} {n : Name}

theorem walkDirs_cons (c : Comp) (cs : List Comp) : walkDirs v d cur (c :: cs) =
    enterDirs v (chaseDirs v d) cur c ++
      match step v d cur c with
      | .error _ => []
      | .ok l => walkDirs v d l cs := rfl

theorem walkDirs_append (cs cs' : List Comp) : walkDirs v d cur (cs ++ cs') =
    walkDirs v d cur cs ++
      match walk v d cur cs with
      | .error _ => []
      | .ok l => walkDirs v d l cs' := by
  induction cs generalizing cur with
  | nil => rfl
  | cons c cs ih =>
    rw [List.cons_append, walkDirs_cons, walkDirs_cons, walk_cons]
    cases step v d cur c with
    | error e => simp [Except.bind]
    | ok l =>
      rw [List.append_assoc]
      exact congrArg _ ih

theorem walkDirs_append_of_ok {cs : List Comp} (h : walk v d cur cs = .ok l) (cs' : List Comp) :
    walkDirs v d cur (cs ++ cs') = walkDirs v d cur cs ++ walkDirs v d l cs' := by
  rw [walkDirs_append, h]

theorem walkDirs_singleton (c : Comp) :
    walkDirs v d cur [c] = enterDirs v (chaseDirs v d) cur c := by
  rw [walkDirs_cons]
  cases step v d cur c <;> exact List.append_nil _

theorem enterDirs_of_not_dir (h : v cur ≠ some .dir) (dirs : Loc → Str → List Loc) (c : Comp) :
    enterDirs v dirs cur c = [] := if_neg h

theorem mem_enterDirs (h : v cur = some .dir) (dirs : Loc → Str → List Loc) (c : Comp) :
    cur ∈ enterDirs v dirs cur c := by
  unfold enterDirs
  rw [if_pos h]
  exact List.mem_cons_self

theorem enterDirs_here (h : v cur = some .dir) (dirs : Loc → Str → List Loc) :
    enterDirs v dirs cur .here = [cur] := if_pos h

theorem enterDirs_up (h : v cur = some .dir) (dirs : Loc → Str → List Loc) :
    enterDirs v dirs cur .up = [cur] := if_pos h

theorem enterDirs_name (h : v cur = some .dir) (hn : ∀ t, v (n :: cur) ≠ some (.symlink t))
    (dirs : Loc → Str → List Loc) : enterDirs v dirs cur (.name n) = [cur] := by
  rw [enterDirs, if_pos h]
  cases hk : v (n :: cur) with
  | none => rfl
  | some k =>
    cases k with
    | symlink t => exact absurd hk (hn t)
    | _ => rfl

theorem enterDirs_nofollow (h : v cur = some .dir) (c : Comp) :
    enterDirs v (fun _ _ => []) cur c = [cur] := by
  cases c with
  | here => exact enterDirs_here h _
  | up => exact enterDirs_up h _
  | name n =>
    refine (if_pos h).trans (congrArg (cur :: ·) ?_)
    dsimp only
    split <;> rfl

theorem chaseDirs_succ {t : Str} (ht : t ≠ []) : chaseDirs v (d + 1) cur t =
    walkDirs v d (if isAbs t then [] else cur) (lookupComps t) := if_neg ht

/-- Changes that spare the directories leave the way to one. -/
theorem walkDirs_of_spares (h : Spares v v') (hd : d ≤ maxSymlinks) {cs : List Comp}
    (hw : walk v d cur cs = .ok l) (hl : v l = some .dir) :
    walkDirs v' d cur cs = walkDirs v d cur cs := by
  induction d using Nat.strongRecOn generalizing cur cs l with
  | ind d ihd =>
    induction cs generalizing cur with
    | nil => rfl
    | cons c cs ih =>
      rw [walk_cons] at hw
      cases hs : step v d cur c with
      | error e => rw [hs] at hw; cases hw
      | ok m =>
        rw [hs] at hw
        have hm := walk_ok_dir hw hl
        have hcur := step_ok_dir hs
        have hs' : step v' d cur c = .ok m := by
          have := h.walk hd ((walk_singleton v d cur c).trans hs) hm
          rwa [walk_singleton] at this
        rw [walkDirs_cons, walkDirs_cons, hs, hs']
        refine congrArg₂ _ ?_ (ih hw)
        cases c with
        | here => rw [enterDirs_here hcur, enterDirs_here (h.dir _ hcur)]
        | up => rw [enterDirs_up hcur, enterDirs_up (h.dir _ hcur)]
        | name n =>
          by_cases hsym : ∃ t, v (n :: cur) = some (.symlink t)
          · obtain ⟨t, ht⟩ := hsym
            rw [step_name_symlink hcur ht] at hs
            rcases h.symlink n cur t hcur ht with ht' | hdead
            · rw [enterDirs, enterDirs, if_pos hcur, if_pos (h.dir _ hcur), ht, ht']
              cases d with
              | zero => cases hs
              | succ d =>
                rcases eq_or_ne t [] with rfl | hne
                · cases hs
                · rw [chase_succ hne] at hs
                  dsimp only
                  rw [chaseDirs_succ hne, chaseDirs_succ hne]
                  exact congrArg _ (ihd d (Nat.lt_succ_self d) (Nat.le_of_succ_le hd) hs hm)
            · exact absurd hm (hdead m (chase_mono hd hs (by simp)))
          · push Not at hsym
            have hn' : v' (n :: cur) = some .dir := by
              cases hk : v (n :: cur) with
              | none => rw [step_name_none hcur hk] at hs; cases hs
              | some k =>
                rw [step_name_of_ne_symlink hcur hk fun t e => hsym t (e ▸ hk)] at hs
                cases hs
                exact h.dir _ hm
            rw [enterDirs_name hcur hsym, enterDirs_name (h.dir _ hcur)]
            rintro t ht
            rw [hn'] at ht
            cases ht

/-- The directories on the way along names from directory to directory. -/
theorem mem_walkDirs_names {b r x : Loc} (hb : v b = some .dir)
    (h : ∀ s, s ≠ [] → s <:+ r → v (s ++ b) = some .dir) :
    x ∈ walkDirs v maxSymlinks b (names r) ↔ ∃ s, s <:+ r ∧ s ≠ r ∧ x = s ++ b := by
  induction r with
  | nil =>
    refine iff_of_false List.not_mem_nil ?_
    rintro ⟨s, hs, hne, -⟩
    exact hne (List.suffix_nil.1 hs)
  | cons n r ih =>
    have h' : ∀ s, s ≠ [] → s <:+ r → v (s ++ b) = some .dir := fun s hs hs' =>
      h s hs (hs'.trans (List.suffix_cons n r))
    have hw := descend_eq_ok.1 (descend_of_dirs hb h')
    have hn : v (n :: (r ++ b)) = some .dir := h (n :: r) (List.cons_ne_nil n r) List.suffix_rfl
    rw [names_cons, walkDirs_append_of_ok hw.1, List.mem_append, ih h', walkDirs_singleton,
      enterDirs_name hw.2 (by rw [hn]; simp), List.mem_singleton]
    constructor
    · rintro (⟨s, hs, hne, rfl⟩ | rfl)
      · refine ⟨s, hs.trans (List.suffix_cons n r), ?_, rfl⟩
        rintro rfl
        exact absurd hs.length_le (by simp)
      · exact ⟨r, List.suffix_cons n r, fun e => List.cons_ne_self n r e.symm, rfl⟩
    · rintro ⟨s, hs, hne, rfl⟩
      rcases List.suffix_cons_iff.1 hs with rfl | hs
      · exact absurd rfl hne
      · by_cases he : s = r
        · exact Or.inr (by rw [he])
        · exact Or.inl ⟨s, hs, he, rfl⟩

end Walk

/-! ## Permission bits -/

/-- The permission to look up names in a directory. -/
def search : Mode := 0o1

/-- The permission to change the entries of a directory. -/
def write : Mode := 0o2

/-- The object has the permission bits for the process: those of its owner, of its group, or of all
others. -/
def Inode.grants (i : Inode) (p : Process) (bits : Mode) : Bool :=
  let mask := if p.uid = i.uid then bits <<< 6 else if p.gid = i.gid then bits <<< 3 else bits
  i.mode &&& mask = mask

theorem owner_bits {m : Mode} :
    m &&& 0o300 = 0o300 ↔ m &&& 0o100 = 0o100 ∧ m &&& 0o200 = 0o200 := by
  have hsearch : (0o300 : Mode) &&& 0o100 = 0o100 := by decide
  have hwrite : (0o300 : Mode) &&& 0o200 = 0o200 := by decide
  have hboth : (0o300 : Mode) = 0o100 ||| 0o200 := by decide
  constructor
  · intro h
    rw [← hsearch, ← hwrite, ← BitVec.and_assoc, ← BitVec.and_assoc, h]
    exact ⟨rfl, rfl⟩
  · rintro ⟨h, h'⟩
    rw [hboth, BitVec.and_or_distrib_left, h, h']

/-- The owner may both search the directory and change its entries. -/
theorem grants_owner_iff {i : Inode} {p : Process} (h : p.uid = i.uid) :
    i.grants p search = true ∧ i.grants p write = true ↔ i.mode &&& 0o300 = 0o300 := by
  rw [owner_bits, Inode.grants, Inode.grants, if_pos h, if_pos h, decide_eq_true_eq,
    decide_eq_true_eq]
  rfl

namespace FileSystem

variable (fs : FileSystem) (p : Process)

def grantsAt (l : Loc) (bits : Mode) : Bool :=
  match fs.dirent l with
  | some d => (fs.inode d.obj).grants p bits
  | none => false

/-- The directories in which a call that follows links looks for components. -/
def lookupDirs (s : Str) : List Loc :=
  walkDirs fs.kindAt maxSymlinks (start p (isAbs s)) (lookupComps s)

/-- The directories in which a call on an entry looks for components. -/
def targetDirs (s : Str) : List Loc :=
  match (comps s).reverse with
  | [] => []
  | c :: init =>
    walkDirs fs.kindAt maxSymlinks (start p (isAbs s)) init.reverse ++
      match walk fs.kindAt maxSymlinks (start p (isAbs s)) init.reverse with
      | .error _ => []
      | .ok d => enterDirs fs.kindAt (fun _ _ => []) d c

/-- All these directories may be searched. -/
def Searchable (ls : List Loc) : Prop := ∀ l ∈ ls, fs.grantsAt p l search = true

instance (ls : List Loc) : Decidable (fs.Searchable p ls) :=
  inferInstanceAs (Decidable (∀ l ∈ ls, _))

/-- The error with which a call is refused to a process without privileges.  Only the calls that
clone directories are restricted here. -/
def denies : Call → Option Errno
  | .stat s => if fs.Searchable p (fs.lookupDirs p s) then none else some .EACCES
  | .mkdir s _ =>
    if fs.Searchable p (fs.targetDirs p s) then
      match fs.targetAt p atFdcwd s with
      | .ok (.entry l n) =>
        if fs.dirent (n :: l) = none ∧ fs.grantsAt p l write = false then some .EACCES else none
      | _ => none
    else some .EACCES
  | .unlink s =>
    if fs.Searchable p (fs.targetDirs p s) then
      match fs.targetAt p atFdcwd s with
      | .ok (.entry l n) =>
        if fs.dirent (n :: l) ≠ none ∧ fs.grantsAt p l write = false then some .EACCES else none
      | _ => none
    else some .EACCES
  | .chmod s _ =>
    if fs.Searchable p (fs.lookupDirs p s) then
      match fs.stat p s with
      | .ok st => if p.uid = st.inode.uid then none else some .EPERM
      | .error _ => none
    else some .EACCES
  | .chown s uid gid =>
    if fs.Searchable p (fs.lookupDirs p s) then
      match fs.stat p s with
      | .ok st =>
        if p.uid = st.inode.uid ∧ uid = st.inode.uid ∧ (gid = st.inode.gid ∨ gid = p.gid) then none
        else some .EPERM
      | .error _ => none
    else some .EACCES
  | _ => none

end FileSystem

/-- The answers to a process without privileges. -/
def execAs (p : Process) : Handler Call Call.Answer FileSystem := fun c fs =>
  match fs.denies p c with
  | some e => (.error e, fs)
  | none => exec p c fs

/-- The errors of `denies`. -/
def Errno.permission (e : Errno) : Bool := e = .EACCES ∨ e = .EPERM

theorem Errno.denial_of_permission (e : Errno) (h : e.permission = true) : e.denial = true := by
  simp only [permission, decide_eq_true_eq, Bool.decide_or, Bool.or_eq_true] at h
  rcases h with rfl | rfl <;> rfl

theorem permission_of_denies {fs : FileSystem} {p : Process} {c : Call} {e : Errno}
    (h : fs.denies p c = some e) : e.permission = true := by
  cases c with
  | stat s =>
    rw [FileSystem.denies] at h
    split_ifs at h
    cases h
    rfl
  | mkdir s mode | unlink s | chmod s mode | chown s uid gid =>
    rw [FileSystem.denies] at h
    split_ifs at h
    · split at h
      · split_ifs at h
        cases h
        rfl
      · cases h
    · cases h
      rfl
  | _ => cases h

theorem sys_execAs (p : Process) (fs : FileSystem) (c : Call) :
    Sys p Errno.permission fs c (execAs p c fs).1 (execAs p c fs).2 := by
  rw [execAs]
  cases h : fs.denies p c with
  | none => exact Or.inl rfl
  | some e => exact Or.inr ⟨e, permission_of_denies h, rfl, rfl⟩

theorem execAs_of_permitted {fs : FileSystem} {p : Process} {c : Call} (h : fs.denies p c = none) :
    execAs p c fs = exec p c fs := by rw [execAs, h]

theorem execAs_of_denied {fs : FileSystem} {p : Process} {c : Call} {e : Errno}
    (h : fs.denies p c = some e) : execAs p c fs = (.error e, fs) := by rw [execAs, h]

/-! ## Spelled pathnames -/

namespace FileSystem

variable {fs : FileSystem} {p : Process} {abs : Bool} {xs : List Str} {b l r : Loc} {n : Name}
  {s : Str}

/-- The directories on the way to `b`. -/
def reachDirs (fs : FileSystem) (p : Process) (abs : Bool) (xs : List Str) : List Loc :=
  walkDirs fs.kindAt maxSymlinks (start p abs) (xs.map Comp.ofStr)

theorem targetDirs_spells (hl : fs.Leads p abs xs b) (hs : Spells abs xs (n :: r) s) :
    fs.targetDirs p s = fs.reachDirs p abs xs ++ (walkDirs fs.kindAt maxSymlinks b (names r) ++
      (descend fs.kindAt b r).toOption.toList) := by
  have hc : (comps s).reverse = .name n :: (xs.map Comp.ofStr ++ names r).reverse := by
    rw [hs.comps, names_cons, ← List.append_assoc, List.reverse_append]
    rfl
  rw [targetDirs, hc]
  dsimp only
  rw [List.reverse_reverse, hs.isAbs, walkDirs_append_of_ok hl.walk, walk_comps hl, reachDirs,
    List.append_assoc]
  congr 2
  cases hw : walk fs.kindAt maxSymlinks b (names r) with
  | error e =>
    cases hd : descend fs.kindAt b r with
    | error e => rfl
    | ok l => rw [(descend_eq_ok.1 hd).1] at hw; cases hw
  | ok l =>
    by_cases hdir : fs.IsDir l
    · rw [descend_eq_ok.2 ⟨hw, hdir⟩]
      exact enterDirs_nofollow hdir _
    · cases hd : descend fs.kindAt b r with
      | error e => exact enterDirs_of_not_dir hdir _ _
      | ok l' =>
        obtain ⟨hw', hdir'⟩ := descend_eq_ok.1 hd
        rw [hw] at hw'
        cases hw'
        exact absurd hdir' hdir

end FileSystem

end YazzyPreload

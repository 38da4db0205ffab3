import YazzyPreload.FileSystem

/-!
# Path resolution

The kernel resolves a pathname from a starting directory one component at a time, following the
symbolic links it meets.  It only looks at the types of objects, so resolution is defined over a
`View`, a partial map from locations to types; `FileSystem.kindAt` is one.

`walk v d cur cs` resolves the components `cs` with at most `d` nested links.  `walk_keeps` is
what the proofs about the programs use: a directory that could be reached still can after changes
that spare directories and the links leading to them.
-/

namespace YazzyPreload

/-- Error numbers. -/
inductive Errno
  | ENOENT | ENOTDIR | EEXIST | EISDIR | ENOTEMPTY | EBUSY | EXDEV | EINVAL | EBADF | ECANCELED
  | ELOOP | EACCES | EPERM | EROFS | ENOSPC | EDQUOT | EIO | ENOMEM | ENAMETOOLONG | EMLINK | ERANGE
  deriving DecidableEq

/-- The errors a call may report in any state, on top of those the state calls for: they say
nothing about which entries exist. -/
def Errno.denial : Errno → Bool
  | ELOOP | EACCES | EPERM | EROFS | ENOSPC | EDQUOT | EIO | ENOMEM | ENAMETOOLONG | EMLINK
  | ERANGE => true
  | _ => false

/-- The types of the objects at the locations in use. -/
abbrev View : Type := Loc → Option Kind

/-- How many links may be nested before resolution gives up. -/
def maxSymlinks : ℕ := 40

section Walk

variable (v : View)

/-- One component, from `cur`; `follow` resolves a link found there. -/
def enter (follow : Loc → Str → Except Errno Loc) (cur : Loc) (c : Comp) : Except Errno Loc :=
  match v cur with
  | none => .error .ENOENT
  | some .dir =>
    match c with
    | .here => .ok cur
    | .up => .ok cur.tail
    | .name n =>
      match v (n :: cur) with
      | none => .error .ENOENT
      | some (.symlink t) => follow cur t
      | some _ => .ok (n :: cur)
  | some _ => .error .ENOTDIR

/-- All components, from `cur`. -/
def walkWith (follow : Loc → Str → Except Errno Loc) : Loc → List Comp → Except Errno Loc
  | cur, [] => .ok cur
  | cur, c :: cs =>
    match enter v follow cur c with
    | .error e => .error e
    | .ok l => walkWith follow l cs

/-- Where the target text `t` of a link in the directory `cur` leads. -/
def chase : ℕ → Loc → Str → Except Errno Loc
  | 0, _, _ => .error .ELOOP
  | d + 1, cur, t =>
    if t = [] then .error .ENOENT
    else walkWith v (chase d) (if isAbs t then [] else cur) (lookupComps t)

/-- Resolution of components with at most `d` nested links. -/
def walk (d : ℕ) : Loc → List Comp → Except Errno Loc := walkWith v (chase v d)

/-- One component, with at most `d` nested links. -/
def step (d : ℕ) : Loc → Comp → Except Errno Loc := enter v (chase v d)

variable {v} {d : ℕ} {cur l : Loc} {n : Name}

@[simp] theorem walk_nil (v : View) (d : ℕ) (cur : Loc) : walk v d cur [] = .ok cur := rfl

theorem walk_cons (v : View) (d : ℕ) (cur : Loc) (c : Comp) (cs : List Comp) :
    walk v d cur (c :: cs) = (step v d cur c).bind fun l => walk v d l cs := by
  rw [walk, walkWith, step]
  cases enter v (chase v d) cur c <;> rfl

theorem walk_append (v : View) (d : ℕ) (cur : Loc) (cs cs' : List Comp) :
    walk v d cur (cs ++ cs') = (walk v d cur cs).bind fun l => walk v d l cs' := by
  induction cs generalizing cur with
  | nil => rfl
  | cons c cs ih =>
    rw [List.cons_append, walk_cons, walk_cons]
    cases step v d cur c with
    | error e => rfl
    | ok l => exact ih l

theorem walk_singleton (v : View) (d : ℕ) (cur : Loc) (c : Comp) :
    walk v d cur [c] = step v d cur c := by
  rw [walk_cons]
  cases step v d cur c <;> rfl

theorem walk_concat (v : View) (d : ℕ) (cur : Loc) (cs : List Comp) (c : Comp) :
    walk v d cur (cs ++ [c]) = (walk v d cur cs).bind fun l => step v d l c := by
  rw [walk_append]
  congr 1
  funext l
  exact walk_singleton v d l c

/-! ## One component -/

theorem step_of_none (h : v cur = none) (c : Comp) : step v d cur c = .error .ENOENT := by
  simp only [step, enter, h]

theorem step_of_not_dir {k : Kind} (h : v cur = some k) (hk : k ≠ .dir) (c : Comp) :
    step v d cur c = .error .ENOTDIR := by
  cases k <;> first | exact absurd rfl hk | simp only [step, enter, h]

theorem step_here (h : v cur = some .dir) : step v d cur .here = .ok cur := by
  simp only [step, enter, h]

theorem step_up (h : v cur = some .dir) : step v d cur .up = .ok cur.tail := by
  simp only [step, enter, h]

theorem step_name_none (h : v cur = some .dir) (hn : v (n :: cur) = none) :
    step v d cur (.name n) = .error .ENOENT := by
  rw [step, enter, h]
  dsimp only
  rw [hn]

theorem step_name_symlink {t : Str} (h : v cur = some .dir) (hn : v (n :: cur) = some (.symlink t)) :
    step v d cur (.name n) = chase v d cur t := by
  rw [step, enter, h]
  dsimp only
  rw [hn]

theorem step_name_of_ne_symlink {k : Kind} (h : v cur = some .dir) (hn : v (n :: cur) = some k)
    (hk : ∀ t, k ≠ .symlink t) : step v d cur (.name n) = .ok (n :: cur) := by
  rw [step, enter, h]
  dsimp only
  rw [hn]
  cases k <;> first | rfl | exact absurd rfl (hk _)

theorem step_name_dir (h : v cur = some .dir) (hn : v (n :: cur) = some .dir) :
    step v d cur (.name n) = .ok (n :: cur) :=
  step_name_of_ne_symlink h hn fun _ => by simp

theorem step_ok_dir {c : Comp} (h : step v d cur c = .ok l) : v cur = some .dir := by
  cases hv : v cur with
  | none => rw [step_of_none hv] at h; cases h
  | some k =>
    by_cases hk : k = .dir
    · rw [hk]
    · rw [step_of_not_dir hv hk] at h
      cases h

theorem chase_succ {t : Str} (ht : t ≠ []) :
    chase v (d + 1) cur t = walk v d (if isAbs t then [] else cur) (lookupComps t) := by
  rw [chase, if_neg ht]
  rfl

/-- What a walk that ends in a directory starts from. -/
theorem walk_ok_dir {cs : List Comp} (h : walk v d cur cs = .ok l) (hl : v l = some .dir) :
    v cur = some .dir := by
  cases cs with
  | nil =>
    cases h
    exact hl
  | cons c cs =>
    rw [walk_cons] at h
    cases hs : step v d cur c with
    | error e => rw [hs] at h; cases h
    | ok m => exact step_ok_dir hs

/-- The errors of path resolution. -/
def Errno.OfWalk (e : Errno) : Prop := e = .ENOENT ∨ e = .ENOTDIR ∨ e = .ELOOP

theorem enter_error {f : Loc → Str → Except Errno Loc}
    (hf : ∀ cur t e, f cur t = .error e → e.OfWalk) {c : Comp} {e : Errno}
    (h : enter v f cur c = .error e) : e.OfWalk := by
  rcases hv : v cur with _ | k
  · simp only [enter, hv] at h
    cases h
    exact Or.inl rfl
  · by_cases hk : k = .dir
    · subst hk
      cases c with
      | here => simp [enter, hv] at h
      | up => simp [enter, hv] at h
      | name n =>
        rcases hn : v (n :: cur) with _ | k
        · simp only [enter, hv, hn] at h
          cases h
          exact Or.inl rfl
        · cases k <;> simp only [enter, hv, hn] at h <;> first | cases h | exact hf _ _ _ h
    · cases k <;> simp only [enter, hv] at h <;>
        first | exact absurd rfl hk | (cases h; exact Or.inr (Or.inl rfl))

theorem walkWith_error {f : Loc → Str → Except Errno Loc}
    (hf : ∀ cur t e, f cur t = .error e → e.OfWalk) {cs : List Comp} {e : Errno}
    (h : walkWith v f cur cs = .error e) : e.OfWalk := by
  induction cs generalizing cur with
  | nil => cases h
  | cons c cs ih =>
    rw [walkWith] at h
    cases he : enter v f cur c with
    | error e' =>
      rw [he] at h
      cases h
      exact enter_error hf he
    | ok l =>
      rw [he] at h
      exact ih h

theorem chase_error {t : Str} {e : Errno} (h : chase v d cur t = .error e) : e.OfWalk := by
  induction d generalizing cur t e with
  | zero =>
    cases h
    exact Or.inr (Or.inr rfl)
  | succ d ih =>
    rw [chase] at h
    split_ifs at h with ht
    · cases h
      exact Or.inl rfl
    · exact walkWith_error (fun _ _ _ h => ih h) h
    · exact walkWith_error (fun _ _ _ h => ih h) h

theorem walk_error {cs : List Comp} {e : Errno} (h : walk v d cur cs = .error e) : e.OfWalk :=
  walkWith_error (fun _ _ _ h => chase_error h) h

/-! ## More links allowed -/

theorem enter_mono {f f' : Loc → Str → Except Errno Loc}
    (hf : ∀ cur t r, f cur t = r → r ≠ .error .ELOOP → f' cur t = r) {c : Comp}
    {r : Except Errno Loc} (h : enter v f cur c = r) (hr : r ≠ .error .ELOOP) :
    enter v f' cur c = r := by
  rcases hv : v cur with _ | k
  · simpa only [enter, hv] using h
  · by_cases hk : k = .dir
    · subst hk
      cases c with
      | here => simpa only [enter, hv] using h
      | up => simpa only [enter, hv] using h
      | name n =>
        rcases hn : v (n :: cur) with _ | k
        · simpa only [enter, hv, hn] using h
        · cases k <;> simp only [enter, hv, hn] at h ⊢ <;> first | exact h | exact hf _ _ _ h hr
    · cases k <;> first | (simpa only [enter, hv] using h) | exact absurd rfl hk

theorem walkWith_mono {f f' : Loc → Str → Except Errno Loc}
    (hf : ∀ cur t r, f cur t = r → r ≠ .error .ELOOP → f' cur t = r) {cs : List Comp}
    {r : Except Errno Loc} (h : walkWith v f cur cs = r) (hr : r ≠ .error .ELOOP) :
    walkWith v f' cur cs = r := by
  induction cs generalizing cur with
  | nil => exact h
  | cons c cs ih =>
    rw [walkWith] at h ⊢
    cases he : enter v f cur c with
    | error e =>
      rw [he] at h
      have hr' : Except.error e ≠ .error .ELOOP := h.symm ▸ hr
      rw [enter_mono hf he hr']
      exact h
    | ok l =>
      rw [he] at h
      rw [enter_mono hf he (by simp)]
      exact ih h

theorem chase_mono {d' : ℕ} (hd : d ≤ d') {t : Str} {r : Except Errno Loc}
    (h : chase v d cur t = r) (hr : r ≠ .error .ELOOP) : chase v d' cur t = r := by
  induction d generalizing d' cur t r with
  | zero => exact absurd h.symm hr
  | succ d ih =>
    obtain ⟨d', rfl⟩ := Nat.exists_eq_add_of_le' (Nat.lt_of_lt_of_le d.succ_pos hd)
    rw [chase] at h ⊢
    split_ifs at h ⊢ with ht
    · exact h
    · exact walkWith_mono (fun cur t r h hr => ih (Nat.le_of_succ_le_succ hd) h hr) h hr
    · exact walkWith_mono (fun cur t r h hr => ih (Nat.le_of_succ_le_succ hd) h hr) h hr

/-! ## Changing the tree -/

/-- The view `v'` has all the directories of `v`, and all its links except some that do not lead
to a directory. -/
structure Spares (v v' : View) : Prop where
  dir : ∀ l, v l = some .dir → v' l = some .dir
  symlink : ∀ n l t, v l = some .dir → v (n :: l) = some (.symlink t) →
    v' (n :: l) = some (.symlink t) ∨
      ∀ m, chase v maxSymlinks l t = .ok m → v m ≠ some .dir

/-- Directories that can be reached in `v` can be reached in `v'`. -/
def Keeps (v v' : View) : Prop :=
  ∀ cur cs l, walk v maxSymlinks cur cs = .ok l → v l = some .dir →
    walk v' maxSymlinks cur cs = .ok l ∧ v' l = some .dir

theorem Keeps.refl (v : View) : Keeps v v := fun _ _ _ h hl => ⟨h, hl⟩

theorem Keeps.trans {v v' v'' : View} (h : Keeps v v') (h' : Keeps v' v'') : Keeps v v'' :=
  fun cur cs l hw hl => h' cur cs l (h cur cs l hw hl).1 (h cur cs l hw hl).2

theorem Keeps.dir {v v' : View} (h : Keeps v v') (hl : v l = some .dir) : v' l = some .dir :=
  (h l [] l rfl hl).2

theorem Spares.walk {v v' : View} (h : Spares v v') (hd : d ≤ maxSymlinks) {cs : List Comp}
    (hw : walk v d cur cs = .ok l) (hl : v l = some .dir) : walk v' d cur cs = .ok l := by
  induction d using Nat.strongRecOn generalizing cur cs l with
  | ind d ihd =>
    induction cs generalizing cur with
    | nil => exact hw
    | cons c cs ih =>
      rw [walk_cons] at hw ⊢
      cases hs : step v d cur c with
      | error e => rw [hs] at hw; cases hw
      | ok m =>
        rw [hs] at hw
        have hm := walk_ok_dir hw hl
        have hcur := step_ok_dir hs
        suffices hs' : step v' d cur c = .ok m by
          rw [hs']
          exact ih hw
        cases c with
        | here => rwa [step_here (h.dir _ hcur), ← step_here hcur]
        | up => rwa [step_up (h.dir _ hcur), ← step_up hcur]
        | name n =>
          cases hk : v (n :: cur) with
          | none => rw [step_name_none hcur hk] at hs; cases hs
          | some k =>
            by_cases hsym : ∃ t, k = .symlink t
            · obtain ⟨t, rfl⟩ := hsym
              rw [step_name_symlink hcur hk] at hs
              rcases h.symlink n cur t hcur hk with hk' | hdead
              · rw [step_name_symlink (h.dir _ hcur) hk']
                cases d with
                | zero => cases hs
                | succ d =>
                  rcases eq_or_ne t [] with rfl | ht
                  · cases hs
                  · rw [chase_succ ht] at hs ⊢
                    exact ihd d (Nat.lt_succ_self d) (Nat.le_of_succ_le hd) hs hm
              · exact absurd hm (hdead m (chase_mono hd hs (by simp)))
            · push Not at hsym
              rw [step_name_of_ne_symlink hcur hk hsym] at hs
              cases hs
              exact step_name_dir (h.dir _ hcur) (h.dir _ hm)

theorem Spares.keeps {v v' : View} (h : Spares v v') : Keeps v v' :=
  fun _ _ _ hw hl => ⟨h.walk le_rfl hw hl, h.dir _ hl⟩

/-- The view without the locations in `S`. -/
def hide (v : View) (S : Loc → Prop) [DecidablePred S] : View := fun l => if S l then none else v l

section Hide

variable {S : Loc → Prop} [DecidablePred S]

theorem hide_eq_some {k : Kind} : hide v S l = some k ↔ ¬ S l ∧ v l = some k := by
  unfold hide
  split_ifs with h <;> simp [h]

theorem spares_hide (v : View) (S : Loc → Prop) [DecidablePred S] : Spares (hide v S) v :=
  ⟨fun _ h => (hide_eq_some.1 h).2, fun _ _ _ _ h => Or.inl (hide_eq_some.1 h).2⟩

/-- What leads to a directory without `S` still does after changes in `S` and at places where there
was nothing. -/
theorem Spares.hide {v' v'' : View} (h : Spares v v')
    (hS : ∀ l, ¬ S l → v l ≠ none → v'' l = v' l) : Spares (hide v S) v'' := by
  refine ⟨fun l hl => ?_, fun n l t hl ht => ?_⟩
  · obtain ⟨hnS, hv⟩ := hide_eq_some.1 hl
    rw [hS l hnS (by simp [hv]), h.dir l hv]
  · obtain ⟨hnS, hv⟩ := hide_eq_some.1 ht
    rcases h.symlink n l t (hide_eq_some.1 hl).2 hv with h' | hdead
    · left
      rw [hS _ hnS (by simp [hv]), h']
    · right
      intro m hm hdir
      have ht0 : t ≠ [] := by
        rintro rfl
        cases hm
      have hm' : YazzyPreload.walk (YazzyPreload.hide v S) (maxSymlinks - 1)
          (if isAbs t then [] else l) (lookupComps t) = .ok m := by
        rw [← chase_succ ht0]
        exact hm
      refine hdead m ?_ (hide_eq_some.1 hdir).2
      have hw := (spares_hide v S).walk (Nat.sub_le _ _) hm' hdir
      rw [← chase_succ ht0] at hw
      exact hw

end Hide

end Walk

/-! ## What a pathname names -/

/-- What a pathname names, as the calls that make and remove entries see it. -/
inductive Target
  | root
  | dot
  | dotdot
  | entry (dir : Loc) (n : Name)
  deriving DecidableEq

section Names

variable (v : View)

/-- The last component `c`, in `d`. -/
def lastTarget (d : Loc) (c : Comp) : Except Errno Target :=
  match c, v d with
  | .name n, some .dir => .ok (.entry d n)
  | .name _, none => .error .ENOENT
  | .here, some .dir => .ok .dot
  | .here, none => .ok .dot
  | .up, some .dir => .ok .dotdot
  | .up, none => .ok .dotdot
  | _, some _ => .error .ENOTDIR

/-- All but the last component are resolved; the last is left alone. -/
def target (cur : Loc) (s : Str) : Except Errno Target :=
  if s = [] then .error .ENOENT
  else
    match (comps s).reverse with
    | [] => .ok .root
    | c :: init => (walk v maxSymlinks cur init.reverse).bind fun d => lastTarget v d c

/-- The location a pathname leads to.  Without `follow` a link in last place is not followed,
unless a slash comes after it. -/
def lookup (cur : Loc) (s : Str) (follow : Bool) : Except Errno Loc :=
  if s = [] then .error .ENOENT
  else if follow || slashed s then walk v maxSymlinks cur (lookupComps s)
  else
    match target v cur s with
    | .error e => .error e
    | .ok (.entry d n) => if v (n :: d) = none then .error .ENOENT else .ok (n :: d)
    | .ok _ => walk v maxSymlinks cur (lookupComps s)

variable {v} {cur d : Loc} {s : Str} {n : Name}

theorem ne_nil_of_comps {xs : List Comp} {c : Comp} (h : comps s = xs ++ [c]) : s ≠ [] := by
  rintro rfl
  simp [comps] at h

theorem target_of_comps {xs : List Comp} {c : Comp} (h : comps s = xs ++ [c]) :
    target v cur s = (walk v maxSymlinks cur xs).bind fun d => lastTarget v d c := by
  rw [target, if_neg (ne_nil_of_comps h), h, List.reverse_concat]
  dsimp only
  rw [List.reverse_reverse]

theorem lastTarget_entry_iff {c : Comp} {d' : Loc} :
    lastTarget v d c = .ok (.entry d' n) ↔ c = .name n ∧ d' = d ∧ v d = some .dir := by
  cases c <;> rcases hv : v d with _ | k <;> (try cases k) <;> simp [lastTarget, hv, eq_comm]
  tauto

theorem target_eq_entry_iff : target v cur s = .ok (.entry d n) ↔
    ∃ xs, comps s = xs ++ [.name n] ∧ walk v maxSymlinks cur xs = .ok d ∧ v d = some .dir := by
  rcases List.eq_nil_or_concat (comps s) with h | ⟨xs, c, h⟩
  · rw [target, h]
    split_ifs <;> simp
  · rw [List.concat_eq_append] at h
    rw [target_of_comps h]
    constructor
    · intro ht
      cases hw : walk v maxSymlinks cur xs with
      | error e => rw [hw] at ht; cases ht
      | ok d' =>
        rw [hw] at ht
        obtain ⟨rfl, rfl, hd⟩ := lastTarget_entry_iff.1 ht
        exact ⟨xs, h, hw, hd⟩
    · rintro ⟨ys, hys, hw, hd⟩
      obtain ⟨rfl, hc⟩ := List.append_inj' (h.symm.trans hys) rfl
      rw [List.singleton_inj] at hc
      subst hc
      rw [hw]
      exact lastTarget_entry_iff.2 ⟨rfl, rfl, hd⟩

/-- A pathname that names an entry still does after the changes. -/
theorem Keeps.target {v' : View} (h : Keeps v v') (ht : target v cur s = .ok (.entry d n)) :
    target v' cur s = .ok (.entry d n) := by
  obtain ⟨xs, hs, hw, hd⟩ := target_eq_entry_iff.1 ht
  obtain ⟨hw', hd'⟩ := h cur xs d hw hd
  exact target_eq_entry_iff.2 ⟨xs, hs, hw', hd'⟩

end Names

end YazzyPreload

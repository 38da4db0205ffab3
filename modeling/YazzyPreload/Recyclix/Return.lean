import YazzyPreload.Recyclix.Ancestor
import YazzyPreload.Update

/-!
# What the value returned says

Any of the calls may fail.  `Tells` is what the caller of `unlinkat` wants to know from the value
returned: whether the entry is still there.  `Tracks` follows the entry through the calls that come
before the last one, and `unlinkat_tells_iff` says which events make the value wrong.
-/

namespace YazzyPreload.Recyclix

open FileSystem Prog

/-- A call made on a file system, and its answer. -/
abbrev Ev : Type := Event Call Call.Answer FileSystem

/-- `realpath` failed. -/
def RealpathFails : Ev → Prop
  | ⟨_, .realpath _, .error _⟩ => True
  | _ => False

/-- `renameat` found one object under both names. -/
def Relinks (p : Process) : Ev → Prop
  | ⟨fs, .renameat i s j t, .ok _⟩ => ∃ l n l' n', fs.targetAt p i s = .ok (.entry l n) ∧
      fs.targetAt p j t = .ok (.entry l' n') ∧ fs.objAt (n :: l) = fs.objAt (n' :: l')
  | _ => False

/-- `unlink`, which only the clone calls, removed the entry at `e`. -/
def Unlinks (p : Process) (e : Loc) : Ev → Prop
  | ⟨fs, .unlink s, .ok _⟩ => ∃ l n, fs.targetAt p atFdcwd s = .ok (.entry l n) ∧ n :: l = e
  | _ => False

/-- One of the calls that end `unlinkat` succeeded. -/
def Ends : Ev → Prop
  | ⟨_, .renameat .., .ok _⟩ | ⟨_, .unlinkat .., .ok _⟩ => True
  | _ => False

/-- The events after which the value returned is wrong. -/
def Misleads (p : Process) (e : Loc) (es : List Ev) : Prop :=
  (∃ ev ∈ es, RealpathFails ev) ∨ (∃ ev ∈ es, Relinks p ev) ∨
    ((∃ ev ∈ es, Unlinks p e ev) ∧ ∀ ev ∈ es, ¬ Ends ev)

/-- 0 is returned and the entry at `e` is gone, or -1 is returned and it still refers to `o`. -/
def Tells (a : Option Exit) (fs : FileSystem) (e : Loc) (o : Obj) : Prop :=
  ∃ x, a = some x ∧
    ((x.retval = 0 ∧ fs.dirent e = none) ∨ (x.retval = -1 ∧ fs.objAt e = some o))

/-- Events before the last call after which nothing is lost yet. -/
def Quiet (p : Process) (ev : Ev) : Prop := ¬ RealpathFails ev ∧ ¬ Relinks p ev ∧ ¬ Ends ev

/-- Before the last call: the entry is as it was, or the clone has removed it and what is there now is
new. -/
structure Tracks (p : Process) (e : Loc) (o : Obj) (k : ℕ) (es : List Ev) (fs : FileSystem) :
    Prop where
  quiet : ∀ ev ∈ es, Quiet p ev
  nextIno : k ≤ fs.nextIno
  entry : ((∀ ev ∈ es, ¬ Unlinks p e ev) ∧ fs.objAt e = some o) ∨
    ((∃ ev ∈ es, Unlinks p e ev) ∧ ∀ o', fs.objAt e = some o' → k ≤ o'.ino)

variable {fs fs' : FileSystem} {p : Process} {e l : Loc} {n : Name} {o : Obj} {k fuel : ℕ}
  {st1 st2 : Stat} {dirfd : ℤ} {pathname dir : Str} {flags : Flags} {env : Env} {es es' : List Ev}
  {ev : Ev} {c : Call} {deny : Errno → Bool}

/-! ## Calls before the last one -/

theorem forall_mem_concat {P : Ev → Prop} (h : ∀ ev ∈ es, P ev) (hev : P ev) :
    ∀ ev' ∈ es ++ [ev], P ev' :=
  List.forall_mem_append.2 ⟨h, List.forall_mem_singleton.2 hev⟩

/-- A call that leaves the entry alone, or makes a new one where it was. -/
theorem Tracks.keep (h : Tracks p e o k es fs) (hq : Quiet p ev) (hu : ¬ Unlinks p e ev)
    (hn : fs.nextIno ≤ fs'.nextIno)
    (ho : ∀ o', fs'.objAt e = some o' → fs.objAt e = some o' ∨ k ≤ o'.ino)
    (ho' : fs.objAt e = some o → fs'.objAt e = some o) : Tracks p e o k (es ++ [ev]) fs' := by
  refine ⟨forall_mem_concat h.quiet hq, h.nextIno.trans hn, ?_⟩
  rcases h.entry with ⟨hno, hobj⟩ | ⟨⟨ev', hev', hun⟩, hnew⟩
  · exact Or.inl ⟨forall_mem_concat hno hu, ho' hobj⟩
  · refine Or.inr ⟨⟨ev', List.mem_append_left _ hev', hun⟩, fun o' h' => ?_⟩
    exact (ho o' h').elim (hnew o') id

theorem Tracks.query (h : Tracks p e o k es fs) (hq : Quiet p ev) (hu : ¬ Unlinks p e ev) :
    Tracks p e o k (es ++ [ev]) fs := h.keep hq hu le_rfl (fun _ => Or.inl) id

theorem Tracks.mkdir (h : Tracks p e o k es fs) (s : Str) (mode : Mode) :
    Tracks p e o k (es ++ [⟨fs, .mkdir s mode, (fs.mkdir p s mode).1⟩]) (fs.mkdir p s mode).2 := by
  rcases fs.mkdir_cases p s mode with ⟨x, hx⟩ | ⟨l, n, ht, hd, hx⟩
  · rw [hx]
    exact h.query ⟨id, id, id⟩ id
  · rw [hx]
    have hdirent := dirent_addChild (isDir_of_targetAt ht) hd (fs.newDir p l mode)
    refine h.keep ⟨id, id, id⟩ id ?_ (fun o' ho' => ?_) fun ho => ?_
    · rw [nextIno_addChild (isDir_of_targetAt ht) hd]
      omega
    · rw [objAt, hdirent] at ho'
      split_ifs at ho'
      · cases ho'
        exact Or.inr h.nextIno
      · exact Or.inl ho'
    · have hne : e ≠ n :: l := by
        rintro rfl
        rw [objAt, hd] at ho
        cases ho
      rw [objAt, hdirent, if_neg hne]
      exact ho

theorem Tracks.unlink (h : Tracks p e o k es fs) (s : Str) :
    Tracks p e o k (es ++ [⟨fs, .unlink s, (fs.unlinkEntry p atFdcwd s).1⟩])
      (fs.unlinkEntry p atFdcwd s).2 := by
  rcases fs.unlinkEntry_cases p atFdcwd s with ⟨x, hx⟩ | ⟨l, n, ht, hd, hc, hx⟩
  · rw [hx]
    exact h.query ⟨id, id, id⟩ id
  · rw [hx]
    have hdirent := dirent_erase (List.cons_ne_nil n l) hc
    have hnext : fs.nextIno ≤ (fs.erase (n :: l)).nextIno := by rw [nextIno_erase]
    by_cases hne : e = n :: l
    · refine ⟨forall_mem_concat h.quiet ⟨id, id, id⟩, h.nextIno.trans hnext, Or.inr ⟨?_, ?_⟩⟩
      · exact ⟨_, List.mem_append_right _ List.mem_cons_self, l, n, ht, hne.symm⟩
      · intro o' ho'
        rw [objAt, hdirent, if_pos hne] at ho'
        cases ho'
    · have hobj : (fs.erase (n :: l)).objAt e = fs.objAt e := by
        rw [objAt, hdirent, if_neg hne, objAt]
      refine h.keep ⟨id, id, id⟩ ?_ hnext (fun o' ho' => ?_) fun ho => ?_
      · rintro ⟨l', n', ht', he⟩
        rw [ht] at ht'
        cases ht'
        exact hne he.symm
      · rw [← hobj]
        exact Or.inl ho'
      · rw [hobj]
        exact ho

theorem Tracks.adjust (h : Tracks p e o k es fs) (hq : Quiet p ev) (hu : ¬ Unlinks p e ev) (o' : Obj)
    (f : Inode → Inode) (hf : ∀ i, (f i).kind = i.kind) :
    Tracks p e o k (es ++ [ev]) (fs.adjust o' f hf) :=
  h.keep hq hu (le_of_eq (nextIno_adjust fs o' f hf).symm) (fun _ => Or.inl) id

/-- Every call but the last ones is tracked, as long as it is not a failing `realpath`. -/
theorem Tracks.call {r : c.Answer} (h : Tracks p e o k es fs) (hc : ¬ Final c)
    (hstep : Sys p deny fs c r fs') (hr : ¬ RealpathFails ⟨fs, c, r⟩) :
    Tracks p e o k (es ++ [⟨fs, c, r⟩]) fs' := by
  rcases hstep with hx | ⟨x, -, rfl, rfl⟩
  · obtain ⟨rfl, rfl⟩ : (exec p c fs).1 = r ∧ (exec p c fs).2 = fs' := by
      rw [hx]
      exact ⟨rfl, rfl⟩
    cases c with
    | mkdir s mode => exact h.mkdir s mode
    | unlink s => exact h.unlink s
    | chmod s mode =>
      rcases fs.chmod_cases p s mode with ⟨x, hx⟩ | ⟨o', hx⟩
      · rw [exec, hx]
        exact h.query ⟨id, id, id⟩ id
      · rw [exec, hx]
        refine h.adjust ?_ ?_ o' (fun i => { i with mode := mode }) fun _ => rfl
        · exact ⟨id, id, id⟩
        · exact id
    | chown s uid gid =>
      rcases fs.chown_cases p s uid gid with ⟨x, hx⟩ | ⟨o', hx⟩
      · rw [exec, hx]
        exact h.query ⟨id, id, id⟩ id
      · rw [exec, hx]
        refine h.adjust ?_ ?_ o' (fun i => { i with uid := uid, gid := gid }) fun _ => rfl
        · exact ⟨id, id, id⟩
        · exact id
    | renameat i s j t => exact absurd trivial hc
    | unlinkat i s flags => exact absurd trivial hc
    | _ => exact h.query ⟨hr, id, id⟩ id
  · cases c <;> first | exact absurd trivial hc | exact h.query ⟨hr, id, id⟩ id

/-! ## The last call -/

section Last

variable (h : Tracks p e o k es fs) (ho : o.ino < k)

include h

theorem Tracks.misleads_iff : Misleads p e es ↔ ∃ ev ∈ es, Unlinks p e ev := by
  constructor
  · rintro (⟨ev, hev, hr⟩ | ⟨ev, hev, hl⟩ | ⟨hu, -⟩)
    · exact absurd hr (h.quiet ev hev).1
    · exact absurd hl (h.quiet ev hev).2.1
    · exact hu
  · exact fun hu => Or.inr (Or.inr ⟨hu, fun ev hev => (h.quiet ev hev).2.2⟩)

include ho

/-- The entry is there just when the clone has not removed it. -/
theorem Tracks.objAt_iff : fs.objAt e = some o ↔ ¬ Misleads p e es := by
  rw [h.misleads_iff]
  rcases h.entry with ⟨hno, hobj⟩ | ⟨hu, hnew⟩
  · exact iff_of_true hobj (fun ⟨ev, hev, hu⟩ => hno ev hev hu)
  · refine iff_of_false (fun hobj => ?_) (not_not.2 hu)
    have := hnew o hobj
    omega

/-- Where nothing else is called, -1 is the right value for an entry that is still there. -/
theorem Tracks.tells_neg_one (x : Option Errno) :
    Tells (some ⟨-1, x⟩) fs e o ↔ ¬ Misleads p e es := by
  rw [← h.objAt_iff ho]
  constructor
  · rintro ⟨y, hy, ⟨h0, -⟩ | ⟨-, hobj⟩⟩
    · cases hy
      cases h0
    · exact hobj
  · exact fun hobj => ⟨_, rfl, Or.inr ⟨rfl, hobj⟩⟩

/-- The last call fails. -/
theorem Tracks.tells_last (hq : Quiet p ev) (hu : ¬ Unlinks p e ev) :
    Tells (some (.plain (-1))) fs e o ↔ ¬ Misleads p e (es ++ [ev]) :=
  (h.query hq hu).tells_neg_one ho none

omit h ho in
theorem tells_zero : Tells (some (.plain 0)) fs e o ↔ fs.dirent e = none := by
  constructor
  · rintro ⟨y, hy, ⟨-, hd⟩ | ⟨h1, -⟩⟩
    · exact hd
    · cases hy
      cases h1
  · exact fun hd => ⟨_, rfl, Or.inl ⟨rfl, hd⟩⟩

omit ho in
/-- The last call succeeds. -/
theorem Tracks.not_misleads (hr : ¬ RealpathFails ev) (hl : ¬ Relinks p ev) (he : Ends ev) :
    ¬ Misleads p e (es ++ [ev]) := by
  rintro (⟨ev', hev', hr'⟩ | ⟨ev', hev', hl'⟩ | ⟨-, hno⟩)
  · exact forall_mem_concat (fun ev hev => (h.quiet ev hev).1) hr ev' hev' hr'
  · exact forall_mem_concat (fun ev hev => (h.quiet ev hev).2.1) hl ev' hev' hl'
  · exact hno ev (List.mem_append_right _ List.mem_cons_self) he

/-- Ending with the real `unlinkat`. -/
theorem wp_realUnlink_tells (ht : fs.targetAt p dirfd pathname = .ok (.entry l n))
    (hel : e = n :: l) : wp (Sys p deny) (realUnlink dirfd pathname flags) fs fun es' a fs' =>
      Tells a fs' e o ↔ ¬ Misleads p e (es ++ es') := by
  rw [realUnlink, wp_sys_call]
  refine ⟨?_, fun x _ => h.tells_last ho ⟨id, id, id⟩ id⟩
  rcases fs.unlinkat_cases p dirfd pathname flags with ⟨x, hx⟩ | ⟨l', n', ht', -, hc, hx⟩
  · rw [exec, hx]
    exact h.tells_last ho ⟨id, id, id⟩ id
  · rw [ht] at ht'
    cases ht'
    rw [exec, hx]
    refine iff_of_true (tells_zero.2 ?_) (h.not_misleads id id trivial)
    rw [dirent_erase (List.cons_ne_nil n l) hc, if_pos hel]

/-- Ending with `renameat`. -/
theorem wp_renameat_tells {newdirfd : ℤ} {new : Str}
    (ht : fs.targetAt p dirfd pathname = .ok (.entry l n)) (hel : e = n :: l) :
    wp (Sys p deny) (.call (.renameat dirfd pathname newdirfd new) fun r =>
        .ret (some (.plain (retvalOf r)))) fs fun es' a fs' =>
      Tells a fs' e o ↔ ¬ Misleads p e (es ++ es') := by
  rw [wp_sys_call]
  refine ⟨?_, fun x _ => h.tells_last ho ⟨id, id, id⟩ id⟩
  rcases fs.renameat_cases p dirfd pathname newdirfd new with
    ⟨x, hx⟩ | ⟨l₁, n₁, l', n', ht₁, ht', ⟨hd, hsame, hx⟩ | ⟨hm, hx⟩⟩
  · rw [exec, hx]
    exact h.tells_last ho ⟨id, id, id⟩ id
  · rw [ht] at ht₁
    cases ht₁
    rw [exec, hx]
    refine iff_of_false (fun htell => hd ?_) (not_not.2 ?_)
    · rw [← hel]
      exact tells_zero.1 htell
    · exact Or.inr (Or.inl ⟨_, List.mem_append_right _ List.mem_cons_self, l, n, l', n', ht, ht',
        hsame⟩)
  · rw [ht] at ht₁
    cases ht₁
    rw [exec, hx]
    refine iff_of_true (tells_zero.2 ?_) (h.not_misleads id ?_ trivial)
    · rw [hel, dirent_move hm.guard, origin, if_neg hm.not_suffix, if_pos List.suffix_rfl,
        Option.bind_none]
    · rintro ⟨l₂, n₂, l₃, n₃, ht₂, ht₃, hsame⟩
      rw [ht] at ht₂
      rw [ht'] at ht₃
      cases ht₂
      cases ht₃
      exact hm.objAt_ne hsame

end Last

/-! ## The calls before -/

/-- An event that does nothing to the entry. -/
def Still (p : Process) (e : Loc) (ev : Ev) : Prop := Quiet p ev ∧ ¬ Unlinks p e ev

theorem Tracks.still (h : Tracks p e o k es fs) (hes : ∀ ev ∈ es', Still p e ev) :
    Tracks p e o k (es ++ es') fs := by
  induction es' generalizing es with
  | nil =>
    rw [List.append_nil]
    exact h
  | cons ev es' ih =>
    have hev := hes ev List.mem_cons_self
    have := ih (h.query hev.1 hev.2) fun ev' hev' => hes ev' (List.mem_cons_of_mem ev hev')
    rwa [List.append_assoc] at this

theorem still_of_stat {dir : Str} (h : ev.call = .stat dir) : Still p e ev := by
  obtain ⟨fs, c, r⟩ := ev
  obtain rfl : c = .stat dir := h
  exact ⟨⟨id, id, id⟩, id⟩

/-- Only `stat` is called, and the recycler that is chosen was examined. -/
theorem wp_nextRecycler (items : List Str) :
    wp (Sys p deny) (nextRecycler env pathname st1 items) fs fun es c fs' => fs' = fs ∧
      (∀ ev ∈ es, ∃ dir, ev.call = .stat dir) ∧ (∀ x, c = .exit x → x.retval = -1) ∧
      ∀ dir ino, c = .recycler dir ino → ∃ st2 : Stat, fs.stat p dir = .ok st2 ∧
        (⟨fs, .stat dir, .ok st2⟩ : Ev) ∈ es ∧ st2.obj.ino = ino := by
  have hnil : ∀ ev ∈ ([] : List Ev), ∃ dir, ev.call = .stat dir := fun ev hev =>
    absurd hev List.not_mem_nil
  induction items with
  | nil => exact ⟨rfl, hnil, ⟨fun x hx => (by cases hx), fun dir ino h => (by cases h)⟩⟩
  | cons item items ih =>
    unfold nextRecycler
    dsimp only
    split_ifs
    · exact ih
    · cases readOptions env.regcomp pathname (binOptions (expandHome env.home item)) .initial with
      | none => exact ⟨rfl, hnil, ⟨fun x hx => (by cases hx; rfl), fun dir ino h => (by cases h)⟩⟩
      | some lim =>
        have hnext : ∀ ev : Ev, (∃ dir, ev.call = .stat dir) →
            wp (Sys p deny) (nextRecycler env pathname st1 items) fs fun es c fs' => fs' = fs ∧
              (∀ ev' ∈ ev :: es, ∃ dir, ev'.call = .stat dir) ∧
              (∀ x, c = .exit x → x.retval = -1) ∧
              ∀ dir ino, c = .recycler dir ino → ∃ st2 : Stat, fs.stat p dir = .ok st2 ∧
                (⟨fs, .stat dir, .ok st2⟩ : Ev) ∈ ev :: es ∧ st2.obj.ino = ino := by
          refine fun ev hev => wp_mono ih fun es c fs' h => ?_
          obtain ⟨hfs, hes, hexit, hrec⟩ := h
          refine ⟨hfs, List.forall_mem_cons.2 ⟨hev, hes⟩, hexit, fun dir ino hc => ?_⟩
          obtain ⟨st2, hst, hmem, hino⟩ := hrec dir ino hc
          exact ⟨st2, hst, List.mem_cons_of_mem _ hmem, hino⟩
        rw [wp_sys_call]
        refine ⟨?_, fun x _ => hnext _ ⟨_, rfl⟩⟩
        rw [exec]
        dsimp only
        cases hst : fs.stat p (binDir (expandHome env.home item)) with
        | error x => exact hnext _ ⟨_, rfl⟩
        | ok st2 =>
          dsimp only
          split_ifs
          · exact hnext _ ⟨_, rfl⟩
          · refine ⟨rfl, List.forall_mem_cons.2 ⟨⟨_, rfl⟩, hnil⟩, ⟨fun x hx => (by cases hx), ?_⟩⟩
            intro dir ino h
            cases h
            exact ⟨st2, hst, List.mem_cons_self, rfl⟩
          · exact hnext _ ⟨_, rfl⟩

theorem wp_findRoot_still (e : Loc) (rino : ℕ) (fq t : Str) :
    wp (Sys p deny) (findRoot st1 rino fq fuel t) fs fun es a _ =>
      (∀ ev ∈ es, Still p e ev) ∧ ∀ x, a = some (.exit x) → x.retval = -1 := by
  have hnil : ∀ ev ∈ ([] : List Ev), Still p e ev := fun ev hev => absurd hev List.not_mem_nil
  induction fuel generalizing t with
  | zero => exact ⟨hnil, fun x hx => by cases hx⟩
  | succ fuel ih =>
    unfold findRoot
    dsimp only
    generalize (if dirname t = ['/', '/'] then ['/'] else dirname t) = tmp
    rw [wp_sys_call]
    refine ⟨?_, fun x _ => ?_⟩
    · rw [exec]
      dsimp only
      cases fs.stat p tmp with
      | error x =>
        refine ⟨List.forall_mem_cons.2 ⟨⟨⟨id, id, id⟩, id⟩, hnil⟩, fun y hy => ?_⟩
        cases hy
        rfl
      | ok st2 =>
        dsimp only
        split_ifs
        · exact ⟨List.forall_mem_cons.2 ⟨⟨⟨id, id, id⟩, id⟩, hnil⟩, fun y hy => by cases hy⟩
        · exact ⟨List.forall_mem_cons.2 ⟨⟨⟨id, id, id⟩, id⟩, hnil⟩, fun y hy => by cases hy⟩
        · exact ⟨List.forall_mem_cons.2 ⟨⟨⟨id, id, id⟩, id⟩, hnil⟩, fun y hy => by cases hy⟩
        · exact wp_mono (ih _) fun es a fs' h =>
            ⟨List.forall_mem_cons.2 ⟨⟨⟨id, id, id⟩, id⟩, h.1⟩, h.2⟩
    · refine ⟨List.forall_mem_cons.2 ⟨⟨⟨id, id, id⟩, id⟩, hnil⟩, fun y hy => ?_⟩
      cases hy
      rfl

theorem wp_fullPath_still (e : Loc) (dirfd : ℤ) (pathname : Str) :
    wp (Sys p deny) (fullPath dirfd pathname) fs fun es a _ => (∀ ev ∈ es, Still p e ev) ∧
      (∀ x, a = .error x → x.retval = -1) ∧ ∀ s retval, a = .ok (s, retval) → 0 ≤ retval := by
  have hnil : ∀ ev ∈ ([] : List Ev), Still p e ev := fun ev hev => absurd hev List.not_mem_nil
  have hok : ∀ {s : Str} {r : ℤ}, 0 ≤ r → (∀ x : Exit, Except.ok (s, r) = .error x → x.retval = -1) ∧
      ∀ s' retval, (Except.ok (s, r) : Except Exit (Str × ℤ)) = .ok (s', retval) → 0 ≤ retval :=
    fun hr => ⟨fun x hx => (by cases hx), fun s' r' h => (by cases h; exact hr)⟩
  have herr : (∀ x, (Except.error (.plain (-1)) : Except Exit (Str × ℤ)) = .error x →
      x.retval = -1) ∧ ∀ s' retval, (Except.error (.plain (-1)) : Except Exit (Str × ℤ)) =
      .ok (s', retval) → 0 ≤ retval :=
    ⟨fun x hx => (by cases hx; rfl), fun s' r' h => (by cases h)⟩
  unfold fullPath
  split_ifs
  · exact ⟨hnil, hok (Int.le_refl 0)⟩
  · rw [wp_sys_call]
    refine ⟨?_, fun x _ => ⟨List.forall_mem_cons.2 ⟨⟨⟨id, id, id⟩, id⟩, hnil⟩, herr⟩⟩
    rw [exec]
    cases fs.getcwd p with
    | error x => exact ⟨List.forall_mem_cons.2 ⟨⟨⟨id, id, id⟩, id⟩, hnil⟩, herr⟩
    | ok s => exact ⟨List.forall_mem_cons.2 ⟨⟨⟨id, id, id⟩, id⟩, hnil⟩, hok (Int.le_refl 0)⟩
  · rw [wp_sys_call]
    refine ⟨?_, fun x _ => ⟨List.forall_mem_cons.2 ⟨⟨⟨id, id, id⟩, id⟩, hnil⟩, herr⟩⟩
    rw [exec]
    cases readlinkFd p dirfd with
    | error x => exact ⟨List.forall_mem_cons.2 ⟨⟨⟨id, id, id⟩, id⟩, hnil⟩, herr⟩
    | ok s => exact ⟨List.forall_mem_cons.2 ⟨⟨⟨id, id, id⟩, id⟩, hnil⟩, hok (Int.natCast_nonneg _)⟩

/-- Leaving at a failing `realpath` returns what `retval` held before. -/
theorem wp_locate_events (e : Loc) (rino : ℕ) :
    wp (Sys p deny) (locate fuel dirfd pathname st1 rino) fs fun es a _ =>
      ((∀ ev ∈ es, Still p e ev) ∧ ∀ x, a = some (.exit x) → x.retval = -1) ∨
        ((∃ ev ∈ es, RealpathFails ev) ∧ ∃ x, a = some (.exit x) ∧ 0 ≤ x.retval) := by
  rw [locate, wp_bind]
  refine wp_mono (wp_fullPath_still e dirfd pathname) fun es a fs' h => ?_
  obtain ⟨hes, herr, hok⟩ := h
  rcases a with x | ⟨s, retval⟩
  · refine Or.inl ⟨by rw [List.append_nil]; exact hes, fun y hy => ?_⟩
    cases hy
    exact herr x rfl
  · have hfail : ∀ x : Errno, (∃ ev ∈ es ++ [(⟨fs', .realpath (dirname s), .error x⟩ : Ev)],
        RealpathFails ev) ∧ ∃ y, some (Found.exit (.plain retval)) = some (.exit y) ∧ 0 ≤ y.retval :=
      fun x => ⟨⟨_, List.mem_append_right _ List.mem_cons_self, trivial⟩, _, rfl, hok s retval rfl⟩
    dsimp only
    rw [wp_sys_call]
    refine ⟨?_, fun x _ => Or.inr (hfail x)⟩
    rw [exec]
    dsimp only
    cases fs'.realpath p (dirname s) with
    | error x => exact Or.inr (hfail x)
    | ok ptr =>
      refine wp_mono (wp_findRoot_still e rino _ _) fun es' a fs'' h => Or.inl ⟨?_, h.2⟩
      intro ev hev
      rw [List.mem_append, List.mem_cons] at hev
      rcases hev with hev | rfl | hev
      · exact hes ev hev
      · exact ⟨⟨id, id, id⟩, id⟩
      · exact h.1 ev hev

/-- The clone is tracked. -/
theorem Tracks.wp_clone (h : Tracks p e o k es fs) (s donor : Str) :
    wp (Sys p deny) (recyclixClonepathRecursive fuel s donor) fs fun es' _ fs' =>
      Tracks p e o k (es ++ es') fs' := by
  refine ((only_clone fuel).1 s donor).wp (fun es fs c r fs' hc hstep h => ?_) h
  refine h.call (fun hfin => ?_) hstep fun hr => ?_
  · cases c <;> first | exact hc | exact hfin
  · cases c <;> first | exact hc | exact hr

section Recycle

variable (h : Tracks p (n :: l) o k es fs) (ho : o.ino < k)
  (ht : fs.targetAt p dirfd pathname = .ok (.entry l n))

include h ho ht

omit ht in
/-- Recycling, after a clone that ends in one of its two ways. -/
theorem wp_recycle_tells {fq mp : Str} {P : FileSystem → Prop}
    (hP : ∀ fs', P fs' → fs'.targetAt p dirfd pathname = .ok (.entry l n))
    (hclone : wp (Sys p deny) (recyclixClonepathRecursive fuel
      (clonePaths st1.isDir (recycledPath dir fq mp) fq).1
      (clonePaths st1.isDir (recycledPath dir fq mp) fq).2) fs fun _ a fs' =>
        (a = some 0 ∧ P fs') ∨ a = some (-1)) :
    wp (Sys p deny) (recycle fuel dirfd pathname flags st1 dir fq mp) fs fun es' a fs' =>
      Tells a fs' (n :: l) o ↔ ¬ Misleads p (n :: l) (es ++ es') := by
  rw [recycle, wp_bind]
  refine wp_mono (wp_and hclone (h.wp_clone _ _)) fun es₁ a fs' hc => ?_
  obtain ⟨⟨rfl, hfs'⟩ | rfl, htr⟩ := hc
  · dsimp only
    rw [if_neg (by decide)]
    simp only [← List.append_assoc]
    split_ifs
    · exact wp_realUnlink_tells htr ho (hP fs' hfs') rfl
    · exact wp_renameat_tells htr ho (hP fs' hfs') rfl
  · dsimp only
    rw [if_pos (by decide), wp_ret, List.append_nil]
    exact htr.tells_neg_one ho none

/-- Recycling with the two clones that `unlinkat` makes. -/
theorem wp_recycle_entry_tells {m : Loc} (hdeny : ∀ e, deny e = true → e.denial = true)
    (hst : fs.fstatat p dirfd pathname (statFlags flags) = .ok st1)
    (hstat : fs.stat p dir = .ok st2) (hm : m <:+ n :: l) (hfuel : enough l ≤ fuel) :
    wp (Sys p deny) (recycle fuel dirfd pathname flags st1 dir (entryPath l n) (mountPath l n m)) fs
      fun es' a fs' => Tells a fs' (n :: l) o ↔ ¬ Misleads p (n :: l) (es ++ es') := by
  have hl := isDir_of_targetAt ht
  have hkeeps : ∀ fs', (∃ b r, Cloned fs fs' b r) → fs'.targetAt p dirfd pathname = .ok (.entry l n) := by
    rintro fs' ⟨b, r, hc⟩
    exact targetAt_keeps hc.keeps ht
  have hspec : ∀ {a fs' b r}, CloneSpec deny fs b r a fs' →
      (a = some 0 ∧ ∃ b r, Cloned fs fs' b r) ∨ a = some (-1) := by
    rintro a fs' b r (⟨ha, hc, -⟩ | ⟨ha, -⟩)
    · exact Or.inl ⟨ha, b, r, hc⟩
    · exact Or.inr ha
  refine wp_recycle_tells h ho hkeeps ?_
  cases hdir : st1.isDir with
  | true =>
    obtain ⟨xs, b, s₀, rel, -, -, -, -, hc⟩ :=
      wp_clone_directory (p := p) hstat hl hm (exists_descend_of_fstatat hst ht hdir)
    refine wp_mono (hc deny hdeny fuel hfuel) fun _ a fs' h => ?_
    exact h.elim hspec fun h => Or.inr h.1
  | false =>
    obtain ⟨b, r, hc⟩ := wp_clone_parent (p := p) hstat hl hm
    exact wp_mono (hc deny hdeny fuel hfuel) fun _ a fs' h => hspec h

end Recycle

/-! ## The whole call -/

theorem wp_dropFile_tells (h : Tracks p (n :: l) o k es fs) (ho : o.ino < k)
    (hdeny : ∀ e, deny e = true → e.denial = true) (hent : fs.objAt (n :: l) = some o)
    (ht : fs.targetAt p dirfd pathname = .ok (.entry l n))
    (hst : fs.fstatat p dirfd pathname (statFlags flags) = .ok st1)
    (hstat : fs.stat p dir = .ok st2) (ino : ℕ) (hfuel : enough l ≤ fuel) :
    wp (Sys p deny) (dropFile fuel dirfd pathname flags st1 (.recycler dir ino)) fs fun es' a fs' =>
      Tells a fs' (n :: l) o ↔ ¬ Misleads p (n :: l) (es ++ es') := by
  have hlen : l.length + 1 < fuel := by
    rw [enough] at hfuel
    omega
  rw [dropFile, wp_bind]
  refine wp_mono (wp_and (wp_locate ht hlen) (wp_locate_events (n :: l) ino)) fun es₁ a fs' hloc => ?_
  obtain ⟨⟨rfl, hval⟩, hev⟩ := hloc
  rcases hev with ⟨hstill, hret⟩ | ⟨⟨ev, hev, hfail⟩, x, rfl, hx⟩
  · have htr := h.still hstill
    rcases hval with ⟨⟨x, rfl⟩, -⟩ | rfl
    · obtain ⟨v, err⟩ := x
      obtain rfl : v = -1 := hret _ rfl
      dsimp only
      rw [wp_ret, List.append_nil]
      exact htr.tells_neg_one ho err
    · simp only [← List.append_assoc]
      unfold located
      cases hc : climb fs' st1.obj.dev ino (n :: l) with
      | none => exact wp_realUnlink_tells htr ho ht rfl
      | some m => exact wp_recycle_entry_tells htr ho ht hdeny hst hstat (climb_suffix hc) hfuel
  · dsimp only
    rw [wp_ret, List.append_nil]
    refine iff_of_false ?_ (not_not.2 (Or.inl ⟨ev, List.mem_append_right _ hev, hfail⟩))
    rintro ⟨y, hy, ⟨-, hd⟩ | ⟨h1, -⟩⟩
    · rw [objAt, hd] at hent
      cases hent
    · cases hy
      omega

/-- The value returned is right unless `realpath` fails, the rename finds the file under both names, or
the clone removes the entry itself and nothing ends the call after that. -/
theorem unlinkat_tells_iff {d : Dent} {a : Option Exit}
    (ht : fs.targetAt p dirfd pathname = .ok (.entry l n)) (hd : fs.dirent (n :: l) = some d)
    (hfuel : enough l ≤ fuel)
    (hrun : Runs (Sys p Errno.denial) (unlinkat env fuel dirfd pathname flags) fs es a fs') :
    Tells a fs' (n :: l) d.obj ↔ ¬ Misleads p (n :: l) es := by
  have hobj : fs.objAt (n :: l) = some d.obj := by rw [objAt, hd, Option.map_some]
  have hino : d.obj.ino < fs.nextIno := fs.ino_lt _ _ hd
  have hnil : ∀ {P : Ev → Prop}, ∀ ev ∈ ([] : List Ev), P ev := fun ev hev => absurd hev List.not_mem_nil
  have h0 : Tracks p (n :: l) d.obj fs.nextIno [] fs := ⟨hnil, le_rfl, Or.inl ⟨hnil, hobj⟩⟩
  suffices hwp : wp (Sys p Errno.denial) (unlinkat env fuel dirfd pathname flags) fs fun es a fs' =>
      Tells a fs' (n :: l) d.obj ↔ ¬ Misleads p (n :: l) es from wp_iff_runs.1 hwp es a fs' hrun
  unfold unlinkat
  cases env.recycler with
  | none => exact wp_realUnlink_tells h0 hino ht rfl
  | some recyclers =>
    have herr : ∀ x : Errno, Tells (some (.plain (-1))) fs (n :: l) d.obj ↔ ¬ Misleads p (n :: l)
        [⟨fs, .fstatat dirfd pathname (statFlags flags), .error x⟩] := fun x =>
      h0.tells_last hino ⟨id, id, id⟩ id
    dsimp only
    rw [wp_sys_call]
    refine ⟨?_, fun x _ => herr x⟩
    rw [exec]
    dsimp only
    cases hst : fs.fstatat p dirfd pathname (statFlags flags) with
    | error x => exact herr x
    | ok st1 =>
      have h1 : Tracks p (n :: l) d.obj fs.nextIno
          [⟨fs, .fstatat dirfd pathname (statFlags flags), .ok st1⟩] fs :=
        h0.query ⟨id, id, id⟩ id
      dsimp only
      rw [wp_bind]
      refine wp_mono (wp_nextRecycler _) fun es₁ c fs₁ hnext => ?_
      obtain ⟨rfl, hes₁, hexit, hrec⟩ := hnext
      have h2 := h1.still fun ev hev => still_of_stat (hes₁ ev hev).choose_spec
      cases c with
      | realUnlink => exact wp_realUnlink_tells h2 hino ht rfl
      | exit x =>
        obtain ⟨v, err⟩ := x
        obtain rfl : v = -1 := hexit _ rfl
        rw [dropFile, wp_ret, List.append_nil]
        exact h2.tells_neg_one hino err
      | recycler dir ino =>
        obtain ⟨st2, hstat, -⟩ := hrec dir ino rfl
        exact wp_dropFile_tells h2 hino (fun _ => id) hobj ht hst hstat ino hfuel

namespace Sample

/-- `realpath` fails, for lack of memory. -/
def noMemory : Handler Call Call.Answer FileSystem
  | .realpath _, fs => (.error .ENOMEM, fs)
  | c, fs => exec process c fs

end Sample

/-- 0 is returned for a file that is still there. -/
theorem unlinkat_misled : ∃ es a fs',
    Runs (Sys Sample.process Errno.denial) (unlinkat Sample.env 15 atFdcwd "/a/f".toList 0)
      Sample.fileTree es a fs' ∧ ¬ Tells a fs' [Sample.f, Sample.a] ⟨1, 5⟩ := by
  have hsys : ∀ fs c, Sys Sample.process Errno.denial fs c (Sample.noMemory c fs).1
      (Sample.noMemory c fs).2 := by
    intro fs c
    cases c <;> first | exact Or.inl rfl | exact Or.inr ⟨.ENOMEM, rfl, rfl, rfl⟩
  obtain ⟨es, hes, -⟩ := exists_runs_run hsys (unlinkat Sample.env 15 atFdcwd "/a/f".toList 0)
    Sample.fileTree
  refine ⟨es, _, _, hes, ?_⟩
  have hval : ((unlinkat Sample.env 15 atFdcwd "/a/f".toList 0).run Sample.noMemory
      Sample.fileTree).1 = some ⟨0, none⟩ := by decide +kernel
  have hleft : ((unlinkat Sample.env 15 atFdcwd "/a/f".toList 0).run Sample.noMemory
      Sample.fileTree).2.dirent [Sample.f, Sample.a] ≠ none := by decide +kernel
  rw [hval]
  exact fun h => hleft (tells_zero.1 h)

theorem unlinkat_tells_iff_fileTree : ∃ es a fs',
    Runs (Sys Sample.process Errno.denial) (unlinkat Sample.env 15 atFdcwd "/a/f".toList 0)
      Sample.fileTree es a fs' ∧ ¬ Misleads Sample.process [Sample.f, Sample.a] es := by
  obtain ⟨es, hes, -⟩ := exists_runs_run (sys_exec Sample.process Errno.denial)
    (unlinkat Sample.env 15 atFdcwd "/a/f".toList 0) Sample.fileTree
  have hd : Sample.fileTree.dirent [Sample.f, Sample.a] = some ⟨⟨1, 5⟩, false⟩ := by decide +kernel
  refine ⟨es, _, _, hes, (unlinkat_tells_iff (by decide +kernel) hd (by decide) hes).1 ?_⟩
  have hval : ((unlinkat Sample.env 15 atFdcwd "/a/f".toList 0).run (exec Sample.process)
      Sample.fileTree).1 = some ⟨0, none⟩ := by decide +kernel
  rw [hval]
  refine tells_zero.2 ?_
  decide +kernel

end YazzyPreload.Recyclix

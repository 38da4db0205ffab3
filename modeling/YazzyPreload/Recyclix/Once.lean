import YazzyPreload.Recyclix.Rescue

/-!
# One call removes an entry

When several concurrent calls of `unlinkat` are to remove the same entry, it goes with one of them.
The others return an error, but for those whose `realpath` fails, when the directory of the entry is
gone as well: such a call returns 0 (`removed_once_iff`).
-/

namespace YazzyPreload.Recyclix

open FileSystem Prog

variable {fs₀ fs fs' : FileSystem} {asked : Loc → Prop} {q : Request} {b e l m r x y : Loc}
  {n : Name} {env : Env} {pathname dir s donor fq mp : Str} {st1 : Stat} {fuel rino : ℕ} {dirfd : ℤ}
  {flags : Flags}

/-- The event is a call of the real `unlinkat` or of `renameat` that succeeds. -/
def Drops : Event Call Call.Answer FileSystem → Prop
  | ⟨_, .unlinkat .., a⟩ | ⟨_, .renameat .., a⟩ => a = .ok ()
  | _ => False

/-- The event is a `realpath` that fails, and the value that is returned then is 0. -/
def LosesTrack (q : Request) : Event Call Call.Answer FileSystem → Prop
  | ⟨_, .realpath _, a⟩ => (isAbs q.pathname = true ∨ q.dirfd = atFdcwd) ∧ a.isOk = false
  | _ => False

instance (q : Request) : DecidablePred (LosesTrack q)
  | ⟨_, .realpath _, _⟩ => inferInstanceAs (Decidable (_ ∧ _))
  | ⟨_, .fstatat .., _⟩ | ⟨_, .stat _, _⟩ | ⟨_, .getcwd, _⟩ | ⟨_, .readlinkFd _, _⟩
  | ⟨_, .mkdir .., _⟩ | ⟨_, .unlink _, _⟩ | ⟨_, .chmod .., _⟩ | ⟨_, .chown .., _⟩
  | ⟨_, .renameat .., _⟩ | ⟨_, .unlinkat .., _⟩ => inferInstanceAs (Decidable False)

/-- The event makes the call of `unlinkat` return 0. -/
def ReturnsZero (q : Request) (ev : Event Call Call.Answer FileSystem) : Prop := Drops ev ∨ LosesTrack q ev

/-- The value 0. -/
abbrev success : Option Exit := some (.plain 0)

theorem not_losesTrack_of_drops {ev : Event Call Call.Answer FileSystem} (h : Drops ev) :
    ¬ LosesTrack q ev := by
  obtain ⟨fs, c, a⟩ := ev
  cases c <;> first | exact h.elim | exact id

/-! ## The value returned -/

section Value

variable {h : Handler Call Call.Answer FileSystem}

theorem not_returnsZero_of_clonesWith {c : Call} (hc : ClonesWith c) (fs : FileSystem) :
    ¬ ReturnsZero q ⟨fs, c, (h c fs).1⟩ := by
  cases c <;> first | exact hc.elim | exact not_or.2 ⟨id, id⟩

theorem stopsAt_realUnlink : (realUnlink dirfd pathname flags).StopsAt h (ReturnsZero q) success := by
  refine ⟨fun fs hd => ?_, fun _ => trivial⟩
  have hok : (h (.unlinkat dirfd pathname flags) fs).1 = .ok () := hd.resolve_right id
  rw [hok]
  rfl

theorem earns_realUnlink : (realUnlink dirfd pathname flags).Earns h (ReturnsZero q) success := by
  intro fs hd
  cases ha : (h (.unlinkat dirfd pathname flags) fs).1 with
  | ok u => exact absurd (Or.inl ha) hd
  | error e => exact fun h => by cases h

/-- The calls that look for something and do not end the call of `unlinkat` with 0. -/
def Looks : Call → Prop
  | .stat _ | .getcwd | .readlinkFd _ => True
  | _ => False

theorem not_returnsZero_of_looks {c : Call} (hc : Looks c) (fs : FileSystem) :
    ¬ ReturnsZero q ⟨fs, c, (h c fs).1⟩ := by
  cases c <;> first | exact hc.elim | exact not_or.2 ⟨id, id⟩

theorem looks_nextRecycler (items : List Str) : (nextRecycler env pathname st1 items).Only Looks := by
  induction items with
  | nil => trivial
  | cons item items ih =>
    unfold nextRecycler
    dsimp only
    split_ifs
    · exact ih
    · cases readOptions env.regcomp pathname (binOptions (expandHome env.home item)) .initial with
      | none => trivial
      | some lim =>
        refine ⟨trivial, fun r => ?_⟩
        cases r with
        | error e => exact ih
        | ok st2 =>
          dsimp only
          split_ifs <;> first | exact ih | trivial

theorem looks_findRoot (t : Str) : (findRoot st1 rino fq fuel t).Only Looks := by
  induction fuel generalizing t with
  | zero => trivial
  | succ fuel ih =>
    unfold findRoot
    refine ⟨trivial, fun r => ?_⟩
    cases r with
    | error e => trivial
    | ok st2 =>
      dsimp only
      split_ifs <;> first | exact ih _ | trivial

theorem earns_nextRecycler (items : List Str) :
    (nextRecycler env pathname st1 items).Earns h (ReturnsZero q) (.exit (.plain 0)) := by
  induction items with
  | nil => exact fun h => by cases h
  | cons item items ih =>
    unfold nextRecycler
    dsimp only
    split_ifs
    · exact ih
    · cases readOptions env.regcomp pathname (binOptions (expandHome env.home item)) .initial with
      | none => exact fun h => by cases h
      | some lim =>
        intro fs _
        cases (h (.stat (binDir (expandHome env.home item))) fs).1 with
        | error e => exact ih
        | ok st2 =>
          dsimp only
          split_ifs <;> first | exact ih | exact fun h => by cases h

theorem earns_findRoot (t : Str) :
    (findRoot st1 rino fq fuel t).Earns h (ReturnsZero q) (some (.exit (.plain 0))) := by
  induction fuel generalizing t with
  | zero => exact fun h => by cases h
  | succ fuel ih =>
    unfold findRoot
    intro fs _
    cases (h (.stat (if dirname t = ['/', '/'] then ['/'] else dirname t)) fs).1 with
    | error e => exact fun h => by cases h
    | ok st2 =>
      dsimp only
      split_ifs <;> first | exact ih _ | exact fun h => by cases h

/-- The search from the full pathname on, with the value that is returned if `realpath` fails. -/
abbrev resolve (fuel : ℕ) (st1 : Stat) (rino : ℕ) (s : Str) (retval : ℤ) : Code (Option Found) :=
  .call (.realpath (dirname s)) fun
    | .error _ => .ret (some (.exit (.plain retval)))
    | .ok ptr => findRoot st1 rino (ptr ++ '/' :: basename s) fuel (ptr ++ '/' :: basename s)

theorem stopsAt_resolve {retval : ℤ} (hr : isAbs q.pathname = true ∨ q.dirfd = atFdcwd → retval = 0) :
    (resolve fuel st1 rino s retval).StopsAt h (ReturnsZero q) (some (.exit (.plain 0))) := by
  refine ⟨fun fs hl => ?_, fun r => ?_⟩
  · obtain ⟨hq, he⟩ := hl.resolve_left id
    cases ha : (h (.realpath (dirname s)) fs).1 with
    | ok ptr => rw [ha] at he; cases he
    | error e => rw [hr hq]
  · cases r with
    | error e => trivial
    | ok ptr => exact (looks_findRoot _).stopsAt fun c hc => not_returnsZero_of_looks hc

theorem earns_resolve {retval : ℤ} (hr : retval = 0 → isAbs q.pathname = true ∨ q.dirfd = atFdcwd) :
    (resolve fuel st1 rino s retval).Earns h (ReturnsZero q) (some (.exit (.plain 0))) := by
  intro fs hl
  cases ha : (h (.realpath (dirname s)) fs).1 with
  | ok ptr => exact earns_findRoot _
  | error e =>
    intro hret
    injection hret with hret
    injection hret with hret
    injection hret with hret
    exact hl (Or.inr ⟨hr hret, by rw [ha]; rfl⟩)

theorem stopsAt_locate : (locate fuel q.dirfd q.pathname st1 rino).StopsAt h (ReturnsZero q)
    (some (.exit (.plain 0))) := by
  unfold locate fullPath
  split_ifs with habs hcwd
  · exact stopsAt_resolve fun _ => rfl
  · refine ⟨fun fs hb => absurd hb (not_returnsZero_of_looks (c := .getcwd) trivial fs),
      fun r => ?_⟩
    cases r with
    | error e => trivial
    | ok atdir => exact stopsAt_resolve fun _ => rfl
  · refine ⟨fun fs hb => absurd hb (not_returnsZero_of_looks (c := .readlinkFd _) trivial fs),
      fun r => ?_⟩
    cases r with
    | error e => trivial
    | ok atdir => exact stopsAt_resolve fun hq => absurd hq (not_or.2 ⟨habs, hcwd⟩)

theorem earns_locate (hfd : ∀ fs, (h (.readlinkFd q.dirfd) fs).1 = .ok [] →
    isAbs q.pathname = true ∨ q.dirfd = atFdcwd) :
    (locate fuel q.dirfd q.pathname st1 rino).Earns h (ReturnsZero q) (some (.exit (.plain 0))) := by
  unfold locate fullPath
  split_ifs with habs hcwd
  · exact earns_resolve fun _ => Or.inl habs
  · intro fs _
    cases (h .getcwd fs).1 with
    | error e => exact fun h => by cases h
    | ok atdir => exact earns_resolve fun _ => Or.inr hcwd
  · intro fs _
    cases ha : (h (.readlinkFd q.dirfd) fs).1 with
    | error e => exact fun h => by cases h
    | ok atdir =>
      refine earns_resolve fun hlen => hfd fs ?_
      rw [ha, List.length_eq_zero_iff.1 (Int.ofNat_eq_zero.1 hlen)]

theorem stopsAt_recycle : (recycle fuel dirfd pathname flags st1 dir fq mp).StopsAt h (ReturnsZero q)
    success := by
  refine ((only_clone fuel).1 _ _).stopsAt_bind (fun c hc => not_returnsZero_of_clonesWith hc) fun a => ?_
  rcases a with _ | retval
  · trivial
  · dsimp only
    split_ifs
    · trivial
    · exact stopsAt_realUnlink
    · refine ⟨fun fs hd => ?_, fun _ => trivial⟩
      have hok := hd.resolve_right id
      rw [show (h (.renameat dirfd pathname 0 _) fs).1 = .ok () from hok]
      rfl

theorem earns_recycle :
    (recycle fuel dirfd pathname flags st1 dir fq mp).Earns h (ReturnsZero q) success := by
  refine earns_bind _ fun a => ?_
  rcases a with _ | retval
  · exact fun h => by cases h
  · dsimp only
    split_ifs with hret
    · intro h
      injection h with h
      injection h with h
      exact hret h
    · exact earns_realUnlink
    · intro fs hd
      cases ha : (h (.renameat dirfd pathname 0 (recycledPath dir fq mp)) fs).1 with
      | ok u => exact absurd (Or.inl ha) hd
      | error e => exact fun h => by cases h

theorem stopsAt_dropFile (choice : Choice) :
    (dropFile fuel q.dirfd q.pathname flags st1 choice).StopsAt h (ReturnsZero q) success := by
  cases choice with
  | realUnlink => exact stopsAt_realUnlink
  | exit e => trivial
  | recycler dir ino =>
    refine stopsAt_locate.bind rfl fun found => ?_
    rcases found with _ | (e | _ | ⟨fq, mp⟩)
    · trivial
    · trivial
    · exact stopsAt_realUnlink
    · exact stopsAt_recycle

theorem earns_dropFile (hfd : ∀ fs, (h (.readlinkFd q.dirfd) fs).1 = .ok [] →
    isAbs q.pathname = true ∨ q.dirfd = atFdcwd) {choice : Choice}
    (hc : choice ≠ .exit (.plain 0)) :
    (dropFile fuel q.dirfd q.pathname flags st1 choice).Earns h (ReturnsZero q) success := by
  cases choice with
  | realUnlink => exact earns_realUnlink
  | exit e =>
    intro h
    injection h with h
    exact hc (congrArg _ h)
  | recycler dir ino =>
    refine (earns_locate hfd).bind fun found hf => ?_
    rcases found with _ | (e | _ | ⟨fq, mp⟩)
    · exact fun h => by cases h
    · intro h
      injection h with h
      exact hf (h ▸ rfl)
    · exact earns_realUnlink
    · exact earns_recycle

end Value

theorem stopsAt_program (q : Request) :
    q.program.StopsAt (exec q.process) (ReturnsZero q) success := by
  unfold Request.program unlinkat
  cases q.env.recycler with
  | none => exact stopsAt_realUnlink
  | some recyclers =>
    refine ⟨fun fs hb => absurd hb (not_or.2 ⟨id, id⟩), fun r => ?_⟩
    cases r with
    | error e => trivial
    | ok st1 =>
      exact (looks_nextRecycler _).stopsAt_bind (fun c hc => not_returnsZero_of_looks hc) stopsAt_dropFile

theorem earns_program {bins : Loc → Prop} (hq : Orderly fs₀ bins q) :
    q.program.Earns (exec q.process) (ReturnsZero q) success := by
  unfold Request.program unlinkat
  cases q.env.recycler with
  | none => exact earns_realUnlink
  | some recyclers =>
    intro fs _
    cases hst : (exec q.process (.fstatat q.dirfd q.pathname (statFlags q.flags)) fs).1 with
    | error e => exact fun h => by cases h
    | ok st1 =>
      refine (earns_nextRecycler _).bind fun choice hc => earns_dropFile (fun _ hlink => ?_) hc
      -- a descriptor that the pathname is relative to is that of a directory
      obtain ⟨cs, n, hcs⟩ := hq.name
      obtain ⟨cur, hb⟩ := exists_base_of_fstatat (by simp [hcs]) hst
      rw [base] at hb
      split_ifs at hb with habs hcwd
      · exact Or.inl habs
      · exact Or.inr hcwd
      · change readlinkFd q.process q.dirfd = .ok [] at hlink
        rw [readlinkFd] at hlink
        cases hf : q.process.fds q.dirfd with
        | none => rw [hf] at hb; cases hb
        | some d =>
          rw [hf] at hb hlink
          cases d with
          | file o link => cases hb
          | dir l => exact absurd (Except.ok.inj hlink) (spells_pathOf l).isAbs_ne_nil

/-! ## The entry -/

/-- The call removes the entry at `x`, or it leaves it as it is. -/
def Settles (q : Request) (x : Loc) (c : Call) (fs : FileSystem) : Prop :=
  (q.Asks x ∧ Drops ⟨fs, c, (exec q.process c fs).1⟩) ∧ fs.dirent x ≠ none ∧
      (exec q.process c fs).2.dirent x = none ∨
    ¬ (q.Asks x ∧ Drops ⟨fs, c, (exec q.process c fs).1⟩) ∧
      (exec q.process c fs).2.dirent x = fs.dirent x

theorem settles_of_not_drops {c : Call} (hd : ¬ Drops ⟨fs, c, (exec q.process c fs).1⟩)
    (h : (exec q.process c fs).2.dirent x = fs.dirent x) : Settles q x c fs :=
  Or.inr ⟨fun hA => hd hA.2, h⟩

theorem settles_of_error {c : Call} {e : Errno} (h : exec q.process c fs = (.error e, fs)) :
    Settles q x c fs := by
  refine settles_of_not_drops (fun hd => ?_) (by rw [h])
  have herr := congrArg Prod.fst h
  cases c <;> first | exact hd | cases herr.symm.trans hd

section Entry

variable (hR : Rescued fs₀ b asked fs) (hq : Orderly fs₀ (· = b) q)

include hR hq

theorem settles_unlinkat (flags : Flags) :
    Settles q x (.unlinkat q.dirfd q.pathname flags) fs := by
  have hex : exec q.process (.unlinkat q.dirfd q.pathname flags) fs =
      fs.unlinkat q.process q.dirfd q.pathname flags := rfl
  rcases fs.unlinkat_cases q.process q.dirfd q.pathname flags with
    ⟨e, hu⟩ | ⟨l, n, ht, hne, hch, hu⟩
  · exact settles_of_error (hex.trans hu)
  · obtain ⟨hasks, -⟩ := asks_of_targetAt hR.contained hq ht
    have hdirent := dirent_erase (List.cons_ne_nil n l) hch x
    rw [Settles, hex, hu]
    by_cases hx : x = n :: l
    · subst hx
      exact Or.inl ⟨⟨hasks, rfl⟩, hne, by rw [hdirent, if_pos rfl]⟩
    · exact Or.inr ⟨fun h => hx (h.1.unique hasks), by rw [hdirent, if_neg hx]⟩

variable (hdev : OneDevice fs₀) (hout : ∀ x, asked x → ¬ b <:+ x) (hasked : ∀ x, q.Asks x → asked x)
  (hxb : ¬ b <:+ x)

include hdev hout hasked hxb

theorem settles_renameat {r b' : Loc} {dirfd' : ℤ} {s' : Str} (hk : KeptAt fs₀ (· = b) q e b' r)
    (he : ¬ fs₀.IsDir e) (hs' : Plainly q.process s' (r ++ b'))
    (hb : ∀ cur, base q.process dirfd' s' = .ok cur → cur = start q.process (isAbs s')) :
    Settles q x (.renameat q.dirfd q.pathname dirfd' s') fs := by
  obtain ⟨hasks, rfl, m, hm, hrm⟩ := hk
  obtain rfl := hdev.eq_nil hm
  rw [List.append_nil] at hrm
  subst hrm
  have hyb : InBins (· = b') (e ++ b') := inBins_iff.2 (List.suffix_append e b')
  have hex : exec q.process (.renameat q.dirfd q.pathname dirfd' s') fs =
      fs.renameat q.process q.dirfd q.pathname dirfd' s' := rfl
  rcases fs.renameat_cases q.process q.dirfd q.pathname dirfd' s' with
    ⟨e, hr⟩ | ⟨l, n, l', n', ht, ht', hcase⟩
  · exact settles_of_error (hex.trans hr)
  · obtain ⟨hx, -⟩ := asks_of_targetAt hR.contained hq ht
    obtain rfl := hasks.unique hx
    obtain ⟨cur, -, hcur, -⟩ := targetAt_entry ht'
    obtain rfl := hb cur hcur
    have hdst : n' :: l' = n :: l ++ b' :=
      (targetAt_lexical hcur (hR.contained.direct hyb hs') ht').trans hs'.spelled
    have hnb : n :: l ++ b' ≠ n :: l := fun h =>
      hout _ (hasked _ hx) (h ▸ List.suffix_append (n :: l) b')
    rw [hdst] at hcase
    have hnd : ¬ fs.IsDir (n :: l) := fun hd =>
      he ((hR.contained.isDir_iff (hq.outside _ hx) hd.dirent_ne_none).1 hd)
    rcases hcase with ⟨hne, hobj, -⟩ | ⟨hmv, hr⟩
    · -- the recycler does not have the file while the entry is there
      exfalso
      obtain ⟨d, hd⟩ := Option.ne_none_iff_exists'.1 hne
      have hself : fs.objAt (n :: l) = some d.obj := by rw [objAt, hd]; rfl
      obtain ⟨d', hd', -⟩ := Option.map_eq_some_iff.1 (hobj.symm.trans hself)
      by_cases hdir : fs.IsDir (n :: l ++ b')
      · exact hnb (hdir.eq_of_objAt hobj.symm)
      · exact hne (hR.place _ d' ⟨hd', hdir⟩).2
    · obtain ⟨-, hyne, hp, -, hch, hsome⟩ := hmv.guard
      have hdirent := dirent_move_of_not_isDir (List.cons_ne_nil n l) hyne hp hnb.symm hch hsome hnd x
      have hxy : x ≠ n :: l ++ b' := fun h => hxb (h ▸ List.suffix_append (n :: l) b')
      rw [Settles, hex, hr]
      by_cases hx : x = n :: l
      · subst hx
        exact Or.inl ⟨⟨hasks, rfl⟩, hsome, by rw [hdirent, if_neg hxy, if_pos rfl]⟩
      · exact Or.inr ⟨fun h => hx (h.1.unique hasks), by rw [hdirent, if_neg hxy, if_neg hx]⟩

/-- A call that may be made removes the entry or leaves it as it is. -/
theorem May.settles {h : Handler Call Call.Answer FileSystem} {c : Call}
    (hc : May fs₀ (· = b) h q fs c) : Settles q x c fs := by
  have hbin : ∀ y, InBins (· = b) y → y ≠ x := fun y hy e => hxb (e ▸ inBins_iff.1 hy)
  cases c with
  | mkdir s mode =>
    obtain ⟨y, hs⟩ := hc
    refine settles_of_not_drops id ?_
    change (fs.mkdir q.process s mode).2.dirent x = _
    rcases fs.mkdir_cases q.process s mode with ⟨e, hm⟩ | ⟨l, n, ht, hn, hm⟩ <;> rw [hm]
    have hy := hR.contained.targetAt_eq hs.inBins hs.plainly ht
    exact dirent_addChild_of_ne (isDir_of_targetAt ht) hn _ (hy ▸ hbin y hs.inBins).symm
  | unlink s =>
    obtain ⟨y, hs⟩ := hc
    exact settles_of_not_drops id (congrArg (fun fs => fs.dirent x) (hR.unlink hdev hs))
  | chmod s mode =>
    refine settles_of_not_drops id ?_
    change (fs.chmod q.process s mode).2.dirent x = _
    rcases fs.chmod_cases q.process s mode with ⟨e, hm⟩ | ⟨o, hm⟩ <;> rw [hm]
    rfl
  | chown s uid gid =>
    refine settles_of_not_drops id ?_
    change (fs.chown q.process s uid gid).2.dirent x = _
    rcases fs.chown_cases q.process s uid gid with ⟨e, hm⟩ | ⟨o, hm⟩ <;> rw [hm]
    rfl
  | unlinkat dirfd s flags =>
    obtain ⟨rfl, rfl, -⟩ := hc
    exact settles_unlinkat hR hq flags
  | renameat dirfd s dirfd' s' =>
    obtain ⟨rfl, rfl, hb, e, b', r, hk, he, hs'⟩ := hc
    obtain rfl := hk.2.1
    exact settles_renameat hR hq hdev hout hasked hxb hk he hs' hb
  | _ => exact settles_of_not_drops id rfl

end Entry

/-! ## All calls -/

variable {ι : Type} [DecidableEq ι]

/-- The calls for the entry at `x` return the right values: one returns 0 if the entry is gone, and
none if it is still there. -/
def Truthful (qs : ι → Request) (x : Loc)
    (P : Pool ι Call Call.Answer FileSystem (Option Exit)) : Prop :=
  (P.state.dirent x = none → ∃! i, (qs i).Asks x ∧ P.result i = some success) ∧
    (P.state.dirent x ≠ none → ∀ i, (qs i).Asks x → P.result i ≠ some success)

/-- The entry at `x` is gone when one of the calls for it has removed it, and no two of them do. -/
structure DropsOnce (qs : ι → Request) (fs : FileSystem) (sched : List ι) (x : Loc) : Prop where
  gone_iff : ((removals qs fs).run (fun i => exec (qs i).process) sched).state.dirent x = none ↔
    ∃ ev ∈ (removals qs fs).log (fun i => exec (qs i).process) sched,
      (qs ev.1).Asks x ∧ Drops ev.2
  unique : ∀ ev ∈ (removals qs fs).log (fun i => exec (qs i).process) sched,
    ∀ ev' ∈ (removals qs fs).log (fun i => exec (qs i).process) sched,
      (qs ev.1).Asks x ∧ Drops ev.2 → (qs ev'.1).Asks x ∧ Drops ev'.2 → ev = ev'

section Removals

variable (qs : ι → Request) (hdev : OneDevice fs) (hb : fs.IsDir b) (hbin : OnlyDirs fs b)
  (hq : ∀ i, Orderly fs (· = b) (qs i)) (hr : ∀ i, (qs i).Recycled fs) (sched : List ι)
  (hx : fs.dirent x ≠ none) (hxb : ¬ b <:+ x)

include hdev hb hbin hq hr hx hxb

theorem drops_once : DropsOnce qs fs sched x := by
  have hout : ∀ x, Asked qs x → ¬ b <:+ x := fun x ⟨j, hx⟩ h =>
    (hq j).outside x hx (inBins_iff.2 h)
  suffices h : _ ∧ _ from ⟨h.1, h.2⟩
  refine Pool.reached_once (P := removals qs fs) (A := fun i ev => (qs i).Asks x ∧ Drops ev)
    (G := fun fs => fs.dirent x = none) (Stays.refl _) (fun _ _ _ => Stays.trans)
    (keeps_removals qs hdev hb hbin hq hr) (fun i fs' c hR hmay => ?_) (.refl hb hbin) hx
    (follows_removals qs hb hbin hq) sched
  rcases hmay.settles hR (hq i) hdev hout (fun _ hx => ⟨i, hx⟩) hxb with h | ⟨h, hd⟩
  · exact Or.inl h
  · exact Or.inr ⟨h, by rw [hd]⟩

/-- The entry goes with one of the calls, and the values that the calls return tell so if and only if
no `realpath` fails in them whose failure is returned as 0. -/
theorem removed_once_iff : DropsOnce qs fs sched x ∧
    (Truthful qs x ((removals qs fs).run (fun i => exec (qs i).process) sched) ↔
      ∀ ev ∈ (removals qs fs).log (fun i => exec (qs i).process) sched,
        (qs ev.1).Asks x → ¬ LosesTrack (qs ev.1) ev.2) := by
  have hdrops := drops_once qs hdev hb hbin hq hr sched hx hxb
  refine ⟨hdrops, ?_⟩
  obtain ⟨hgone, honce⟩ := hdrops
  have hstops : ∀ i, ((removals qs fs).thread i).StopsAt (exec (qs i).process) (ReturnsZero (qs i))
      success := fun i => stopsAt_program (qs i)
  have hends : ∀ i, ((removals qs fs).run (fun i => exec (qs i).process) sched).result i =
      some success → ∃ ev ∈ (removals qs fs).log (fun i => exec (qs i).process) sched,
        ev.1 = i ∧ ReturnsZero (qs i) ev.2 := fun i h =>
    Pool.exists_of_result (earns_program (hq i)) h
  constructor
  · rintro ⟨hone, hnone⟩ ev hev hasks hl
    have hresult := Pool.result_of_mem_log hstops hev (Or.inr hl)
    by_cases hx : ((removals qs fs).run (fun i => exec (qs i).process) sched).state.dirent x = none
    · obtain ⟨ev', hev', hasks', hd⟩ := hgone.1 hx
      have hresult' := Pool.result_of_mem_log hstops hev' (Or.inl hd)
      have hthread := (hone hx).unique ⟨hasks, hresult⟩ ⟨hasks', hresult'⟩
      have heq := Pool.eq_of_mem_log hstops hev hev' hthread (Or.inr hl) (Or.inl hd)
      exact not_losesTrack_of_drops (heq ▸ hd) hl
    · exact hnone hx _ hasks hresult
  · intro hl
    have hdrops : ∀ i, (qs i).Asks x →
        ((removals qs fs).run (fun i => exec (qs i).process) sched).result i = some success →
        ∃ ev ∈ (removals qs fs).log (fun i => exec (qs i).process) sched,
          ev.1 = i ∧ (qs ev.1).Asks x ∧ Drops ev.2 := fun i hasks hresult => by
      obtain ⟨ev, hev, rfl, hend⟩ := hends i hresult
      exact ⟨ev, hev, rfl, hasks, hend.resolve_right (hl ev hev hasks)⟩
    refine ⟨fun hx => ?_, fun hx i hasks hresult => ?_⟩
    · obtain ⟨ev, hev, hasks, hd⟩ := hgone.1 hx
      refine ⟨ev.1, ⟨hasks, Pool.result_of_mem_log hstops hev (Or.inl hd)⟩, fun i hi => ?_⟩
      obtain ⟨ev', hev', rfl, hd'⟩ := hdrops i hi.1 hi.2
      rw [honce ev hev ev' hev' ⟨hasks, hd⟩ hd']
    · obtain ⟨ev, hev, -, hd⟩ := hdrops i hasks hresult
      exact hx (hgone.2 ⟨ev, hev, hd⟩)

end Removals

namespace Sample

/-- Two calls for the file, and one for its directory. -/
def rivals : Option Bool → Request
  | some _ => request "/a/f".toList 0
  | none => request "/a".toList atRemovedir

/-- The other two end while the first one has looked for a recycler only. -/
def race : List (Option Bool) :=
  some true :: some true :: List.replicate 10 (some false) ++ List.replicate 11 none ++ [some true]

theorem oneDevice_fileTree : OneDevice fileTree :=
  .of_locs (show ∀ l ∈ fileTree.locs, (fileTree.objAt l).map Obj.dev = some 1 by decide)

theorem orderly_rivals (i : Option Bool) : Orderly fileTree (· = [bin]) (rivals i) := by
  cases i
  · exact orderly_request (x := [a]) (by decide) _ (by decide) ⟨[], a, by decide⟩
      (by decide) (by decide) (by decide)
  · exact orderly_request (x := [f, a]) (by decide) _ (by decide) ⟨[.name a], f, by decide⟩
      (by decide) (by decide) (by decide)

theorem recycled_rivals (i : Option Bool) : (rivals i).Recycled fileTree := by
  cases i <;> refine recycled_request (by decide) _ (by decide +kernel) fun st1 hst => ?_ <;>
    obtain rfl := Except.ok.inj hst <;> decide +kernel

end Sample

/-- One call moves the file, and two return 0 for it. -/
theorem removed_once_iff_race :
    DropsOnce Sample.rivals Sample.fileTree Sample.race [Sample.f, Sample.a] ∧
    ¬ Truthful Sample.rivals [Sample.f, Sample.a]
      ((removals Sample.rivals Sample.fileTree).run (fun i => exec (Sample.rivals i).process)
        Sample.race) := by
  have hlost : ∃ ev ∈ (removals Sample.rivals Sample.fileTree).log
      (fun i => exec (Sample.rivals i).process) Sample.race,
      ev.1 = some true ∧ LosesTrack (Sample.rivals ev.1) ev.2 := by decide +kernel
  obtain ⟨ev, hev, h0, hl⟩ := hlost
  obtain ⟨honce, hiff⟩ := removed_once_iff Sample.rivals Sample.oneDevice_fileTree (by decide)
    (.of_locs (by decide)) Sample.orderly_rivals Sample.recycled_rivals Sample.race
    (show Sample.fileTree.dirent [Sample.f, Sample.a] ≠ none by decide)
    (show ¬ [Sample.bin] <:+ [Sample.f, Sample.a] by decide)
  refine ⟨honce, fun h => hiff.1 h ev hev ?_ hl⟩
  rw [h0]
  exact ⟨[], rfl, by decide⟩

end YazzyPreload.Recyclix

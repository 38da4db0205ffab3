import YazzyPreload.Recyclix.Concurrent
import YazzyPreload.Recyclix.Together

/-!
# Nothing is lost

On one device, with a recycler that has nothing but directories in it, concurrent calls of
`unlinkat` lose nothing: at any time every entry that is to be removed is at its place or under its
own pathname in the recycler (`removals_lose_nothing`).  The clones of one call do not remove what
another one has moved, since a directory is never cloned to where a file goes.
-/

namespace YazzyPreload.Recyclix

open FileSystem Prog

variable {fs₀ fs fs' : FileSystem} {asked : Loc → Prop} {q : Request} {b e l m r x y : Loc}
  {n : Name} {d : Dent} {h : Handler Call Call.Answer FileSystem}

/-- Everything is on one device. -/
def OneDevice (fs : FileSystem) : Prop := ∀ x y, fs.dirent x ≠ none → fs.dirent y ≠ none →
  (fs.objAt x).map Obj.dev = (fs.objAt y).map Obj.dev

/-- The entry `d` is at `x`, and it is not a directory. -/
def FileAt (fs : FileSystem) (x : Loc) (d : Dent) : Prop := fs.dirent x = some d ∧ ¬ fs.IsDir x

/-- What is asked for is at its place or in the recycler, and the recycler has nothing else in it
but directories. -/
structure Rescued (fs₀ : FileSystem) (b : Loc) (asked : Loc → Prop) (fs : FileSystem) : Prop where
  contained : Contained fs₀ (· = b) asked fs
  place : ∀ r d, FileAt fs (r ++ b) d → FileAt fs₀ r d ∧ fs.dirent r = none
  inode : ∀ r d, FileAt fs (r ++ b) d → fs.inode d.obj = fs₀.inode d.obj
  dir : ∀ x, asked x → fs₀.IsDir x → fs.dirent x = none → fs.IsDir (x ++ b)
  file : ∀ x d, asked x → FileAt fs₀ x d → fs.dirent x = none → FileAt fs (x ++ b) d

theorem fileAt_congr (hd : fs'.dirent x = fs.dirent x) (hk : fs'.kindAt x = fs.kindAt x) :
    FileAt fs' x d ↔ FileAt fs x d := by
  rw [FileAt, FileAt, hd, IsDir, hk, IsDir]

/-- A new directory is no file. -/
theorem fileAt_addChild (hl : fs.IsDir l) (hn : fs.dirent (n :: l) = none) {i : Inode}
    (hi : i.kind = .dir) : FileAt (fs.addChild l n i) x d ↔ FileAt fs x d := by
  by_cases hx : x = n :: l
  · subst hx
    refine iff_of_false (fun h => h.2 ?_) fun h => ?_
    · rw [IsDir, kindAt_addChild hl hn, if_pos rfl, hi]
    · rw [FileAt, hn] at h
      cases h.1
  · exact fileAt_congr (dirent_addChild_of_ne hl hn _ hx) (by rw [kindAt_addChild hl hn, if_neg hx])

theorem inBins_iff : InBins (· = b) x ↔ b <:+ x :=
  ⟨fun ⟨_, hb, hs⟩ => hb ▸ hs, fun h => ⟨b, rfl, h⟩⟩

theorem OneDevice.of_locs {dev : ℕ}
    (h : ∀ l ∈ fs.locs, (fs.objAt l).map Obj.dev = some dev) : OneDevice fs := fun x y hx hy => by
  rw [h x (fs.mem_locs x hx), h y (fs.mem_locs y hy)]

theorem OnlyDirs.of_locs (h : ∀ l ∈ fs.locs, b <:+ l → fs.IsDir l) : OnlyDirs fs b :=
  fun l hl hd => h l (fs.mem_locs l hd) hl

theorem OneDevice.eq_nil (hdev : OneDevice fs) (hm : Mounts fs e m) : m = [] := by
  cases m with
  | nil => rfl
  | cons c m =>
    have hne : fs.dirent m ≠ none := by
      by_cases hself : c :: m = e
      · exact (isDir_of_child (hself ▸ hm.dirent)).dirent_ne_none
      · exact (isDir_of_suffix hm.dirent hm.above hself).tail.dirent_ne_none
    exact absurd (hdev _ _ hne hm.dirent) (hm.dev (List.cons_ne_nil c m))

section Step

variable (hR : Rescued fs₀ b asked fs)

include hR

/-- A change that brings no file to the recycler and takes none. -/
theorem Rescued.of_old (hc : Contained fs₀ (· = b) asked fs') (hstay : Stays (· = b) fs fs')
    (hbin : OnlyDirs fs₀ b) (hfile : ∀ r d, FileAt fs' (r ++ b) d ↔ FileAt fs (r ++ b) d)
    (hinode : ∀ r d, FileAt fs (r ++ b) d → fs'.inode d.obj = fs.inode d.obj)
    (hgone : ∀ r, ¬ b <:+ r → fs.dirent r = none → fs'.dirent r = none)
    (hdir : ∀ x, asked x → fs'.dirent x = none → fs.dirent x ≠ none →
      fs₀.IsDir x ∧ fs'.IsDir (x ++ b)) : Rescued fs₀ b asked fs' := by
  refine ⟨hc, fun r d h => ?_, fun r d h => ?_, fun x hx hd hn => ?_, fun x d hx hd hn => ?_⟩
  · obtain ⟨h₁, h₂⟩ := hR.place r d ((hfile r d).1 h)
    exact ⟨h₁, hgone r (fun h => h₁.2 (hbin r h (by simp [h₁.1]))) h₂⟩
  · rw [hinode r d ((hfile r d).1 h), hR.inode r d ((hfile r d).1 h)]
  · by_cases hx' : fs.dirent x = none
    · exact hstay _ (inBins_iff.2 (List.suffix_append x b)) (hR.dir x hx hd hx')
    · exact (hdir x hx hn hx').2
  · by_cases hx' : fs.dirent x = none
    · exact (hfile x d).2 (hR.file x d hx hd hx')
    · exact absurd (hdir x hx hn hx').1 hd.2

variable (hbin : OnlyDirs fs₀ b)

include hbin

/-- Another mode or owner for a directory in the recycler. -/
theorem Rescued.adjust {o : Obj} (hx : fs.IsDir x) (ho : fs.objAt x = some o) (f : Inode → Inode)
    (hf : ∀ i, (f i).kind = i.kind)
    (hc : Contained fs₀ (· = b) asked (fs.adjust o f hf) ∧ Stays (· = b) fs (fs.adjust o f hf)) :
    Rescued fs₀ b asked (fs.adjust o f hf) := by
  refine hR.of_old hc.1 hc.2 hbin (fun r d => fileAt_congr rfl (by rw [kindAt_adjust]))
    (fun r d h => ?_) (fun _ _ => id) fun x _ h h' => absurd h h'
  rw [inode_adjust, if_neg]
  rintro rfl
  have hself : fs.objAt (r ++ b) = some d.obj := by
    rw [objAt, show fs.dirent (r ++ b) = some d from h.1]
    rfl
  exact h.2 (hx.eq_of_objAt (ho.trans hself.symm) ▸ hx)

theorem Rescued.chmod {s : Str} (hs : Clones fs₀ (· = b) q s x) (hx : fs.IsDir x) (mode : Mode) :
    Rescued fs₀ b asked (fs.chmod q.process s mode).2 := by
  have hc := contained_chmod hR.contained hs hx mode
  cases hst : fs.stat q.process s with
  | error e =>
    rw [stat] at hst
    rw [FileSystem.chmod, hst]
    exact hR
  | ok st =>
    rw [chmod_of_stat hst] at hc ⊢
    have ho := objAt_of_statLoc (hR.contained.statLoc_of_stat hs.inBins hs.plainly hst)
    exact hR.adjust hbin hx ho (fun i => { i with mode := mode }) (fun _ => rfl) hc

theorem Rescued.chown {s : Str} (hs : Clones fs₀ (· = b) q s x) (hx : fs.IsDir x) (uid gid : ℕ) :
    Rescued fs₀ b asked (fs.chown q.process s uid gid).2 := by
  have hc := contained_chown hR.contained hs hx uid gid
  cases hst : fs.stat q.process s with
  | error e =>
    rw [stat] at hst
    rw [FileSystem.chown, hst]
    exact hR
  | ok st =>
    rw [chown_of_stat hst] at hc ⊢
    have ho := objAt_of_statLoc (hR.contained.statLoc_of_stat hs.inBins hs.plainly hst)
    exact hR.adjust hbin hx ho (fun i => { i with uid := uid, gid := gid }) (fun _ => rfl) hc

variable (hdev : OneDevice fs₀) (hout : ∀ x, asked x → ¬ b <:+ x)

omit hbin in
include hdev in
/-- No clone removes a file from the recycler: there is none where a directory is cloned to. -/
theorem Rescued.unlink {s : Str} (hs : Clones fs₀ (· = b) q s x) :
    (fs.unlinkEntry q.process atFdcwd s).2 = fs := by
  rcases fs.unlinkEntry_cases q.process atFdcwd s with ⟨e, hu⟩ | ⟨l, n, ht, hne, -, hu⟩
  · rw [hu]
  · have htx := hR.contained.targetAt_eq hs.inBins hs.plainly ht
    obtain ⟨e, b', m, r, -, rfl, hm, -, hd, hx, -⟩ := hs
    obtain rfl := hdev.eq_nil hm
    rw [List.append_nil] at hd
    by_cases hdir : fs.IsDir (n :: l)
    · rw [unlinkEntry_dir ht hdir]
    · obtain ⟨d, hnd⟩ := Option.ne_none_iff_exists'.1 hne
      rw [htx, hx] at hnd hdir
      exact absurd hd (hR.place r d ⟨hnd, hdir⟩).1.2

include hout in
theorem Rescued.mkdir {s : Str} (hs : Clones fs₀ (· = b) q s x)
    (mode : Mode) : Rescued fs₀ b asked (fs.mkdir q.process s mode).2 := by
  obtain ⟨hc, hstay⟩ := contained_mkdir hR.contained hs mode
  rcases fs.mkdir_cases q.process s mode with ⟨e, hm⟩ | ⟨l, n, ht, hn, hm⟩ <;> rw [hm] at hc hstay ⊢
  · exact hR
  · obtain rfl := hR.contained.targetAt_eq hs.inBins hs.plainly ht
    have hl := isDir_of_targetAt ht
    have hi := newDir_kind fs q.process l mode
    have hself : ∀ r, ¬ b <:+ r → r ≠ n :: l := fun r hr e => hr (e ▸ inBins_iff.1 hs.inBins)
    refine hR.of_old hc hstay hbin (fun r d => fileAt_addChild hl hn hi) (fun r d h => ?_)
      (fun r hr h => ?_) fun x hx h h' => ?_
    · rw [inode_addChild hl hn, if_neg (ne_of_unused (fs.unused_newObj l) h.1)]
    · rwa [dirent_addChild_of_ne hl hn _ (hself r hr)]
    · rw [dirent_addChild_of_ne hl hn _ (hself x (hout x hx))] at h
      exact absurd h h'

include hout in
/-- A file goes to its place in the recycler. -/
theorem Rescued.move (hx : asked e) (he : ¬ fs₀.IsDir e) (hm : fs.Movable e (e ++ b))
    (hc : Contained fs₀ (· = b) asked (fs.move e (e ++ b)) ∧
      Stays (· = b) fs (fs.move e (e ++ b))) : Rescued fs₀ b asked (fs.move e (e ++ b)) := by
  obtain ⟨hene, hyne, hp, -, hch, hsome⟩ := hm.guard
  have hnb : ∀ r, r ++ b ≠ e := fun r h => hout e hx (h ▸ List.suffix_append r b)
  have hbe : ¬ InBins (· = b) e := fun h => hout e hx (inBins_iff.1 h)
  have hnd : ¬ fs.IsDir e := fun h => he ((hR.contained.isDir_iff hbe hsome).1 h)
  have hdirent := dirent_move_of_not_isDir hene hyne hp (hnb e).symm hch hsome hnd
  have hne : ∀ r, r ≠ e → r ++ b ≠ e ++ b := fun r h h' => h (List.append_cancel_right h')
  have hxb : ∀ x, asked x → x ≠ e ++ b := fun x hx h => hout x hx (h ▸ List.suffix_append e b)
  have hother : ∀ r, r ≠ e → (fs.move e (e ++ b)).dirent (r ++ b) = fs.dirent (r ++ b) := fun r h => by
    rw [hdirent, if_neg (hne r h), if_neg (hnb r)]
  have hself : (fs.move e (e ++ b)).dirent (e ++ b) = fs.dirent e := by rw [hdirent, if_pos rfl]
  have hgone : (fs.move e (e ++ b)).dirent e = none := by rw [hdirent, if_neg (hnb e).symm, if_pos rfl]
  have hold : ∀ r d, r ≠ e → (FileAt (fs.move e (e ++ b)) (r ++ b) d ↔ FileAt fs (r ++ b) d) :=
    fun r d h => fileAt_congr (hother r h) (by rw [kindAt, kindAt, hother r h, inode_move])
  have hnew : ∀ d, FileAt (fs.move e (e ++ b)) (e ++ b) d ↔ FileAt fs e d := fun d => by
    rw [FileAt, FileAt, hself, IsDir, IsDir, kindAt, kindAt, hself, inode_move]
  refine ⟨hc.1, fun r d h => ?_, fun r d h => ?_, fun x hx hxd hn => ?_, fun x d hx hd hn => ?_⟩
  · by_cases hr : r = e
    · subst hr
      exact ⟨⟨hR.contained.dirent_eq hbe ((hnew d).1 h).1, he⟩, hgone⟩
    · obtain ⟨h₁, h₂⟩ := hR.place r d ((hold r d hr).1 h)
      have hrb : r ≠ e ++ b := fun h => h₁.2 (hbin r (h ▸ List.suffix_append e b) (by simp [h₁.1]))
      exact ⟨h₁, by rw [hdirent, if_neg hrb, if_neg hr, h₂]⟩
  · rw [inode_move]
    by_cases hr : r = e
    · subst hr
      exact hR.contained.inode r d hbe ((hnew d).1 h).1
    · exact hR.inode r d ((hold r d hr).1 h)
  · have hxe : x ≠ e := fun h => he (h ▸ hxd)
    rw [hdirent, if_neg (hxb x hx), if_neg hxe] at hn
    exact hc.2 _ (inBins_iff.2 (List.suffix_append x b)) (hR.dir x hx hxd hn)
  · by_cases hxe : x = e
    · subst hxe
      obtain ⟨d', hd'⟩ := Option.ne_none_iff_exists'.1 hsome
      obtain rfl : d' = d := Option.some.inj ((hR.contained.dirent_eq hbe hd').symm.trans hd.1)
      exact (hnew d').2 ⟨hd', hnd⟩
    · rw [hdirent, if_neg (hxb x hx), if_neg hxe] at hn
      exact (hold x d hxe).2 (hR.file x d hx hd hn)

variable (hq : Orderly fs₀ (· = b) q) (hasked : ∀ x, q.Asks x → asked x)

include hdev hout hq hasked

/-- A directory goes when its clone is there. -/
theorem Rescued.unlinkat {r b' : Loc} (hk : KeptAt fs₀ (· = b) q e b' r) (he : fs₀.IsDir e)
    (hd : fs.IsDir (r ++ b')) (flags : Flags) :
    Rescued fs₀ b asked (fs.unlinkat q.process q.dirfd q.pathname flags).2 := by
  obtain ⟨hc, hstay⟩ := contained_unlinkat hR.contained hq hasked flags
  rcases fs.unlinkat_cases q.process q.dirfd q.pathname flags with
    ⟨e, hu⟩ | ⟨l, n, ht, -, hch, hu⟩ <;> rw [hu] at hc hstay ⊢
  · exact hR
  · obtain ⟨hx, -⟩ := asks_of_targetAt hR.contained hq ht
    obtain ⟨hasks, rfl, m, hm, hrm⟩ := hk
    obtain rfl := hdev.eq_nil hm
    rw [List.append_nil] at hrm
    obtain rfl := hasks.unique hx
    have hdirent := dirent_erase (List.cons_ne_nil n l) hch
    have hkind := kindAt_erase (List.cons_ne_nil n l) hch
    have hnb : ∀ r, r ++ b' ≠ n :: l := fun r e =>
      hout _ (hasked _ hx) (e ▸ List.suffix_append r b')
    refine hR.of_old hc hstay hbin (fun r d => ?_) (fun r d _ => by rw [inode_erase])
      (fun r _ h => ?_) fun x hx h h' => ?_
    · exact fileAt_congr (by rw [hdirent, if_neg (hnb r)]) (by rw [hkind, if_neg (hnb r)])
    · rw [hdirent, h, ite_self]
    · have hxe : x = n :: l := by
        by_contra hne
        rw [hdirent, if_neg hne] at h
        exact h' h
      rw [hxe]
      exact ⟨he, hstay _ (inBins_iff.2 (List.suffix_append _ b')) (hrm ▸ hd)⟩

/-- A file goes to the recycler. -/
theorem Rescued.renameat {r b' : Loc} {dirfd' : ℤ} {s' : Str} (hk : KeptAt fs₀ (· = b) q e b' r)
    (he : ¬ fs₀.IsDir e) (hs' : Plainly q.process s' (r ++ b'))
    (hb : ∀ cur, base q.process dirfd' s' = .ok cur → cur = start q.process (isAbs s')) :
    Rescued fs₀ b asked (fs.renameat q.process q.dirfd q.pathname dirfd' s').2 := by
  obtain ⟨hasks, rfl, m, hm, hrm⟩ := hk
  obtain rfl := hdev.eq_nil hm
  rw [List.append_nil] at hrm
  subst hrm
  have hyb : InBins (· = b') (e ++ b') := inBins_iff.2 (List.suffix_append e b')
  have hc := contained_renameat hR.contained hq hasked hb hs' hyb fun x hx => hx.unique hasks ▸ he
  rcases fs.renameat_cases q.process q.dirfd q.pathname dirfd' s' with
    ⟨e, hr⟩ | ⟨l, n, l', n', ht, ht', ⟨-, -, hr⟩ | ⟨hmv, hr⟩⟩ <;> rw [hr] at hc ⊢
  · exact hR
  · exact hR
  · obtain ⟨hx, -⟩ := asks_of_targetAt hR.contained hq ht
    obtain rfl := hasks.unique hx
    obtain ⟨cur, -, hcur, -⟩ := targetAt_entry ht'
    obtain rfl := hb cur hcur
    have hdst : n' :: l' = n :: l ++ b' :=
      (targetAt_lexical hcur (hR.contained.direct hyb hs') ht').trans hs'.spelled
    rw [hdst] at hmv hc ⊢
    exact hR.move hbin hout (hasked _ hx) he hmv hc

/-- A call of a request that is sure to be recycled loses nothing. -/
theorem Rescued.keeps (hsure : Sure fs₀ (· = b) h q) {c : Call} (hc : May fs₀ (· = b) h q fs c) :
    Rescued fs₀ b asked (exec q.process c fs).2 := by
  cases c with
  | mkdir s mode =>
    obtain ⟨x, hs⟩ := hc
    exact hR.mkdir hbin hout hs mode
  | unlink s =>
    obtain ⟨x, hs⟩ := hc
    rw [show (exec q.process (.unlink s) fs).2 = fs from hR.unlink hdev hs]
    exact hR
  | chmod s mode =>
    obtain ⟨x, hs, hx⟩ := hc
    exact hR.chmod hbin hs hx mode
  | chown s uid gid =>
    obtain ⟨x, hs, hx⟩ := hc
    exact hR.chown hbin hs hx uid gid
  | unlinkat dirfd s flags =>
    obtain ⟨rfl, rfl, hgo⟩ := hc
    obtain ⟨e, b', r, hk, he, hd⟩ := hgo hsure
    obtain rfl := hk.2.1
    exact hR.unlinkat hbin hdev hout hq hasked hk he hd flags
  | renameat dirfd s dirfd' s' =>
    obtain ⟨rfl, rfl, hb, e, b', r, hk, he, hs'⟩ := hc
    obtain rfl := hk.2.1
    exact hR.renameat hbin hdev hout hq hasked hk he hs' hb
  | _ => exact hR

end Step

/-! ## All calls -/

/-- A directory has nothing in common with a recycler that it is not. -/
theorem OneDevice.ino_ne (hdev : OneDevice fs) (hb : fs.IsDir b) (hy : y ≠ b) :
    (fs.objAt y).map Obj.ino ≠ (fs.objAt b).map Obj.ino := by
  intro hino
  obtain ⟨d, hd⟩ := Option.ne_none_iff_exists'.1 hb.dirent_ne_none
  have hob : fs.objAt b = some d.obj := by
    rw [objAt, show fs.dirent b = some d from hd]
    rfl
  cases ho : fs.objAt y with
  | none => rw [ho, hob] at hino; cases hino
  | some o =>
    have hdy : fs.dirent y ≠ none := fun h => by rw [objAt, h] at ho; cases ho
    have hdev := hdev y b hdy hb.dirent_ne_none
    rw [ho, hob] at hino hdev
    have heq : o = d.obj := by
      obtain ⟨dev, ino⟩ := o
      obtain rfl : dev = d.obj.dev := Option.some.inj hdev
      obtain rfl : ino = d.obj.ino := Option.some.inj hino
      rfl
    exact hy (hb.eq_of_objAt (hob.trans (heq ▸ ho.symm))).symm

theorem furnished_of_onlyDirs (hb : fs.IsDir b) (hbin : OnlyDirs fs b) : Furnished fs (· = b) := by
  refine ⟨fun _ h => h ▸ hb, fun x hx ⟨t, ht⟩ => ?_⟩
  have hne : fs.dirent x ≠ none := fun h => by rw [kindAt, h] at ht; cases ht
  have hd := hbin x (inBins_iff.1 hx) hne
  rw [IsDir, ht] at hd
  cases hd

theorem Rescued.refl (hb : fs.IsDir b) (hbin : OnlyDirs fs b) : Rescued fs b asked fs := by
  refine ⟨.refl (furnished_of_onlyDirs hb hbin), fun r d h => ?_, fun _ _ _ => rfl,
    fun x _ hd hn => absurd hn hd.dirent_ne_none, fun x d _ hd hn => ?_⟩
  · exact absurd (hbin _ (List.suffix_append r b) (by simp [h.1])) h.2
  · rw [FileAt, hn] at hd
    cases hd.1

variable {ι : Type} [DecidableEq ι]

/-- The request's environment names recyclers, and one of them takes the entry. -/
def Request.Recycled (q : Request) (fs : FileSystem) : Prop :=
  q.env.recycler ≠ none ∧ ∀ x st1, q.Asks x → fs.statLoc x = .ok st1 →
    ∃ b st2, q.env.Selects fs q.process q.pathname st1 b st2

theorem Request.Recycled.sure (hr : q.Recycled fs) (hdev : OneDevice fs) (hb : fs.IsDir b)
    (hq : Orderly fs (· = b) q) : Sure fs (· = b) (exec q.process) q := by
  refine ⟨rfl, hr.1, hr.2, fun x b' y hx hb' hy => ?_⟩
  subst hb'
  refine hdev.ino_ne hb fun h => hq.outside x hx (inBins_iff.2 ?_)
  exact h ▸ hy.trans (List.tail_suffix x)

section Removals

variable (qs : ι → Request) (hdev : OneDevice fs) (hb : fs.IsDir b) (hbin : OnlyDirs fs b)
  (hq : ∀ i, Orderly fs (· = b) (qs i))

include hb hbin hq

omit [DecidableEq ι] in
theorem follows_removals (i : ι) : Follows (exec (qs i).process) (Rescued fs b (Asked qs))
    (Stays (· = b)) (May fs (· = b) (exec (qs i).process) (qs i)) (fun _ _ => True)
    (qs i).program fs :=
  (obeys_unlinkat (fun _ _ => Or.inl rfl) (hq i) (fun _ hx => ⟨i, hx⟩)
    (furnished_of_onlyDirs hb hbin) fs).anti fun _ hR => hR.contained

include hdev

omit [DecidableEq ι] in
theorem keeps_removals (hr : ∀ i, (qs i).Recycled fs) (i : ι) (fs' : FileSystem) (c : Call)
    (hR : Rescued fs b (Asked qs) fs') (hmay : May fs (· = b) (exec (qs i).process) (qs i) fs' c) :
    Rescued fs b (Asked qs) (exec (qs i).process c fs').2 ∧
      Stays (· = b) fs' (exec (qs i).process c fs').2 := by
  have hout : ∀ x, Asked qs x → ¬ b <:+ x := fun x ⟨j, hx⟩ h =>
    (hq j).outside x hx (inBins_iff.2 h)
  have hasked : ∀ x, (qs i).Asks x → Asked qs x := fun x hx => ⟨i, hx⟩
  exact ⟨hR.keeps hbin hdev hout (hq i) hasked ((hr i).sure hdev hb (hq i)) hmay,
    (hmay.keeps hR.contained (hq i) hasked).2⟩

theorem removals_rescued (hr : ∀ i, (qs i).Recycled fs) (sched : List ι) :
    Rescued fs b (Asked qs)
      ((removals qs fs).run (fun i => exec (qs i).process) sched).state :=
  (Pool.follows_run (Stays.refl _) (fun _ _ _ => Stays.trans) (keeps_removals qs hdev hb hbin hq hr)
    (.refl hb hbin) (follows_removals qs hb hbin hq) sched).1

end Removals

/-- The entry that was at `x` is still there, or the recycler `b` has it under the same names, and if
it is a directory, then a directory in its place. -/
def Kept (fs : FileSystem) (b x : Loc) (fs' : FileSystem) : Prop :=
  ∀ d, fs.dirent x = some d →
    (fs'.dirent x = some d ∨ ¬ fs.IsDir x ∧ fs'.dirent (x ++ b) = some d) ∧
        fs'.inode d.obj = fs.inode d.obj ∨
      fs.IsDir x ∧ fs'.IsDir (x ++ b)

theorem Rescued.kept (hR : Rescued fs₀ b asked fs) (hx : ¬ b <:+ x) : Kept fs₀ b x fs := by
  intro d hd
  have hout : ¬ InBins (· = b) x := fun h => hx (inBins_iff.1 h)
  rcases hR.contained.dirent x hout with h | ⟨ha, hn⟩
  · have hd' := h.trans hd
    exact Or.inl ⟨Or.inl hd', hR.contained.inode x d hout hd'⟩
  · by_cases hdir : fs₀.IsDir x
    · exact Or.inr ⟨hdir, hR.dir x ha hdir hn⟩
    · have hd' := hR.file x d ha ⟨hd, hdir⟩ hn
      exact Or.inl ⟨Or.inr ⟨hdir, hd'.1⟩, hR.inode x d hd'⟩

/-- At any time of a run every entry that was outside of the recycler is still there, or it is in
the recycler. -/
theorem removals_lose_nothing (qs : ι → Request) (hdev : OneDevice fs) (hb : fs.IsDir b)
    (hbin : OnlyDirs fs b) (hq : ∀ i, Orderly fs (· = b) (qs i)) (hr : ∀ i, (qs i).Recycled fs)
    (sched : List ι) (hx : ¬ b <:+ x) :
    Kept fs b x ((removals qs fs).run (fun i => exec (qs i).process) sched).state :=
  (removals_rescued qs hdev hb hbin hq hr sched).kept hx

namespace Sample

theorem onlyDirs_pairTree : OnlyDirs pairTree [bin] := .of_locs (by decide)

theorem oneDevice_pairTree : OneDevice pairTree :=
  .of_locs (show ∀ l ∈ pairTree.locs, (pairTree.objAt l).map Obj.dev = some 1 by decide)

theorem recycled_request {s : Str} (habs : isAbs s = true) (flags : Flags)
    (hbin : fs.stat process "/bin".toList = .ok ⟨⟨1, 3⟩, dir⟩)
    (hst : ∀ st1, fs.statLoc (lexical [] (comps s)) = .ok st1 →
      st1.obj.dev = 1 ∧ (st1.isReg = true → 1 ≤ st1.size)) : (request s flags).Recycled fs := by
  refine ⟨(nomatch ·), fun x st1 hx hst1 => ?_⟩
  rw [(asks_request habs flags).1 hx] at hst1
  obtain ⟨hdev, hsize⟩ := hst st1 hst1
  exact ⟨⟨"/bin".toList, .initial⟩, ⟨⟨1, 3⟩, dir⟩,
    ⟨"/bin".toList, [], "/bin".toList, [], rfl, by decide +kernel,
      fun x hx => absurd hx List.not_mem_nil, rfl⟩, hbin, hdev.symm,
    fun hreg => ⟨Int.ofNat_le.2 (hsize hreg), fun h => absurd rfl h⟩, rfl⟩

theorem recycled_requests (i : Bool) : (requests i).Recycled pairTree := by
  cases i <;> refine recycled_request (by decide) _ (by decide +kernel) fun st1 hst => ?_ <;>
    obtain rfl := Except.ok.inj hst <;> decide +kernel

end Sample

theorem removals_lose_nothing_pairTree :
    Kept Sample.pairTree [Sample.bin] [Sample.f, Sample.a]
      ((removals Sample.requests Sample.pairTree).run
        (fun i => exec (Sample.requests i).process) Sample.turns).state :=
  removals_lose_nothing Sample.requests Sample.oneDevice_pairTree (by decide)
    Sample.onlyDirs_pairTree Sample.orderly_requests Sample.recycled_requests Sample.turns
    (by decide)

end YazzyPreload.Recyclix

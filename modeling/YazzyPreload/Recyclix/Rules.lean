import YazzyPreload.Lexical
import YazzyPreload.Recyclix.Recycle
import YazzyPreload.Update

/-!
# What concurrent calls of `unlinkat` may do

Several processes call `unlinkat` at the same time.  `May` lists the calls that one of them may make
in a file system, and `Contained` is what then stays true: outside of the recyclers nothing changes
but that entries go which some process was asked to remove.  `May.contained` and `May.stays` are
about one call.
-/

namespace YazzyPreload.Recyclix

open FileSystem

/-- A call of `unlinkat` and the process that makes it. -/
structure Request where
  process : Process
  env : Env
  fuel : ℕ
  dirfd : ℤ
  pathname : Str
  flags : Flags

/-- The place of the entry that the request is to remove. -/
def Request.Asks (q : Request) (x : Loc) : Prop :=
  ∃ cur, base q.process q.dirfd q.pathname = .ok cur ∧ x = lexical cur (comps q.pathname)

/-- The place is at or below one of the recyclers. -/
def InBins (bins : Loc → Prop) (x : Loc) : Prop := ∃ b, bins b ∧ b <:+ x

/-- The search for the mountpoint of the entry at `e` may end with `m`. -/
structure Mounts (fs : FileSystem) (e m : Loc) : Prop where
  dirent : fs.dirent e ≠ none
  above : m <:+ e
  dev : m ≠ [] → (fs.objAt m.tail).map Obj.dev ≠ (fs.objAt e).map Obj.dev

/-- What is assumed of a request and the file system before all calls. -/
structure Orderly (fs : FileSystem) (bins : Loc → Prop) (q : Request) : Prop where
  /-- the pathname does not end in a dot or two -/
  name : ∃ cs n, comps q.pathname = cs ++ [.name n]
  direct : ∀ cur, base q.process q.dirfd q.pathname = .ok cur →
    Direct (IsLink fs.kindAt) cur (comps q.pathname)
  outside : ∀ x, q.Asks x → ¬ InBins bins x
  /-- what is to be removed is a directory or not a mountpoint -/
  unmounted : ∀ x, q.Asks x → fs.dirent x ≠ none → ¬ fs.IsDir x →
    (fs.objAt x.tail).map Obj.dev = (fs.objAt x).map Obj.dev
  /-- the items are plain pathnames of recyclers; relative ones go with the descriptor 0 -/
  recyclers : ∀ s, q.env.recycler = some s → ∀ item ∈ s.splitOn ':', ∀ b,
    q.env.readItem q.pathname item = .bin b → b.dir ≠ [] → ∃ x, bins x ∧ Plainly q.process b.dir x ∧
      (isAbs b.dir = true ∨ ∀ y, q.process.fds 0 = some (.dir y) → y = q.process.cwd)

/-- The recyclers are directories, and there are no links in them. -/
structure Furnished (fs : FileSystem) (bins : Loc → Prop) : Prop where
  bin : ∀ b, bins b → fs.IsDir b
  link : ∀ x, InBins bins x → ¬ IsLink fs.kindAt x

/-- The file system `fs` comes from `fs₀` by changes in the recyclers and by removing entries that are
asked for. -/
structure Contained (fs₀ : FileSystem) (bins asked : Loc → Prop) (fs : FileSystem) : Prop where
  dirent : ∀ x, ¬ InBins bins x → fs.dirent x = fs₀.dirent x ∨ asked x ∧ fs.dirent x = none
  inode : ∀ x d, ¬ InBins bins x → fs.dirent x = some d → fs.inode d.obj = fs₀.inode d.obj
  bin : ∀ b, bins b → fs.dirent b = fs₀.dirent b
  furnished : Furnished fs bins

/-- Directories in the recyclers stay. -/
def Stays (bins : Loc → Prop) (fs fs' : FileSystem) : Prop :=
  ∀ x, InBins bins x → fs.IsDir x → fs'.IsDir x

variable {fs₀ fs fs' : FileSystem} {bins asked : Loc → Prop} {q : Request} {p : Process}
  {b e l m r x y : Loc} {n : Name} {s : Str}

theorem Stays.refl (bins : Loc → Prop) (fs : FileSystem) : Stays bins fs fs := fun _ _ h => h

theorem Stays.trans {fs'' : FileSystem} (h : Stays bins fs fs') (h' : Stays bins fs' fs'') :
    Stays bins fs fs'' := fun x hx hd => h' x hx (h x hx hd)

theorem InBins.of_bin (hb : bins b) (r : Loc) : InBins bins (r ++ b) :=
  ⟨b, hb, List.suffix_append r b⟩

theorem InBins.below (h : InBins bins x) (hs : x <:+ y) : InBins bins y := by
  obtain ⟨b, hb, hbx⟩ := h
  exact ⟨b, hb, hbx.trans hs⟩

theorem Request.Asks.unique (h : q.Asks x) (h' : q.Asks y) : x = y := by
  obtain ⟨cur, hb, rfl⟩ := h
  obtain ⟨cur', hb', rfl⟩ := h'
  rw [Except.ok.inj (hb.symm.trans hb')]

theorem Contained.refl (h : Furnished fs bins) : Contained fs bins asked fs :=
  ⟨fun _ _ => Or.inl rfl, fun _ _ _ _ => rfl, fun _ _ => rfl, h⟩

/-! ## What stays true -/

section Contained

variable (h : Contained fs₀ bins asked fs)

include h

theorem Contained.dirent_eq {d : Dent} (hx : ¬ InBins bins x) (hd : fs.dirent x = some d) :
    fs₀.dirent x = some d := by
  rcases h.dirent x hx with h | ⟨-, h⟩
  · rw [← h, hd]
  · rw [h] at hd
    cases hd

theorem Contained.kindAt_eq {k : Kind} (hx : ¬ InBins bins x) (hk : fs.kindAt x = some k) :
    fs₀.kindAt x = some k := by
  obtain ⟨d, hd, rfl⟩ := Option.map_eq_some_iff.1 hk
  rw [kindAt_of_dirent (h.dirent_eq hx hd), h.inode x d hx hd]

theorem Contained.isDir_iff (hx : ¬ InBins bins x) (hne : fs.dirent x ≠ none) :
    fs.IsDir x ↔ fs₀.IsDir x := by
  obtain ⟨d, hd⟩ := Option.ne_none_iff_exists'.1 hne
  rw [isDir_iff_kind hd, isDir_iff_kind (h.dirent_eq hx hd), h.inode x d hx hd]

theorem Contained.statLoc_eq {st : Stat} (hx : ¬ InBins bins x) (hst : fs.statLoc x = .ok st) :
    fs₀.statLoc x = .ok st := by
  obtain ⟨d, hd, rfl⟩ := statLoc_eq_ok.1 hst
  exact statLoc_eq_ok.2 ⟨d, h.dirent_eq hx hd, by rw [h.inode x d hx hd]⟩

/-- Links are where they were. -/
theorem Contained.isLink (hl : IsLink fs.kindAt x) : IsLink fs₀.kindAt x := by
  have hx : ¬ InBins bins x := fun hx => h.furnished.link x hx hl
  obtain ⟨t, ht⟩ := hl
  exact ⟨t, h.kindAt_eq hx ht⟩

/-- No link is above a place in a recycler. -/
theorem Contained.not_isLink (hx : InBins bins x) (hy : y <:+ x) : ¬ IsLink fs.kindAt y := by
  obtain ⟨b, hb, hbx⟩ := hx
  rcases List.suffix_or_suffix_of_suffix hy hbx with hyb | hby
  · rintro ⟨t, ht⟩
    have hdir := (h.furnished.bin b hb).above hyb
    rw [IsDir, ht] at hdir
    cases hdir
  · exact h.furnished.link y ⟨b, hb, hby⟩

/-- A plain pathname of a place in a recycler. -/
theorem Contained.direct (hx : InBins bins x) (hs : Plainly p s x) :
    Direct (IsLink fs.kindAt) (start p (isAbs s)) (comps s) :=
  hs.direct fun _ hy => h.not_isLink hx hy

theorem Contained.targetAt_eq (hx : InBins bins x) (hs : Plainly p s x)
    (ht : fs.targetAt p atFdcwd s = .ok (.entry l n)) : n :: l = x :=
  (targetAt_lexical (base_atFdcwd p s) (h.direct hx hs) ht).trans hs.spelled

theorem Contained.statLoc_of_stat {st : Stat} (hx : InBins bins x) (hs : Plainly p s x)
    (hst : fs.stat p s = .ok st) : fs.statLoc x = .ok st := by
  have hloc := stat_lexical (h.direct hx hs) hst
  rwa [hs.spelled] at hloc

end Contained

/-- What is a directory at some time is not a link before. -/
theorem Contained.not_isLink_of_isDir (h : Contained fs₀ bins asked fs) (h₀ : Furnished fs₀ bins)
    (hd : fs.IsDir x) : ¬ IsLink fs₀.kindAt x := by
  by_cases hx : InBins bins x
  · exact h₀.link x hx
  · rintro ⟨t, ht⟩
    rw [h.kindAt_eq hx hd] at ht
    cases ht

/-- The status of a recycler. -/
theorem Contained.stat_bin (h : Contained fs₀ bins asked fs) (hb : bins b) (hs : Plainly p s b) :
    ∃ st, fs.stat p s = .ok st ∧ fs₀.objAt b = some st.obj := by
  have hlead := hs.leads (h.furnished.bin b hb)
  have hd := descend_nil hlead.isDir
  obtain ⟨st, hst, hloc⟩ := stat_of_descend hlead ⟨by simp, rfl, fun _ => rfl⟩ hs.1 hd
  refine ⟨st, hst, ?_⟩
  rw [objAt, ← h.bin b hb]
  exact objAt_of_statLoc hloc

/-! ## Changes -/

/-- A change at a place in a recycler, which is not a directory before. -/
theorem Contained.change (h : Contained fs₀ bins asked fs) (hx : InBins bins x)
    (hnd : ¬ fs.IsDir x) (hdirent : ∀ y, y ≠ x → fs'.dirent y = fs.dirent y)
    (hinode : ∀ y d, fs.dirent y = some d → fs'.inode d.obj = fs.inode d.obj)
    (hlink : ¬ IsLink fs'.kindAt x) : Contained fs₀ bins asked fs' ∧ Stays bins fs fs' := by
  have hkind : ∀ y, y ≠ x → fs'.kindAt y = fs.kindAt y := fun y hy => by
    rw [kindAt, kindAt, hdirent y hy]
    cases hd : fs.dirent y with
    | none => rfl
    | some d => rw [Option.map_some, Option.map_some, hinode y d hd]
  have hdir : ∀ y, fs.IsDir y → fs'.IsDir y := fun y hy => by
    have hne : y ≠ x := fun e => hnd (e ▸ hy)
    rw [IsDir, hkind y hne]
    exact hy
  have hout : ∀ y, ¬ InBins bins y → fs'.dirent y = fs.dirent y :=
    fun y hy => hdirent y fun e => hy (e ▸ hx)
  refine ⟨⟨fun y hy => ?_, fun y d hy hd => ?_, fun b hb => ?_, fun b hb => ?_, fun y hy => ?_⟩,
    fun y _ => hdir y⟩
  · rw [hout y hy]
    exact h.dirent y hy
  · rw [hout y hy] at hd
    rw [hinode y d hd, h.inode y d hy hd]
  · rw [hdirent b fun e => hnd (e ▸ h.furnished.bin b hb), h.bin b hb]
  · exact hdir b (h.furnished.bin b hb)
  · by_cases e : y = x
    · rwa [e]
    · rw [IsLink, hkind y e]
      exact h.furnished.link y hy

/-- Another mode or owner for a directory in a recycler. -/
theorem Contained.adjust (h : Contained fs₀ bins asked fs) (hx : InBins bins x) (hd : fs.IsDir x)
    {o : Obj} (ho : fs.objAt x = some o) (f : Inode → Inode) (hf : ∀ i, (f i).kind = i.kind) :
    Contained fs₀ bins asked (fs.adjust o f hf) ∧ Stays bins fs (fs.adjust o f hf) := by
  have hkind : (fs.adjust o f hf).kindAt = fs.kindAt := kindAt_adjust fs o f hf
  refine ⟨⟨h.dirent, fun y d hy hdy => ?_, h.bin, fun b hb => ?_, fun y hy => ?_⟩, fun y _ hdy => ?_⟩
  · have hno : d.obj ≠ o := by
      rintro rfl
      have hself : fs.objAt y = some d.obj := by rw [objAt, show fs.dirent y = some d from hdy]; rfl
      exact hy (hd.eq_of_objAt (ho.trans hself.symm) ▸ hx)
    rw [inode_adjust, if_neg hno]
    exact h.inode y d hy hdy
  · rw [IsDir, hkind]
    exact h.furnished.bin b hb
  · rw [hkind]
    exact h.furnished.link y hy
  · rw [IsDir, hkind]
    exact hdy

/-- An entry goes that is asked for. -/
theorem Contained.erase (h : Contained fs₀ bins asked fs) (hx : asked x)
    (hout : ¬ InBins bins x) (hne : x ≠ []) (hc : fs.childless x = true) :
    Contained fs₀ bins asked (fs.erase x) ∧ Stays bins fs (fs.erase x) := by
  have hdirent := dirent_erase hne hc
  have hkind := kindAt_erase hne hc
  have hbins : ∀ y, InBins bins y → y ≠ x := fun y hy e => hout (e ▸ hy)
  have hself : ∀ b, bins b → InBins bins b := fun b hb => ⟨b, hb, List.suffix_rfl⟩
  have hstays : Stays bins fs (fs.erase x) := fun y hy hd => by
    rw [IsDir, hkind, if_neg (hbins y hy)]
    exact hd
  refine ⟨⟨fun y hy => ?_, fun y d hy hd => ?_, fun b hb => ?_,
    fun b hb => hstays b (hself b hb) (h.furnished.bin b hb), fun y hy => ?_⟩, hstays⟩
  · rw [hdirent]
    split_ifs with e
    · exact Or.inr ⟨e ▸ hx, rfl⟩
    · exact h.dirent y hy
  · rw [hdirent] at hd
    split_ifs at hd
    rw [inode_erase]
    exact h.inode y d hy hd
  · rw [hdirent, if_neg (hbins b (hself b hb)), h.bin b hb]
  · rw [IsLink, hkind, if_neg (hbins y hy)]
    exact h.furnished.link y hy

/-- A file that is asked for goes to a place in a recycler. -/
theorem Contained.move (h : Contained fs₀ bins asked fs) (hx : asked x) (hout : ¬ InBins bins x)
    (hy : InBins bins y) (hm : fs.Movable x y) (hk : ¬ fs.IsDir x) (hl : ¬ IsLink fs.kindAt x)
    (hnd : ¬ fs.IsDir y) :
    Contained fs₀ bins asked (fs.move x y) ∧ Stays bins fs (fs.move x y) := by
  obtain ⟨hxne, hyne, hp, -, hc, hsome⟩ := hm.guard
  have hnex : ∀ z, InBins bins z → z ≠ x := fun z hz e => hout (e ▸ hz)
  have hney : ∀ z, ¬ InBins bins z → z ≠ y := fun z hz e => hz (e ▸ hy)
  have hdney : ∀ z, fs.IsDir z → z ≠ y := fun z hz e => hnd (e ▸ hz)
  have hself : ∀ b, bins b → InBins bins b := fun b hb => ⟨b, hb, List.suffix_rfl⟩
  have hdirent := dirent_move_of_not_isDir hxne hyne hp (hnex y hy).symm hc hsome hk
  have hkind : ∀ z, InBins bins z → z ≠ y → (fs.move x y).kindAt z = fs.kindAt z := fun z hz e => by
    rw [kindAt, kindAt, hdirent, if_neg e, if_neg (hnex z hz), inode_move]
  have hstays : Stays bins fs (fs.move x y) := fun z hz hd => by
    rw [IsDir, hkind z hz (hdney z hd)]
    exact hd
  refine ⟨⟨fun z hz => ?_, fun z d hz hd => ?_, fun b hb => ?_,
    fun b hb => hstays b (hself b hb) (h.furnished.bin b hb), fun z hz => ?_⟩, hstays⟩
  · rw [hdirent, if_neg (hney z hz)]
    split_ifs with e
    · exact Or.inr ⟨e ▸ hx, rfl⟩
    · exact h.dirent z hz
  · rw [hdirent, if_neg (hney z hz)] at hd
    split_ifs at hd
    rw [inode_move]
    exact h.inode z d hz hd
  · rw [hdirent, if_neg (hdney b (h.furnished.bin b hb)), if_neg (hnex b (hself b hb)), h.bin b hb]
  · by_cases e : z = y
    · subst e
      rw [IsLink, kindAt, hdirent, if_pos rfl, inode_move]
      exact hl
    · rw [IsLink, hkind z hz e]
      exact h.furnished.link z hz

/-! ## The calls -/

/-- The path of a directory at or above what the request is to remove, cloned to the place `x` in a
recycler. -/
def Clones (fs₀ : FileSystem) (bins : Loc → Prop) (q : Request) (s : Str) (x : Loc) : Prop :=
  ∃ e b m r, q.Asks e ∧ bins b ∧ Mounts fs₀ e m ∧ r ++ m <:+ e ∧ fs₀.IsDir (r ++ m) ∧ x = r ++ b ∧
    Plainly q.process s x

/-- The names `r` in the recycler `b` are for what is at `e`. -/
def KeptAt (fs₀ : FileSystem) (bins : Loc → Prop) (q : Request) (e b r : Loc) : Prop :=
  q.Asks e ∧ bins b ∧ ∃ m, Mounts fs₀ e m ∧ e = r ++ m

/-- The request cannot end with the removal of what it did not clone: no call is denied, a recycler
takes the entry, and no directory above has the inode number of a recycler. -/
structure Sure (fs₀ : FileSystem) (bins : Loc → Prop) (h : Handler Call Call.Answer FileSystem)
    (q : Request) : Prop where
  answers : h = exec q.process
  recycler : q.env.recycler ≠ none
  selects : ∀ x st1, q.Asks x → fs₀.statLoc x = .ok st1 →
    ∃ b st2, q.env.Selects fs₀ q.process q.pathname st1 b st2
  number : ∀ x b y, q.Asks x → bins b → y <:+ x.tail →
    (fs₀.objAt y).map Obj.ino ≠ (fs₀.objAt b).map Obj.ino

/-- The calls that a request may make. -/
def May (fs₀ : FileSystem) (bins : Loc → Prop) (h : Handler Call Call.Answer FileSystem)
    (q : Request) (fs : FileSystem) : Call → Prop
  | .mkdir s _ | .unlink s => ∃ x, Clones fs₀ bins q s x
  | .chmod s _ | .chown s _ _ => ∃ x, Clones fs₀ bins q s x ∧ fs.IsDir x
  | .unlinkat dirfd s _ => dirfd = q.dirfd ∧ s = q.pathname ∧
      (Sure fs₀ bins h q → ∃ e b r, KeptAt fs₀ bins q e b r ∧ fs₀.IsDir e ∧ fs.IsDir (r ++ b))
  | .renameat dirfd s dirfd' s' => dirfd = q.dirfd ∧ s = q.pathname ∧
      (∀ cur, base q.process dirfd' s' = .ok cur → cur = start q.process (isAbs s')) ∧
      ∃ e b r, KeptAt fs₀ bins q e b r ∧ ¬ fs₀.IsDir e ∧ Plainly q.process s' (r ++ b)
  | _ => True

theorem Clones.inBins (h : Clones fs₀ bins q s x) : InBins bins x := by
  obtain ⟨e, b, m, r, -, hb, -, -, -, rfl, -⟩ := h
  exact .of_bin hb r

theorem Clones.plainly (h : Clones fs₀ bins q s x) : Plainly q.process s x := by
  obtain ⟨e, b, m, r, -, -, -, -, -, -, hs⟩ := h
  exact hs

theorem unlinkEntry_dir {dirfd : ℤ} (ht : fs.targetAt p dirfd s = .ok (.entry l n))
    (hd : fs.IsDir (n :: l)) : fs.unlinkEntry p dirfd s = (.error .EISDIR, fs) := by
  obtain ⟨d, hd, hk⟩ := isDir_iff.1 hd
  unfold unlinkEntry
  simp only [ht, hd, hk, if_true]

/-- A file does not take the place of a directory. -/
theorem renameEntry_onto_dir (hk : ¬ fs.IsDir x) (hd : fs.IsDir y) (slash : Bool) :
    ∃ e, fs.renameEntry x y slash = (.error e, fs) := by
  obtain ⟨d', hd', hk'⟩ := isDir_iff.1 hd
  unfold renameEntry
  cases hx : fs.dirent x with
  | none => exact ⟨_, rfl⟩
  | some d =>
    have hkd : (fs.inode d.obj).kind ≠ .dir := fun e => hk ((isDir_iff_kind hx).2 e)
    have hne : d.obj ≠ d'.obj := fun e => hkd (e ▸ hk')
    simp only [hkd, hd', hne, hk', if_false, false_and, if_true, not_false_eq_true, true_and]
    split_ifs <;> exact ⟨_, rfl⟩

theorem renameat_onto_dir {dirfd dirfd' : ℤ} {s' : Str} {l' : Loc} {n' : Name}
    (ht : fs.targetAt p dirfd s = .ok (.entry l n))
    (ht' : fs.targetAt p dirfd' s' = .ok (.entry l' n')) (hk : ¬ fs.IsDir (n :: l))
    (hd : fs.IsDir (n' :: l')) : ∃ e, fs.renameat p dirfd s dirfd' s' = (.error e, fs) := by
  unfold renameat
  rw [ht, ht']
  dsimp only
  split_ifs
  · exact ⟨_, rfl⟩
  · exact renameEntry_onto_dir hk hd _

section Keeps

variable (h : Contained fs₀ bins asked fs)

include h

theorem contained_mkdir (hs : Clones fs₀ bins q s x) (mode : Mode) :
    Contained fs₀ bins asked (fs.mkdir q.process s mode).2 ∧
      Stays bins fs (fs.mkdir q.process s mode).2 := by
  rcases fs.mkdir_cases q.process s mode with ⟨e, hm⟩ | ⟨l, n, ht, hn, hm⟩ <;> rw [hm]
  · exact ⟨h, Stays.refl bins fs⟩
  · obtain rfl := h.targetAt_eq hs.inBins hs.plainly ht
    have hl := isDir_of_targetAt ht
    have hi := newDir_kind fs q.process l mode
    refine h.change hs.inBins (fun hd => hd.dirent_ne_none hn)
      (fun y hy => dirent_addChild_of_ne hl hn _ hy) (fun y d hd => ?_) ?_
    · rw [inode_addChild hl hn, if_neg (ne_of_unused (fs.unused_newObj l) hd)]
    · rintro ⟨t, ht⟩
      rw [kindAt_addChild hl hn, if_pos rfl, hi] at ht
      cases ht

theorem contained_unlink (hs : Clones fs₀ bins q s x) :
    Contained fs₀ bins asked (fs.unlinkEntry q.process atFdcwd s).2 ∧
      Stays bins fs (fs.unlinkEntry q.process atFdcwd s).2 := by
  rcases fs.unlinkEntry_cases q.process atFdcwd s with ⟨e, hu⟩ | ⟨l, n, ht, -, hc, hu⟩
  · rw [hu]
    exact ⟨h, Stays.refl bins fs⟩
  · obtain rfl := h.targetAt_eq hs.inBins hs.plainly ht
    by_cases hd : fs.IsDir (n :: l)
    · rw [unlinkEntry_dir ht hd]
      exact ⟨h, Stays.refl bins fs⟩
    · have hdirent := dirent_erase (List.cons_ne_nil n l) hc
      rw [hu]
      refine h.change hs.inBins hd (fun y hy => by rw [hdirent, if_neg hy])
        (fun y d _ => by rw [inode_erase]) ?_
      rintro ⟨t, ht⟩
      rw [kindAt_erase (List.cons_ne_nil n l) hc, if_pos rfl] at ht
      cases ht

theorem contained_chmod (hs : Clones fs₀ bins q s x) (hd : fs.IsDir x) (mode : Mode) :
    Contained fs₀ bins asked (fs.chmod q.process s mode).2 ∧
      Stays bins fs (fs.chmod q.process s mode).2 := by
  cases hst : fs.stat q.process s with
  | error e =>
    rw [stat] at hst
    rw [chmod, hst]
    exact ⟨h, Stays.refl bins fs⟩
  | ok st =>
    rw [chmod_of_stat hst]
    exact h.adjust hs.inBins hd (objAt_of_statLoc (h.statLoc_of_stat hs.inBins hs.plainly hst))
      (fun i => { i with mode := mode }) fun _ => rfl

theorem contained_chown (hs : Clones fs₀ bins q s x) (hd : fs.IsDir x) (uid gid : ℕ) :
    Contained fs₀ bins asked (fs.chown q.process s uid gid).2 ∧
      Stays bins fs (fs.chown q.process s uid gid).2 := by
  cases hst : fs.stat q.process s with
  | error e =>
    rw [stat] at hst
    rw [chown, hst]
    exact ⟨h, Stays.refl bins fs⟩
  | ok st =>
    rw [chown_of_stat hst]
    exact h.adjust hs.inBins hd (objAt_of_statLoc (h.statLoc_of_stat hs.inBins hs.plainly hst))
      (fun i => { i with uid := uid, gid := gid }) fun _ => rfl

variable (hq : Orderly fs₀ bins q) (hasked : ∀ x, q.Asks x → asked x)

include hq

/-- What a request's pathname names is the entry it is to remove. -/
theorem asks_of_targetAt (ht : fs.targetAt q.process q.dirfd q.pathname = .ok (.entry l n)) :
    q.Asks (n :: l) ∧ ¬ IsLink fs.kindAt (n :: l) := by
  obtain ⟨cur, ys, hb, -⟩ := targetAt_entry ht
  obtain ⟨cs, c, hc⟩ := hq.name
  have hd := hq.direct cur hb
  have hx := targetAt_lexical hb (hd.mono fun y hy => h.isLink hy) ht
  refine ⟨⟨cur, hb, hx⟩, fun hl => ?_⟩
  rw [hc, Direct.append_iff] at hd
  rw [hx, hc, lexical_concat] at hl
  exact hd.2.1 (h.isLink hl)

include hasked

theorem contained_unlinkat (flags : Flags) :
    Contained fs₀ bins asked (fs.unlinkat q.process q.dirfd q.pathname flags).2 ∧
      Stays bins fs (fs.unlinkat q.process q.dirfd q.pathname flags).2 := by
  rcases fs.unlinkat_cases q.process q.dirfd q.pathname flags with ⟨e, hu⟩ | ⟨l, n, ht, -, hc, hu⟩ <;>
    rw [hu]
  · exact ⟨h, Stays.refl bins fs⟩
  · obtain ⟨hx, -⟩ := asks_of_targetAt h hq ht
    exact h.erase (hasked _ hx) (hq.outside _ hx) (List.cons_ne_nil n l) hc

theorem contained_renameat {dirfd' : ℤ} {s' : Str}
    (hb : ∀ cur, base q.process dirfd' s' = .ok cur → cur = start q.process (isAbs s'))
    (hs' : Plainly q.process s' y) (hy : InBins bins y)
    (hk : ∀ x, q.Asks x → ¬ fs₀.IsDir x) :
    Contained fs₀ bins asked (fs.renameat q.process q.dirfd q.pathname dirfd' s').2 ∧
      Stays bins fs (fs.renameat q.process q.dirfd q.pathname dirfd' s').2 := by
  rcases fs.renameat_cases q.process q.dirfd q.pathname dirfd' s' with
    ⟨e, hr⟩ | ⟨l, n, l', n', ht, ht', ⟨-, -, hr⟩ | ⟨hm, hr⟩⟩
  · rw [hr]
    exact ⟨h, Stays.refl bins fs⟩
  · rw [hr]
    exact ⟨h, Stays.refl bins fs⟩
  · obtain ⟨hx, hl⟩ := asks_of_targetAt h hq ht
    obtain ⟨cur, -, hcur, -⟩ := targetAt_entry ht'
    obtain rfl := hb cur hcur
    obtain rfl : n' :: l' = y :=
      (targetAt_lexical hcur (h.direct hy hs') ht').trans hs'.spelled
    have hnd : ¬ fs.IsDir (n :: l) := fun hd =>
      hk _ hx ((h.isDir_iff (hq.outside _ hx) hd.dirent_ne_none).1 hd)
    by_cases hd' : fs.IsDir (n' :: l')
    · obtain ⟨e, he⟩ := renameat_onto_dir ht ht' hnd hd'
      rw [he]
      exact ⟨h, Stays.refl bins fs⟩
    · rw [hr]
      exact h.move (hasked _ hx) (hq.outside _ hx) hy hm hnd hl hd'

/-- A call that may be made leaves the changes contained. -/
theorem May.keeps {hd : Handler Call Call.Answer FileSystem} {c : Call}
    (hc : May fs₀ bins hd q fs c) : Contained fs₀ bins asked (exec q.process c fs).2 ∧
      Stays bins fs (exec q.process c fs).2 := by
  cases c with
  | mkdir s mode =>
    obtain ⟨x, hs⟩ := hc
    exact contained_mkdir h hs mode
  | unlink s =>
    obtain ⟨x, hs⟩ := hc
    exact contained_unlink h hs
  | chmod s mode =>
    obtain ⟨x, hs, hx⟩ := hc
    exact contained_chmod h hs hx mode
  | chown s uid gid =>
    obtain ⟨x, hs, hx⟩ := hc
    exact contained_chown h hs hx uid gid
  | unlinkat dirfd s flags =>
    obtain ⟨rfl, rfl, -⟩ := hc
    exact contained_unlinkat h hq hasked flags
  | renameat dirfd s dirfd' s' =>
    obtain ⟨rfl, rfl, hb, e, b, r, ⟨he, hbin, -⟩, hk, hs'⟩ := hc
    exact contained_renameat h hq hasked hb hs' (.of_bin hbin r) fun x hx => hx.unique he ▸ hk
  | _ => exact ⟨h, Stays.refl bins fs⟩

end Keeps

end YazzyPreload.Recyclix

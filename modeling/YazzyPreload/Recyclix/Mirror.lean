import YazzyPreload.Recyclix.History
import YazzyPreload.Recyclix.Metadata
import YazzyPreload.Recyclix.Obstacle
import YazzyPreload.Recyclix.Rmdir

/-!
# Removing a tree

When the entries of a tree are removed one by one, each after what is below it, the directories of
the tree are cloned into the recycler again and again, and removed for real in the end.
`Mirroring` relates the shrinking tree to the growing mirror: the entries that are left are as they
were, and every entry that is gone has its place in the mirror.  `removal_mirrors` draws the
conclusion for all orders and all ways to name the entries.
-/

namespace YazzyPreload.Recyclix

open FileSystem Prog

/-- There is nothing at the place, or a directory that nothing is mounted on. -/
def Passage (fs : FileSystem) (x : Loc) : Prop :=
  ∀ d, fs.dirent x = some d → (fs.inode d.obj).kind = .dir ∧ d.mounted = false

/-- The tree at `t`, which the names `r` lead to from its mountpoint `m`, and the recycler `dir`, the
directory `o` at `b`, do not contain one another, and from `b` along `r` there are at most
directories, with room at the end. -/
structure Apart (fs : FileSystem) (dir : Str) (o : Obj) (t m r b : Loc) : Prop where
  isAbs : isAbs dir = true
  leads : walk fs.kindAt maxSymlinks [] (comps dir) = .ok b
  isDir : fs.IsDir b
  obj : fs.objAt b = some o
  own : OwnNumber o fs
  not_above : ¬ t <:+ b
  not_below : ¬ b <:+ t
  names : t = r ++ m
  exists_tree : fs.dirent t ≠ none
  top : m = [] ∨ (fs.objAt m.tail).map Obj.dev ≠ some o.dev
  dev_above : ∀ a, a <:+ t → m.length ≤ a.length → (fs.objAt a).map Obj.dev = some o.dev
  dev : ∀ x d, t <:+ x → fs.dirent x = some d → d.obj.dev = o.dev
  unmounted : ∀ x d, t <:+ x → fs.dirent x = some d → d.mounted = false
  size : ∀ x d size, t <:+ x → fs.dirent x = some d → (fs.inode d.obj).kind = .reg size → 1 ≤ size
  way : ∀ u, u ≠ [] → u <:+ r → u ≠ r → fs.dirent (u ++ b) = none ∨ fs.IsDir (u ++ b)
  room : fs.dirent (r ++ b) = none

/-- Moreover the pathname `dir` does not lead through the tree, and the tree, the recycler and the
directories on the way from `b` along `r` are on one mount. -/
structure Mirrorable (fs : FileSystem) (dir : Str) (o : Obj) (t m r b : Loc) : Prop
    extends Apart fs dir o t m r b where
  outside : walk (hide fs.kindAt fun x => t <:+ x) maxSymlinks [] (comps dir) = .ok b
  mount : fs.mountOf t.tail = fs.mountOf b
  way_unmounted : ∀ u, u ≠ [] → u <:+ r → u ≠ r → (fs.dirent (u ++ b)).any Dent.mounted = false

/-- The state after the entries `removed` of the tree at `t` are gone. -/
structure Mirroring (fs₀ fs : FileSystem) (t m b : Loc) (removed : List Loc) : Prop where
  below : ∀ x ∈ removed, t <:+ x
  gone : ∀ x ∈ removed, fs.dirent x = none
  left : ∀ x, t <:+ x → x ∉ removed → fs.dirent x = fs₀.dirent x
  kept : ∀ x, ¬ t <:+ x → fs₀.dirent x ≠ none → fs.dirent x = fs₀.dirent x
  /-- what is new in the recycler: directories of the tree, and other entries that are gone -/
  copy : ∀ u, fs₀.dirent (u ++ b) = none → fs.dirent (u ++ b) ≠ none →
    fs₀.IsDir (u ++ m) ∧ Passage fs (u ++ b) ∨
      u ++ m ∈ removed ∧ ¬ fs₀.IsDir (u ++ m) ∧ fs.dirent (u ++ b) = fs₀.dirent (u ++ m)
  mirrored : ∀ u, u ++ m ∈ removed → fs.dirent (u ++ b) ≠ none
  nextIno : fs₀.nextIno ≤ fs.nextIno
  kind : ∀ o, o.ino < fs₀.nextIno → (fs.inode o).kind = (fs₀.inode o).kind
  inode : ∀ o, o.ino < fs₀.nextIno → (fs₀.inode o).kind ≠ .dir → fs.inode o = fs₀.inode o

/-- The entries of the tree at `t`, each after what is below it. -/
structure PostOrder (fs : FileSystem) (t : Loc) (order : List Loc) : Prop where
  mem_iff : ∀ x, x ∈ order ↔ t <:+ x ∧ fs.dirent x ≠ none
  pairwise : order.Pairwise fun x y => ¬ x <:+ y

/-- The tree at `w` has the shape of the tree that was at `t`, and what is not a directory in it is
the very object that was in the tree. -/
structure Mirrors (fs fs' : FileSystem) (t w : Loc) : Prop where
  isDir_iff : ∀ u, fs'.IsDir (u ++ w) ↔ fs.IsDir (u ++ t)
  dirent : ∀ u, ¬ fs.IsDir (u ++ t) → fs'.dirent (u ++ w) = fs.dirent (u ++ t)
  inode : ∀ u d, fs.dirent (u ++ t) = some d → (fs.inode d.obj).kind ≠ .dir →
    fs'.inode d.obj = fs.inode d.obj

/-- The operation is a call on the entry `x`, with `AT_REMOVEDIR` for a directory. -/
def Op.Removes (fs : FileSystem) (x : Loc) : Op → Prop
  | delete p fuel dirfd pathname flags => ∃ l n, x = n :: l ∧
      fs.targetAt p dirfd pathname = .ok (.entry l n) ∧ enough l ≤ fuel ∧
      (fs.IsDir x ∧ flags = atRemovedir ∨ ¬ fs.IsDir x ∧ flags = 0 ∧ slashed pathname = false)
  | _ => False

/-- The operations remove the entries in turn. -/
def InTurn (env : Env) : List Loc → List Op → FileSystem → Prop
  | [], [], _ => True
  | x :: order, op :: ops, fs => op.Removes fs x ∧ InTurn env order ops (op.apply env fs)
  | _, _, _ => False

/-- The call returns 0. -/
def Op.Succeeds (env : Env) (fs : FileSystem) : Op → Prop
  | delete p fuel dirfd pathname flags =>
    ((unlinkat env fuel dirfd pathname flags).run (exec p) fs).1.map Exit.retval = some 0
  | _ => False

variable {fs₀ fs fs' fs'' : FileSystem} {p : Process} {b l m q r r₁ r₂ t x z : Loc} {n : Name}
  {o : Obj} {d : Dent} {dir pathname : Str} {dirfd : ℤ} {fuel : ℕ} {st1 : Stat} {flags : Flags}
  {env : Env} {removed : List Loc}

/-! ## Where there is room -/

/-- From `b` the names `r₁` lead down the directories `r₁ ++ b`, and there is nothing below for the
names `r₂` that follow. -/
structure Room (fs : FileSystem) (b z r₁ r₂ : Loc) : Prop where
  names : z = r₂ ++ r₁
  descend : descend fs.kindAt b r₁ = .ok (r₁ ++ b)
  free : ∀ s, s ≠ [] → s <:+ r₂ → fs.dirent (s ++ (r₁ ++ b)) = none

theorem Passage.isDir (h : Passage fs x) (hx : fs.dirent x ≠ none) : fs.IsDir x := by
  obtain ⟨d, hd⟩ := Option.ne_none_iff_exists'.1 hx
  exact (isDir_iff_kind hd).2 (h d hd).1

theorem Passage.unmounted (h : Passage fs x) : (fs.dirent x).any Dent.mounted = false := by
  cases hd : fs.dirent x with
  | none => rfl
  | some d => exact (h d hd).2

theorem exists_room (hb : fs.IsDir b) (h : ∀ u, u ≠ [] → u <:+ z → Passage fs (u ++ b)) :
    ∃ r₁ r₂, Room fs b z r₁ r₂ := by
  induction z with
  | nil => exact ⟨[], [], rfl, descend_nil hb, fun s hs hs' => absurd (List.suffix_nil.1 hs') hs⟩
  | cons c z ih =>
    obtain ⟨r₁, r₂, rfl, hd, hf⟩ := ih fun u hu hu' => h u hu (hu'.trans (List.suffix_cons c _))
    by_cases hr : r₂ = []
    · subst hr
      rw [List.nil_append] at h ⊢
      by_cases hc : fs.dirent (c :: (r₁ ++ b)) = none
      · refine ⟨r₁, [c], rfl, hd, fun s hs hs' => ?_⟩
        obtain rfl := (List.suffix_cons_iff.1 hs').resolve_right fun e => hs (List.suffix_nil.1 e)
        exact hc
      · have hdir : fs.IsDir (c :: (r₁ ++ b)) :=
          (h (c :: r₁) (List.cons_ne_nil c r₁) List.suffix_rfl).isDir hc
        refine ⟨c :: r₁, [], rfl, ?_, fun s hs hs' => absurd (List.suffix_nil.1 hs') hs⟩
        rw [descend_cons, hd]
        exact descend_name_dir (descend_eq_ok.1 hd).2 hdir
    · refine ⟨r₁, c :: r₂, rfl, hd, fun s hs hs' => ?_⟩
      rcases List.suffix_cons_iff.1 hs' with rfl | hs'
      · refine dirent_child_of_not_isDir (fun hdir => ?_) c
        exact hdir.dirent_ne_none (hf r₂ hr List.suffix_rfl)
      · exact hf s hs hs'

namespace Room

variable (h : Room fs b z r₁ r₂)

include h

theorem isDir : fs.IsDir (r₁ ++ b) := (descend_eq_ok.1 h.descend).2

theorem free_first {s : Loc} {c : Name} (e : r₂ = s ++ [c]) :
    fs.dirent (c :: (r₁ ++ b)) = none :=
  h.free [c] (List.cons_ne_nil c []) (e ▸ List.suffix_append s [c])

theorem splits : Splits fs b z (r₁ ++ b) r₁ r₂ :=
  ⟨h.names, h.descend, fun _ _ e => blocked_of_none h.isDir (h.free_first e)⟩

theorem clonable (hb : fs.IsDir b) : Clonable fs b z := by
  refine (clonable_iff hb).2 ?_
  rcases List.eq_nil_or_concat' r₂ with rfl | ⟨s, c, rfl⟩
  · intro t c r q hr hq hc
    have hd := h.descend
    rw [← List.nil_append r₁, ← h.names, hr, ← List.singleton_append, ← List.append_assoc] at hd
    exact absurd hd (not_descend_of_blocked hq hc _)
  · have hn := h.free_first rfl
    have hz : z = s ++ c :: r₁ := by rw [h.names, List.append_assoc, List.singleton_append]
    rw [hz, unobstructed_iff h.descend (blocked_of_none h.isDir hn)]
    simp [Passable, hn]

end Room

/-- Between a place and one below it nothing is mounted. -/
theorem mountOf_append (h : ∀ s, s ≠ [] → s <:+ z → (fs.dirent (s ++ b)).any Dent.mounted = false) :
    fs.mountOf (z ++ b) = fs.mountOf b := by
  induction z with
  | nil => rfl
  | cons c z ih =>
    have hc := h (c :: z) (List.cons_ne_nil c z) List.suffix_rfl
    rw [List.cons_append] at hc ⊢
    rw [mountOf, hc, if_neg Bool.false_ne_true]
    exact ih fun s hs hs' => h s hs (hs'.trans (List.suffix_cons c z))

theorem mountOf_congr_above (h : ∀ a, a <:+ l → fs.dirent a = fs'.dirent a) :
    fs.mountOf l = fs'.mountOf l := by
  induction l with
  | nil => rfl
  | cons c l ih =>
    rw [mountOf, mountOf, h _ List.suffix_rfl, ih fun a ha => h a (ha.trans (List.suffix_cons c l))]

/-! ## The call -/

/-- A pathname without separators is a recycler without options. -/
theorem selects_plain {st2 : Stat} (hr : env.recycler = some dir) (habs : isAbs dir = true)
    (hcolon : ':' ∉ dir) (hcomma : ',' ∉ dir) (hst : fs.stat p dir = .ok st2)
    (hdev : st2.obj.dev = st1.obj.dev) (hsize : st1.isReg = true → 1 ≤ st1.size) :
    env.Selects fs p pathname st1 ⟨dir, .initial⟩ st2 := by
  have hsplit : ∀ c, c ∉ dir → dir.splitOn c = [dir] := fun c hc =>
    List.splitOnP_eq_singleton fun x hx => beq_false_of_ne fun e => hc (e ▸ hx)
  obtain ⟨u, rfl⟩ := isAbs_iff.1 habs
  have hitem : env.readItem pathname ('/' :: u) = .bin ⟨'/' :: u, .initial⟩ := by
    have hexp : expandHome env.home ('/' :: u) = '/' :: u := by simp [expandHome]
    simp only [Env.readItem, hexp, binOptions, binDir, hsplit ',' hcomma]
    rfl
  refine ⟨⟨_, [], _, [], hr, hsplit ':' hcolon, fun x hx => absurd hx List.not_mem_nil, hitem⟩,
    hst, hdev, fun hreg => ⟨?_, fun h0 => absurd rfl h0⟩, rfl⟩
  have h1 := hsize hreg
  show (1 : ℤ) ≤ st1.size
  omega

/-- The status of an entry that a pathname names, when a slash at its end comes after a directory. -/
theorem fstatat_entry (ht : fs.targetAt p dirfd pathname = .ok (.entry l n))
    (hd : fs.dirent (n :: l) = some d) (hs : slashed pathname = true → fs.IsDir (n :: l))
    (hf : flags = 0 ∨ flags = atRemovedir) :
    fs.fstatat p dirfd pathname (statFlags flags) = .ok ⟨d.obj, fs.inode d.obj⟩ := by
  have hflags : statFlags flags = atSymlinkNofollow := by
    rcases hf with rfl | rfl <;> decide
  obtain ⟨cur, ys, hb, hseg, hw, hl⟩ := targetAt_entry ht
  have hne : pathname ≠ [] := by
    rintro rfl
    simp at hseg
  rw [FileSystem.targetAt, if_neg hne, hb] at ht
  have ht : target fs.kindAt cur pathname = .ok (.entry l n) := ht
  have hk : fs.kindAt (n :: l) ≠ none := by simp [kindAt_of_dirent hd]
  have hlookup : lookup fs.kindAt cur pathname false = .ok (n :: l) := by
    rw [lookup, if_neg hne, Bool.false_or]
    split_ifs with hsl
    · have hc : lookupComps pathname = ys.map Comp.ofStr ++ (names [n] ++ [.here]) := by
        rw [lookupComps, comps, hseg, if_pos hsl, List.map_append, List.append_assoc]
        simp [names_cons]
      rw [hc, walk_append, hw]
      exact descend_name_dir hl (hs hsl)
    · rw [ht]
      exact if_neg hk
  rw [fstatat, hflags, if_neg (by decide), if_neg (fun e => hne e.1), lookupAt, if_neg hne, hb]
  show (lookup fs.kindAt cur pathname false).bind fs.statLoc = _
  rw [hlookup]
  exact statLoc_eq_ok.2 ⟨d, hd, rfl⟩

/-! ## The recycler and the tree -/

namespace Mirrorable

variable (h : Mirrorable fs₀ dir o t m r b)

include h

theorem not_suffix (u : Loc) : ¬ t <:+ u ++ b := fun hu =>
  (List.suffix_or_suffix_of_suffix hu (List.suffix_append u b)).elim h.not_above h.not_below

theorem room_below (s : Loc) : fs₀.dirent (s ++ (r ++ b)) = none := by
  by_contra hne
  by_cases hs : s = []
  · exact hne (hs ▸ h.room)
  · refine (isDir_of_suffix hne (List.suffix_append s _) fun e => hs ?_).dirent_ne_none h.room
    simpa using e

theorem passage_way {u : Loc} (hu : u ≠ []) (hu' : u <:+ r) (hne : u ≠ r) :
    Passage fs₀ (u ++ b) := by
  intro d hd
  have hun := h.way_unmounted u hu hu' hne
  rw [hd] at hun
  refine ⟨?_, hun⟩
  rcases h.way u hu hu' hne with hn | hdir
  · rw [hd] at hn
    cases hn
  · exact (isDir_iff_kind hd).1 hdir

theorem names_ne_nil : r ≠ [] := by
  rintro rfl
  exact h.isDir.dirent_ne_none h.room

/-- The names of an entry below the mountpoint. -/
theorem exists_names (ht : t <:+ n :: l) : ∃ z, l = z ++ m ∧ r <:+ n :: z := by
  obtain ⟨s, hs⟩ := ht
  rw [h.names, ← List.append_assoc] at hs
  obtain ⟨c, z, hz⟩ := List.exists_cons_of_ne_nil (l := s ++ r) (by simp [h.names_ne_nil])
  rw [hz, List.cons_append] at hs
  obtain ⟨rfl, rfl⟩ := List.cons.inj hs
  exact ⟨z, rfl, hz ▸ List.suffix_append s r⟩

end Mirrorable

/-! ## States on the way -/

namespace Mirroring

theorem start (fs₀ : FileSystem) (t m b : Loc) : Mirroring fs₀ fs₀ t m b [] where
  below _ hx := absurd hx List.not_mem_nil
  gone _ hx := absurd hx List.not_mem_nil
  left _ _ _ := rfl
  kept _ _ _ := rfl
  copy _ h h' := absurd h h'
  mirrored _ hu := absurd hu List.not_mem_nil
  nextIno := le_rfl
  kind _ _ := rfl
  inode _ _ _ := rfl

section State

variable (h : Mirrorable fs₀ dir o t m r b) (hm : Mirroring fs₀ fs t m b removed)

include hm

theorem kindAt_kept (hx : ¬ t <:+ x) (hne : fs₀.dirent x ≠ none) : fs.kindAt x = fs₀.kindAt x := by
  obtain ⟨d, hd⟩ := Option.ne_none_iff_exists'.1 hne
  rw [kindAt_of_dirent hd, kindAt_of_dirent ((hm.kept x hx hne).trans hd), hm.kind _ (fs₀.ino_lt x d hd)]

theorem dirent_left (ht : t <:+ x) (hd : fs.dirent x = some d) : fs₀.dirent x = some d := by
  have hx : x ∉ removed := fun hx => by
    rw [hm.gone x hx] at hd
    cases hd
  rwa [hm.left x ht hx] at hd

theorem isDir_left (ht : t <:+ x) (hd : fs.IsDir x) : fs₀.IsDir x := by
  obtain ⟨d, hd, hk⟩ := isDir_iff.1 hd
  have hd₀ := hm.dirent_left ht hd
  exact isDir_iff.2 ⟨d, hd₀, (hm.kind _ (fs₀.ino_lt x d hd₀)).symm.trans hk⟩

include h

/-- The pathname of the recycler leads to its directory in every state. -/
theorem leads (p : Process) : fs.Leads p (YazzyPreload.isAbs dir) (segments dir) b := by
  have hself : Spares fs₀.kindAt fs₀.kindAt := ⟨fun _ h => h, fun _ _ _ _ h => Or.inl h⟩
  have hw := (hself.hide fun x hx hne =>
    hm.kindAt_kept hx (kindAt_eq_none_iff.not.1 hne)).keeps _ _ _ h.outside
    (hide_eq_some.2 ⟨h.not_above, h.isDir⟩)
  refine ⟨?_, hw.2⟩
  rw [h.isAbs]
  exact hw.1

theorem isDir_recycler : fs.IsDir b :=
  (hm.kindAt_kept h.not_above h.isDir.dirent_ne_none).trans h.isDir

theorem objAt_recycler : fs.objAt b = some o := by
  rw [objAt, hm.kept b h.not_above h.isDir.dirent_ne_none]
  exact h.obj

/-- Below the recycler's directory there is the way to the clone of a directory of the tree. -/
theorem passage {u : Loc} (hu : u ≠ []) (hr : u <:+ r ∨ r <:+ u) (hd : fs₀.IsDir (u ++ m)) :
    Passage fs (u ++ b) := by
  by_cases h₀ : fs₀.dirent (u ++ b) = none
  · by_cases hne : fs.dirent (u ++ b) = none
    · intro d hd'
      rw [hne] at hd'
      cases hd'
    · exact (hm.copy u h₀ hne).elim And.right fun hc => absurd hd hc.2.1
  · have hnr : ¬ r <:+ u := fun ⟨s, hs⟩ => h₀ (by rw [← hs, List.append_assoc, h.room_below])
    have hr := hr.resolve_right hnr
    intro d hd'
    rw [hm.kept _ (h.not_suffix u) h₀] at hd'
    have hp := h.passage_way hu hr (fun e => hnr (e ▸ List.suffix_rfl)) d hd'
    rwa [hm.kind _ (fs₀.ino_lt _ d hd')]

/-- Where the directory of an entry is mounted. -/
theorem mountOf_eq (ht : t <:+ n :: l) (hl : fs.IsDir l) : fs.mountOf l = fs₀.mountOf b := by
  have hup : ∀ a, a <:+ t.tail → fs.dirent a = fs₀.dirent a := by
    intro a ha
    have hne : t ≠ [] := fun e => h.not_above (e ▸ List.nil_suffix)
    have hlt : a.length < t.length := by
      have := ha.length_le
      have := List.length_pos_iff.2 hne
      rw [List.length_tail] at *
      omega
    refine hm.kept a (fun hs => Nat.not_lt.2 hs.length_le hlt) ?_
    exact (isDir_of_suffix h.exists_tree (ha.trans (List.tail_suffix t))
      fun e => by rw [e] at hlt; exact lt_irrefl _ hlt).dirent_ne_none
  rw [← h.mount, ← mountOf_congr_above hup]
  rcases List.suffix_cons_iff.1 ht with rfl | ⟨s, rfl⟩
  · rfl
  · obtain ⟨c, t', rfl⟩ := List.exists_cons_of_ne_nil
      (fun e => h.not_above (e ▸ List.nil_suffix) : t ≠ [])
    rw [List.tail_cons, ← List.singleton_append, ← List.append_assoc]
    refine mountOf_append fun u hu hu' => ?_
    obtain ⟨v, rfl, -⟩ := (List.suffix_concat_iff.1 hu').resolve_left hu
    rw [List.append_assoc, List.singleton_append]
    cases hd : fs.dirent (v ++ c :: t') with
    | none => rfl
    | some d =>
      have hv : c :: t' <:+ v ++ c :: t' := List.suffix_append v _
      exact h.unmounted _ d hv (hm.dirent_left hv hd)

theorem mountOf_recycler : fs.mountOf b = fs₀.mountOf b :=
  mountOf_congr_above fun a ha => hm.kept a (fun hs => h.not_above (hs.trans ha)) <| by
    by_cases e : a = b
    · exact e ▸ h.isDir.dirent_ne_none
    · exact (isDir_of_suffix h.isDir.dirent_ne_none ha e).dirent_ne_none

omit hm in
theorem mountpoint_ne : m ≠ t := fun e =>
  h.names_ne_nil (List.append_left_eq_self.1 (h.names.symm.trans e.symm))

/-- The directories above the tree stay. -/
theorem objAt_above {a : Loc} (ha : a <:+ t) (hne : a ≠ t) : fs.objAt a = fs₀.objAt a := by
  have hnot : ¬ t <:+ a := fun hs => hne (ha.eq_of_length_le hs.length_le)
  rw [objAt, objAt, hm.kept a hnot (isDir_of_suffix h.exists_tree ha hne).dirent_ne_none]

theorem mountpoint (ht : t <:+ n :: l) (hl : fs.IsDir l) : Mountpoint fs o.dev l n m := by
  have hmt : m <:+ t := h.names ▸ List.suffix_append r m
  refine ⟨hmt.trans ht, fun a ha hle => ?_, h.top.imp_right fun hdev => ?_⟩
  · by_cases hs : t <:+ a
    · have hdir : fs.IsDir a := by
        by_cases e : a = l
        · exact e ▸ hl
        · exact isDir_of_suffix hl.dirent_ne_none ha e
      obtain ⟨d, hd⟩ := Option.ne_none_iff_exists'.1 hdir.dirent_ne_none
      rw [objAt, hd, Option.map_some, Option.map_some, h.dev a d hs (hm.dirent_left hs hd)]
    · have hat : a <:+ t :=
        (List.suffix_or_suffix_of_suffix (ha.trans (List.suffix_cons n l)) ht).resolve_right hs
      rw [hm.objAt_above h hat fun e => hs (e ▸ List.suffix_rfl)]
      exact h.dev_above a hat hle
  · have hne : m.tail ≠ t := fun e =>
      mountpoint_ne h (hmt.eq_of_length_le (e ▸ (List.tail_suffix m).length_le))
    rwa [hm.objAt_above h ((List.tail_suffix m).trans hmt) hne]

/-- The search from an entry of the tree upwards comes to the mountpoint. -/
theorem climb_eq (hown : OwnNumber o fs) (ht : t <:+ n :: l) (hl : fs.IsDir l) :
    climb fs o.dev o.ino (n :: l) = some m := by
  have hout : ¬ Above fs o l := by
    rintro ⟨a, ha, ho⟩
    obtain rfl : b = a := (hm.isDir_recycler h).eq_of_objAt (ho ▸ hm.objAt_recycler h)
    exact (List.suffix_or_suffix_of_suffix ht (ha.trans (List.suffix_cons n l))).elim
      h.not_above h.not_below
  obtain ⟨m', hc⟩ := Option.ne_none_iff_exists'.1 (climb_ne_none (n := n) hown hl hout o.dev)
  rw [hc, (hm.mountpoint h ht hl).eq_of_climb hc]

end State

/-! ## One more entry -/

section Step

variable (h : Mirrorable fs₀ dir o t m r b) (hm : Mirroring fs₀ fs t m b removed)

include h hm

/-- More directories of the tree are cloned. -/
theorem grafted (hroom : Room fs b z r₁ r₂) (hg : fs.Grafted fs' (r₁ ++ b) r₂)
    (hdirs : ∀ u, u ≠ [] → u <:+ z → fs₀.IsDir (u ++ m)) : Mirroring fs₀ fs' t m b removed := by
  have hstay : ∀ x, fs.dirent x ≠ none → fs'.dirent x = fs.dirent x := by
    refine fun x hx => hg.dirent x ?_
    rintro s hs hs' rfl
    exact hx (hroom.free s hs hs')
  have htree : ∀ x, t <:+ x → fs'.dirent x = fs.dirent x := by
    refine fun x hx => hg.dirent x ?_
    rintro s - - rfl
    rw [← List.append_assoc] at hx
    exact h.not_suffix _ hx
  refine ⟨hm.below, fun x hx => ?_, fun x ht hx => ?_, fun x hx hne => ?_, fun u h₀ hne => ?_,
    fun u hu => ?_, hm.nextIno.trans hg.nextIno, fun o' ho => ?_, fun o' ho hk => ?_⟩
  · rw [htree x (hm.below x hx), hm.gone x hx]
  · rw [htree x ht, hm.left x ht hx]
  · have hx' := hm.kept x hx hne
    rw [hstay x (by rwa [hx']), hx']
  · by_cases hnew : ∀ s, s ≠ [] → s <:+ r₂ → u ++ b ≠ s ++ (r₁ ++ b)
    · have hsame := hg.dirent _ hnew
      rw [hsame] at hne
      rcases hm.copy u h₀ hne with ⟨hd, hp⟩ | ⟨hu, hd, hc⟩
      · refine .inl ⟨hd, fun d hd' => ?_⟩
        rw [hsame] at hd'
        rw [hg.kind _ (fs.ino_lt _ d hd')]
        exact hp d hd'
      · exact .inr ⟨hu, hd, hsame.trans hc⟩
    · push Not at hnew
      obtain ⟨s, hs, hs', e⟩ := hnew
      rw [← List.append_assoc] at e
      obtain rfl := List.append_cancel_right e
      obtain ⟨o', ho, hk, -⟩ := hg.made s hs hs'
      have hz : s ++ r₁ <:+ z := by
        rw [hroom.names]
        exact (List.suffix_append_inj_of_length_eq rfl).2 ⟨hs', rfl⟩
      refine .inl ⟨hdirs _ (by simp [hs]) hz, fun d hd' => ?_⟩
      rw [List.append_assoc, ho] at hd'
      cases hd'
      exact ⟨hk, rfl⟩
  · rw [hstay _ (hm.mirrored u hu)]
    exact hm.mirrored u hu
  · rw [hg.kind o' (ho.trans_le hm.nextIno), hm.kind o' ho]
  · rw [hg.inode o' (ho.trans_le hm.nextIno), hm.inode o' ho hk]
    rintro - hq
    obtain ⟨d, hd, hkd⟩ := isDir_iff.1 hroom.isDir
    rw [FileSystem.objAt, hd] at hq
    cases hq
    exact hk ((hm.kind _ ho).symm.trans hkd)

/-- The entry `z ++ m` goes, and there is a directory or the entry itself at its place in the
mirror. -/
theorem remove (hx : x = z ++ m) (ht : t <:+ x) (hgone : fs'.dirent x = none)
    (hrest : ∀ y, y ≠ x → y ≠ z ++ b → fs'.dirent y = fs.dirent y) (hinode : fs'.inode = fs.inode)
    (hnext : fs'.nextIno = fs.nextIno)
    (hplace : (fs'.dirent (z ++ b) = fs.dirent (z ++ b) ∧ fs.dirent (z ++ b) ≠ none) ∨
      fs₀.dirent (z ++ b) = none ∧ ¬ fs₀.IsDir x ∧ fs₀.dirent x ≠ none ∧
        fs'.dirent (z ++ b) = fs₀.dirent x) :
    Mirroring fs₀ fs' t m b (x :: removed) := by
  have hout : ∀ u, u ++ b ≠ x := fun u e => h.not_suffix u (e ▸ ht)
  have hold : ∀ y, y ≠ x → fs₀.dirent y ≠ none → fs'.dirent y = fs.dirent y := by
    intro y hy hne
    by_cases e : y = z ++ b
    · rcases hplace with hsame | hnew
      · exact e ▸ hsame.1
      · exact absurd hnew.1 (e ▸ hne)
    · exact hrest y hy e
  have htree : ∀ y, t <:+ y → y ≠ x → fs'.dirent y = fs.dirent y := fun y hy hne =>
    hrest y hne fun e => h.not_suffix z (e ▸ hy)
  refine ⟨List.forall_mem_cons.2 ⟨ht, hm.below⟩, List.forall_mem_cons.2 ⟨hgone, fun y hy => ?_⟩,
    fun y hy hnot => ?_, fun y hy hne => ?_, fun u h₀ hne => ?_, fun u hu => ?_, ?_,
    fun o' ho => ?_, fun o' ho hk => ?_⟩
  · by_cases e : y = x
    · exact e ▸ hgone
    · rw [htree y (hm.below y hy) e, hm.gone y hy]
  · rw [List.mem_cons, not_or] at hnot
    rw [htree y hy hnot.1, hm.left y hy hnot.2]
  · rw [hold y (fun e => hy (e ▸ ht)) hne, hm.kept y hy hne]
  · have hmore : fs.dirent (u ++ b) ≠ none → fs'.dirent (u ++ b) = fs.dirent (u ++ b) →
        fs₀.IsDir (u ++ m) ∧ Passage fs' (u ++ b) ∨
          u ++ m ∈ x :: removed ∧ ¬ fs₀.IsDir (u ++ m) ∧
            fs'.dirent (u ++ b) = fs₀.dirent (u ++ m) := by
      intro hne hsame
      refine (hm.copy u h₀ hne).imp (And.imp_right fun hp d hd => ?_) fun hc => ?_
      · rw [hinode]
        exact hp d (hsame ▸ hd)
      · exact ⟨List.mem_cons_of_mem x hc.1, hc.2.1, hsame.trans hc.2.2⟩
    by_cases e : u = z
    · subst e
      rcases hplace with hsame | ⟨-, hk, -, hcopy⟩
      · exact hmore hsame.2 hsame.1
      · subst hx
        exact .inr ⟨List.mem_cons_self, hk, hcopy⟩
    · have hsame := hrest (u ++ b) (hout u) fun e' => e (List.append_cancel_right e')
      exact hmore (hsame ▸ hne) hsame
  · by_cases e : u = z
    · subst e
      rcases hplace with hsame | ⟨-, -, hne, hcopy⟩
      · rw [hsame.1]
        exact hsame.2
      · rw [hcopy]
        exact hne
    · have hu' : u ++ m ∈ removed := by
        refine (List.mem_cons.1 hu).resolve_left fun e' => e ?_
        exact List.append_cancel_right (e'.trans hx)
      rw [hrest (u ++ b) (hout u) fun e' => e (List.append_cancel_right e')]
      exact hm.mirrored u hu'
  · rw [hnext]
    exact hm.nextIno
  · rw [hinode, hm.kind o' ho]
  · rw [hinode, hm.inode o' ho hk]

end Step

/-! ## The place of an entry -/

section Entry

variable (h : Mirrorable fs₀ dir o t m r b) (hm : Mirroring fs₀ fs t m b removed)
  (ht : t <:+ n :: (z ++ m)) (hz : r <:+ n :: z) (hd : fs.dirent (n :: (z ++ m)) = some d)

include hm ht hd

/-- What is above an entry of the tree were directories from the start. -/
theorem isDir_names {u : Loc} (hu : u <:+ z) : fs₀.IsDir (u ++ m) := by
  have hd₀ := hm.dirent_left ht hd
  refine isDir_of_suffix (l := n :: (z ++ m)) (by simp [hd₀]) ?_ fun e => ?_
  · exact ((List.suffix_append_inj_of_length_eq rfl).2 ⟨hu, rfl⟩).trans (List.suffix_cons n _)
  · have := congrArg List.length e
    have := hu.length_le
    simp only [List.length_cons, List.length_append] at *
    omega

include h hz

theorem passage_names {u : Loc} (hu : u ≠ []) (hu' : u <:+ z) : Passage fs (u ++ b) :=
  hm.passage h hu (List.suffix_or_suffix_of_suffix (hu'.trans (List.suffix_cons n z)) hz)
    (hm.isDir_names ht hd hu')

theorem mountOf_names (hl : fs.IsDir (z ++ m)) : fs.mountOf (z ++ m) = fs.mountOf (z ++ b) := by
  rw [hm.mountOf_eq h ht hl, ← hm.mountOf_recycler h]
  exact (mountOf_append fun u hu hu' => (hm.passage_names h ht hz hd hu hu').unmounted).symm

variable (hk : (fs.inode d.obj).kind ≠ .dir)

omit hm ht hd in
theorem dirent_place_before : fs₀.dirent (n :: (z ++ b)) = none := by
  obtain ⟨s, hs⟩ := hz
  rw [← List.cons_append, ← hs, List.append_assoc]
  exact h.room_below s

include hk

omit h hz in
theorem not_isDir_before : ¬ fs₀.IsDir (n :: (z ++ m)) := by
  have hd₀ := hm.dirent_left ht hd
  rwa [isDir_iff_kind hd₀, ← hm.kind _ (fs₀.ino_lt _ d hd₀)]

/-- There is room for the entry in the mirror. -/
theorem dirent_place : fs.dirent (n :: (z ++ b)) = none := by
  by_contra hne
  rcases hm.copy (n :: z) (dirent_place_before h hz) hne with hc | hc
  · exact hm.not_isDir_before ht hd hk hc.1
  · have hgone : fs.dirent (n :: (z ++ m)) = none := hm.gone _ hc.1
    rw [hgone] at hd
    cases hd

theorem displaces (hl : fs.IsDir (z ++ m)) :
    fs.Displaces (n :: (z ++ m)) (n :: (z ++ b)) := by
  refine ⟨hm.mountOf_names h ht hz hd hl, fun e he => ?_, fun e he => ?_⟩
  · exact h.unmounted _ e ht (hm.dirent_left ht he)
  · rw [hm.dirent_place h ht hz hd hk] at he
    cases he

/-- The entry is moved to its place in the mirror. -/
theorem moved (hroom : Room fs b z r₁ r₂)
    (hg : fs.Grafted fs' (r₁ ++ b) r₂) :
    Mirroring fs₀ (fs'.move (n :: (z ++ m)) (n :: (r₂ ++ (r₁ ++ b)))) t m b
      ((n :: (z ++ m)) :: removed) := by
  have hm' := hm.grafted h hroom hg fun u _ hu => hm.isDir_names ht hd hu
  have hd₀ := hm.dirent_left ht hd
  have hout : n :: (z ++ b) ≠ n :: (z ++ m) := fun e =>
    h.not_suffix (n :: z) (List.cons_append ▸ e ▸ ht)
  have hd' : fs'.dirent (n :: (z ++ m)) = some d := by
    refine (hg.dirent _ fun s _ _ e => ?_).trans hd
    rw [← List.append_assoc] at e
    exact h.not_suffix _ (e ▸ ht)
  have hk' : (fs'.inode d.obj).kind ≠ .dir := by
    rwa [hg.kind _ (fs.ino_lt _ d hd)]
  have hw : fs'.IsDir (z ++ b) := by
    rw [hroom.names, List.append_assoc]
    exact hg.isDir_last hroom.isDir
  have hl' : fs'.IsDir (z ++ m) := isDir_of_child (Option.ne_none_iff_exists'.2 ⟨d, hd'⟩)
  have hdisp : fs'.Displaces (n :: (z ++ m)) (n :: (z ++ b)) := hm'.displaces h ht hz hd' hk' hl'
  rw [← List.append_assoc, ← hroom.names]
  have hmove := hdisp.dirent_move (List.cons_ne_nil _ _) (List.cons_ne_nil _ _) hd' hk' hw
  refine hm'.remove (z := n :: z) h rfl ht ?_ (fun y hy hy' => ?_) inode_move nextIno_move
    (.inr ⟨dirent_place_before h hz, hm.not_isDir_before ht hd hk, by simp [hd₀], ?_⟩)
  · rw [hmove, if_neg hout.symm, if_pos rfl]
  · rw [List.cons_append] at hy'
    rw [hmove, if_neg hy', if_neg hy]
  · rw [List.cons_append, hmove, if_pos rfl, hd₀]

end Entry

/-- An empty directory is removed, and its clone is at its place in the mirror. -/
theorem erased (h : Mirrorable fs₀ dir o t m r b) (hm : Mirroring fs₀ fs t m b removed)
    (ht : t <:+ n :: (z ++ m)) (hc : fs.childless (n :: (z ++ m)) = true) (hw : fs.IsDir (n :: (z ++ b))) :
    Mirroring fs₀ (fs.erase (n :: (z ++ m))) t m b ((n :: (z ++ m)) :: removed) := by
  have hout : n :: (z ++ b) ≠ n :: (z ++ m) := fun e =>
    h.not_suffix (n :: z) (List.cons_append ▸ e ▸ ht)
  have herase := dirent_erase (List.cons_ne_nil n (z ++ m)) hc
  refine hm.remove (z := n :: z) h rfl ht ?_ (fun y hy _ => ?_) (fs.inode_erase _) (fs.nextIno_erase _)
    (.inl ⟨?_, hw.dirent_ne_none⟩)
  · rw [herase, if_pos rfl]
  · rw [herase, if_neg hy]
  · rw [List.cons_append, herase, if_neg hout]

theorem removeDir_eq_erase (ht : fs.targetAt p dirfd pathname = .ok (.entry l n))
    (hd : fs.IsDir (n :: l)) (hu : ∀ d, fs.dirent (n :: l) = some d → d.mounted = false)
    (hc : fs.childless (n :: l) = true) :
    fs.removeDir p dirfd pathname = (.ok (), fs.erase (n :: l)) := by
  have hok := (removeDir_ok_iff ht).2 ⟨hd, hu, hc⟩
  rcases fs.removeDir_cases p dirfd pathname with ⟨e, he⟩ | ⟨l', n', ht', -, -, he⟩
  · rw [he] at hok
    cases hok
  · rw [ht] at ht'
    cases ht'
    exact he

/-! ## One call -/

/-- The names of the entry's directory in the recycler. -/
theorem binPath (h : Mirrorable fs₀ dir o t m r b) (hm : Mirroring fs₀ fs t m b removed)
    (ht : t <:+ n :: (z ++ m)) (hroom : Room fs b z r₁ r₂) (p : Process) :
    BinPath (fun _ => False) fs p dir (z ++ m) n m b (r₁ ++ b) r₁ r₂ := by
  have hview : hide fs.kindAt (fun _ => False) = fs.kindAt := by
    funext x
    simp [hide]
  refine ⟨.inl h.isAbs, by rw [hroom.names], ?_, ?_, hroom.splits.blocked, fun s c _ e => ?_⟩
  · rw [hview]
    exact (hm.leads h p).walk
  · rw [hview]
    exact hroom.descend
  · rw [← e] at ht
    exact h.not_suffix (c :: r₁) ht

section Call

variable (h : Mirrorable fs₀ dir o t m r b) (hm : Mirroring fs₀ fs t m b removed)
  (hown : OwnNumber o fs) (hr : env.recycler = some dir) (hcolon : ':' ∉ dir) (hcomma : ',' ∉ dir)
  (ht : t <:+ n :: l) (htarget : fs.targetAt p dirfd pathname = .ok (.entry l n))
  (hd : fs.dirent (n :: l) = some d) (hfuel : enough l ≤ fuel)

include h hm

theorem stat_recycler (p : Process) : fs.stat p dir = .ok ⟨o, fs.inode o⟩ := by
  have hs : Spells (YazzyPreload.isAbs dir) (segments dir) [] dir := ⟨by simp, rfl, fun _ => rfl⟩
  obtain ⟨d, hd, ho⟩ := Option.map_eq_some_iff.1 (hm.objAt_recycler h)
  have hne : dir ≠ [] := by
    rintro rfl
    exact Bool.false_ne_true h.isAbs
  rw [stat_spells_nil (hm.leads h p) hs hne]
  exact statLoc_eq_ok.2 ⟨d, hd, by rw [ho]⟩

include hown hr hcolon hcomma ht htarget hd hfuel

/-- The call recycles the entry. -/
theorem run_unlinkat (hs : slashed pathname = true → fs.IsDir (n :: l))
    (hf : flags = 0 ∨ flags = atRemovedir) :
    (unlinkat env fuel dirfd pathname flags).run (exec p) fs =
      (recycle fuel dirfd pathname flags ⟨d.obj, fs.inode d.obj⟩ dir (entryPath l n)
        (mountPath l n m)).run (exec p) fs := by
  have hd₀ := hm.dirent_left ht hd
  have hdev := h.dev _ d ht hd₀
  have hsel : env.Selects fs p pathname ⟨d.obj, fs.inode d.obj⟩ ⟨dir, .initial⟩ ⟨o, fs.inode o⟩ := by
    refine selects_plain hr h.isAbs hcolon hcomma (hm.stat_recycler h p) hdev.symm fun hreg => ?_
    cases hk : (fs.inode d.obj).kind with
    | reg size =>
      have hk₀ : (fs₀.inode d.obj).kind = .reg size := (hm.kind _ (fs₀.ino_lt _ d hd₀)).symm.trans hk
      simpa [Stat.size, hk] using h.size _ d size ht hd₀ hk₀
    | _ => simp [Stat.isReg, hk] at hreg
  have hclimb := hm.climb_eq h hown ht (isDir_of_targetAt htarget)
  rw [run_unlinkat_entry hsel (fstatat_entry htarget hd hs hf) htarget hfuel]
  dsimp only
  rw [hdev, hclimb]

/-- An entry that is not a directory is moved to the mirror. -/
theorem unlinkat_file (hk : (fs.inode d.obj).kind ≠ .dir) (hs : slashed pathname = false) :
    ((unlinkat env fuel dirfd pathname 0).run (exec p) fs).1.map Exit.retval = some 0 ∧
      Mirroring fs₀ ((unlinkat env fuel dirfd pathname 0).run (exec p) fs).2 t m b
        ((n :: l) :: removed) := by
  have hl := isDir_of_targetAt htarget
  have hb := hm.isDir_recycler h
  obtain ⟨z, rfl, hz⟩ := h.exists_names ht
  obtain ⟨r₁, r₂, hroom⟩ := exists_room hb fun u hu hu' => hm.passage_names h ht hz hd hu hu'
  have hdisp : fs.Displaces (n :: (z ++ m)) (n :: (r₂ ++ (r₁ ++ b))) := by
    rw [← List.append_assoc, ← hroom.names]
    exact hm.displaces h ht hz hd hk hl
  have hpath := hm.binPath h ht hroom p
  have hclear : Clear fs (z ++ m) n b (r₁ ++ b) r₁ r₂ :=
    ⟨hroom.names ▸ hroom.clonable hb, .inl hdisp⟩
  have hfile : (Stat.mk d.obj (fs.inode d.obj)).isDir = false := by simpa [Stat.isDir] using hk
  have hcall := hm.run_unlinkat h hown hr hcolon hcomma ht htarget hd hfuel
    (fun e => absurd e (by simp [hs])) (.inl rfl)
  obtain ⟨a, fs'', hrun, hcases⟩ :=
    hpath.run_recycle (hm.stat_recycler h p) htarget hd hk hs hfile hfuel
  rw [hcall, hrun]
  rcases hcases with ⟨-, hnot⟩ | ⟨rfl, -, fs', hv, hg, ⟨-, rfl⟩ | ⟨hsame, -⟩⟩
  · exact absurd hclear hnot
  · exact ⟨rfl, hm.moved h ht hz hd hk hroom hg⟩
  · rw [← List.append_assoc, ← hroom.names, objAt, objAt, hd, hm.dirent_place h ht hz hd hk] at hsame
    cases hsame

/-- A directory is cloned and removed for real when nothing is left in it. -/
theorem unlinkat_dir (hk : (fs.inode d.obj).kind = .dir) (hc : fs.childless (n :: l) = true) :
    ((unlinkat env fuel dirfd pathname atRemovedir).run (exec p) fs).1.map Exit.retval = some 0 ∧
      Mirroring fs₀ ((unlinkat env fuel dirfd pathname atRemovedir).run (exec p) fs).2 t m b
        ((n :: l) :: removed) := by
  have hl := isDir_of_targetAt htarget
  have hb := hm.isDir_recycler h
  have hdir : fs.IsDir (n :: l) := (isDir_iff_kind hd).2 hk
  obtain ⟨z, rfl, hz⟩ := h.exists_names ht
  have hdirs : ∀ u, u <:+ n :: z → fs₀.IsDir (u ++ m) := by
    intro u hu
    rcases List.suffix_cons_iff.1 hu with rfl | hu
    · exact hm.isDir_left ht hdir
    · exact hm.isDir_names ht hd hu
  obtain ⟨r₁, r₂, hroom⟩ := exists_room (z := n :: z) hb fun u hu hu' =>
    hm.passage h hu (List.suffix_or_suffix_of_suffix hu' hz) (hdirs u hu')
  have hfile : (Stat.mk d.obj (fs.inode d.obj)).isDir = true := by simpa [Stat.isDir] using hk
  have hcall := hm.run_unlinkat h hown hr hcolon hcomma ht htarget hd hfuel (fun _ => hdir)
    (.inr rfl)
  rw [hcall, run_recycle_directory hfile]
  have hspec := run_of_wp (wp_clone_directory_of_leads (r := n :: z) (hm.stat_recycler h p) hl
    ⟨_, descend_name_dir hl hdir⟩ (hm.leads h p) rfl (fun e he => by cases he) hfuel)
  generalize (recyclixClonepathRecursive fuel (recycledPath dir (entryPath (z ++ m) n)
    (mountPath (z ++ m) n m)) (entryPath (z ++ m) n)).run (exec p) fs = c at hspec
  obtain ⟨a, fs'⟩ := c
  rcases hspec with ⟨rfl, hcl, -⟩ | ⟨-, ⟨e, he⟩ | ⟨-, hnot⟩⟩
  · have hg := hroom.splits.grafted hcl
    have hm' := hm.grafted h hroom hg fun u _ hu => hdirs u hu
    have hdir' := hcl.keeps.dir hdir
    have hc' : fs'.childless (n :: (z ++ m)) = true := by
      rw [FileSystem.childless_iff] at hc ⊢
      intro c
      rw [hg.dirent _ fun s _ _ e => ?_, hc c]
      rw [← List.append_assoc] at e
      exact h.not_suffix _ (e ▸ ht.trans (List.suffix_cons c _))
    have hw : fs'.IsDir (n :: (z ++ b)) := by
      rw [← List.cons_append, hroom.names, List.append_assoc]
      exact hg.isDir_last hroom.isDir
    have hremove := removeDir_eq_erase (targetAt_keeps hcl.keeps htarget) hdir'
      (fun d hd => h.unmounted _ d ht (hm'.dirent_left ht hd)) hc'
    rw [← unlinkat_removedir] at hremove
    dsimp only
    rw [if_pos rfl, hremove]
    exact ⟨rfl, hm'.erased h ht hc' hw⟩
  · cases he
  · exact absurd (hroom.clonable hb) hnot

end Call

/-! ## All calls -/

/-- When all entries are gone, the mirror is complete. -/
theorem mirrors (h : Mirrorable fs₀ dir o t m r b) (hm : Mirroring fs₀ fs t m b removed)
    (hall : ∀ x, x ∈ removed ↔ t <:+ x ∧ fs₀.dirent x ≠ none) : Mirrors fs₀ fs t (r ++ b) := by
  have hplace : ∀ u, (fs.dirent (u ++ (r ++ b)) = none ∧ fs₀.dirent (u ++ t) = none) ∨
      (fs₀.IsDir (u ++ t) ∧ fs.IsDir (u ++ (r ++ b))) ∨
      (¬ fs₀.IsDir (u ++ t) ∧ fs.dirent (u ++ (r ++ b)) = fs₀.dirent (u ++ t)) := by
    intro u
    have hcopy := hm.copy (u ++ r)
    have hmir := hm.mirrored (u ++ r)
    rw [List.append_assoc, List.append_assoc, ← h.names] at hcopy hmir
    by_cases hne : fs.dirent (u ++ (r ++ b)) = none
    · refine .inl ⟨hne, by_contra fun hsrc => ?_⟩
      exact hmir ((hall _).2 ⟨List.suffix_append u t, hsrc⟩) hne
    · rcases hcopy (h.room_below u) hne with ⟨hd, hp⟩ | ⟨-, hd, hc⟩
      · exact .inr (.inl ⟨hd, hp.isDir hne⟩)
      · exact .inr (.inr ⟨hd, hc⟩)
  refine ⟨fun u => ?_, fun u hu => ?_, fun u d hd hk => hm.inode _ (fs₀.ino_lt _ d hd) hk⟩
  · rcases hplace u with ⟨hn, hn₀⟩ | ⟨hd₀, hd⟩ | ⟨hd₀, hsame⟩
    · exact iff_of_false (fun hd => hd.dirent_ne_none hn) fun hd => hd.dirent_ne_none hn₀
    · exact iff_of_true hd hd₀
    · refine iff_of_false (fun hd => hd₀ ?_) hd₀
      obtain ⟨d, hd, hk⟩ := isDir_iff.1 hd
      rw [hsame] at hd
      exact isDir_iff.2 ⟨d, hd, (hm.kind _ (fs₀.ino_lt _ d hd)).symm.trans hk⟩
  · rcases hplace u with ⟨hn, hn₀⟩ | ⟨hd₀, -⟩ | ⟨-, hsame⟩
    · rw [hn, hn₀]
    · exact absurd hd₀ hu
    · exact hsame

/-- What one call of the run does. -/
theorem removes (h : Mirrorable fs₀ dir o t m r b) (hm : Mirroring fs₀ fs t m b removed)
    (hown : OwnNumber o fs) (hr : env.recycler = some dir) (hcolon : ':' ∉ dir) (hcomma : ',' ∉ dir)
    (ht : t <:+ x) (hne : fs.dirent x ≠ none) (hc : fs.childless x = true) {op : Op}
    (hop : op.Removes fs x) :
    op.Succeeds env fs ∧ Mirroring fs₀ (op.apply env fs) t m b (x :: removed) := by
  obtain ⟨d, hd⟩ := Option.ne_none_iff_exists'.1 hne
  cases op with
  | delete p fuel dirfd pathname flags =>
    obtain ⟨l, n, rfl, htarget, hfuel, hflags⟩ := hop
    by_cases hk : (fs.inode d.obj).kind = .dir
    · have hdir : fs.IsDir (n :: l) := (isDir_iff_kind hd).2 hk
      obtain ⟨-, rfl⟩ := hflags.resolve_right fun e => e.1 hdir
      exact hm.unlinkat_dir h hown hr hcolon hcomma ht htarget hd hfuel hk hc
    · have hdir : ¬ fs.IsDir (n :: l) := (isDir_iff_kind hd).not.2 hk
      obtain ⟨-, rfl, hs⟩ := hflags.resolve_left fun e => hdir e.1
      exact hm.unlinkat_file h hown hr hcolon hcomma ht htarget hd hfuel hk hs
  | _ => exact absurd hop id

/-- What all calls that are still to come do. -/
theorem run (h : Mirrorable fs₀ dir o t m r b) (hr : env.recycler = some dir) (hcolon : ':' ∉ dir)
    (hcomma : ',' ∉ dir) {order : List Loc} {ops : List Op} (hown : OwnNumber o fs)
    (hm : Mirroring fs₀ fs t m b removed)
    (hmem : ∀ x, x ∈ removed ∨ x ∈ order ↔ t <:+ x ∧ fs₀.dirent x ≠ none)
    (hfresh : ∀ x ∈ order, x ∉ removed) (horder : order.Pairwise fun x y => ¬ x <:+ y)
    (hturn : InTurn env order ops fs) :
    Throughout env (fun fs op => op.Succeeds env fs) ops fs ∧
      ∃ removed, (∀ x, x ∈ removed ↔ t <:+ x ∧ fs₀.dirent x ≠ none) ∧
        Mirroring fs₀ (after env ops fs) t m b removed := by
  induction order generalizing ops fs removed with
  | nil =>
    cases ops with
    | nil => exact ⟨trivial, removed, fun x => by rw [← hmem, or_iff_left List.not_mem_nil], hm⟩
    | cons op ops => exact absurd hturn id
  | cons x order ih =>
    cases ops with
    | nil => exact absurd hturn id
    | cons op ops =>
      obtain ⟨hop, hturn⟩ := hturn
      obtain ⟨hafter, horder⟩ := List.pairwise_cons.1 horder
      obtain ⟨ht, hne₀⟩ := (hmem x).1 (.inr List.mem_cons_self)
      have hx : x ∉ removed := hfresh x List.mem_cons_self
      -- what is below `x` comes before it in the order
      have hc : fs.childless x = true := by
        rw [FileSystem.childless_iff]
        intro c
        by_contra hne
        have ht' : t <:+ c :: x := ht.trans (List.suffix_cons c x)
        obtain ⟨d, hd⟩ := Option.ne_none_iff_exists'.1 hne
        rcases (hmem (c :: x)).2 ⟨ht', by simp [hm.dirent_left ht' hd]⟩ with hmem' | hmem'
        · exact hne (hm.gone _ hmem')
        · rcases List.mem_cons.1 hmem' with e | hmem'
          · exact List.cons_ne_self c x e
          · exact hafter _ hmem' (List.suffix_cons c x)
      have hne : fs.dirent x ≠ none := by rwa [hm.left x ht hx]
      obtain ⟨hok, hm'⟩ := hm.removes h hown hr hcolon hcomma ht hne hc hop
      have hmem' : ∀ y, y ∈ x :: removed ∨ y ∈ order ↔ t <:+ y ∧ fs₀.dirent y ≠ none := by
        intro y
        rw [← hmem, List.mem_cons, List.mem_cons, or_assoc, or_left_comm]
      have hfresh' : ∀ y ∈ order, y ∉ x :: removed := by
        intro y hy
        rw [List.mem_cons, not_or]
        exact ⟨fun e => hafter y hy (e ▸ List.suffix_rfl), hfresh y (List.mem_cons_of_mem x hy)⟩
      obtain ⟨hall, hrest⟩ := ih (kept_apply (OwnNumber.kept o) op hown) hm' hmem' hfresh' horder hturn
      exact ⟨⟨hok, hall⟩, hrest⟩

/-- The pathname of the tree in the recycler. -/
theorem lookupAt (h : Mirrorable fs₀ dir o (n :: l) m r b) (hm : Mirroring fs₀ fs (n :: l) m b removed)
    (hne : fs.dirent (r ++ b) ≠ none) (p : Process) :
    fs.lookupAt p atFdcwd (recycledPath dir (entryPath l n) (mountPath l n m)) false =
      .ok (r ++ b) := by
  obtain ⟨z, rfl, hz⟩ := h.exists_names List.suffix_rfl
  obtain rfl : r = n :: z := List.append_cancel_right (h.names.symm.trans List.cons_append.symm)
  have hdir : dir ≠ [] := by
    rintro rfl
    exact Bool.false_ne_true h.isAbs
  have hs := spells_recycledPath_below (n := n) (m := m) hdir (rfl : z ++ m = z ++ m)
  refine lookupAt_spells (hm.leads h p) hs (descend_of_dirs (hm.isDir_recycler h) fun s _ hs' => ?_) hne
  refine isDir_of_suffix hne ?_ fun e => ?_
  · exact (List.suffix_append_inj_of_length_eq rfl).2 ⟨hs'.trans (List.suffix_cons n z), rfl⟩
  · have := congrArg List.length (List.append_cancel_right e)
    have := hs'.length_le
    simp only [List.length_cons] at *
    omega

end Mirroring

/-- A tree whose entries are removed one by one, each after what is below it, is mirrored in the
recycler: every call returns 0, nothing is left of the tree, and at its pathname in the recycler
there is a tree of the same shape with the very same objects as the entries that are not
directories. -/
theorem removal_mirrors (h : Mirrorable fs dir o (n :: l) m r b) (hr : env.recycler = some dir)
    (hcolon : ':' ∉ dir) (hcomma : ',' ∉ dir) {order : List Loc} {ops : List Op}
    (horder : PostOrder fs (n :: l) order) (hturn : InTurn env order ops fs) :
    Throughout env (fun fs op => op.Succeeds env fs) ops fs ∧
      (∀ x, n :: l <:+ x → (after env ops fs).dirent x = none) ∧
      Mirrors fs (after env ops fs) (n :: l) (r ++ b) ∧
      ∀ p, (after env ops fs).lookupAt p atFdcwd
        (recycledPath dir (entryPath l n) (mountPath l n m)) false = .ok (r ++ b) := by
  obtain ⟨hok, removed, hall, hm⟩ := (Mirroring.start fs (n :: l) m b).run h hr hcolon hcomma h.own
    (fun x => by rw [← horder.mem_iff, or_iff_right List.not_mem_nil])
    (fun _ _ => List.not_mem_nil) horder.pairwise hturn
  have hne : (after env ops fs).dirent (r ++ b) ≠ none :=
    hm.mirrored r (h.names ▸ (hall _).2 ⟨List.suffix_rfl, h.exists_tree⟩)
  refine ⟨hok, fun x hx => ?_, hm.mirrors h hall, hm.lookupAt h hne⟩
  by_cases hx' : x ∈ removed
  · exact hm.gone x hx'
  · rw [hm.left x hx hx']
    by_contra hne
    exact hx' ((hall x).2 ⟨hx, hne⟩)

/-! ## Small machines -/

/-- In a machine with finitely many entries the conditions can be checked one by one. -/
theorem Apart.of_locs
    (hb : YazzyPreload.isAbs dir = true ∧ walk fs.kindAt maxSymlinks [] (comps dir) = .ok b ∧ fs.IsDir b ∧
      fs.objAt b = some o ∧ o.ino < fs.nextIno)
    (ht : ¬ t <:+ b ∧ ¬ b <:+ t ∧ t = r ++ m ∧ fs.dirent t ≠ none ∧ fs.dirent (r ++ b) = none ∧
      (m = [] ∨ (fs.objAt m.tail).map Obj.dev ≠ some o.dev))
    (hown : ∀ x ∈ fs.locs, ∀ d ∈ fs.dirent x, d.obj.ino = o.ino → d.obj = o)
    (hlocs : ∀ x ∈ fs.locs, t <:+ x → ∀ d ∈ fs.dirent x,
      d.obj.dev = o.dev ∧ d.mounted = false ∧ (fs.inode d.obj).kind ≠ .reg 0)
    (habove : ∀ a ∈ t.tails, m.length ≤ a.length → (fs.objAt a).map Obj.dev = some o.dev)
    (hway : ∀ u ∈ r.tails, u ≠ [] → u ≠ r → fs.dirent (u ++ b) = none ∨ fs.IsDir (u ++ b)) :
    Apart fs dir o t m r b := by
  obtain ⟨habs, hleads, hdir, hobj, hlt⟩ := hb
  obtain ⟨hnb, hnt, hnames, htree, hroom, htop⟩ := ht
  have hmem : ∀ x d, fs.dirent x = some d → x ∈ fs.locs := fun x d hd =>
    fs.mem_locs x (by simp [hd])
  exact {
    isAbs := habs, leads := hleads, isDir := hdir, obj := hobj, not_above := hnb, not_below := hnt
    names := hnames, exists_tree := htree, top := htop, room := hroom
    own := ⟨hlt, fun x d hd _ => hown x (hmem x d hd) d hd⟩
    dev_above := fun a ha => habove a ((List.mem_tails a t).2 ha)
    dev := fun x d hx hd => (hlocs x (hmem x d hd) hx d hd).1
    unmounted := fun x d hx hd => (hlocs x (hmem x d hd) hx d hd).2.1
    size := fun x d size hx hd hk => Nat.pos_of_ne_zero fun e =>
      (hlocs x (hmem x d hd) hx d hd).2.2 (e ▸ hk)
    way := fun u hu hu' hne => hway u ((List.mem_tails u r).2 hu') hu hne }

theorem PostOrder.of_locs {order : List Loc} (hmem : ∀ x ∈ order, t <:+ x ∧ fs.dirent x ≠ none)
    (hlocs : ∀ x ∈ fs.locs, t <:+ x → fs.dirent x ≠ none → x ∈ order)
    (horder : order.Pairwise fun x y => ¬ x <:+ y) : PostOrder fs t order :=
  ⟨fun x => ⟨hmem x, fun hx => hlocs x (fs.mem_locs x hx.2) hx.1 hx.2⟩, horder⟩

namespace Sample

/-- The tree `/a` with the file `/a/f` and the link `/a/l` to `/bin`. -/
def linkTree : FileSystem := fileTree.addChild [a] (name "l") (symlink "/bin")

/-- The recycler `/a/l`. -/
def linkEnv : Env := ⟨some "/a/l".toList, none, fun _ => none⟩

def linkOrder : List Loc := [[name "l", a], [f, a], [a]]

/-- The calls that remove `/a`. -/
def linkCalls : List Op :=
  [.delete process 12 atFdcwd "/a/l".toList 0, .delete process 12 atFdcwd "/a/f".toList 0,
    .delete process 9 atFdcwd "/a".toList atRemovedir]

theorem linkOrder_postOrder : PostOrder linkTree [a] linkOrder :=
  .of_locs (by decide +kernel) (by decide +kernel) (by decide +kernel)

theorem linkCalls_inTurn (e : Env) (h : e = Sample.env ∨ e = linkEnv) :
    InTurn e linkOrder linkCalls linkTree := by
  refine ⟨⟨[a], name "l", rfl, ?_, by decide, .inr ?_⟩, ⟨[a], f, rfl, ?_, by decide, .inr ?_⟩,
    ⟨[], a, rfl, ?_, by decide, .inl ?_⟩, trivial⟩ <;>
  · rcases h with rfl | rfl <;> decide +kernel

theorem linkTree_apart : Apart linkTree "/a/l".toList ⟨1, 3⟩ [a] [] [a] [bin] :=
  .of_locs (by decide +kernel) (by decide +kernel) (by decide +kernel) (by decide +kernel)
    (by decide +kernel) (by decide +kernel)

/-- The file `/a/a/f`, and another device mounted on `/bin/a`. -/
def mountTree : FileSystem :=
  ((tree.addChild [a] a Sample.dir).addChild [a, a] f file).insert [bin] a ⟨⟨2, 20⟩, true⟩ Sample.dir

def mountOrder : List Loc := [[f, a, a], [a, a]]

/-- The calls that remove `/a/a`. -/
def mountCalls : List Op :=
  [.delete process 15 atFdcwd "/a/a/f".toList 0,
    .delete process 12 atFdcwd "/a/a".toList atRemovedir]

theorem mountOrder_postOrder : PostOrder mountTree [a, a] mountOrder :=
  .of_locs (by decide +kernel) (by decide +kernel) (by decide +kernel)

theorem mountCalls_inTurn : InTurn Sample.env mountOrder mountCalls mountTree :=
  ⟨⟨[a, a], f, rfl, by decide +kernel, by decide, .inr (by decide +kernel)⟩,
    ⟨[a], a, rfl, by decide +kernel, by decide, .inl (by decide +kernel)⟩, trivial⟩

theorem mountTree_apart : Apart mountTree "/bin".toList ⟨1, 3⟩ [a, a] [] [a, a] [bin] :=
  .of_locs (by decide +kernel) (by decide +kernel) (by decide +kernel) (by decide +kernel)
    (by decide +kernel) (by decide +kernel)

end Sample

/-- The recycler's pathname leads through the tree, and `/a/f` is lost when the link is gone; and
nothing can be moved into a recycler where something is mounted on the way. -/
theorem removal_unmirrored :
    (Apart Sample.linkTree "/a/l".toList ⟨1, 3⟩ [Sample.a] [] [Sample.a] [Sample.bin] ∧
      Sample.linkEnv.recycler = some "/a/l".toList ∧
      PostOrder Sample.linkTree [Sample.a] Sample.linkOrder ∧
      InTurn Sample.linkEnv Sample.linkOrder Sample.linkCalls Sample.linkTree ∧
      ¬ Mirrors Sample.linkTree (after Sample.linkEnv Sample.linkCalls Sample.linkTree) [Sample.a]
        [Sample.a, Sample.bin]) ∧
    (Apart Sample.mountTree "/bin".toList ⟨1, 3⟩ [Sample.a, Sample.a] [] [Sample.a, Sample.a]
        [Sample.bin] ∧
      Sample.env.recycler = some "/bin".toList ∧
      PostOrder Sample.mountTree [Sample.a, Sample.a] Sample.mountOrder ∧
      InTurn Sample.env Sample.mountOrder Sample.mountCalls Sample.mountTree ∧
      ¬ Throughout Sample.env (fun fs op => op.Succeeds Sample.env fs) Sample.mountCalls
        Sample.mountTree) := by
  refine ⟨⟨Sample.linkTree_apart, rfl, Sample.linkOrder_postOrder,
    Sample.linkCalls_inTurn _ (.inr rfl), fun h => ?_⟩, Sample.mountTree_apart, rfl,
    Sample.mountOrder_postOrder, Sample.mountCalls_inTurn, fun h => ?_⟩
  · have hlost := h.dirent [Sample.f] (by decide +kernel)
    revert hlost
    decide +kernel
  · have hfail : ((unlinkat Sample.env 15 atFdcwd "/a/a/f".toList 0).run (exec Sample.process)
        Sample.mountTree).1.map Exit.retval = some 0 := h.1
    revert hfail
    decide +kernel

theorem removal_mirrors_linkTree :
    Throughout Sample.env (fun fs op => op.Succeeds Sample.env fs) Sample.linkCalls
      Sample.linkTree ∧
    (∀ x, [Sample.a] <:+ x →
      (after Sample.env Sample.linkCalls Sample.linkTree).dirent x = none) ∧
    Mirrors Sample.linkTree (after Sample.env Sample.linkCalls Sample.linkTree) [Sample.a]
      [Sample.a, Sample.bin] ∧
    ∀ p, (after Sample.env Sample.linkCalls Sample.linkTree).lookupAt p atFdcwd
      (recycledPath "/bin".toList (entryPath [] Sample.a) (mountPath [] Sample.a [])) false =
        .ok [Sample.a, Sample.bin] :=
  have h : Mirrorable Sample.linkTree "/bin".toList ⟨1, 3⟩ [Sample.a] [] [Sample.a] [Sample.bin] :=
    { Apart.of_locs (by decide +kernel) (by decide +kernel) (by decide +kernel) (by decide +kernel)
        (by decide +kernel) (by decide +kernel) with
      outside := by decide +kernel
      mount := by decide +kernel
      way_unmounted := fun u hu hu' hne => absurd hu' (by simp [List.suffix_cons_iff, hu, hne]) }
  removal_mirrors h rfl (by decide +kernel) (by decide +kernel) Sample.linkOrder_postOrder
    (Sample.linkCalls_inTurn _ (.inl rfl))

end YazzyPreload.Recyclix

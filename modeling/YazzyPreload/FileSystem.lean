import YazzyPreload.Pathname

/-!
# File systems

The name space of a machine: a tree of directory entries over numbered objects.  A location is the
list of entry names from the leaf up to the root, so that `n :: l` is the entry `n` of the
directory at `l`, `l.tail` its directory, and `b <:+ l` says that `l` is at or below `b`.

An object is identified by its device and inode number.  Several entries may refer to one object,
as long as it is not a directory.  A `FileSystem` carries these facts as fields, and the updates
at the end of the file (`addChild`, `erase`, `adjust`, `move`) keep them.
-/

namespace YazzyPreload

/-- The identity of an object: `st_dev` and `st_ino`. -/
structure Obj where
  dev : ℕ
  ino : ℕ
  deriving DecidableEq

/-- File types, with the data path resolution and `stat` need. -/
inductive Kind
  | dir
  | reg (size : ℕ)
  | symlink (target : Str)
  | special
  deriving DecidableEq

/-- Permission bits, with set-user-ID, set-group-ID and sticky bit. -/
abbrev Mode : Type := BitVec 12

/-- What the inode of an object holds. -/
structure Inode where
  kind : Kind
  mode : Mode
  uid : ℕ
  gid : ℕ
  deriving DecidableEq

/-- A directory entry: the object it refers to, and whether something is mounted on it. -/
structure Dent where
  obj : Obj
  mounted : Bool
  deriving DecidableEq

/-- A place in the name space, leaf first. -/
abbrev Loc : Type := List Name

/-- A tree of directory entries over a table of inodes. -/
structure FileSystem where
  dirent : Loc → Option Dent
  inode : Obj → Inode
  /-- every inode number in use is below this one -/
  nextIno : ℕ
  /-- a list with all the locations in use -/
  locs : List Loc
  mem_locs : ∀ l, dirent l ≠ none → l ∈ locs
  root_dir : ∃ d, dirent [] = some d ∧ (inode d.obj).kind = .dir
  parent_dir : ∀ n l, dirent (n :: l) ≠ none → ∃ d, dirent l = some d ∧ (inode d.obj).kind = .dir
  dir_unique : ∀ l l' d d', dirent l = some d → dirent l' = some d' → d.obj = d'.obj →
    (inode d.obj).kind = .dir → l = l'
  ino_lt : ∀ l d, dirent l = some d → d.obj.ino < nextIno

namespace FileSystem

variable (fs : FileSystem)

/-- The object at a location. -/
def objAt (l : Loc) : Option Obj := (fs.dirent l).map Dent.obj

/-- The type of the object at a location. -/
def kindAt (l : Loc) : Option Kind := (fs.dirent l).map fun d => (fs.inode d.obj).kind

/-- There is a directory at the location. -/
def IsDir (l : Loc) : Prop := fs.kindAt l = some .dir

instance (l : Loc) : Decidable (fs.IsDir l) := inferInstanceAs (Decidable (_ = _))

/-- Nothing is below the location. -/
def childless (l : Loc) : Bool :=
  fs.locs.all fun l' => decide (l' = [] ∨ l'.tail ≠ l ∨ fs.dirent l' = none)

/-- The mount a location belongs to: the nearest entry at or above it that something is mounted
on, or the root. -/
def mountOf : Loc → Loc
  | [] => []
  | n :: l => if (fs.dirent (n :: l)).any Dent.mounted then n :: l else mountOf l

variable {fs} {l l' : Loc} {n : Name}

theorem kindAt_eq_none_iff : fs.kindAt l = none ↔ fs.dirent l = none := Option.map_eq_none_iff

theorem kindAt_of_dirent {d : Dent} (h : fs.dirent l = some d) :
    fs.kindAt l = some (fs.inode d.obj).kind := by
  rw [kindAt, h]
  rfl

theorem isDir_iff : fs.IsDir l ↔ ∃ d, fs.dirent l = some d ∧ (fs.inode d.obj).kind = .dir :=
  Option.map_eq_some_iff

theorem isDir_iff_kind {d : Dent} (h : fs.dirent l = some d) :
    fs.IsDir l ↔ (fs.inode d.obj).kind = .dir := by
  rw [IsDir, kindAt_of_dirent h, Option.some_inj]

theorem isDir_root : fs.IsDir [] := isDir_iff.2 fs.root_dir

theorem isDir_of_child (h : fs.dirent (n :: l) ≠ none) : fs.IsDir l :=
  isDir_iff.2 (fs.parent_dir n l h)

theorem dirent_child_of_not_isDir (h : ¬ fs.IsDir l) (n : Name) : fs.dirent (n :: l) = none := by
  by_contra hc
  exact h (isDir_of_child hc)

theorem IsDir.dirent_ne_none (h : fs.IsDir l) : fs.dirent l ≠ none := by
  obtain ⟨d, hd, -⟩ := isDir_iff.1 h
  simp [hd]

theorem IsDir.tail (h : fs.IsDir l) : fs.IsDir l.tail := by
  cases l with
  | nil => exact h
  | cons n l => exact isDir_of_child h.dirent_ne_none

theorem isDir_of_suffix (h : fs.dirent l ≠ none) (hs : l' <:+ l) (hne : l' ≠ l) : fs.IsDir l' := by
  induction l with
  | nil => exact absurd (List.suffix_nil.1 hs) hne
  | cons n l ih =>
    have hl := isDir_of_child h
    rcases List.suffix_cons_iff.1 hs with rfl | hs
    · exact absurd rfl hne
    · by_cases e : l' = l
      · rwa [e]
      · exact ih hl.dirent_ne_none hs e

/-- Directories are identified by device and inode number. -/
theorem IsDir.eq_of_objAt (h : fs.IsDir l) (he : fs.objAt l = fs.objAt l') : l = l' := by
  obtain ⟨d, hd, hk⟩ := isDir_iff.1 h
  rw [objAt, hd] at he
  obtain ⟨d', hd', ho⟩ := Option.map_eq_some_iff.1 he.symm
  exact fs.dir_unique l l' d d' hd hd' ho.symm hk

theorem childless_iff : fs.childless l = true ↔ ∀ n, fs.dirent (n :: l) = none := by
  simp only [childless, List.all_eq_true, decide_eq_true_eq]
  constructor
  · intro h n
    by_contra hc
    rcases h _ (fs.mem_locs _ hc) with h | h | h
    · cases h
    · exact h rfl
    · exact hc h
  · intro h l' _
    cases l' with
    | nil => exact Or.inl rfl
    | cons n l' =>
      by_cases e : l' = l
      · exact Or.inr (Or.inr (e ▸ h n))
      · exact Or.inr (Or.inl e)

theorem childless_of_not_isDir (h : ¬ fs.IsDir l) : fs.childless l = true :=
  childless_iff.2 (dirent_child_of_not_isDir h)

theorem dirent_eq_none_of_childless (h : fs.childless l = true) (hs : l <:+ l') (hne : l' ≠ l) :
    fs.dirent l' = none := by
  obtain ⟨p, rfl⟩ := hs
  induction p with
  | nil => exact absurd rfl hne
  | cons n p ih =>
    by_contra hc
    by_cases hp : p = []
    · subst hp
      exact hc (childless_iff.1 h n)
    · refine (isDir_of_child hc).dirent_ne_none (ih fun e => hp ?_)
      simpa using congrArg List.length e

/-- A file system with nothing but its root directory. -/
def bare (root : Obj) : FileSystem where
  dirent l := if l = [] then some ⟨root, false⟩ else none
  inode _ := ⟨.dir, 0o755, 0, 0⟩
  nextIno := root.ino + 1
  locs := [[]]
  mem_locs l hl := by
    by_cases e : l = []
    · exact e ▸ List.mem_cons_self
    · exact absurd (if_neg e) hl
  root_dir := ⟨_, if_pos rfl, rfl⟩
  parent_dir n l hl := absurd (if_neg (List.cons_ne_nil n l)) hl
  dir_unique l l' d d' hd hd' _ _ := by
    split_ifs at hd hd' with e e'
    rw [e, e']
  ino_lt l d hd := by
    split_ifs at hd with e
    cases hd
    exact Nat.lt_succ_self _

/-! ## Adding an entry -/

variable (fs)

/-- No entry refers to the object. -/
def unused (o : Obj) : Bool := fs.locs.all fun l => decide (fs.objAt l ≠ some o)

/-- The identity of the next object made in the directory at `l`. -/
def newObj (l : Loc) : Obj := ⟨((fs.objAt l).map Obj.dev).getD 0, fs.nextIno⟩

variable {fs}

theorem ne_of_unused {o : Obj} (h : fs.unused o = true) {d : Dent} (hd : fs.dirent l = some d) :
    d.obj ≠ o := by
  simp only [unused, List.all_eq_true, decide_eq_true_eq] at h
  have := h l (fs.mem_locs l (by simp [hd]))
  simpa [objAt, hd] using this

variable (fs)

theorem unused_newObj (p : Loc) : fs.unused (fs.newObj p) = true := by
  simp only [unused, List.all_eq_true, decide_eq_true_eq]
  intro l _ hl
  obtain ⟨d, hd, ho⟩ := Option.map_eq_some_iff.1 hl
  have := fs.ino_lt l d hd
  rw [ho] at this
  exact lt_irrefl _ this

/-- A new entry `d` under the name `n` in the directory at `l`, for an object not in use. -/
def insert (l : Loc) (n : Name) (d : Dent) (i : Inode) : FileSystem :=
  if h : fs.IsDir l ∧ fs.dirent (n :: l) = none ∧ fs.unused d.obj = true then
    { dirent := fun l' => if l' = n :: l then some d else fs.dirent l'
      inode := fun o => if o = d.obj then i else fs.inode o
      nextIno := max fs.nextIno (d.obj.ino + 1)
      locs := (n :: l) :: fs.locs
      mem_locs := by
        intro l' hl'
        by_cases e : l' = n :: l
        · exact e ▸ List.mem_cons_self
        · exact List.mem_cons_of_mem _ (fs.mem_locs l' (by simpa [e] using hl'))
      root_dir := by
        obtain ⟨r, hr, hk⟩ := fs.root_dir
        exact ⟨r, by simpa using hr, by simpa [ne_of_unused h.2.2 hr] using hk⟩
      parent_dir := by
        intro m p hp
        have hd : fs.IsDir p := by
          by_cases e : m :: p = n :: l
          · rw [(List.cons.inj e).2]
            exact h.1
          · exact isDir_of_child (by simpa [e] using hp)
        obtain ⟨q, hq, hk⟩ := isDir_iff.1 hd
        have hpl : p ≠ n :: l := fun e => by
          rw [e, h.2.1] at hq
          cases hq
        exact ⟨q, by simpa [hpl] using hq, by simpa [ne_of_unused h.2.2 hq] using hk⟩
      dir_unique := by
        intro p p' q q' hq hq' ho hk
        split_ifs at hq with e
        · split_ifs at hq' with e'
          · rw [e, e']
          · cases hq
            exact absurd ho.symm (ne_of_unused h.2.2 hq')
        · split_ifs at hq' with e'
          · cases hq'
            exact absurd ho (ne_of_unused h.2.2 hq)
          · rw [if_neg (ne_of_unused h.2.2 hq)] at hk
            exact fs.dir_unique _ _ _ _ hq hq' ho hk
      ino_lt := by
        intro p q hq
        split_ifs at hq with e
        · cases hq
          exact Nat.lt_of_lt_of_le (Nat.lt_succ_self _) (Nat.le_max_right _ _)
        · exact Nat.lt_of_lt_of_le (fs.ino_lt _ _ hq) (Nat.le_max_left _ _) }
  else fs

/-- A new object under the name `n` in the directory at `l`. -/
def addChild (l : Loc) (n : Name) (i : Inode) : FileSystem := fs.insert l n ⟨fs.newObj l, false⟩ i

section AddChild

variable {fs} (h : fs.IsDir l) (hn : fs.dirent (n :: l) = none) (i : Inode)

include h hn

theorem dirent_addChild (l' : Loc) : (fs.addChild l n i).dirent l' =
    if l' = n :: l then some ⟨fs.newObj l, false⟩ else fs.dirent l' := by
  rw [addChild, insert, dif_pos ⟨h, hn, fs.unused_newObj l⟩]

theorem inode_addChild (o : Obj) : (fs.addChild l n i).inode o =
    if o = fs.newObj l then i else fs.inode o := by
  rw [addChild, insert, dif_pos ⟨h, hn, fs.unused_newObj l⟩]

theorem nextIno_addChild : (fs.addChild l n i).nextIno = fs.nextIno + 1 := by
  rw [addChild, insert, dif_pos ⟨h, hn, fs.unused_newObj l⟩]
  exact Nat.max_eq_right (Nat.le_succ _)

theorem dirent_addChild_self : (fs.addChild l n i).dirent (n :: l) = some ⟨fs.newObj l, false⟩ := by
  rw [dirent_addChild h hn, if_pos rfl]

theorem dirent_addChild_of_ne (hne : l' ≠ n :: l) :
    (fs.addChild l n i).dirent l' = fs.dirent l' := by
  rw [dirent_addChild h hn, if_neg hne]

theorem kindAt_addChild (l' : Loc) : (fs.addChild l n i).kindAt l' =
    if l' = n :: l then some i.kind else fs.kindAt l' := by
  by_cases e : l' = n :: l
  · rw [if_pos e, e, kindAt, dirent_addChild_self h hn, Option.map_some, inode_addChild h hn,
      if_pos rfl]
  · rw [if_neg e, kindAt, dirent_addChild_of_ne h hn i e, kindAt]
    cases hd : fs.dirent l' with
    | none => rfl
    | some d =>
      rw [Option.map_some, Option.map_some, inode_addChild h hn,
        if_neg (ne_of_unused (fs.unused_newObj l) hd)]

end AddChild

/-! ## Removing an entry -/

/-- Without the entry at `l`, which must not have entries below it. -/
def erase (l : Loc) : FileSystem :=
  if h : l ≠ [] ∧ fs.childless l = true then
    { dirent := fun l' => if l' = l then none else fs.dirent l'
      inode := fs.inode
      nextIno := fs.nextIno
      locs := fs.locs
      mem_locs := by
        intro l' hl'
        split_ifs at hl' with e
        · exact absurd rfl hl'
        · exact fs.mem_locs l' hl'
      root_dir := by
        rw [if_neg h.1.symm]
        exact fs.root_dir
      parent_dir := by
        intro n p hp
        split_ifs at hp with e
        · exact absurd rfl hp
        · have hpl : p ≠ l := fun e => hp (e ▸ childless_iff.1 h.2 n)
          rw [if_neg hpl]
          exact fs.parent_dir n p hp
      dir_unique := by
        intro p p' d d' hd hd' ho hk
        split_ifs at hd hd' with e e'
        exact fs.dir_unique p p' d d' hd hd' ho hk
      ino_lt := by
        intro p d hd
        split_ifs at hd with e
        exact fs.ino_lt p d hd }
  else fs

section Erase

variable {fs} (hl : l ≠ []) (hc : fs.childless l = true)

include hl hc

theorem dirent_erase (l' : Loc) :
    (fs.erase l).dirent l' = if l' = l then none else fs.dirent l' := by
  rw [erase, dif_pos ⟨hl, hc⟩]

theorem kindAt_erase (l' : Loc) :
    (fs.erase l).kindAt l' = if l' = l then none else fs.kindAt l' := by
  rw [kindAt, dirent_erase hl hc, erase, dif_pos ⟨hl, hc⟩]
  split_ifs <;> rfl

end Erase

@[simp] theorem inode_erase (l : Loc) : (fs.erase l).inode = fs.inode := by
  rw [erase]
  split_ifs <;> rfl

@[simp] theorem nextIno_erase (l : Loc) : (fs.erase l).nextIno = fs.nextIno := by
  rw [erase]
  split_ifs <;> rfl

/-! ## Changing an inode -/

/-- With the inode of `o` replaced, its type kept. -/
def adjust (o : Obj) (f : Inode → Inode) (hf : ∀ i, (f i).kind = i.kind) : FileSystem :=
  have hk : ∀ o', ((if o' = o then f (fs.inode o') else fs.inode o')).kind = (fs.inode o').kind := by
    intro o'
    split_ifs
    · exact hf _
    · rfl
  { dirent := fs.dirent
    inode := fun o' => if o' = o then f (fs.inode o') else fs.inode o'
    nextIno := fs.nextIno
    locs := fs.locs
    mem_locs := fs.mem_locs
    root_dir := by simpa only [hk] using fs.root_dir
    parent_dir := by simpa only [hk] using fs.parent_dir
    dir_unique := by simpa only [hk] using fs.dir_unique
    ino_lt := fs.ino_lt }

@[simp] theorem dirent_adjust (o : Obj) (f : Inode → Inode) (hf : ∀ i, (f i).kind = i.kind) :
    (fs.adjust o f hf).dirent = fs.dirent := rfl

@[simp] theorem nextIno_adjust (o : Obj) (f : Inode → Inode) (hf : ∀ i, (f i).kind = i.kind) :
    (fs.adjust o f hf).nextIno = fs.nextIno := rfl

theorem inode_adjust (o : Obj) (f : Inode → Inode) (hf : ∀ i, (f i).kind = i.kind) (o' : Obj) :
    (fs.adjust o f hf).inode o' = if o' = o then f (fs.inode o') else fs.inode o' := rfl

@[simp] theorem kindAt_adjust (o : Obj) (f : Inode → Inode) (hf : ∀ i, (f i).kind = i.kind) :
    (fs.adjust o f hf).kindAt = fs.kindAt := by
  funext l
  rw [kindAt, kindAt, dirent_adjust]
  congr 1
  funext d
  rw [inode_adjust]
  split_ifs
  · rw [hf]
  · rfl

/-- With other permission bits on `o`. -/
def setMode (o : Obj) (m : Mode) : FileSystem := fs.adjust o (fun i => { i with mode := m }) fun _ => rfl

/-- With another owner and group on `o`. -/
def setOwner (o : Obj) (uid gid : ℕ) : FileSystem :=
  fs.adjust o (fun i => { i with uid := uid, gid := gid }) fun _ => rfl

/-! ## Moving an entry -/

/-- Where the entry found at `l` after moving `src` to `dst` was before. -/
def origin (src dst l : Loc) : Option Loc :=
  if dst <:+ l then some (l.take (l.length - dst.length) ++ src)
  else if src <:+ l then none else some l

theorem origin_append (src dst p : Loc) : origin src dst (p ++ dst) = some (p ++ src) := by
  rw [origin, if_pos (List.suffix_append p dst), List.length_append, Nat.add_sub_cancel,
    List.take_left]

theorem origin_of_not_suffix {src dst : Loc} (hd : ¬ dst <:+ l) (hs : ¬ src <:+ l) :
    origin src dst l = some l := by
  rw [origin, if_neg hd, if_neg hs]

theorem origin_eq_some {src dst l l₀ : Loc} (h : origin src dst l = some l₀) :
    (∃ p, l = p ++ dst ∧ l₀ = p ++ src) ∨ (¬ dst <:+ l ∧ ¬ src <:+ l ∧ l₀ = l) := by
  by_cases hd : dst <:+ l
  · obtain ⟨p, rfl⟩ := hd
    rw [origin_append] at h
    exact Or.inl ⟨p, rfl, (Option.some.inj h).symm⟩
  · by_cases hs : src <:+ l
    · rw [origin, if_neg hd, if_pos hs] at h
      cases h
    · rw [origin_of_not_suffix hd hs] at h
      exact Or.inr ⟨hd, hs, (Option.some.inj h).symm⟩

/-- The whole tree at `src` under the name `dst`.  An entry at `dst` is replaced; it must not have
entries below it. -/
def move (src dst : Loc) : FileSystem :=
  if h : src ≠ [] ∧ dst ≠ [] ∧ fs.IsDir dst.tail ∧ ¬ src <:+ dst ∧ fs.childless dst = true ∧
      fs.dirent src ≠ none then
    { dirent := fun l => (origin src dst l).bind fs.dirent
      inode := fs.inode
      nextIno := fs.nextIno
      locs := fs.locs ++ fs.locs.map fun l => l.take (l.length - src.length) ++ dst
      mem_locs := by
        intro l hl
        rw [List.mem_append, List.mem_map]
        cases ho : origin src dst l with
        | none =>
          rw [ho] at hl
          exact absurd rfl hl
        | some l₀ =>
          rw [ho] at hl
          rcases origin_eq_some ho with ⟨p, rfl, rfl⟩ | ⟨-, -, rfl⟩
          · exact Or.inr ⟨p ++ src, fs.mem_locs _ hl, by
              rw [List.length_append, Nat.add_sub_cancel, List.take_left]⟩
          · exact Or.inl (fs.mem_locs _ hl)
      root_dir := by
        have hr : origin src dst [] = some [] :=
          origin_of_not_suffix (fun e => h.2.1 (List.suffix_nil.1 e)) fun e => h.1 (List.suffix_nil.1 e)
        rw [hr]
        exact fs.root_dir
      parent_dir := by
        intro n l hl
        cases ho : origin src dst (n :: l) with
        | none =>
          rw [ho] at hl
          exact absurd rfl hl
        | some l₀ =>
          rw [ho] at hl
          rcases origin_eq_some ho with ⟨p, hp, rfl⟩ | ⟨hnd, hns, rfl⟩
          · cases p with
            | nil =>
              have hd : dst.tail = l := by rw [← List.nil_append dst, ← hp]; rfl
              have hnd : ¬ dst <:+ l := by
                rw [← hd]
                intro e
                have := e.length_le
                rw [List.length_tail] at this
                have := List.length_pos_iff.2 h.2.1
                omega
              have hns : ¬ src <:+ l := fun e => h.2.2.2.1 (e.trans (hd ▸ List.tail_suffix dst))
              rw [origin_of_not_suffix hnd hns]
              exact isDir_iff.1 (hd ▸ h.2.2.1)
            | cons m p =>
              have hm : n = m := (List.cons.inj hp).1
              have hpl : l = p ++ dst := (List.cons.inj hp).2
              rw [hpl, origin_append]
              exact fs.parent_dir n (p ++ src) (hm ▸ hl)
          · rw [origin_of_not_suffix (fun e => hnd (e.trans (List.suffix_cons n l)))
              fun e => hns (e.trans (List.suffix_cons n l))]
            exact fs.parent_dir n l hl
      dir_unique := by
        intro l l' d d' hd hd' ho hk
        cases e : origin src dst l with
        | none => simp [e] at hd
        | some l₀ =>
          cases e' : origin src dst l' with
          | none => simp [e'] at hd'
          | some l₀' =>
            rw [e] at hd
            rw [e'] at hd'
            have key : l₀ = l₀' := fs.dir_unique _ _ _ _ hd hd' ho hk
            rcases origin_eq_some e with ⟨p, rfl, rfl⟩ | ⟨-, hns, rfl⟩ <;>
              rcases origin_eq_some e' with ⟨p', rfl, rfl⟩ | ⟨-, hns', rfl⟩
            · rw [List.append_cancel_right key]
            · exact absurd (key ▸ List.suffix_append p src) hns'
            · exact absurd (key ▸ List.suffix_append p' src) hns
            · exact key
      ino_lt := by
        intro l d hd
        obtain ⟨l₀, -, hl₀⟩ := Option.bind_eq_some_iff.1 hd
        exact fs.ino_lt _ _ hl₀ }
  else fs

section Move

variable {fs} {src dst : Loc}

theorem dirent_move (h : src ≠ [] ∧ dst ≠ [] ∧ fs.IsDir dst.tail ∧ ¬ src <:+ dst ∧
    fs.childless dst = true ∧ fs.dirent src ≠ none) (l : Loc) :
    (fs.move src dst).dirent l = (origin src dst l).bind fs.dirent := by
  rw [move, dif_pos h]

@[simp] theorem inode_move : (fs.move src dst).inode = fs.inode := by
  rw [move]
  split_ifs <;> rfl

@[simp] theorem nextIno_move : (fs.move src dst).nextIno = fs.nextIno := by
  rw [move]
  split_ifs <;> rfl

/-- Moving something that is not a directory changes two entries. -/
theorem dirent_move_of_not_isDir (hs : src ≠ []) (hd : dst ≠ []) (hp : fs.IsDir dst.tail)
    (hne : src ≠ dst) (hc : fs.childless dst = true) (he : fs.dirent src ≠ none)
    (hk : ¬ fs.IsDir src) (l : Loc) : (fs.move src dst).dirent l =
      if l = dst then fs.dirent src else if l = src then none else fs.dirent l := by
  have hcs := childless_of_not_isDir hk
  have hsd : ¬ src <:+ dst := by
    intro e
    obtain ⟨m, q, rfl⟩ := List.exists_cons_of_ne_nil hd
    rcases List.suffix_cons_iff.1 e with rfl | e
    · exact hne rfl
    · by_cases h : src = q
      · exact hk (h ▸ hp)
      · exact hk (isDir_of_suffix (IsDir.dirent_ne_none hp) e h)
  rw [dirent_move ⟨hs, hd, hp, hsd, hc, he⟩]
  by_cases h1 : dst <:+ l
  · obtain ⟨p, rfl⟩ := h1
    rw [origin_append, Option.bind_some]
    by_cases hp0 : p = []
    · rw [hp0, List.nil_append, List.nil_append, if_pos rfl]
    · have h2 : p ++ dst ≠ dst := by simpa using hp0
      have h3 : p ++ src ≠ src := by simpa using hp0
      have hns : p ++ dst ≠ src := fun e =>
        he (dirent_eq_none_of_childless hc (e ▸ List.suffix_append p dst) hne)
      rw [if_neg h2, if_neg hns, dirent_eq_none_of_childless hcs (List.suffix_append p src) h3,
        dirent_eq_none_of_childless hc (List.suffix_append p dst) h2]
  · have h2 : l ≠ dst := fun e => h1 (e ▸ List.suffix_rfl)
    rw [if_neg h2]
    by_cases h3 : src <:+ l
    · rw [origin, if_neg h1, if_pos h3, Option.bind_none]
      split_ifs with h4
      · rfl
      · exact (dirent_eq_none_of_childless hcs h3 h4).symm
    · have h4 : l ≠ src := fun e => h3 (e ▸ List.suffix_rfl)
      rw [origin_of_not_suffix h1 h3, Option.bind_some, if_neg h4]

end Move

end FileSystem

end YazzyPreload

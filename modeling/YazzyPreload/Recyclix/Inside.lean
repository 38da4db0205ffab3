import YazzyPreload.Recyclix.Ancestor
import YazzyPreload.Recyclix.Destination
import YazzyPreload.Recyclix.Metadata
import YazzyPreload.Update

/-!
# The paths that cloning modifies

Started with names below the recycler's directory, `recyclix_clonepath_recursive` does not climb out
of it: before it turns to the directory above it has seen that the path of that one does not lead to
a directory.  `wp_clone_inside` says so for all runs, and `clone_stays_inside_iff` when `unlinkat`
starts it there.
-/

namespace YazzyPreload.Recyclix

open FileSystem Prog

variable {fs fs' : FileSystem} {p : Process} {deny : Errno → Bool} {b l m r w : Loc} {n : Name}
  {abs : Bool} {xs : List Str} {s t dir donor pathname : Str} {fuel : ℕ} {st st1 st2 : Stat}
  {dirfd : ℤ} {flags : Flags}

/-- The call makes, removes or changes something at the path. -/
def Modifies : Call → Str → Prop
  | .mkdir path _, s | .unlink path, s | .chmod path _, s | .chown path _ _, s => path = s
  | _, _ => False

/-- The pathname is the directory's, followed by one component or more. -/
def Inside (dir s : Str) : Prop := isAbs s = isAbs dir ∧ ∃ t, t ≠ [] ∧ segments s = segments dir ++ t

theorem Inside.of_spells (h : Spells (isAbs dir) (segments dir) r s) (hr : r ≠ []) : Inside dir s :=
  ⟨h.isAbs, _, fun e => hr (List.reverse_eq_nil_iff.1 (List.map_eq_nil_iff.1 e)), h.segments⟩

/-! ## Runs of the clone -/

/-- The call modifies a path with a name after the segments `xs`, or none. -/
def Below (abs : Bool) (xs : List Str) (c : Call) : Prop :=
  ∀ s, Modifies c s → ∃ r, r ≠ [] ∧ Spells abs xs r s

/-- All calls are of this kind, and the segments lead to the directory as before. -/
def Keeping (p : Process) (abs : Bool) (xs : List Str) (b : Loc)
    (es : List (Event Call Call.Answer FileSystem)) (fs : FileSystem) : Prop :=
  (∀ e ∈ es, Below abs xs e.call) ∧ fs.Leads p abs xs b

theorem below_of_spells (hs : Spells abs xs r s) (hr : r ≠ []) {c : Call}
    (hc : ∀ t, Modifies c t → s = t) : Below abs xs c := by
  intro t ht
  obtain rfl := hc t ht
  exact ⟨r, hr, hs⟩

/-- The rule for one call. -/
theorem wp_keeping_call {α : Type} {c : Call} {k : c.Answer → Code α} {a : c.Answer}
    (hx : exec p c fs = (a, fs')) (hc : Below abs xs c)
    (h : wp (Sys p deny) (k a) fs' fun es _ => Keeping p abs xs b es)
    (hd : ∀ e, deny e = true → wp (Sys p deny) (k (.error e)) fs fun es _ => Keeping p abs xs b es) :
    wp (Sys p deny) (.call c k) fs fun es _ => Keeping p abs xs b es := by
  rw [wp_sys_call, hx]
  exact ⟨wp_mono h fun es _ fs' h => ⟨List.forall_mem_cons.2 ⟨hc, h.1⟩, h.2⟩,
    fun e he => wp_mono (hd e he) fun es _ fs' h => ⟨List.forall_mem_cons.2 ⟨hc, h.1⟩, h.2⟩⟩

theorem wp_keeping_ret {α : Type} {a : α} (hl : fs.Leads p abs xs b) :
    wp (Sys p deny) (.ret a : Code α) fs fun es _ => Keeping p abs xs b es :=
  ⟨fun _ he => absurd he List.not_mem_nil, hl⟩

theorem Leads.adjust (hl : fs.Leads p abs xs b) (o : Obj) (f : Inode → Inode)
    (hf : ∀ i, (f i).kind = i.kind) : (fs.adjust o f hf).Leads p abs xs b :=
  ⟨by rw [kindAt_adjust]; exact hl.walk, by rw [IsDir, kindAt_adjust]; exact hl.isDir⟩

theorem Leads.chown (hl : fs.Leads p abs xs b) (s : Str) (uid gid : ℕ) :
    (fs.chown p s uid gid).2.Leads p abs xs b := by
  rcases fs.chown_cases p s uid gid with ⟨e, h⟩ | ⟨o, h⟩ <;> rw [h]
  · exact hl
  · exact Leads.adjust hl o (fun i => { i with uid := uid, gid := gid }) fun _ => rfl

theorem Leads.chmod (hl : fs.Leads p abs xs b) (s : Str) (mode : Mode) :
    (fs.chmod p s mode).2.Leads p abs xs b := by
  rcases fs.chmod_cases p s mode with ⟨e, h⟩ | ⟨o, h⟩ <;> rw [h]
  · exact hl
  · exact Leads.adjust hl o (fun i => { i with mode := mode }) fun _ => rfl

/-- What `unlink` removes leads to no directory. -/
theorem unlinkEntry_of_blocked (hl : fs.Leads p abs xs b) (hs : Spells abs xs (n :: r) s)
    (hb : ∀ l, descend fs.kindAt b r = .ok l → fs.Blocked l n) :
    (∃ e, fs.unlinkEntry p atFdcwd s = (.error e, fs)) ∨
      ∃ fs', fs.unlinkEntry p atFdcwd s = (.ok (), fs') ∧ Keeps fs.kindAt fs'.kindAt := by
  rw [unlinkEntry_spells hl hs]
  cases hd : descend fs.kindAt b r with
  | error e => exact Or.inl ⟨e, rfl⟩
  | ok l =>
    cases hn : fs.dirent (n :: l) with
    | none => exact Or.inl ⟨.ENOENT, by simp only [hn]⟩
    | some d =>
      simp only [hn]
      split_ifs
      · exact Or.inl ⟨_, rfl⟩
      · exact Or.inl ⟨_, rfl⟩
      · exact Or.inr ⟨_, rfl, keeps_erase (descend_eq_ok.1 hd).2 (hb l hd)⟩

section Calls

variable (hs : Spells abs xs r s) (hr : r ≠ []) (hl : fs.Leads p abs xs b)

include hs hr hl

theorem wp_keeping_chown (uid gid : ℕ) {α : Type} (a : α) :
    wp (Sys p deny) (.call (.chown s uid gid) fun _ => .ret a : Code α) fs fun es _ =>
      Keeping p abs xs b es :=
  wp_keeping_call rfl (below_of_spells hs hr fun _ h => h)
    (wp_keeping_ret (Leads.chown hl s uid gid)) fun _ _ => wp_keeping_ret hl

variable (hretry : ∀ fs' : FileSystem, fs'.Leads p abs xs b →
  wp (Sys p deny) (tryMkdir fuel s donor st) fs' fun es _ => Keeping p abs xs b es)

include hretry

/-- Something has the name already. -/
theorem wp_keeping_exists :
    wp (Sys p deny)
      (.call (.stat s) fun
        | .error _ => .ret (some (-1))
        | .ok st' =>
          if st'.isDir then
            .call (.chmod s st.inode.mode) fun _ =>
              .call (.chown s st.inode.uid st.inode.gid) fun _ => .ret (some 0)
          else
            .call (.unlink s) fun
              | .ok _ => tryMkdir fuel s donor st
              | .error _ => .ret (some (-1))) fs
      fun es _ => Keeping p abs xs b es := by
  have hx : exec p (.stat s) fs = (fs.stat p s, fs) := rfl
  refine wp_keeping_call hx (fun _ h => absurd h id) ?_ fun _ _ => wp_keeping_ret hl
  cases hst : fs.stat p s with
  | error e => exact wp_keeping_ret hl
  | ok st' =>
    dsimp only
    split_ifs with hdir
    · exact wp_keeping_call rfl (below_of_spells hs hr fun _ h => h)
        (wp_keeping_chown hs hr (Leads.chmod hl s st.inode.mode) _ _ _)
        fun _ _ => wp_keeping_chown hs hr hl _ _ _
    · obtain ⟨n, r, rfl⟩ := List.exists_cons_of_ne_nil hr
      rw [stat_spells hl hs] at hst
      have hb : ∀ l, descend fs.kindAt b r = .ok l → fs.Blocked l n := by
        intro l hl
        rw [hl, Except.bind] at hst
        cases hm : step fs.kindAt maxSymlinks l (.name n) with
        | error e => rw [hm] at hst; cases hst
        | ok m => rw [hm] at hst; exact blocked_of_stat hm hst hdir
      rcases unlinkEntry_of_blocked hl hs hb with ⟨e, h⟩ | ⟨fs', h, hk⟩
      · exact wp_keeping_call h (below_of_spells hs hr fun _ h => h) (wp_keeping_ret hl)
          fun _ _ => wp_keeping_ret hl
      · exact wp_keeping_call h (below_of_spells hs hr fun _ h => h) (hretry fs' (hl.keeps hk))
          fun _ _ => wp_keeping_ret hl

end Calls

/-- The directory above is missing. -/
theorem wp_keeping_missing {n' : Name} (hs : Spells abs xs (n :: n' :: r) s)
    (hl : fs.Leads p abs xs b) (hne : ∀ l, descend fs.kindAt b (n' :: r) ≠ .ok l)
    (hretry : ∀ fs' : FileSystem, fs'.Leads p abs xs b →
      wp (Sys p deny) (tryMkdir fuel s donor st) fs' fun es _ => Keeping p abs xs b es)
    (hclone : ∀ fs' : FileSystem, fs'.Leads p abs xs b →
      wp (Sys p deny) (recyclixClonepathRecursive fuel (dirname s) (dirname donor)) fs'
        fun es _ => Keeping p abs xs b es) :
    wp (Sys p deny)
      (.call (.unlink (dirname s)) fun
        | .ok _ => tryMkdir fuel s donor st
        | .error .ENOENT => do
          let retval ← recyclixClonepathRecursive fuel (dirname s) (dirname donor)
          if retval = some 0 then tryMkdir fuel s donor st else .ret retval
        | .error _ => .ret (some (-1)) : Code (Option ℤ)) fs
      fun es _ => Keeping p abs xs b es := by
  have hs' := hs.parent (Or.inr (Or.inr (List.cons_ne_nil n' r)))
  have hrecurse : wp (Sys p deny) (do
        let retval ← recyclixClonepathRecursive fuel (dirname s) (dirname donor)
        if retval = some 0 then tryMkdir fuel s donor st else .ret retval : Code (Option ℤ)) fs
      fun es _ => Keeping p abs xs b es := by
    rw [wp_bind]
    refine wp_mono (hclone fs hl) fun es a fs' h => ?_
    split_ifs
    · refine wp_mono (hretry fs' h.2) fun es' _ fs'' h' => ⟨fun e he => ?_, h'.2⟩
      exact (List.mem_append.1 he).elim (h.1 e) (h'.1 e)
    · exact ⟨by rw [List.append_nil]; exact h.1, h.2⟩
  have hc : Below abs xs (.unlink (dirname s)) :=
    below_of_spells hs' (List.cons_ne_nil n' r) fun _ h => h
  have hb : ∀ l, descend fs.kindAt b r = .ok l → fs.Blocked l n' := fun l hl m hm =>
    hne m (by rw [descend_cons, hl]; exact hm)
  rcases unlinkEntry_of_blocked hl hs' hb with ⟨e, h⟩ | ⟨fs', h, hk⟩
  · refine wp_keeping_call h hc ?_ fun e _ => ?_ <;> cases e <;>
      first | exact hrecurse | exact wp_keeping_ret hl
  · refine wp_keeping_call h hc (hretry fs' (hl.keeps hk)) fun e _ => ?_
    cases e <;> first | exact hrecurse | exact wp_keeping_ret hl

/-- Cloning goes on below the directory, whichever of its calls are denied. -/
theorem wp_clone_keeping (hdeny : ∀ e, deny e = true → e.denial = true) (fuel : ℕ) :
    (∀ fs r s donor, r ≠ [] → Spells abs xs r s → FileSystem.Leads fs p abs xs b →
      wp (Sys p deny) (recyclixClonepathRecursive fuel s donor) fs fun es _ =>
        Keeping p abs xs b es) ∧
    ∀ fs r s donor st, r ≠ [] → Spells abs xs r s → FileSystem.Leads fs p abs xs b →
      wp (Sys p deny) (tryMkdir fuel s donor st) fs fun es _ => Keeping p abs xs b es := by
  induction fuel with
  | zero =>
    refine ⟨fun fs r s donor _ _ hl => ?_, fun fs r s donor st _ _ hl => ?_⟩
    · unfold recyclixClonepathRecursive
      exact wp_keeping_ret hl
    · unfold tryMkdir
      exact wp_keeping_ret hl
  | succ fuel ih =>
    refine ⟨fun fs r s donor hr hs hl => ?_, fun fs r s donor st hr hs hl => ?_⟩
    · have hx : exec p (.stat donor) fs = (fs.stat p donor, fs) := rfl
      rw [recyclixClonepathRecursive]
      refine wp_keeping_call hx (fun _ h => absurd h id) ?_ fun _ _ => wp_keeping_ret hl
      cases fs.stat p donor with
      | error e => exact wp_keeping_ret hl
      | ok st => exact ih.2 fs r s donor st hr hs hl
    · have hretry : ∀ fs' : FileSystem, fs'.Leads p abs xs b →
          wp (Sys p deny) (tryMkdir fuel s donor st) fs' fun es _ => Keeping p abs xs b es :=
        fun fs' hl' => ih.2 fs' r s donor st hr hs hl'
      have hc : Below abs xs (.mkdir s st.inode.mode) := below_of_spells hs hr fun _ h => h
      obtain ⟨n, r, rfl⟩ := List.exists_cons_of_ne_nil hr
      have hmk : exec p (.mkdir s st.inode.mode) fs = _ := mkdir_spells hl hs st.inode.mode
      rw [tryMkdir]
      cases hd : descend fs.kindAt b r with
      | error e =>
        rw [hd] at hmk
        have hmissing : wp (Sys p deny)
            (.call (.unlink (dirname s)) fun
              | .ok _ => tryMkdir fuel s donor st
              | .error .ENOENT => do
                let retval ← recyclixClonepathRecursive fuel (dirname s) (dirname donor)
                if retval = some 0 then tryMkdir fuel s donor st else .ret retval
              | .error _ => .ret (some (-1)) : Code (Option ℤ)) fs
            fun es _ => Keeping p abs xs b es := by
          cases r with
          | nil =>
            rw [descend_nil hl.isDir] at hd
            cases hd
          | cons n' r =>
            have hs' := hs.parent (Or.inr (Or.inr (List.cons_ne_nil n' r)))
            exact wp_keeping_missing hs hl (fun l hl => by rw [hd] at hl; cases hl) hretry
              fun fs' hl' => ih.1 fs' _ _ _ (List.cons_ne_nil n' r) hs' hl'
        refine wp_keeping_call hmk hc ?_ fun e he => ?_
        · cases e <;> first
            | exact hmissing
            | exact wp_keeping_exists hs hr hl hretry
            | exact wp_keeping_ret hl
        · have := hdeny e he
          cases e <;> first | exact absurd this (by decide) | exact wp_keeping_ret hl
      | ok l =>
        rw [hd] at hmk
        have hldir : fs.IsDir l := (descend_eq_ok.1 hd).2
        dsimp only at hmk
        by_cases hn : fs.dirent (n :: l) = none
        · have hk := keeps_addChild hldir hn (fs.newDir p l st.inode.mode)
          rw [if_pos hn] at hmk
          refine wp_keeping_call hmk hc (wp_keeping_chown hs hr (hl.keeps hk) _ _ _) fun e he => ?_
          have := hdeny e he
          cases e <;> first | exact absurd this (by decide) | exact wp_keeping_ret hl
        · rw [if_neg hn] at hmk
          refine wp_keeping_call hmk hc (wp_keeping_exists hs hr hl hretry) fun e he => ?_
          have := hdeny e he
          cases e <;> first | exact absurd this (by decide) | exact wp_keeping_ret hl

/-! ## The paths `unlinkat` starts the clone with -/

/-- The names below the mountpoint that are cloned: all of them for a directory, those of the
directory above for another file. -/
def cloneNames (isDir : Bool) (rel : Loc) : Loc := if isDir then rel else rel.tail

section Start

variable (hdir : dir ≠ [])

include hdir

theorem spells_clonePaths {isDir : Bool} {rel : Loc}
    (hs : Spells (isAbs dir) (segments dir) rel s) (hr : cloneNames isDir rel ≠ []) (fq : Str) :
    Spells (isAbs dir) (segments dir) (cloneNames isDir rel) (clonePaths isDir s fq).1 := by
  cases isDir with
  | true => exact hs
  | false =>
    cases rel with
    | nil => exact absurd rfl hr
    | cons n rel => exact hs.parent ((isAbs_or_segments hdir).imp_right Or.inl)

omit hdir in
theorem length_segments_dirname_le (hne : s ≠ []) :
    (segments (dirname s)).length ≤ (segments s).length := by
  rcases List.eq_nil_or_concat' (segments s) with h | ⟨xs, c, h⟩
  · have hsp : Spells true [] [] s :=
      ⟨h, isAbs_of_all_slash hne (stripSlashes_eq_nil_iff.1 (segments_eq_nil h)), fun _ => rfl⟩
    rw [hsp.parent_tail.segments]
    exact Nat.zero_le _
  · rw [h, List.length_append]
    by_cases hx : isAbs s = true ∨ xs ≠ []
    · rw [(segments_dirname h hx).1]
      exact Nat.le_add_right _ _
    · push Not at hx
      obtain ⟨ha, rfl⟩ := hx
      rw [dirname_of_single h (by simpa using ha)]
      exact (by decide : (segments ['.']).length ≤ 1)

/-- With no names below the recycler's directory the path is not inside. -/
theorem not_inside_clonePaths {isDir : Bool} {rel : Loc}
    (hs : Spells (isAbs dir) (segments dir) rel s) (hne : s ≠ []) (hr : cloneNames isDir rel = [])
    (fq : Str) : ¬ Inside dir (clonePaths isDir s fq).1 := by
  rintro ⟨-, t, ht, hseg⟩
  have hlen : (segments (clonePaths isDir s fq).1).length ≤ (segments dir).length := by
    cases isDir with
    | true =>
      obtain rfl : rel = [] := hr
      rw [clonePaths, if_pos rfl, hs.segments]
      simp
    | false =>
      cases rel with
      | nil =>
        have := hs.segments
        rw [List.reverse_nil, List.map_nil, List.append_nil] at this
        exact this ▸ length_segments_dirname_le hne
      | cons n rel =>
        obtain rfl : rel = [] := hr
        have := (hs.parent ((isAbs_or_segments hdir).imp_right Or.inl)).segments
        change (segments (dirname s)).length ≤ _
        rw [this]
        simp
  rw [hseg, List.length_append] at hlen
  exact ht (List.length_eq_zero_iff.1 (by omega))

end Start

theorem cloneNames_eq_nil_iff {isDir : Bool} {rel : Loc} (h : n :: l = rel ++ m) :
    cloneNames isDir rel = [] ↔ m = n :: l ∨ isDir = false ∧ m = l := by
  cases rel with
  | nil =>
    rw [List.nil_append] at h
    exact iff_of_true (by cases isDir <;> rfl) (Or.inl h.symm)
  | cons c rel =>
    rw [List.cons_append] at h
    obtain ⟨rfl, rfl⟩ := List.cons.inj h
    have hlen : ∀ {t : Loc}, m = t ++ m → t = [] := fun h => List.self_eq_append_left.1 h
    have hne : m ≠ n :: (rel ++ m) := fun h => List.cons_ne_nil n rel (hlen (t := n :: rel) h)
    cases isDir with
    | true => simp [cloneNames, hne]
    | false =>
      simp only [cloneNames, Bool.false_eq_true, if_false, List.tail_cons, hne, true_and, false_or]
      exact ⟨fun h => by rw [h, List.nil_append], hlen⟩

theorem Final.not_modifies {c : Call} (h : Final c) (s : Str) : ¬ Modifies c s := by
  cases c <;> first | exact id | exact absurd h id

theorem Query.not_modifies {c : Call} (h : Query c) (s : Str) : ¬ Modifies c s := by
  cases c <;> first | exact id | exact absurd h id

/-- The calls after the clone. -/
theorem only_afterClone (retval : Option ℤ) (recycled : Str) :
    (match retval with
      | none => .ret none
      | some retval =>
        if retval ≠ 0 then .ret (some (.plain retval))
        else if st1.isDir then realUnlink dirfd pathname flags
        else .call (.renameat dirfd pathname 0 recycled) fun r => .ret (some (.plain (retvalOf r))) :
      Code (Option Exit)).Only Final := by
  cases retval with
  | none => trivial
  | some retval =>
    dsimp only
    split_ifs
    · trivial
    · exact ⟨trivial, fun _ => trivial⟩
    · exact ⟨trivial, fun _ => trivial⟩

/-- With a name below the recycler's directory, recycling modifies nothing else. -/
theorem wp_recycle_inside {rel : Loc} {fq mp : Str} (hdir : dir ≠ [])
    (hdeny : ∀ e, deny e = true → e.denial = true)
    (hl : fs.Leads p (isAbs dir) (segments dir) b)
    (hs : Spells (isAbs dir) (segments dir) rel (recycledPath dir fq mp))
    (hr : cloneNames st1.isDir rel ≠ []) :
    wp (Sys p deny) (recycle fuel dirfd pathname flags st1 dir fq mp) fs fun es _ _ =>
      ∀ e ∈ es, ∀ s, Modifies e.call s → Inside dir s := by
  rw [recycle, wp_bind]
  refine wp_mono ((wp_clone_keeping hdeny fuel).1 fs _ _ _ hr (spells_clonePaths hdir hs hr fq) hl)
    fun es a fs' h => ?_
  have hes : ∀ e ∈ es, ∀ s, Modifies e.call s → Inside dir s := fun e he s hm => by
    obtain ⟨r, hr, hs⟩ := h.1 e he s hm
    exact .of_spells hs hr
  refine Only.wp (K := fun es _ => ∀ e ∈ es, ∀ s, Modifies e.call s → Inside dir s)
    (fun es' s c r s' hc _ hk => ?_) (only_afterClone a _) hes
  exact List.forall_mem_append.2 ⟨hk, List.forall_mem_singleton.2 fun t ht =>
    absurd ht (hc.not_modifies t)⟩

/-- The clone begins with its own path. -/
theorem mem_calls_clone (h : fs.stat p donor = .ok st) :
    .mkdir s st.inode.mode ∈ (recyclixClonepathRecursive (fuel + 2) s donor).calls (exec p) fs := by
  rw [recyclixClonepathRecursive, calls_call, exec, h]
  dsimp only
  rw [tryMkdir, calls_call]
  exact List.mem_cons_of_mem _ List.mem_cons_self

/-- Neither the real call nor the move changes modes or owners. -/
theorem inode_recycle {fq mp : Str} :
    ((recycle fuel dirfd pathname flags st1 dir fq mp).run (exec p) fs).2.inode =
      ((recyclixClonepathRecursive fuel (clonePaths st1.isDir (recycledPath dir fq mp) fq).1
        (clonePaths st1.isDir (recycledPath dir fq mp) fq).2).run (exec p) fs).2.inode := by
  rw [recycle, run_bind]
  generalize (recyclixClonepathRecursive fuel _ _).run (exec p) fs = c
  obtain ⟨_ | retval, fs'⟩ := c
  · rfl
  · dsimp only
    split_ifs
    · rfl
    · change (fs'.unlinkat p dirfd pathname flags).2.inode = fs'.inode
      rcases fs'.unlinkat_cases p dirfd pathname flags with ⟨e, h⟩ | ⟨l, n, -, -, -, h⟩ <;> rw [h]
      exact inode_erase _ _
    · change (fs'.renameat p dirfd pathname 0 _).2.inode = fs'.inode
      rcases fs'.renameat_cases p dirfd pathname 0 (recycledPath dir fq mp) with
        ⟨e, h⟩ | ⟨l, n, l', n', -, -, ⟨-, -, h⟩ | ⟨-, h⟩⟩ <;> rw [h]
      exact inode_move

/-! ## The recycler's directory -/

/-- The directories at and above `b` have the mode and owner they had. -/
def Untouched (fs fs' : FileSystem) (b : Loc) : Prop :=
  ∀ l o, l <:+ b → fs.objAt l = some o → fs'.inode o = fs.inode o

theorem untouched_dress_iff {st' : Stat} (hw : fs.IsDir w) (ho : fs.objAt w = some st'.obj)
    (hs : fs.stat p s = .ok st') (hd : fs.stat p donor = .ok st) :
    Untouched fs (dress fs st'.obj st) b ↔ (w <:+ b → SameMeta fs p s donor) := by
  have hi : fs.inode st'.obj = st'.inode := inode_of_stat hs
  have hsame : SameMeta fs p s donor ↔
      (⟨(fs.inode st'.obj).kind, st.inode.mode, st.inode.uid, st.inode.gid⟩ : Inode) =
        fs.inode st'.obj := by
    constructor
    · rintro ⟨st₁, st₂, h₁, h₂, hmode, huid, hgid⟩
      rw [hs] at h₁
      rw [hd] at h₂
      cases h₁
      cases h₂
      rw [hi, ← hmode, ← huid, ← hgid]
    · intro h
      rw [hi] at h
      exact ⟨st', st, hs, hd, (congrArg Inode.mode h).symm, (congrArg Inode.uid h).symm,
        (congrArg Inode.gid h).symm⟩
  rw [hsame]
  constructor
  · intro h hwb
    have := h w _ hwb ho
    rwa [inode_dress, if_pos rfl] at this
  · intro h l o' hlb ho'
    rw [inode_dress]
    split_ifs with e
    · subst e
      obtain rfl : w = l := hw.eq_of_objAt (ho.trans ho'.symm)
      exact h hlb
    · rfl

/-- Cloning changes a directory at or above the recycler's only when its path leads there already. -/
theorem untouched_clone_iff (hb : fs.Leads p abs xs b) (hs : Spells abs xs r s) (hne : s ≠ [])
    (hdonor : ∀ k, fs.DirPath p (dirname^[k] donor)) (hfuel : 3 * r.length + 3 ≤ fuel) :
    Untouched fs ((recyclixClonepathRecursive fuel s donor).run (exec p) fs).2 b ↔
      ∀ w, descend fs.kindAt b r = .ok w → w <:+ b → SameMeta fs p s donor := by
  cases hd : descend fs.kindAt b r with
  | ok w =>
    obtain ⟨donor_st, hdonor_st⟩ := (hdonor 0).stat
    have hdonor0 : fs.stat p donor = .ok donor_st := hdonor_st
    have hfuel' : 2 ≤ fuel := by omega
    obtain ⟨st', hst', ho, hrun⟩ := run_clone_dress hfuel' hs hne hb hd hdonor0
    rw [hrun]
    refine (untouched_dress_iff (descend_eq_ok.1 hd).2 ho hst' hdonor0).trans ?_
    exact ⟨fun h w' e => Except.ok.inj e ▸ h, fun h => h w rfl⟩
  | error e =>
    refine iff_of_true ?_ fun w h => by cases h
    rcases run_recyclixClonepathRecursive hs hne hb hdonor hfuel with
      ⟨-, ⟨q, r₁, r₂, hr, hq, -, hg⟩, -⟩ | ⟨-, ⟨e, he⟩ | ⟨hfs, -⟩⟩
    · intro l o _ ho
      obtain ⟨d, hd', rfl⟩ := Option.map_eq_some_iff.1 ho
      refine hg.inode d.obj (fs.ino_lt l d hd') fun hr₂ => ?_
      rw [hr, hr₂, List.nil_append, hq] at hd
      cases hd
    · cases he
    · rw [hfs]
      exact fun _ _ _ _ => rfl

/-- The donors are the entry, when it is a directory, and the directories above it. -/
theorem dirPath_donor (hst : fs.fstatat p dirfd pathname (statFlags flags) = .ok st1)
    (ht : fs.targetAt p dirfd pathname = .ok (.entry l n)) (s : Str) (k : ℕ) :
    fs.DirPath p (dirname^[k] (clonePaths st1.isDir s (entryPath l n)).2) := by
  have hl := isDir_of_targetAt ht
  cases hd : st1.isDir with
  | false => exact dirPath_dirname (spells_pathOf_name l n).parent_tail hl k
  | true =>
    refine dirPath_entryPath hl ?_ k
    have := statLoc_of_fstatat hst ht
    split_ifs at this
    · obtain ⟨w, hw, -⟩ := this
      exact ⟨w, hw⟩
    · exact ⟨_, descend_name_dir hl ((isDir_of_statLoc this).2 hd)⟩

/-- What recycling does to the paths outside of the recycler, and to its directory. -/
structure StaysInside (fs : FileSystem) (p : Process) (env : Env) (fuel : ℕ) (dirfd : ℤ)
    (pathname : Str) (flags : Flags) (st1 : Stat) (dir : Str) (b l : Loc) (n : Name) (m : Loc) :
    Prop where
  calls : ∀ c ∈ (unlinkat env fuel dirfd pathname flags).calls (exec p) fs, ∀ s, Modifies c s →
    Inside dir s
  /-- also when some of the calls are denied -/
  denied : ∀ deny : Errno → Bool, (∀ e, deny e = true → e.denial = true) →
    wp (Sys p deny) (recycle fuel dirfd pathname flags st1 dir (entryPath l n) (mountPath l n m)) fs
      fun es _ _ => ∀ e ∈ es, ∀ s, Modifies e.call s → Inside dir s
  untouched : Untouched fs ((unlinkat env fuel dirfd pathname flags).run (exec p) fs).2 b

/-- Cloning stays inside of the recycler exactly when
* the entry is not a mountpoint itself, nor a file in the directory that is the mountpoint;
* the cloned path does not lead back to the recycler or above it, to a directory that has another
  mode or owner. -/
theorem clone_stays_inside_iff {env : Env} {bin : Bin} {st2 : Stat}
    (hsel : env.Selects fs p pathname st1 bin st2)
    (hst : fs.fstatat p dirfd pathname (statFlags flags) = .ok st1)
    (ht : fs.targetAt p dirfd pathname = .ok (.entry l n))
    (hm : climb fs st1.obj.dev st2.obj.ino (n :: l) = some m)
    (hb : fs.Leads p (isAbs bin.dir) (segments bin.dir) b) (hfuel : enough l ≤ fuel) :
    StaysInside fs p env fuel dirfd pathname flags st1 bin.dir b l n m ↔
      m ≠ n :: l ∧ (st1.isDir = true ∨ m ≠ l) ∧
      ∀ rel w, n :: l = rel ++ m → descend fs.kindAt b (cloneNames st1.isDir rel) = .ok w → w <:+ b →
        SameMeta fs p
          (clonePaths st1.isDir (recycledPath bin.dir (entryPath l n) (mountPath l n m))
            (entryPath l n)).1
          (clonePaths st1.isDir (recycledPath bin.dir (entryPath l n) (mountPath l n m))
            (entryPath l n)).2 := by
  have hdir := ne_nil_of_stat hsel.eligible.stat
  obtain ⟨rel, hrel, hs⟩ := spells_recycledPath hdir (climb_suffix hm)
  have hne : recycledPath bin.dir (entryPath l n) (mountPath l n m) ≠ [] := by simp [recycledPath]
  have hdonor := dirPath_donor hst ht (recycledPath bin.dir (entryPath l n) (mountPath l n m))
  have hnames : (m ≠ n :: l ∧ (st1.isDir = true ∨ m ≠ l)) ↔ cloneNames st1.isDir rel ≠ [] := by
    rw [Ne, Ne, Ne, cloneNames_eq_nil_iff hrel, not_or, not_and, ← Bool.not_eq_true, imp_iff_not_or,
      not_not]
  have hlen : (cloneNames st1.isDir rel).length ≤ l.length + 1 := by
    have h := congrArg List.length hrel
    rw [List.length_cons, List.length_append] at h
    rw [cloneNames]
    split_ifs
    · omega
    · rw [List.length_tail]
      omega
  obtain ⟨cs, hcs, hcalls⟩ := calls_unlinkat_entry hsel hst ht hfuel
  have hrun := run_unlinkat_entry hsel hst ht hfuel
  rw [hm] at hcalls hrun
  dsimp only at hcalls hrun
  rw [enough] at hfuel
  rw [← and_assoc, hnames]
  by_cases hr : cloneNames st1.isDir rel = []
  · refine iff_of_false (fun h => ?_) fun h => h.1 hr
    obtain ⟨st, hstat⟩ := (hdonor 0).stat
    obtain ⟨fuel, rfl⟩ : ∃ f, fuel = f + 2 := ⟨fuel - 2, by omega⟩
    refine not_inside_clonePaths hdir hs hne hr (entryPath l n)
      (h.calls (.mkdir _ st.inode.mode) ?_ _ rfl)
    rw [hcalls, List.mem_append, recycle, calls_bind, List.mem_append]
    exact Or.inr (Or.inl (mem_calls_clone hstat))
  · have hs' := spells_clonePaths hdir hs hr (entryPath l n)
    have hs'ne : (clonePaths st1.isDir (recycledPath bin.dir (entryPath l n) (mountPath l n m))
        (entryPath l n)).1 ≠ [] := by
      obtain ⟨c, t, hct⟩ := List.exists_cons_of_ne_nil hr
      rw [hct] at hs'
      exact hs'.ne_nil
    have hin : ((unlinkat env fuel dirfd pathname flags).run (exec p) fs).2.inode = _ :=
      (congrArg (fun c => c.2.inode) hrun).trans inode_recycle
    have hunt := untouched_clone_iff hb hs' hs'ne hdonor (by omega : _ ≤ fuel)
    rw [Untouched, ← hin] at hunt
    have hdenied : ∀ deny : Errno → Bool, (∀ e, deny e = true → e.denial = true) →
        wp (Sys p deny) (recycle fuel dirfd pathname flags st1 bin.dir (entryPath l n)
          (mountPath l n m)) fs fun es _ _ => ∀ e ∈ es, ∀ s, Modifies e.call s → Inside bin.dir s :=
      fun deny hdeny => wp_recycle_inside hdir hdeny hb hs hr
    constructor
    · intro h
      refine ⟨hr, fun rel' w hrel' hw hwb => hunt.1 h.untouched w ?_ hwb⟩
      obtain rfl : rel = rel' := List.append_cancel_right (hrel.symm.trans hrel')
      exact hw
    · intro h
      refine ⟨?_, hdenied, hunt.2 fun w hw hwb => h.2 rel w hrel hw hwb⟩
      intro c hc s hm
      rw [hcalls, List.mem_append] at hc
      rcases hc with hc | hc
      · exact absurd hm ((hcs c hc).not_modifies s)
      · exact wp.calls (P := fun c => ∀ s, Modifies c s → Inside bin.dir s) (sys_exec p _)
          (hdenied (fun _ => false) fun e he => by cases he) c hc s hm

namespace Sample

/-- A bin for its owner only, and the file `/f`. -/
def privateTree : FileSystem :=
  ((FileSystem.bare ⟨1, 2⟩).addChild [] bin ⟨.dir, 0o700, 0, 0⟩).addChild [] f file

end Sample

/-- Removing a file in the root directory opens the bin to everyone. -/
theorem clone_changes_bin :
    ((unlink Sample.env 12 "/f".toList).run (exec Sample.process) Sample.privateTree).1 =
      some ⟨0, none⟩ ∧
    ¬ StaysInside Sample.privateTree Sample.process Sample.env 12 atFdcwd "/f".toList 0
      ⟨⟨1, 4⟩, Sample.file⟩ "/bin".toList [Sample.bin] [] Sample.f [] ∧
    inodeAt ((unlink Sample.env 12 "/f".toList).run (exec Sample.process) Sample.privateTree).2
      [Sample.bin] = some ⟨.dir, 0o755, 0, 0⟩ := by
  refine ⟨by decide +kernel, fun h => ?_, by decide +kernel⟩
  have hmem : Call.chmod "/bin".toList 0o755 ∈ (unlinkat Sample.env 12 atFdcwd "/f".toList 0).calls
      (exec Sample.process) Sample.privateTree := by decide +kernel
  obtain ⟨-, t, ht, hseg⟩ := h.calls _ hmem _ rfl
  exact ht (List.self_eq_append_right.1 hseg)

/-- A file one directory further down. -/
theorem clone_stays_inside_iff_fileTree :
    StaysInside Sample.fileTree Sample.process Sample.env 12 atFdcwd "/a//../a/f".toList 0
      ⟨⟨1, 5⟩, Sample.file⟩ "/bin".toList [Sample.bin] [Sample.a] Sample.f [] ↔
    ([] : Loc) ≠ [Sample.f, Sample.a] ∧
      (Stat.isDir ⟨⟨1, 5⟩, Sample.file⟩ = true ∨ ([] : Loc) ≠ [Sample.a]) ∧
      ∀ rel w, [Sample.f, Sample.a] = rel ++ [] →
        descend Sample.fileTree.kindAt [Sample.bin]
          (cloneNames (Stat.isDir ⟨⟨1, 5⟩, Sample.file⟩) rel) = .ok w → w <:+ [Sample.bin] →
        SameMeta Sample.fileTree Sample.process "/bin//a".toList "/a".toList :=
  clone_stays_inside_iff Sample.callsOn_file.selects Sample.callsOn_file.stat
    Sample.callsOn_file.names (by decide +kernel) ⟨by decide +kernel, by decide⟩ (by decide)

end YazzyPreload.Recyclix

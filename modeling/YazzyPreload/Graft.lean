import YazzyPreload.Descent

/-!
# Grafting directories

`Grafted fs fs' q r` says what making the directories along the names `r` under `q` does to a file
system: there is a new directory at every place on the way, and nothing else has changed, except
for the mode and owner of `q` when there was nothing to make.  What stood in the way at the first
place is gone; when it did not lead to a directory (`Blocked`), every directory that could be reached
before still can (`Grafted.keeps`).
-/

namespace YazzyPreload.FileSystem

variable {fs fs' fs'' : FileSystem} {q r l : Loc} {n : Name}

/-! ## Changes that keep directories -/

theorem keeps_addChild (h : fs.IsDir l) (hn : fs.dirent (n :: l) = none) (i : Inode) :
    Keeps fs.kindAt (fs.addChild l n i).kindAt := by
  have hk : ∀ l' k, fs.kindAt l' = some k → (fs.addChild l n i).kindAt l' = some k := by
    intro l' k hl'
    rw [kindAt_addChild h hn, if_neg, hl']
    rintro rfl
    rw [kindAt_eq_none_iff.2 hn] at hl'
    cases hl'
  exact Spares.keeps ⟨fun l' => hk l' _, fun m l' t _ ht => Or.inl (hk _ _ ht)⟩

/-- The name does not lead to a directory. -/
def Blocked (fs : FileSystem) (q : Loc) (n : Name) : Prop := ∀ m, descend fs.kindAt q [n] ≠ .ok m

theorem blocked_of_none (hq : fs.IsDir q) (hn : fs.dirent (n :: q) = none) : fs.Blocked q n := by
  intro m hm
  have := (descend_single_eq_ok.1 hm).1
  rw [step_name_none hq (kindAt_eq_none_iff.2 hn)] at this
  cases this

/-- `stat` finds something other than a directory. -/
theorem blocked_of_stat {m : Loc} {st : Stat}
    (hm : step fs.kindAt maxSymlinks q (.name n) = .ok m) (hst : fs.statLoc m = .ok st)
    (hd : ¬ st.isDir = true) : fs.Blocked q n := by
  intro m' hm'
  obtain ⟨hstep, hdm⟩ := descend_single_eq_ok.1 hm'
  rw [hm] at hstep
  cases hstep
  exact hd ((isDir_of_statLoc hst).1 hdm)

theorem Blocked.not_isDir (h : fs.Blocked q n) : ¬ fs.IsDir (n :: q) := fun hd =>
  h _ (descend_name_dir (isDir_of_child hd.dirent_ne_none) hd)

theorem Blocked.childless (h : fs.Blocked q n) : fs.childless (n :: q) = true :=
  childless_of_not_isDir h.not_isDir

theorem Blocked.kind_ne {d : Dent} (h : fs.Blocked q n) (hd : fs.dirent (n :: q) = some d) :
    (fs.inode d.obj).kind ≠ .dir := fun hk => h.not_isDir ((isDir_iff_kind hd).2 hk)

theorem Blocked.dirent_erase (h : fs.Blocked q n) (l : Loc) :
    (fs.erase (n :: q)).dirent l = if l = n :: q then none else fs.dirent l :=
  FileSystem.dirent_erase (List.cons_ne_nil n q) h.childless l

theorem Blocked.dirent_erase_self (h : fs.Blocked q n) :
    (fs.erase (n :: q)).dirent (n :: q) = none := by
  rw [h.dirent_erase, if_pos rfl]

theorem Blocked.not_isDir_of_suffix (h : fs.Blocked q n) {s : Loc} (hs : [n] <:+ s) :
    fs.dirent (s ++ q) ≠ none → s = [n] := by
  intro hd
  by_contra hne
  obtain ⟨t, rfl⟩ := hs
  refine h.not_isDir (isDir_of_suffix hd ⟨t, by simp⟩ fun e => hne ?_)
  have := congrArg List.length e
  simp only [List.length_append, List.length_cons, List.length_nil] at this
  rw [List.length_eq_zero_iff.1 (by omega : t.length = 0), List.nil_append]

theorem Blocked.chase (h : fs.Blocked q n) (hq : fs.IsDir q) {t : Str}
    (ht : fs.kindAt (n :: q) = some (.symlink t)) (m : Loc)
    (hm : YazzyPreload.chase fs.kindAt maxSymlinks q t = .ok m) : fs.kindAt m ≠ some .dir := by
  intro hd
  refine h m (descend_eq_ok.2 ⟨?_, hd⟩)
  rw [names_cons, names_nil, List.nil_append, walk_singleton, step_name_symlink hq ht, hm]

theorem keeps_erase (hq : fs.IsDir q) (h : fs.Blocked q n) :
    Keeps fs.kindAt (fs.erase (n :: q)).kindAt := by
  have hc := h.childless
  have hk : ∀ l', l' ≠ n :: q → (fs.erase (n :: q)).kindAt l' = fs.kindAt l' := by
    intro l' hl'
    rw [kindAt_erase (List.cons_ne_nil n q) hc, if_neg hl']
  refine Spares.keeps ⟨fun l' hl' => ?_, fun m l' t hl' ht => ?_⟩
  · rw [hk l' fun e => h.not_isDir (e ▸ hl'), hl']
  · by_cases e : m :: l' = n :: q
    · cases e
      exact Or.inr (h.chase hq ht)
    · exact Or.inl ((hk _ e).trans ht)

/-! ## Grafted directories -/

/-- There are new directories along the names `r` under `q`. -/
structure Grafted (fs fs' : FileSystem) (q r : Loc) : Prop where
  dirent : ∀ l, (∀ s, s ≠ [] → s <:+ r → l ≠ s ++ q) → fs'.dirent l = fs.dirent l
  made : ∀ s, s ≠ [] → s <:+ r → ∃ o, fs'.dirent (s ++ q) = some ⟨o, false⟩ ∧
    (fs'.inode o).kind = .dir ∧ fs.nextIno ≤ o.ino
  inode : ∀ o, o.ino < fs.nextIno → (r = [] → fs.objAt q ≠ some o) → fs'.inode o = fs.inode o
  kind : ∀ o, o.ino < fs.nextIno → (fs'.inode o).kind = (fs.inode o).kind
  nextIno : fs.nextIno ≤ fs'.nextIno

namespace Grafted

theorem refl (fs : FileSystem) (q : Loc) : fs.Grafted fs q [] where
  dirent _ _ := rfl
  made _ hs hs' := absurd (List.suffix_nil.1 hs') hs
  inode _ _ _ := rfl
  kind _ _ := rfl
  nextIno := le_rfl

theorem single (hq : fs.IsDir q) (hn : fs.dirent (n :: q) = none) {i : Inode} (hi : i.kind = .dir) :
    fs.Grafted (fs.addChild q n i) q [n] := by
  have hold : ∀ o : Obj, o.ino < fs.nextIno → (fs.addChild q n i).inode o = fs.inode o := by
    intro o ho
    rw [inode_addChild hq hn, if_neg]
    rintro rfl
    exact lt_irrefl _ ho
  refine ⟨fun l hl => ?_, fun s hs hs' => ?_, fun o ho _ => hold o ho, fun o ho => by rw [hold o ho],
    ?_⟩
  · rw [dirent_addChild_of_ne hq hn]
    exact hl [n] (List.cons_ne_nil n []) List.suffix_rfl
  · obtain rfl : s = [n] := by
      rcases List.suffix_cons_iff.1 hs' with e | e
      · exact e
      · exact absurd (List.suffix_nil.1 e) hs
    refine ⟨fs.newObj q, dirent_addChild_self hq hn i, ?_, le_rfl⟩
    rw [inode_addChild hq hn, if_pos rfl, hi]
  · rw [nextIno_addChild hq hn]
    exact Nat.le_succ _

/-- Changing the mode or owner of the last directory. -/
theorem adjust (h : fs.Grafted fs' q r) {o : Obj} (ho : fs'.objAt (r ++ q) = some o)
    (f : Inode → Inode) (hf : ∀ i, (f i).kind = i.kind) : fs.Grafted (fs'.adjust o f hf) q r := by
  have hkind : ∀ o', ((fs'.adjust o f hf).inode o').kind = (fs'.inode o').kind := by
    intro o'
    rw [inode_adjust]
    split_ifs
    · exact hf _
    · rfl
  refine ⟨h.dirent, fun s hs hs' => ?_, fun o' ho' hq => ?_, fun o' ho' => ?_, h.nextIno⟩
  · obtain ⟨o', hd, hk, hle⟩ := h.made s hs hs'
    exact ⟨o', hd, (hkind o').trans hk, hle⟩
  · rw [inode_adjust, if_neg, h.inode o' ho' hq]
    rintro rfl
    by_cases hr : r = []
    · subst hr
      refine hq rfl ?_
      rwa [objAt, ← h.dirent q fun s hs hs' => absurd (List.suffix_nil.1 hs') hs]
    · obtain ⟨o'', hd, -, hle⟩ := h.made r hr List.suffix_rfl
      rw [objAt, hd] at ho
      cases ho
      exact absurd ho' (Nat.not_lt.2 hle)
  · rw [hkind, h.kind o' ho']

theorem setMode (h : fs.Grafted fs' q r) {o : Obj} (ho : fs'.objAt (r ++ q) = some o) (m : Mode) :
    fs.Grafted (fs'.setMode o m) q r := h.adjust ho _ _

theorem setOwner (h : fs.Grafted fs' q r) {o : Obj} (ho : fs'.objAt (r ++ q) = some o)
    (uid gid : ℕ) : fs.Grafted (fs'.setOwner o uid gid) q r := h.adjust ho _ _

theorem objAt (h : fs.Grafted fs' q r) (hl : ∀ s, s ≠ [] → s <:+ r → l ≠ s ++ q) :
    fs'.objAt l = fs.objAt l := by
  rw [FileSystem.objAt, FileSystem.objAt, h.dirent l hl]

theorem kindAt (h : fs.Grafted fs' q r) (hl : ∀ s, s ≠ [] → s <:+ r → l ≠ s ++ q) :
    fs'.kindAt l = fs.kindAt l := by
  rw [FileSystem.kindAt, FileSystem.kindAt, h.dirent l hl]
  cases hd : fs.dirent l with
  | none => rfl
  | some d => rw [Option.map_some, Option.map_some, h.kind d.obj (fs.ino_lt l d hd)]

theorem isDir_made (h : fs.Grafted fs' q r) {s : Loc} (hs : s ≠ []) (hs' : s <:+ r) :
    fs'.IsDir (s ++ q) := by
  obtain ⟨o, hd, hk, -⟩ := h.made s hs hs'
  exact isDir_iff.2 ⟨_, hd, hk⟩

theorem isDir_base (h : fs.Grafted fs' q r) (hq : fs.IsDir q) : fs'.IsDir q := by
  rw [IsDir, h.kindAt, hq]
  intro s hs _ e
  exact hs (by simpa using e)

/-- The last of the directories is there. -/
theorem isDir_last (h : fs.Grafted fs' q r) (hq : fs.IsDir q) : fs'.IsDir (r ++ q) := by
  by_cases hr : r = []
  · rw [hr]
    exact (hr ▸ h).isDir_base hq
  · exact h.isDir_made hr List.suffix_rfl

/-- Going on from the last of some new directories. -/
theorem trans (h : fs.Grafted fs' q r) (hr : r ≠ []) {r' : Loc} (h' : fs'.Grafted fs'' (r ++ q) r') :
    fs.Grafted fs'' q (r' ++ r) := by
  obtain ⟨o₀, hd₀, -, hle₀⟩ := h.made r hr List.suffix_rfl
  have hold : ∀ o : Obj, o.ino < fs.nextIno → fs''.inode o = fs'.inode o := by
    intro o ho
    refine h'.inode o (lt_of_lt_of_le ho h.nextIno) fun _ e => ?_
    rw [FileSystem.objAt, hd₀] at e
    cases e
    exact absurd ho (Nat.not_lt.2 hle₀)
  refine ⟨fun l hl => ?_, fun s hs hs' => ?_, fun o ho _ => ?_, fun o ho => ?_,
    h.nextIno.trans h'.nextIno⟩
  · rw [h'.dirent, h.dirent]
    · exact fun s hs hs' => hl s hs (hs'.trans (List.suffix_append r' r))
    · intro s hs hs'
      rw [← List.append_assoc]
      refine hl (s ++ r) (by simp [hs]) ?_
      exact (List.suffix_append_inj_of_length_eq rfl).2 ⟨hs', rfl⟩
  · by_cases hsr : s <:+ r
    · obtain ⟨o, hd, hk, hle⟩ := h.made s hs hsr
      have hlt : o.ino < fs'.nextIno := fs'.ino_lt _ _ hd
      refine ⟨o, ?_, ?_, hle⟩
      · rw [h'.dirent, hd]
        intro t ht _ e
        have hlen := congrArg List.length e
        have := hsr.length_le
        have := List.length_pos_iff.2 ht
        simp only [List.length_append] at hlen
        omega
      · rw [h'.kind o hlt, hk]
    · obtain ⟨t, ht⟩ : ∃ t, s = t ++ r := by
        have := List.suffix_or_suffix_of_suffix hs' (List.suffix_append r' r)
        rcases this with h1 | ⟨t, h1⟩
        · exact absurd h1 hsr
        · exact ⟨t, h1.symm⟩
      subst ht
      have htr : t <:+ r' := ((List.suffix_append_inj_of_length_eq rfl).1 hs').1
      have htne : t ≠ [] := by
        rintro rfl
        exact hsr List.suffix_rfl
      obtain ⟨o, hd, hk, hle⟩ := h'.made t htne htr
      exact ⟨o, by rw [List.append_assoc]; exact hd, hk, h.nextIno.trans hle⟩
  · rw [hold o ho, h.inode o ho fun e => absurd e hr]
  · rw [hold o ho, h.kind o ho]

/-- What stood in the way at the first place may be removed before. -/
theorem of_erase {s : Loc} (hc : fs.childless (n :: q) = true)
    (h : (fs.erase (n :: q)).Grafted fs' q (s ++ [n])) : fs.Grafted fs' q (s ++ [n]) := by
  refine ⟨fun l hl => ?_, fun t ht ht' => ?_, fun o ho hr => ?_, fun o ho => ?_, ?_⟩
  · rw [h.dirent l hl, dirent_erase (List.cons_ne_nil n q) hc, if_neg]
    exact hl [n] (List.cons_ne_nil n []) (List.suffix_append s [n])
  · simpa only [nextIno_erase] using h.made t ht ht'
  · rw [h.inode o (by simpa only [nextIno_erase] using ho) fun e => absurd e (by simp), inode_erase]
  · rw [h.kind o (by simpa only [nextIno_erase] using ho), inode_erase]
  · simpa only [nextIno_erase] using h.nextIno

section Blocked

variable (h : fs.Grafted fs' q r) (hb : ∀ s n, r = s ++ [n] → fs.Blocked q n)

include hb

omit h in
theorem blocked_first {s : Loc} (hs : s ≠ []) (hs' : s <:+ r) :
    ∃ n, fs.Blocked q n ∧ [n] <:+ s := by
  rcases List.eq_nil_or_concat' s with rfl | ⟨t, n, rfl⟩
  · exact absurd rfl hs
  · obtain ⟨u, hu⟩ := hs'
    exact ⟨n, hb (u ++ t) n (by rw [← hu, List.append_assoc]), List.suffix_append t [n]⟩

omit h in
/-- There were no directories at the new places. -/
theorem not_isDir_before {s : Loc} (hs : s ≠ []) (hs' : s <:+ r) : ¬ fs.IsDir (s ++ q) := by
  intro hd
  obtain ⟨n, hbn, hns⟩ := blocked_first hb hs hs'
  obtain rfl := hbn.not_isDir_of_suffix hns (IsDir.dirent_ne_none hd)
  exact hbn.not_isDir hd

include h

theorem dirent_of_isDir (hl : fs.IsDir l) : fs'.dirent l = fs.dirent l :=
  h.dirent l fun _ hs hs' e => not_isDir_before hb hs hs' (e ▸ hl)

theorem spares (hq : fs.IsDir q) : Spares fs.kindAt fs'.kindAt := by
  refine ⟨fun l hl => ?_, fun m l t hl ht => ?_⟩
  · rw [h.kindAt fun _ hs hs' e => not_isDir_before hb hs hs' (e ▸ hl), hl]
  · by_cases hm : ∀ s, s ≠ [] → s <:+ r → m :: l ≠ s ++ q
    · exact Or.inl ((h.kindAt hm).trans ht)
    · push Not at hm
      obtain ⟨s, hs, hs', e⟩ := hm
      obtain ⟨n, hbn, hns⟩ := blocked_first hb hs hs'
      have hd : fs.dirent (s ++ q) ≠ none := by
        rw [← e]
        intro h0
        rw [kindAt_eq_none_iff.2 h0] at ht
        cases ht
      obtain rfl := hbn.not_isDir_of_suffix hns hd
      cases e
      exact Or.inr (hbn.chase hq ht)

/-- Directories can be reached as before. -/
theorem keeps (hq : fs.IsDir q) : Keeps fs.kindAt fs'.kindAt := (h.spares hb hq).keeps

/-- A directory is empty afterwards if it was, unless the new ones are in it. -/
theorem childless_iff (hl : fs.IsDir l) :
    fs'.childless l = true ↔ fs.childless l = true ∧ ¬ (q = l ∧ r ≠ []) := by
  simp only [FileSystem.childless_iff]
  constructor
  · intro hc
    refine ⟨fun c => ?_, ?_⟩
    · by_contra hne
      by_cases hreg : ∀ s, s ≠ [] → s <:+ r → c :: l ≠ s ++ q
      · exact hne ((h.dirent _ hreg).symm.trans (hc c))
      · push Not at hreg
        obtain ⟨s, hs, hs', e⟩ := hreg
        obtain ⟨o, ho, -⟩ := h.made s hs hs'
        rw [← e, hc c] at ho
        cases ho
    · rintro ⟨rfl, hr⟩
      obtain ⟨t, n, rfl⟩ := (List.eq_nil_or_concat' r).resolve_left hr
      obtain ⟨o, ho, -⟩ := h.made [n] (List.cons_ne_nil n []) (List.suffix_append t [n])
      rw [List.singleton_append, hc n] at ho
      cases ho
  · rintro ⟨hc, hq⟩ c
    rw [h.dirent, hc c]
    intro s hs hs' e
    cases s with
    | nil => exact hs rfl
    | cons c' s =>
      rw [List.cons_append] at e
      obtain ⟨rfl, rfl⟩ := List.cons.inj e
      by_cases hs0 : s = []
      · subst hs0
        exact hq ⟨rfl, fun hr => by simp [hr] at hs'⟩
      · exact not_isDir_before hb hs0 ((List.suffix_cons c s).trans hs') hl

end Blocked

end Grafted

end YazzyPreload.FileSystem

import YazzyPreload.Place

/-!
# Pathnames that meet no links

Without a symbolic link on its way a pathname leads to the place that its components spell, or
nowhere (`lookupAt_lexical`).  So the place does not depend on what else is in the file system, and
calls made at different times, with other changes in between, are about the same place.
-/

namespace YazzyPreload

/-- The place has a link. -/
def IsLink (v : View) (l : Loc) : Prop := ∃ t, v l = some (.symlink t)

instance (v : View) (l : Loc) : Decidable (IsLink v l) :=
  match h : v l with
  | some (.symlink t) => isTrue ⟨t, h⟩
  | none | some .dir | some (.reg _) | some .special =>
    isFalse fun ⟨t, ht⟩ => by rw [h] at ht; cases ht

/-- The place that one component spells. -/
def Comp.next (cur : Loc) : Comp → Loc
  | .here => cur
  | .up => cur.tail
  | .name n => n :: cur

/-- The place that the components spell. -/
def lexical (cur : Loc) (cs : List Comp) : Loc := cs.foldl Comp.next cur

/-- None of the places that the components spell one after the other is in `link`. -/
def Direct (link : Loc → Prop) : Loc → List Comp → Prop
  | _, [] => True
  | cur, c :: cs => ¬ link (c.next cur) ∧ Direct link (c.next cur) cs

instance Direct.decidable (link : Loc → Prop) [DecidablePred link] :
    ∀ cur cs, Decidable (Direct link cur cs)
  | _, [] => isTrue trivial
  | cur, c :: cs =>
    have := Direct.decidable link (c.next cur) cs
    inferInstanceAs (Decidable (_ ∧ _))

variable {link link' : Loc → Prop} {v : View} {d : ℕ} {cur l r : Loc} {n : Name} {c : Comp}
  {cs cs' : List Comp}

theorem lexical_append (cur : Loc) (cs cs' : List Comp) :
    lexical cur (cs ++ cs') = lexical (lexical cur cs) cs' := List.foldl_append

theorem lexical_concat (cur : Loc) (cs : List Comp) (c : Comp) :
    lexical cur (cs ++ [c]) = c.next (lexical cur cs) := lexical_append cur cs [c]

theorem lexical_names (cur r : Loc) : lexical cur (names r) = r ++ cur := by
  induction r with
  | nil => rfl
  | cons n r ih =>
    rw [names_cons, lexical_concat, ih]
    rfl

theorem Direct.append_iff :
    Direct link cur (cs ++ cs') ↔ Direct link cur cs ∧ Direct link (lexical cur cs) cs' := by
  induction cs generalizing cur with
  | nil => exact (and_iff_right trivial).symm
  | cons c cs ih => exact (and_congr_right fun _ => ih).trans (and_assoc).symm

theorem Direct.mono (h : Direct link cur cs) (hl : ∀ y, link' y → link y) : Direct link' cur cs := by
  induction cs generalizing cur with
  | nil => trivial
  | cons c cs ih => exact ⟨fun hc => h.1 (hl _ hc), ih h.2⟩

/-- Names meet the places above the one they spell. -/
theorem direct_names (h : ∀ y, y <:+ r ++ cur → ¬ link y) : Direct link cur (names r) := by
  induction r with
  | nil => trivial
  | cons n r ih =>
    rw [names_cons, Direct.append_iff, lexical_names]
    refine ⟨ih fun y hy => h y (hy.trans (List.suffix_cons n _)), ?_, trivial⟩
    exact h _ List.suffix_rfl

/-! ## Walking -/

theorem step_lexical (hc : ¬ IsLink v (c.next cur)) (h : step v d cur c = .ok l) :
    l = c.next cur := by
  have hcur := step_ok_dir h
  cases c with
  | here =>
    rw [step_here hcur] at h
    exact (Except.ok.inj h).symm
  | up =>
    rw [step_up hcur] at h
    exact (Except.ok.inj h).symm
  | name n =>
    cases hn : v (n :: cur) with
    | none =>
      rw [step_name_none hcur hn] at h
      cases h
    | some k =>
      rw [step_name_of_ne_symlink hcur hn fun t ht => hc ⟨t, ht ▸ hn⟩] at h
      exact (Except.ok.inj h).symm

theorem walk_lexical (hd : Direct (IsLink v) cur cs) (h : walk v d cur cs = .ok l) :
    l = lexical cur cs := by
  induction cs generalizing cur with
  | nil => exact (Except.ok.inj h).symm
  | cons c cs ih =>
    rw [walk_cons] at h
    cases hs : step v d cur c with
    | error e => rw [hs] at h; cases h
    | ok m =>
      rw [hs] at h
      obtain rfl := step_lexical hd.1 hs
      exact ih hd.2 h

theorem walk_lookupComps {s : Str} (hd : Direct (IsLink v) cur (comps s))
    (h : walk v maxSymlinks cur (lookupComps s) = .ok l) : l = lexical cur (comps s) := by
  rw [lookupComps] at h
  split_ifs at h
  · rw [walk_concat] at h
    cases hw : walk v maxSymlinks cur (comps s) with
    | error e => rw [hw] at h; cases h
    | ok m =>
      rw [hw] at h
      rw [(step_here_eq_ok.1 h).1]
      exact walk_lexical hd hw
  · rw [List.append_nil] at h
    exact walk_lexical hd h

/-! ## Calls -/

namespace FileSystem

variable {fs : FileSystem} {p : Process} {dirfd : ℤ} {s : Str} {follow : Bool}

theorem IsDir.above (h : fs.IsDir l) (hs : r <:+ l) : fs.IsDir r := by
  by_cases e : r = l
  · rwa [e]
  · exact isDir_of_suffix h.dirent_ne_none hs e

theorem targetAt_lexical (hb : base p dirfd s = .ok cur)
    (hd : Direct (IsLink fs.kindAt) cur (comps s)) (h : fs.targetAt p dirfd s = .ok (.entry l n)) :
    n :: l = lexical cur (comps s) := by
  obtain ⟨cur', ys, hb', hs, hw, -⟩ := targetAt_entry h
  obtain rfl := Except.ok.inj (hb.symm.trans hb')
  have hc : comps s = ys.map Comp.ofStr ++ [.name n] := by
    rw [comps, hs, List.map_append, List.map_singleton, Comp.ofStr_name]
  rw [hc, Direct.append_iff] at hd
  rw [hc, lexical_concat, ← walk_lexical hd.1 hw]
  rfl

theorem lookupAt_lexical (hb : base p dirfd s = .ok cur)
    (hd : Direct (IsLink fs.kindAt) cur (comps s)) (h : fs.lookupAt p dirfd s follow = .ok l) :
    l = lexical cur (comps s) := by
  rw [lookupAt] at h
  split_ifs at h with hne
  rw [hb, Except.bind, lookup, if_neg hne] at h
  split_ifs at h
  · exact walk_lookupComps hd h
  · cases ht : target fs.kindAt cur s with
    | error e => rw [ht] at h; cases h
    | ok t =>
      rw [ht] at h
      cases t with
      | entry d n =>
        dsimp only at h
        split_ifs at h
        rw [← Except.ok.inj h]
        refine targetAt_lexical hb hd ?_
        rw [targetAt, if_neg hne, hb]
        exact ht
      | _ => exact walk_lookupComps hd h

/-- What is looked up starts from a directory. -/
theorem isDir_of_lookupAt (hb : base p dirfd s = .ok cur) (hs : comps s ≠ [])
    (h : fs.lookupAt p dirfd s follow = .ok l) : fs.IsDir cur := by
  have hwalk : walk fs.kindAt maxSymlinks cur (lookupComps s) = .ok l → fs.IsDir cur := fun h => by
    obtain ⟨c, cs, hc⟩ := List.exists_cons_of_ne_nil hs
    rw [lookupComps, hc, List.cons_append, walk_cons] at h
    cases hstep : step fs.kindAt maxSymlinks cur c with
    | error e => rw [hstep] at h; cases h
    | ok m => exact step_ok_dir hstep
  rw [lookupAt] at h
  split_ifs at h with hne
  rw [hb, Except.bind, lookup, if_neg hne] at h
  split_ifs at h
  · exact hwalk h
  · cases ht : target fs.kindAt cur s with
    | error e => rw [ht] at h; cases h
    | ok t =>
      rw [ht] at h
      cases t with
      | entry d n =>
        obtain ⟨xs, -, hw, hd⟩ := target_eq_entry_iff.1 ht
        exact walk_ok_dir hw hd
      | _ => exact hwalk h

theorem exists_base_of_fstatat {flags : Flags} {st : Stat} (hs : comps s ≠ [])
    (h : fs.fstatat p dirfd s flags = .ok st) : ∃ cur, base p dirfd s = .ok cur := by
  cases hb : base p dirfd s with
  | ok cur => exact ⟨cur, rfl⟩
  | error e =>
    rw [fstatat] at h
    split_ifs at h with h₁ h₂
    · rw [h₂.1] at hs
      exact absurd rfl hs
    · rw [lookupAt, if_neg (fun h₀ => hs (by rw [h₀]; rfl)), hb] at h
      cases h

/-- The status is that of the place the pathname spells. -/
theorem fstatat_lexical {flags : Flags} {st : Stat} (hs : comps s ≠ [])
    (hb : base p dirfd s = .ok cur) (hd : Direct (IsLink fs.kindAt) cur (comps s))
    (h : fs.fstatat p dirfd s flags = .ok st) :
    fs.statLoc (lexical cur (comps s)) = .ok st ∧ fs.IsDir cur := by
  rw [fstatat] at h
  split_ifs at h with h₁ h₂
  · rw [h₂.1] at hs
    exact absurd rfl hs
  · cases hl : fs.lookupAt p dirfd s (flags &&& atSymlinkNofollow = 0) with
    | error e => rw [hl] at h; cases h
    | ok l =>
      rw [hl] at h
      refine ⟨?_, isDir_of_lookupAt hb hs hl⟩
      rw [← lookupAt_lexical hb hd hl]
      exact h

theorem stat_lexical {st : Stat} (hd : Direct (IsLink fs.kindAt) (start p (isAbs s)) (comps s))
    (h : fs.stat p s = .ok st) : fs.statLoc (lexical (start p (isAbs s)) (comps s)) = .ok st := by
  rw [stat] at h
  cases hl : fs.lookupAt p atFdcwd s true with
  | error e => rw [hl] at h; cases h
  | ok l =>
    rw [hl] at h
    rw [← lookupAt_lexical (base_atFdcwd p s) hd hl]
    exact h

/-! ## Plain pathnames -/

end FileSystem

open FileSystem

/-- The pathname goes by names only, and they spell the place `x`. -/
def Plainly (p : Process) (s : Str) (x : Loc) : Prop :=
  s ≠ [] ∧ ∃ r, comps s = names r ∧ x = r ++ start p (isAbs s)

section Plainly

variable {fs : FileSystem} {p : Process} {s : Str} {x : Loc}

theorem Plainly.spelled (h : Plainly p s x) : lexical (start p (isAbs s)) (comps s) = x := by
  obtain ⟨-, r, hc, rfl⟩ := h
  rw [hc, lexical_names]

theorem Plainly.direct (h : Plainly p s x) (hx : ∀ y, y <:+ x → ¬ link y) :
    Direct link (start p (isAbs s)) (comps s) := by
  obtain ⟨-, r, hc, rfl⟩ := h
  rw [hc]
  exact direct_names hx

theorem plainly_pathOf (p : Process) (l : Loc) : Plainly p (pathOf l) l := by
  have hs := spells_pathOf l
  refine ⟨hs.isAbs_ne_nil, l, hs.comps, ?_⟩
  rw [hs.isAbs, start, if_pos rfl, List.append_nil]

/-- Names after a plain pathname. -/
theorem Plainly.spells {dir : Str} {b : Loc} (h : Plainly p dir b) {r : Loc}
    (hs : Spells (isAbs dir) (segments dir) r s) (hne : s ≠ []) : Plainly p s (r ++ b) := by
  obtain ⟨-, r₀, hc, rfl⟩ := h
  refine ⟨hne, r ++ r₀, ?_, ?_⟩
  · rw [hs.comps, names_append, ← hc]
    rfl
  · rw [hs.isAbs, List.append_assoc]

/-- A plain pathname leads to its directory. -/
theorem Plainly.leads (h : Plainly p s x) (hx : fs.IsDir x) :
    fs.Leads p (isAbs s) (segments s) x := by
  obtain ⟨-, r, hc, rfl⟩ := h
  refine ⟨?_, hx⟩
  have hd : descend fs.kindAt (start p (isAbs s)) r = .ok (r ++ start p (isAbs s)) :=
    descend_of_dirs (hx.above (List.suffix_append r _)) fun t _ ht =>
      hx.above ((List.suffix_append_inj_of_length_eq rfl).2 ⟨ht, rfl⟩)
  change walk fs.kindAt maxSymlinks (start p (isAbs s)) (comps s) = _
  rw [hc]
  exact (descend_eq_ok.1 hd).1

end Plainly

end YazzyPreload

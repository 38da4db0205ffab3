import YazzyPreload.Recyclix.Unlinkat

/-!
# Which recycler is used

`Env.readItem` is what one item of `RECYCLER` says, read on its own; `Bin.Eligible` is the
condition under which its recycler takes a file.  The loop of `unlinkat` goes through the items
from left to right: `run_nextRecycler_eligible`, `run_nextRecycler_malformed` and
`run_nextRecycler_none` are its three ways to end, and `items_cases` says there are no others.
-/

namespace YazzyPreload.Recyclix

/-- A recycler as an item describes it. -/
structure Bin where
  dir : Str
  lim : Limits
  deriving DecidableEq

/-- What an item says. -/
inductive Reading
  | skipped
  | malformed
  | bin (b : Bin)
  deriving DecidableEq

/-- Reads an item: an empty one, or one in a home directory that is not known, is skipped. -/
def Env.readItem (env : Env) (pathname item : Str) : Reading :=
  let recycler := expandHome env.home item
  if recycler = [] then .skipped
  else
    match readOptions env.regcomp pathname (binOptions recycler) .initial with
    | none => .malformed
    | some lim => .bin ⟨binDir recycler, lim⟩

/-- The recycler takes the file with status `st1`; `st2` is the status of its directory. -/
structure Bin.Eligible (b : Bin) (fs : FileSystem) (p : Process) (st1 st2 : Stat) : Prop where
  stat : fs.stat p b.dir = .ok st2
  dev : st2.obj.dev = st1.obj.dev
  size : st1.isReg = true →
    b.lim.szMin ≤ st1.size ∧ (b.lim.szMax ≠ 0 → (st1.size : ℤ) ≤ b.lim.szMax)
  notExcluded : b.lim.excluded = false

/-- The loop goes on after the item. -/
def PassedOver (env : Env) (fs : FileSystem) (p : Process) (pathname : Str) (st1 : Stat)
    (item : Str) : Prop :=
  env.readItem pathname item = .skipped ∨
    ∃ b, env.readItem pathname item = .bin b ∧ ∀ st2, ¬ b.Eligible fs p st1 st2

theorem Limits.admits_iff (lim : Limits) (st : Stat) : lim.admits st.isReg st.size = true ↔
    (st.isReg = true → lim.szMin ≤ st.size ∧ (lim.szMax ≠ 0 → (st.size : ℤ) ≤ lim.szMax)) ∧
      lim.excluded = false := by
  simp only [admits, Bool.and_eq_true, Bool.not_eq_true', Bool.and_eq_false_iff,
    Bool.or_eq_false_iff, decide_eq_false_iff_not, Int.not_lt, gt_iff_lt]
  refine and_congr_left fun _ => ?_
  by_cases h : st.isReg = true
  · simp only [h, Bool.true_eq_false, false_or, true_imp_iff]
    refine and_congr_right fun _ => ?_
    by_cases h0 : lim.szMax = 0 <;> simp [h0]
  · simp [h]

variable {env : Env} {fs : FileSystem} {p : Process} {pathname : Str} {st1 : Stat}

/-! ## One item -/

theorem nextRecycler_skipped {item : Str} (items : List Str)
    (h : env.readItem pathname item = .skipped) :
    nextRecycler env pathname st1 (item :: items) = nextRecycler env pathname st1 items := by
  rw [nextRecycler]
  simp only [Env.readItem] at h
  split_ifs at h with h0
  · simp only [h0, if_true]
  · cases hr : readOptions env.regcomp pathname (binOptions (expandHome env.home item)) .initial <;>
      rw [hr] at h <;> cases h

theorem nextRecycler_malformed {item : Str} (items : List Str)
    (h : env.readItem pathname item = .malformed) :
    nextRecycler env pathname st1 (item :: items) = .ret (.exit ⟨-1, some .ECANCELED⟩) := by
  rw [nextRecycler]
  simp only [Env.readItem] at h
  split_ifs at h with h0
  cases hr : readOptions env.regcomp pathname (binOptions (expandHome env.home item)) .initial with
  | none => simp only [h0, if_false]
  | some lim => rw [hr] at h; cases h

/-- An item that is read makes one call, and is used if its recycler is eligible. -/
theorem nextRecycler_bin {item : Str} (items : List Str) {b : Bin}
    (h : env.readItem pathname item = .bin b) :
    nextRecycler env pathname st1 (item :: items) = .call (.stat b.dir) fun
      | .error _ => nextRecycler env pathname st1 items
      | .ok st2 =>
        if st2.obj.dev ≠ st1.obj.dev then nextRecycler env pathname st1 items
        else if b.lim.admits st1.isReg st1.size then .ret (.recycler b.dir st2.obj.ino)
        else nextRecycler env pathname st1 items := by
  rw [nextRecycler]
  simp only [Env.readItem] at h
  split_ifs at h with h0
  cases hr : readOptions env.regcomp pathname (binOptions (expandHome env.home item)) .initial with
  | none => rw [hr] at h; cases h
  | some lim =>
    rw [hr] at h
    cases h
    simp only [h0, if_false]
    congr 1
    funext r
    cases r <;> rfl

theorem run_nextRecycler_bin_eligible {item : Str} (items : List Str) {b : Bin} {st2 : Stat}
    (h : env.readItem pathname item = .bin b) (he : b.Eligible fs p st1 st2) :
    (nextRecycler env pathname st1 (item :: items)).run (exec p) fs =
      (.recycler b.dir st2.obj.ino, fs) := by
  have hadm := (b.lim.admits_iff st1).2 ⟨he.size, he.notExcluded⟩
  rw [nextRecycler_bin items h]
  simp [exec, he.stat, he.dev, hadm]

/-- The search goes on after a recycler that is not eligible. -/
theorem next_of_not_eligible {item : Str} (items : List Str) {b : Bin}
    (h : env.readItem pathname item = .bin b) (hne : ∀ st2, ¬ b.Eligible fs p st1 st2) :
    ∃ k, nextRecycler env pathname st1 (item :: items) = .call (.stat b.dir) k ∧
      k (exec p (.stat b.dir) fs).1 = nextRecycler env pathname st1 items := by
  refine ⟨_, nextRecycler_bin items h, ?_⟩
  rw [exec]
  cases hs : fs.stat p b.dir with
  | error e => rfl
  | ok st2 =>
    dsimp only
    split_ifs with hd ha
    · rfl
    · obtain ⟨hsize, hex⟩ := (b.lim.admits_iff st1).1 ha
      exact absurd ⟨hs, not_not.1 hd, hsize, hex⟩ (hne st2)
    · rfl

theorem run_nextRecycler_passedOver {item : Str} (items : List Str)
    (h : PassedOver env fs p pathname st1 item) :
    (nextRecycler env pathname st1 (item :: items)).run (exec p) fs =
      (nextRecycler env pathname st1 items).run (exec p) fs := by
  rcases h with h | ⟨b, h, hne⟩
  · rw [nextRecycler_skipped items h]
  · obtain ⟨k, hk, hnext⟩ := next_of_not_eligible items h hne
    rw [hk, Prog.run_call, hnext]
    rfl

theorem calls_nextRecycler_passedOver {item : Str} (items : List Str)
    (h : PassedOver env fs p pathname st1 item) : ∃ dirs : List Str,
    (nextRecycler env pathname st1 (item :: items)).calls (exec p) fs =
      dirs.map .stat ++ (nextRecycler env pathname st1 items).calls (exec p) fs := by
  rcases h with h | ⟨b, h, hne⟩
  · exact ⟨[], by rw [nextRecycler_skipped items h]; rfl⟩
  · obtain ⟨k, hk, hnext⟩ := next_of_not_eligible items h hne
    refine ⟨[b.dir], ?_⟩
    rw [hk, Prog.calls_call, hnext]
    rfl

/-! ## The whole list -/

theorem run_nextRecycler_append (pre items : List Str)
    (h : ∀ x ∈ pre, PassedOver env fs p pathname st1 x) :
    (nextRecycler env pathname st1 (pre ++ items)).run (exec p) fs =
      (nextRecycler env pathname st1 items).run (exec p) fs := by
  induction pre with
  | nil => rfl
  | cons x pre ih =>
    rw [List.cons_append, run_nextRecycler_passedOver _ (h x List.mem_cons_self)]
    exact ih fun y hy => h y (List.mem_cons_of_mem x hy)

theorem run_nextRecycler_eligible {items pre post : List Str} {item : Str} {b : Bin} {st2 : Stat}
    (hi : items = pre ++ item :: post) (h : ∀ x ∈ pre, PassedOver env fs p pathname st1 x)
    (hb : env.readItem pathname item = .bin b) (he : b.Eligible fs p st1 st2) :
    (nextRecycler env pathname st1 items).run (exec p) fs = (.recycler b.dir st2.obj.ino, fs) := by
  rw [hi, run_nextRecycler_append pre _ h, run_nextRecycler_bin_eligible post hb he]

theorem run_nextRecycler_malformed {items pre post : List Str} {item : Str}
    (hi : items = pre ++ item :: post) (h : ∀ x ∈ pre, PassedOver env fs p pathname st1 x)
    (hb : env.readItem pathname item = .malformed) :
    (nextRecycler env pathname st1 items).run (exec p) fs =
      (.exit ⟨-1, some .ECANCELED⟩, fs) := by
  rw [hi, run_nextRecycler_append pre _ h, nextRecycler_malformed post hb]
  rfl

theorem run_nextRecycler_none {items : List Str}
    (h : ∀ x ∈ items, PassedOver env fs p pathname st1 x) :
    (nextRecycler env pathname st1 items).run (exec p) fs = (.realUnlink, fs) := by
  have := run_nextRecycler_append items [] h
  rwa [List.append_nil] at this

theorem calls_nextRecycler_none {items : List Str}
    (h : ∀ x ∈ items, PassedOver env fs p pathname st1 x) : ∃ dirs : List Str,
    (nextRecycler env pathname st1 items).calls (exec p) fs = dirs.map .stat := by
  induction items with
  | nil => exact ⟨[], rfl⟩
  | cons x items ih =>
    obtain ⟨dirs, hd⟩ := calls_nextRecycler_passedOver items (h x List.mem_cons_self)
    obtain ⟨dirs', hd'⟩ := ih fun y hy => h y (List.mem_cons_of_mem x hy)
    exact ⟨dirs ++ dirs', by rw [hd, hd', List.map_append]⟩

/-- The items are all passed over, or there is a first one that is not. -/
theorem items_cases (items : List Str) :
    (∀ x ∈ items, PassedOver env fs p pathname st1 x) ∨
      ∃ pre item post, items = pre ++ item :: post ∧
        (∀ x ∈ pre, PassedOver env fs p pathname st1 x) ∧
        (env.readItem pathname item = .malformed ∨
          ∃ b st2, env.readItem pathname item = .bin b ∧ b.Eligible fs p st1 st2) := by
  induction items with
  | nil => exact Or.inl fun x hx => absurd hx List.not_mem_nil
  | cons x items ih =>
    by_cases hx : PassedOver env fs p pathname st1 x
    · rcases ih with hall | ⟨pre, item, post, rfl, hpre, hitem⟩
      · exact Or.inl (List.forall_mem_cons.2 ⟨hx, hall⟩)
      · exact Or.inr ⟨x :: pre, item, post, rfl, List.forall_mem_cons.2 ⟨hx, hpre⟩, hitem⟩
    · refine Or.inr ⟨[], x, items, rfl, fun y hy => absurd hy List.not_mem_nil, ?_⟩
      cases hr : env.readItem pathname x with
      | skipped => exact absurd (Or.inl hr) hx
      | malformed => exact Or.inl rfl
      | bin b =>
        by_contra hne
        push Not at hne
        exact hx (Or.inr ⟨b, hr, fun st2 he => hne.2 b st2 rfl he⟩)

/-! ## `unlinkat` -/

/-- The first eligible recycler. -/
structure Env.Selects (env : Env) (fs : FileSystem) (p : Process) (pathname : Str) (st1 : Stat)
    (b : Bin) (st2 : Stat) : Prop where
  item : ∃ recyclers pre item post, env.recycler = some recyclers ∧
    recyclers.splitOn ':' = pre ++ item :: post ∧
    (∀ x ∈ pre, PassedOver env fs p pathname st1 x) ∧ env.readItem pathname item = .bin b
  eligible : b.Eligible fs p st1 st2

theorem run_unlinkat_selects {b : Bin} {st2 : Stat} (h : env.Selects fs p pathname st1 b st2)
    {dirfd : ℤ} {flags : Flags} (hst : fs.fstatat p dirfd pathname (statFlags flags) = .ok st1)
    (fuel : ℕ) : (unlinkat env fuel dirfd pathname flags).run (exec p) fs =
      (dropFile fuel dirfd pathname flags st1 (.recycler b.dir st2.obj.ino)).run (exec p) fs := by
  obtain ⟨recyclers, pre, item, post, hr, hi, hpre, hb⟩ := h.item
  simp only [unlinkat, hr, Prog.run_call, exec, hst]
  rw [Prog.run_bind, run_nextRecycler_eligible hi hpre hb h.eligible]

/-- `unlinkat` uses the first item from the left whose recycler is eligible, each item being read
on its own; it stops with `ECANCELED` and without an effect at a malformed item before that; and
when every item is passed over it calls the real `unlinkat` once, with its own arguments, and
returns what that returns. -/
theorem unlinkat_uses_first_eligible {recyclers : Str} (hr : env.recycler = some recyclers)
    {dirfd : ℤ} {flags : Flags} (hst : fs.fstatat p dirfd pathname (statFlags flags) = .ok st1)
    (fuel : ℕ) :
    (∀ pre item post b st2, recyclers.splitOn ':' = pre ++ item :: post →
      (∀ x ∈ pre, PassedOver env fs p pathname st1 x) →
      env.readItem pathname item = .bin b → b.Eligible fs p st1 st2 →
      (unlinkat env fuel dirfd pathname flags).run (exec p) fs =
        (dropFile fuel dirfd pathname flags st1 (.recycler b.dir st2.obj.ino)).run (exec p) fs) ∧
    (∀ pre item post, recyclers.splitOn ':' = pre ++ item :: post →
      (∀ x ∈ pre, PassedOver env fs p pathname st1 x) →
      env.readItem pathname item = .malformed →
      (unlinkat env fuel dirfd pathname flags).run (exec p) fs =
        (some ⟨-1, some .ECANCELED⟩, fs)) ∧
    ((∀ x ∈ recyclers.splitOn ':', PassedOver env fs p pathname st1 x) →
      (unlinkat env fuel dirfd pathname flags).run (exec p) fs =
        (some (.plain (retvalOf (fs.unlinkat p dirfd pathname flags).1)),
          (fs.unlinkat p dirfd pathname flags).2) ∧
      ∃ dirs : List Str, (unlinkat env fuel dirfd pathname flags).calls (exec p) fs =
        .fstatat dirfd pathname (statFlags flags) :: dirs.map .stat ++
          [.unlinkat dirfd pathname flags]) := by
  have hrun : (unlinkat env fuel dirfd pathname flags).run (exec p) fs =
      (nextRecycler env pathname st1 (recyclers.splitOn ':') >>=
        dropFile fuel dirfd pathname flags st1).run (exec p) fs := by
    simp only [unlinkat, hr, Prog.run_call, exec, hst]
  have hcalls : (unlinkat env fuel dirfd pathname flags).calls (exec p) fs =
      .fstatat dirfd pathname (statFlags flags) ::
        (nextRecycler env pathname st1 (recyclers.splitOn ':') >>=
          dropFile fuel dirfd pathname flags st1).calls (exec p) fs := by
    simp only [unlinkat, hr, Prog.calls_call, exec, hst]
  rw [Prog.run_bind] at hrun
  rw [Prog.calls_bind] at hcalls
  refine ⟨fun pre item post b st2 hi hpre hb he => ?_, fun pre item post hi hpre hb => ?_,
    fun hall => ⟨?_, ?_⟩⟩
  · exact run_unlinkat_selects ⟨⟨recyclers, pre, item, post, hr, hi, hpre, hb⟩, he⟩ hst fuel
  · rw [hrun, run_nextRecycler_malformed hi hpre hb]
    rfl
  · rw [hrun, run_nextRecycler_none hall]
    rfl
  · obtain ⟨dirs, hd⟩ := calls_nextRecycler_none hall
    refine ⟨dirs, ?_⟩
    rw [hcalls, hd, run_nextRecycler_none hall]
    rfl

theorem unlinkat_uses_first_eligible_fileTree :
    (unlinkat Sample.env 9 atFdcwd "/a/f".toList 0).run (exec Sample.process) Sample.fileTree =
      (dropFile 9 atFdcwd "/a/f".toList 0 ⟨⟨1, 5⟩, Sample.file⟩
        (.recycler "/bin".toList 3)).run (exec Sample.process) Sample.fileTree :=
  (unlinkat_uses_first_eligible (show Sample.env.recycler = some "/bin".toList from rfl)
    (by decide +kernel) 9).1 []
    "/bin".toList [] ⟨"/bin".toList, .initial⟩ ⟨⟨1, 3⟩, Sample.dir⟩ (by decide +kernel)
    (fun x hx => absurd hx List.not_mem_nil) (by decide +kernel)
    ⟨by decide +kernel, rfl, by decide +kernel, rfl⟩

end YazzyPreload.Recyclix

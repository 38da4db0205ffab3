import YazzyPreload.Recyclix.Recycle

/-!
# The pathname in the recycler identifies the entry

`destination` is the pathname `unlinkat` puts together for a call.  Its components are those of the
recycler's directory and the names that lead to the entry from the place its device is mounted at,
so that with one place for each device no two entries share one (`destination_eq_iff`).
-/

namespace YazzyPreload.Recyclix

open FileSystem Prog

variable {fs : FileSystem} {l l' m : Loc} {n : Name} {dev rino : ℕ}

/-! ## Devices -/

/-- The entry is on another device than the directory it is in, or is the root directory. -/
def MountRoot (fs : FileSystem) (l : Loc) : Prop :=
  fs.dirent l ≠ none ∧ (l ≠ [] → (fs.objAt l.tail).map Obj.dev ≠ (fs.objAt l).map Obj.dev)

/-- Each device is mounted at one place. -/
def OnePlace (fs : FileSystem) : Prop :=
  ∀ l l', MountRoot fs l → MountRoot fs l' →
    (fs.objAt l).map Obj.dev = (fs.objAt l').map Obj.dev → l = l'

theorem dirent_ne_none_of_dev (h : (fs.objAt l).map Obj.dev = some dev) : fs.dirent l ≠ none := by
  intro h0
  rw [objAt, h0] at h
  cases h

/-- The search ends at the place where the device of the entry is mounted. -/
theorem mountRoot_of_climb (hdev : (fs.objAt l).map Obj.dev = some dev)
    (h : climb fs dev rino l = some m) :
    MountRoot fs m ∧ (fs.objAt m).map Obj.dev = some dev := by
  induction l with
  | nil =>
    cases h
    exact ⟨⟨dirent_ne_none_of_dev hdev, fun hne => absurd rfl hne⟩, hdev⟩
  | cons n l ih =>
    rw [climb] at h
    split_ifs at h with _ h'
    · exact ih h' h
    · cases h
      exact ⟨⟨dirent_ne_none_of_dev hdev, fun _ => by rwa [hdev]⟩, hdev⟩

/-! ## The pathname -/

/-- The value of `recycled`, when `unlinkat` comes to it: the directory of the recycler, and what
follows the mountpoint in the full pathname. -/
def destination (fs : FileSystem) (p : Process) (fuel : ℕ) (dirfd : ℤ) (pathname : Str)
    (st1 st2 : Stat) (dir : Str) : Option Str :=
  match ((locate fuel dirfd pathname st1 st2.obj.ino).run (exec p) fs).1 with
  | some (.mountpoint fqpath mp_path) => some (recycledPath dir fqpath mp_path)
  | _ => none

/-- A call of `unlinkat` with a pathname that names the entry `n :: l`, for which the recycler `b`
is used. -/
structure CallsOn (fs : FileSystem) (p : Process) (env : Env) (dirfd : ℤ) (pathname : Str)
    (flags : Flags) (st1 : Stat) (b : Bin) (st2 : Stat) (l : Loc) (n : Name) : Prop where
  stat : fs.fstatat p dirfd pathname (statFlags flags) = .ok st1
  selects : env.Selects fs p pathname st1 b st2
  names : fs.targetAt p dirfd pathname = .ok (.entry l n)
  /-- the entry is on the file system of the recycler -/
  dev : (fs.objAt (n :: l)).map Obj.dev = some st2.obj.dev

section Call

variable {p : Process} {env : Env} {fuel : ℕ} {dirfd : ℤ} {pathname : Str} {flags : Flags}
  {st1 st2 : Stat} {b : Bin} {s : Str}

/-- What follows the directory of the recycler are the names below the mountpoint. -/
theorem CallsOn.segments_destination (h : CallsOn fs p env dirfd pathname flags st1 b st2 l n)
    (hfuel : enough l ≤ fuel)
    (hs : destination fs p fuel dirfd pathname st1 st2 b.dir = some s) :
    ∃ m r, MountRoot fs m ∧ (fs.objAt m).map Obj.dev = some st2.obj.dev ∧ n :: l = r ++ m ∧
      segments s = segments b.dir ++ r.reverse.map Subtype.val := by
  rw [destination, run_locate h.names hfuel, located] at hs
  have hdev : st1.obj.dev = st2.obj.dev := h.selects.eligible.dev.symm
  cases hm : climb fs st1.obj.dev st2.obj.ino (n :: l) with
  | none =>
    rw [hm] at hs
    cases hs
  | some m =>
    rw [hm] at hs
    cases hs
    obtain ⟨r, hr, hsp⟩ := spells_recycledPath (ne_nil_of_stat h.selects.eligible.stat)
      (climb_suffix hm)
    rw [hdev] at hm
    obtain ⟨hroot, hmdev⟩ := mountRoot_of_climb h.dev hm
    exact ⟨m, r, hroot, hmdev, hr, hsp.segments⟩

/-- The pathname is the one `unlinkat` goes on with. -/
theorem CallsOn.run_unlinkat (h : CallsOn fs p env dirfd pathname flags st1 b st2 l n)
    (hfuel : enough l ≤ fuel)
    (hs : destination fs p fuel dirfd pathname st1 st2 b.dir = some s) :
    ∃ fqpath mp_path, s = recycledPath b.dir fqpath mp_path ∧
      (unlinkat env fuel dirfd pathname flags).run (exec p) fs =
        (recycle fuel dirfd pathname flags st1 b.dir fqpath mp_path).run (exec p) fs := by
  rw [run_unlinkat_entry h.selects h.stat h.names hfuel]
  rw [destination, run_locate h.names hfuel, located] at hs
  cases hm : climb fs st1.obj.dev st2.obj.ino (n :: l) with
  | none =>
    rw [hm] at hs
    cases hs
  | some m =>
    rw [hm] at hs
    cases hs
    exact ⟨_, _, rfl, rfl⟩

end Call

theorem names_injective : Function.Injective fun r : Loc => r.reverse.map Subtype.val :=
  (List.map_injective_iff.2 Subtype.val_injective).comp List.reverse_injective

/-- Two calls on entries of the recycler's file system compute pathnames with the same components
if and only if they name the same entry. -/
theorem destination_eq_iff (hone : OnePlace fs) {b : Bin} {st2 : Stat}
    {p₁ p₂ : Process} {env₁ env₂ : Env} {dirfd₁ dirfd₂ : ℤ} {pathname₁ pathname₂ : Str}
    {flags₁ flags₂ : Flags} {st₁ st₂ : Stat} {l₁ l₂ : Loc} {n₁ n₂ : Name} {s₁ s₂ : Str}
    {fuel₁ fuel₂ : ℕ}
    (h₁ : CallsOn fs p₁ env₁ dirfd₁ pathname₁ flags₁ st₁ b st2 l₁ n₁)
    (h₂ : CallsOn fs p₂ env₂ dirfd₂ pathname₂ flags₂ st₂ b st2 l₂ n₂)
    (hfuel₁ : enough l₁ ≤ fuel₁) (hfuel₂ : enough l₂ ≤ fuel₂)
    (hs₁ : destination fs p₁ fuel₁ dirfd₁ pathname₁ st₁ st2 b.dir = some s₁)
    (hs₂ : destination fs p₂ fuel₂ dirfd₂ pathname₂ st₂ st2 b.dir = some s₂) :
    segments s₁ = segments s₂ ↔ n₁ :: l₁ = n₂ :: l₂ := by
  obtain ⟨m₁, r₁, hm₁, hd₁, hr₁, hseg₁⟩ := h₁.segments_destination hfuel₁ hs₁
  obtain ⟨m₂, r₂, hm₂, hd₂, hr₂, hseg₂⟩ := h₂.segments_destination hfuel₂ hs₂
  obtain rfl : m₁ = m₂ := hone m₁ m₂ hm₁ hm₂ (hd₁.trans hd₂.symm)
  rw [hseg₁, hseg₂, hr₁, hr₂, List.append_cancel_left_eq, List.append_cancel_right_eq]
  exact names_injective.eq_iff

namespace Sample

/-- Everything is on one device. -/
theorem onePlace_fileTree : OnePlace fileTree := by
  have hdev : ∀ l ∈ fileTree.locs, l = [] ∨
      (fileTree.objAt l.tail).map Obj.dev = (fileTree.objAt l).map Obj.dev := by decide
  have hroot : ∀ l, MountRoot fileTree l → l = [] := fun l hl =>
    (hdev l (fileTree.mem_locs l hl.1)).elim id fun h => by_contra fun hne => hl.2 hne h
  exact fun l l' hl hl' _ => (hroot l hl).trans (hroot l' hl').symm

theorem callsOn_file : CallsOn fileTree process env atFdcwd "/a//../a/f".toList 0
    ⟨⟨1, 5⟩, file⟩ ⟨"/bin".toList, .initial⟩ ⟨⟨1, 3⟩, dir⟩ [a] f :=
  ⟨by decide +kernel, ⟨⟨"/bin".toList, [], "/bin".toList, [], rfl, by decide +kernel,
    fun x hx => absurd hx List.not_mem_nil, by decide +kernel⟩,
    ⟨by decide +kernel, rfl, by decide +kernel, rfl⟩⟩, by decide +kernel, by decide +kernel⟩

/-- The same file, named from the current directory. -/
theorem callsOn_relative : CallsOn fileTree process env atFdcwd "a/./f".toList 0
    ⟨⟨1, 5⟩, file⟩ ⟨"/bin".toList, .initial⟩ ⟨⟨1, 3⟩, dir⟩ [a] f :=
  ⟨by decide +kernel, ⟨⟨"/bin".toList, [], "/bin".toList, [], rfl, by decide +kernel,
    fun x hx => absurd hx List.not_mem_nil, by decide +kernel⟩,
    ⟨by decide +kernel, rfl, by decide +kernel, rfl⟩⟩, by decide +kernel, by decide +kernel⟩

theorem callsOn_dir : CallsOn fileTree process env atFdcwd "a".toList atRemovedir
    ⟨⟨1, 4⟩, dir⟩ ⟨"/bin".toList, .initial⟩ ⟨⟨1, 3⟩, dir⟩ [] a :=
  ⟨by decide +kernel, ⟨⟨"/bin".toList, [], "/bin".toList, [], rfl, by decide +kernel,
    fun x hx => absurd hx List.not_mem_nil, by decide +kernel⟩,
    ⟨by decide +kernel, rfl, by decide +kernel, rfl⟩⟩, by decide +kernel, by decide +kernel⟩

end Sample

/-- Two spellings of one entry, and another entry. -/
theorem destination_eq_iff_fileTree :
    (∃ s₁ s₂,
      destination Sample.fileTree Sample.process 12 atFdcwd "/a//../a/f".toList
        ⟨⟨1, 5⟩, Sample.file⟩ ⟨⟨1, 3⟩, Sample.dir⟩ "/bin".toList = some s₁ ∧
      destination Sample.fileTree Sample.process 12 atFdcwd "a/./f".toList
        ⟨⟨1, 5⟩, Sample.file⟩ ⟨⟨1, 3⟩, Sample.dir⟩ "/bin".toList = some s₂ ∧
      segments s₁ = segments s₂) ∧
    (segments "/bin/a/f".toList = segments "/bin//a".toList ↔ [Sample.f, Sample.a] = [Sample.a]) := by
  constructor
  · refine ⟨"/bin/a/f".toList, "/bin/a/f".toList, by decide +kernel, by decide +kernel, ?_⟩
    exact (destination_eq_iff Sample.onePlace_fileTree Sample.callsOn_file Sample.callsOn_relative
      (show enough [Sample.a] ≤ 12 by decide) (show enough [Sample.a] ≤ 12 by decide)
      (by decide +kernel) (by decide +kernel)).2 rfl
  · exact destination_eq_iff Sample.onePlace_fileTree Sample.callsOn_file Sample.callsOn_dir
      (show enough [Sample.a] ≤ 12 by decide) (show enough [] ≤ 12 by decide) (by decide +kernel)
      (by decide +kernel)

end YazzyPreload.Recyclix

import YazzyPreload.Checked
import YazzyPreload.Recyclix.Unlinkat

/-!
# The buffers of `recyclix.c`

The functions of `recyclix.c` again, now with the strings they store in buffers of `_POSIX_PATH_MAX`
bytes.  A string that does not fit with its terminator ends the program: what the machine does then
is not defined.  `checks_unlinkat` says that this is all that is new, `Bounded.BuffersHold` that it
does not happen.
-/

namespace YazzyPreload.Recyclix

/-- `_POSIX_PATH_MAX`. -/
def posixPathMax : ℕ := 256

/-- The fixed buffers of `unlinkat` and `recyclix_clonepath_recursive`. -/
inductive Buffer
  | recycler | recycled | atdir | fqpath | mp_path | path | donor
  deriving DecidableEq

/-- The string and its terminator fit in a buffer. -/
def Fits (s : Str) : Prop := s.length + 1 ≤ posixPathMax

instance (s : Str) : Decidable (Fits s) := inferInstanceAs (Decidable (_ ≤ _))

/-- Calls are answered as `exec` says, but `getcwd` gets a buffer and reports `ERANGE` when the
pathname does not fit in it. -/
def execIn (p : Process) : Handler Call Call.Answer FileSystem
  | .getcwd, fs =>
    match fs.getcwd p with
    | .ok s => (if Fits s then .ok s else .error .ERANGE, fs)
    | .error e => (.error e, fs)
  | c, fs => exec p c fs

/-- Programs that end where a string does not fit. -/
abbrev BoundedCode (α : Type) : Type := Code (Except Buffer α)

namespace Bounded

open Prog

/-- Stores a string and its terminator. -/
def store {α : Type} (b : Buffer) (s : Str) (q : BoundedCode α) :
    BoundedCode α := require (Fits s) b q

/-! ## Cloning a directory path -/

mutual

/-- `recyclix_clonepath_recursive`. -/
def recyclixClonepathRecursive : ℕ → Str → Str → BoundedCode (Option ℤ)
  | 0, _, _ => .ret (.ok none)
  | fuel + 1, p_path, p_donor =>
    .call (.stat p_donor) fun
      | .error _ => .ret (.ok (some (-1)))
      | .ok donor_st => tryMkdir fuel p_path p_donor donor_st

/-- The part of `recyclix_clonepath_recursive` from the label `try_mkdir` on. -/
def tryMkdir : ℕ → Str → Str → Stat → BoundedCode (Option ℤ)
  | 0, _, _, _ => .ret (.ok none)
  | fuel + 1, p_path, p_donor, donor_st =>
    let chownAndReturn : BoundedCode (Option ℤ) :=
      .call (.chown p_path donor_st.inode.uid donor_st.inode.gid) fun _ => .ret (.ok (some 0))
    let missingParent : BoundedCode (Option ℤ) :=
      store .path p_path <|
      store .donor p_donor <|
      .call (.unlink (dirname p_path)) fun
        | .ok _ => tryMkdir fuel p_path p_donor donor_st
        | .error .ENOENT =>
          andThen (recyclixClonepathRecursive fuel (dirname p_path) (dirname p_donor)) fun retval =>
            if retval = some 0 then tryMkdir fuel p_path p_donor donor_st else .ret (.ok retval)
        | .error _ => .ret (.ok (some (-1)))
    .call (.mkdir p_path donor_st.inode.mode) fun
      | .ok _ => chownAndReturn
      | .error .ENOENT => missingParent
      | .error .ENOTDIR => missingParent
      | .error .EEXIST =>
        .call (.stat p_path) fun
          | .error _ => .ret (.ok (some (-1)))
          | .ok st =>
            if st.isDir then .call (.chmod p_path donor_st.inode.mode) fun _ => chownAndReturn
            else
              .call (.unlink p_path) fun
                | .ok _ => tryMkdir fuel p_path p_donor donor_st
                | .error _ => .ret (.ok (some (-1)))
      | .error _ => .ret (.ok (some (-1)))

end

/-! ## Choosing a recycler -/

/-- The text that an option has copied to `mp_path`. -/
def copied : Opt → Str
  | .size .. => []
  | .exclude pattern => pattern

/-- The loop over the options of an item. -/
def readOptions (regcomp : Regcomp) (pathname : Str) :
    List Str → Limits → Except Buffer (Option Limits)
  | [], lim => .ok (some lim)
  | [[]], lim => .ok (some lim)
  | o :: os, lim =>
    match recognizeOption o with
    | none => .ok none
    | some opt =>
      if Fits (copied opt) then
        match lim.apply regcomp pathname opt with
        | none => .ok none
        | some lim => readOptions regcomp pathname os lim
      else .error .mp_path

/-- The loop over the items of `RECYCLER`.  An item is stored as it is, and once more with the home
directory when it starts with `~/`. -/
def nextRecycler (env : Env) (pathname : Str) (st1 : Stat) : List Str → BoundedCode Choice
  | [] => .ret (.ok .realUnlink)
  | item :: items =>
    let recycler := expandHome env.home item
    store .recycler item <|
    store .recycler recycler <|
    if recycler = [] then nextRecycler env pathname st1 items
    else
      match readOptions env.regcomp pathname (binOptions recycler) .initial with
      | .error b => .ret (.error b)
      | .ok none => .ret (.ok (.exit ⟨-1, some .ECANCELED⟩))
      | .ok (some lim) =>
        .call (.stat (binDir recycler)) fun
          | .error _ => nextRecycler env pathname st1 items
          | .ok st2 =>
            if st2.obj.dev ≠ st1.obj.dev then nextRecycler env pathname st1 items
            else if lim.admits st1.isReg st1.size then
              .ret (.ok (.recycler (binDir recycler) st2.obj.ino))
            else nextRecycler env pathname st1 items

/-! ## Locating the file -/

/-- The link that stands for a descriptor. -/
def fdPath (dirfd : ℤ) : Str :=
  "/proc/self/fd/".toList ++ (if dirfd < 0 then ['-'] else []) ++ Nat.toDigits 10 dirfd.natAbs

/-- The pathname with the directory it is relative to.  `readlink` gives at most the size of the
buffer, and the terminator comes after that. -/
def fullPath (dirfd : ℤ) (pathname : Str) : BoundedCode (Except Exit (Str × ℤ)) :=
  if isAbs pathname then store .fqpath pathname <| .ret (.ok (.ok (pathname, 0)))
  else if dirfd = atFdcwd then
    .call .getcwd fun
      | .error _ => .ret (.ok (.error (.plain (-1))))
      | .ok atdir =>
        store .fqpath (atdir ++ '/' :: pathname) <|
        .ret (.ok (.ok (atdir ++ '/' :: pathname, 0)))
  else
    store .fqpath (fdPath dirfd) <|
    .call (.readlinkFd dirfd) fun
      | .error _ => .ret (.ok (.error (.plain (-1))))
      | .ok link =>
        let atdir : Str := List.take posixPathMax link
        store .atdir atdir <|
        store .fqpath (atdir ++ '/' :: pathname) <|
        .ret (.ok (.ok (atdir ++ '/' :: pathname, (List.length atdir : ℕ))))

/-- The loop that looks for the root of the file system. -/
def findRoot (st1 : Stat) (recyclerInode : ℕ) (fqpath : Str) : ℕ → Str → BoundedCode (Option Found)
  | 0, _ => .ret (.ok none)
  | fuel + 1, mp_path =>
    let tmp := if dirname mp_path = ['/', '/'] then ['/'] else dirname mp_path
    store .atdir mp_path <|
    .call (.stat tmp) fun
      | .error _ => .ret (.ok (some (.exit (.plain (-1)))))
      | .ok st2 =>
        if st2.obj.ino = recyclerInode then .ret (.ok (some .realUnlink))
        else if mp_path = ['/'] ∧ tmp = ['/'] then .ret (.ok (some (.mountpoint fqpath mp_path)))
        else if st1.obj.dev ≠ st2.obj.dev then .ret (.ok (some (.mountpoint fqpath mp_path)))
        else store .mp_path tmp <| findRoot st1 recyclerInode fqpath fuel tmp

/-- From the choice of the recycler to the mountpoint of the file. -/
def locate (fuel : ℕ) (dirfd : ℤ) (pathname : Str) (st1 : Stat) (recyclerInode : ℕ) :
    BoundedCode (Option Found) :=
  andThen (fullPath dirfd pathname) fun
    | .error e => .ret (.ok (some (.exit e)))
    | .ok (fqpath, retval) =>
      store .atdir fqpath <|
      .call (.realpath (dirname fqpath)) fun
        | .error _ => .ret (.ok (some (.exit (.plain retval))))
        | .ok ptr =>
          let resolved := ptr ++ '/' :: basename fqpath
          store .atdir fqpath <|
          store .fqpath resolved <|
          store .mp_path resolved <|
          findRoot st1 recyclerInode resolved fuel resolved

/-! ## Moving the file -/

/-- The end of `unlinkat`, at the label `real_unlink`. -/
def realUnlink (dirfd : ℤ) (pathname : Str) (flags : Flags) : BoundedCode (Option Exit) :=
  .call (.unlinkat dirfd pathname flags) fun r => .ret (.ok (some (.plain (retvalOf r))))

/-- The part of `unlinkat` after the mountpoint is known. -/
def recycle (fuel : ℕ) (dirfd : ℤ) (pathname : Str) (flags : Flags) (st1 : Stat)
    (recycler fqpath mp_path : Str) : BoundedCode (Option Exit) :=
  let recycled := recycledPath recycler fqpath mp_path
  let paths := clonePaths st1.isDir recycled fqpath
  store .recycled recycled <|
  store .atdir recycled <|
  andThen (recyclixClonepathRecursive fuel paths.1 paths.2) fun
    | none => .ret (.ok none)
    | some retval =>
      if retval ≠ 0 then .ret (.ok (some (.plain retval)))
      else if st1.isDir then realUnlink dirfd pathname flags
      else
        .call (.renameat dirfd pathname 0 recycled) fun r =>
          .ret (.ok (some (.plain (retvalOf r))))

/-- `unlinkat` after the recycler is chosen. -/
def dropFile (fuel : ℕ) (dirfd : ℤ) (pathname : Str) (flags : Flags) (st1 : Stat) :
    Choice → BoundedCode (Option Exit)
  | .realUnlink => realUnlink dirfd pathname flags
  | .exit e => .ret (.ok (some e))
  | .recycler dir inode =>
    andThen (locate fuel dirfd pathname st1 inode) fun
      | none => .ret (.ok none)
      | some (.exit e) => .ret (.ok (some e))
      | some .realUnlink => realUnlink dirfd pathname flags
      | some (.mountpoint fqpath mp_path) =>
        recycle fuel dirfd pathname flags st1 dir fqpath mp_path

/-- `unlinkat`. -/
def unlinkat (env : Env) (fuel : ℕ) (dirfd : ℤ) (pathname : Str) (flags : Flags) :
    BoundedCode (Option Exit) :=
  match env.recycler with
  | none => realUnlink dirfd pathname flags
  | some recyclers =>
    .call (.fstatat dirfd pathname (statFlags flags)) fun
      | .error _ => .ret (.ok (some (.plain (-1))))
      | .ok st1 =>
        andThen (nextRecycler env pathname st1 (recyclers.splitOn ':'))
          (dropFile fuel dirfd pathname flags st1)

/-- Every string that `unlinkat` stores fits, however deep the recursion and however often the loops
go round. -/
def BuffersHold (env : Env) (fs : FileSystem) (p : Process) (dirfd : ℤ) (pathname : Str)
    (flags : Flags) : Prop :=
  ∀ fuel b, ((unlinkat env fuel dirfd pathname flags).run (execIn p) fs).1 ≠ .error b

/-! ## With and without the buffers -/

/-- A relation between the cloning function with and without buffers that follows from that of their
parts; `F` is what it takes to pass a store. -/
structure Parallel (F : Str → Prop) (M : BoundedCode (Option ℤ) → Code (Option ℤ) → Prop) :
    Prop where
  ret : ∀ a, M (.ret (.ok a)) (.ret a)
  call : ∀ (c : Call) (k : c.Answer → BoundedCode (Option ℤ)) (k' : c.Answer → Code (Option ℤ)),
    (∀ r, M (k r) (k' r)) → M (.call c k) (.call c k')
  store : ∀ b s q p, F s → M q p → M (store b s q) p
  andThen : ∀ q p (f : Option ℤ → BoundedCode (Option ℤ)) (g : Option ℤ → Code (Option ℤ)),
    M q p → (∀ a, M (f a) (g a)) → M (andThen q f) (p >>= g)
  dirname : ∀ s, F s → F (dirname s)

theorem Parallel.clone {F : Str → Prop} {M : BoundedCode (Option ℤ) → Code (Option ℤ) → Prop}
    (h : Parallel F M) (fuel : ℕ) :
    (∀ s donor, F s → F donor → M (recyclixClonepathRecursive fuel s donor)
      (Recyclix.recyclixClonepathRecursive fuel s donor)) ∧
    ∀ s donor st, F s → F donor → M (tryMkdir fuel s donor st) (Recyclix.tryMkdir fuel s donor st) := by
  induction fuel with
  | zero =>
    refine ⟨fun s donor _ _ => ?_, fun s donor st _ _ => ?_⟩
    · unfold recyclixClonepathRecursive Recyclix.recyclixClonepathRecursive
      exact h.ret _
    · unfold tryMkdir Recyclix.tryMkdir
      exact h.ret _
  | succ fuel ih =>
    refine ⟨fun s donor hs hd => ?_, fun s donor st hs hd => ?_⟩
    · unfold recyclixClonepathRecursive Recyclix.recyclixClonepathRecursive
      refine h.call _ _ _ fun r => ?_
      cases r with
      | error e => exact h.ret _
      | ok st => exact ih.2 s donor st hs hd
    · have hretry := ih.2 s donor st hs hd
      have hchown : M (.call (.chown s st.inode.uid st.inode.gid) fun _ => .ret (.ok (some 0)))
          (.call (.chown s st.inode.uid st.inode.gid) fun _ => .ret (some 0)) :=
        h.call _ _ _ fun _ => h.ret _
      have hrecurse := h.andThen _ _ (fun retval =>
          if retval = some 0 then tryMkdir fuel s donor st else .ret (.ok retval))
        (fun retval =>
          if retval = some 0 then Recyclix.tryMkdir fuel s donor st else .ret retval)
        (ih.1 _ _ (h.dirname s hs) (h.dirname donor hd)) fun a => by
          split_ifs
          · exact hretry
          · exact h.ret _
      unfold tryMkdir Recyclix.tryMkdir
      refine h.call _ _ _ fun r => ?_
      cases r with
      | ok _ => exact hchown
      | error e =>
        by_cases hp : e = .ENOENT ∨ e = .ENOTDIR
        · rcases hp with rfl | rfl
          all_goals
            refine h.store _ _ _ _ hs (h.store _ _ _ _ hd (h.call _ _ _ fun r => ?_))
            cases r with
            | ok _ => exact hretry
            | error e => cases e <;> first | exact hrecurse | exact h.ret _
        · by_cases he : e = .EEXIST
          · subst he
            refine h.call _ _ _ fun r => ?_
            cases r with
            | error e => exact h.ret _
            | ok st' =>
              dsimp only
              split_ifs
              · exact h.call _ _ _ fun _ => hchown
              · refine h.call _ _ _ fun r => ?_
                cases r with
                | ok _ => exact hretry
                | error e => exact h.ret _
          · cases e <;> first | exact h.ret _ | exact absurd rfl he | exact absurd (by simp) hp

theorem parallel_checks : Parallel (fun _ => True) Checks where
  ret := .ret
  call _ _ _ := .call _
  store _ _ _ _ _ h := .require fun _ => h
  andThen _ _ _ _ := .andThen
  dirname _ _ := trivial

variable {env : Env} {fs : FileSystem} {p : Process} {st1 : Stat} {dirfd : ℤ} {pathname : Str}
  {flags : Flags}

/-- The options are read as without the buffer, as long as the patterns fit. -/
theorem readOptions_eq {regcomp : Regcomp} {os : List Str} {lim : Limits} {r : Option Limits}
    (h : readOptions regcomp pathname os lim = .ok r) :
    Recyclix.readOptions regcomp pathname os lim = r := by
  induction os generalizing lim with
  | nil =>
    cases h
    rfl
  | cons o os ih =>
    by_cases hend : o = [] ∧ os = []
    · obtain ⟨rfl, rfl⟩ := hend
      cases h
      rfl
    · have hne : o = [] → os = [] → False := fun ho hos => hend ⟨ho, hos⟩
      simp only [readOptions] at h
      simp only [Recyclix.readOptions]
      cases ho : recognizeOption o with
      | none =>
        simp only [ho] at h
        exact Except.ok.inj h
      | some opt =>
        simp only [ho] at h
        dsimp only
        split_ifs at h
        cases hl : lim.apply regcomp pathname opt with
        | none =>
          simp only [hl] at h
          exact Except.ok.inj h
        | some lim' =>
          simp only [hl] at h
          exact ih h

theorem checks_nextRecycler (items : List Str) : Checks (nextRecycler env pathname st1 items)
    (Recyclix.nextRecycler env pathname st1 items) := by
  induction items with
  | nil => exact .ret _
  | cons item items ih =>
    rw [nextRecycler, Recyclix.nextRecycler]
    refine .require fun _ => .require fun _ => ?_
    split_ifs
    · exact ih
    · cases ho : readOptions env.regcomp pathname (binOptions (expandHome env.home item))
        .initial with
      | error b => exact .error b _
      | ok r =>
        rw [readOptions_eq ho]
        cases r with
        | none => exact .ret _
        | some lim =>
          refine .call _ fun r => ?_
          cases r with
          | error e => exact ih
          | ok st2 =>
            dsimp only
            split_ifs <;> first | exact ih | exact .ret _

theorem checks_findRoot {rino fuel : ℕ} {fq t : Str} :
    Checks (findRoot st1 rino fq fuel t) (Recyclix.findRoot st1 rino fq fuel t) := by
  induction fuel generalizing t with
  | zero => exact .ret _
  | succ fuel ih =>
    rw [findRoot, Recyclix.findRoot]
    refine .require fun _ => .call _ fun r => ?_
    cases r with
    | error e => exact .ret _
    | ok st2 =>
      dsimp only
      split_ifs <;> first | exact .ret _ | exact .require fun _ => ih

theorem checks_fullPath : Checks (fullPath dirfd pathname) (Recyclix.fullPath dirfd pathname) := by
  rw [fullPath, Recyclix.fullPath]
  split_ifs
  · exact .require fun _ => .ret _
  · refine .call _ fun r => ?_
    cases r with
    | error e => exact .ret _
    | ok atdir => exact .require fun _ => .ret _
  · refine .require fun _ => .call _ fun r => ?_
    cases r with
    | error e => exact .ret _
    | ok link =>
      refine .require fun hfits => .require fun _ => ?_
      have htake : List.take posixPathMax link = link := by
        refine List.take_of_length_le ?_
        rw [Fits, List.length_take] at hfits
        omega
      rw [htake]
      exact .ret _

theorem checks_locate {fuel rino : ℕ} : Checks (locate fuel dirfd pathname st1 rino)
    (Recyclix.locate fuel dirfd pathname st1 rino) := by
  refine checks_fullPath.andThen fun a => ?_
  cases a with
  | error e => exact .ret _
  | ok x =>
    refine .require fun _ => .call _ fun r => ?_
    cases r with
    | error e => exact .ret _
    | ok ptr => exact .require fun _ => .require fun _ => .require fun _ => checks_findRoot

theorem checks_recycle {fuel : ℕ} {dir fq mp : Str} :
    Checks (recycle fuel dirfd pathname flags st1 dir fq mp)
      (Recyclix.recycle fuel dirfd pathname flags st1 dir fq mp) := by
  refine .require fun _ => .require fun _ =>
    ((parallel_checks.clone fuel).1 _ _ trivial trivial).andThen fun a => ?_
  cases a with
  | none => exact .ret _
  | some retval =>
    dsimp only
    split_ifs
    · exact .ret _
    · exact .call _ fun r => .ret _
    · exact .call _ fun r => .ret _

theorem checks_dropFile {fuel : ℕ} (choice : Choice) :
    Checks (dropFile fuel dirfd pathname flags st1 choice)
      (Recyclix.dropFile fuel dirfd pathname flags st1 choice) := by
  cases choice with
  | realUnlink => exact .call _ fun r => .ret _
  | exit e => exact .ret _
  | recycler dir inode =>
    refine checks_locate.andThen fun a => ?_
    rcases a with _ | e | _ | ⟨fq, mp⟩
    · exact .ret _
    · exact .ret _
    · exact .call _ fun r => .ret _
    · exact checks_recycle

/-- The buffers only add the ends where a string does not fit. -/
theorem checks_unlinkat (env : Env) (fuel : ℕ) (dirfd : ℤ) (pathname : Str) (flags : Flags) :
    Checks (unlinkat env fuel dirfd pathname flags)
      (Recyclix.unlinkat env fuel dirfd pathname flags) := by
  rw [unlinkat, Recyclix.unlinkat]
  cases env.recycler with
  | none => exact .call _ fun r => .ret _
  | some recyclers =>
    refine .call _ fun r => ?_
    cases r with
    | error e => exact .ret _
    | ok st1 => exact (checks_nextRecycler _).andThen checks_dropFile

end Bounded

/-- The answers with a buffer for `getcwd` are among those that `Sys` allows. -/
theorem sys_execIn (p : Process) (fs : FileSystem) (c : Call) :
    Sys p Errno.denial fs c (execIn p c fs).1 (execIn p c fs).2 := by
  cases c with
  | getcwd =>
    rw [execIn]
    cases hcwd : fs.getcwd p with
    | error e => exact Or.inl (by rw [exec, hcwd])
    | ok s =>
      dsimp only
      split_ifs
      · exact Or.inl (by rw [exec, hcwd])
      · exact Or.inr ⟨.ERANGE, rfl, rfl, rfl⟩
  | _ => exact Or.inl rfl

/-- As long as the buffers hold, what is proved without them is true with them. -/
theorem Bounded.BuffersHold.run {env : Env} {fs : FileSystem} {p : Process} {dirfd : ℤ}
    {pathname : Str} {flags : Flags} (h : BuffersHold env fs p dirfd pathname flags) (fuel : ℕ)
    {Q : Option Exit → FileSystem → Prop}
    (hw : Prog.wp (Sys p Errno.denial) (Recyclix.unlinkat env fuel dirfd pathname flags) fs
      fun _ => Q) : Prog.RunsTo (execIn p) (unlinkat env fuel dirfd pathname flags) fs Q := by
  obtain ⟨a, fs', hr, -⟩ := Prog.runsTo_iff_ne_error.2 (h fuel)
  have hrun := (checks_unlinkat env fuel dirfd pathname flags).run_eq (congrArg Prod.fst hr)
  have hQ := Prog.wp.run (sys_execIn p) hw
  rw [hrun, hr] at hQ
  exact ⟨a, fs', hr, hQ⟩

end YazzyPreload.Recyclix

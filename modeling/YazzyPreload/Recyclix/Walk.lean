import Mathlib.Logic.Function.Iterate
import YazzyPreload.Recyclix.Unlinkat

/-!
# The walk to the mountpoint

The loop that looks for the mountpoint works on texts only: it cuts the last component off again and
again, and asks `stat` for the device.  `findRoot_finds_mountpoint` says for every absolute pathname
and all answers of `stat` where it stops, so that the pathname inside the recycler ends with what
follows the mountpoint in the text.
-/

namespace YazzyPreload.Recyclix

open Prog

/-- The directory above a text, with one slash for the root. -/
def upper (t : Str) : Str := if dirname t = ['/', '/'] then ['/'] else dirname t

variable {σ : Type} (h : Handler Call Call.Answer σ) (s : σ)

/-- The device of the directory that a text leads to, as `stat` answers. -/
def deviceOf (t : Str) : Option ℕ := (h (.stat t) s).1.toOption.map fun st => st.obj.dev

variable {h s} {t fq : Str} {fuel rino : ℕ} {st1 : Stat}

/-! ## One turn -/

theorem upper_isPrefix (ht : isAbs t = true) : upper t <+: t := by
  rw [upper]
  split_ifs
  · exact slash_isPrefix ht
  · exact dirname_isPrefix ht

theorem dirname_ne_nil (t : Str) : dirname t ≠ [] := by
  simp only [dirname]
  split_ifs <;> first | exact List.cons_ne_nil _ _ | assumption

theorem isAbs_upper (ht : isAbs t = true) : isAbs (upper t) = true := by
  refine (isAbs_of_isPrefix ?_ (upper_isPrefix ht)).trans ht
  rw [upper]
  split_ifs
  · exact List.cons_ne_nil _ _
  · exact dirname_ne_nil t

/-- The walk comes nearer to the root, which is above itself. -/
theorem length_upper_lt (ht : isAbs t = true) (hne : t ≠ ['/']) : (upper t).length < t.length := by
  obtain ⟨u, rfl⟩ := isAbs_iff.1 ht
  have hu : u ≠ [] := fun e => hne (e ▸ rfl)
  have hlen := List.length_pos_iff.2 hu
  rw [upper, List.length_cons]
  split_ifs with hd
  · rw [List.length_singleton]
    omega
  · by_cases hs : stripSlashes ('/' :: u) = []
    · simp only [dirname, if_pos hs, if_neg (List.cons_ne_nil '/' u), List.length_cons] at hd ⊢
      split_ifs at hd ⊢ with h2
      · exact absurd rfl hd
      · simpa using hlen
    · simpa using length_dirname_lt ht hs

theorem upper_root : upper ['/'] = ['/'] := by decide

/-! ## The loop -/

variable (h s) in
/-- The text `mp` is above `t`, on the way up from `t` everything is on the device, and `mp` is the
last such text. -/
def Highest (dev : ℕ) (t mp : Str) : Prop :=
  ∃ k, mp = upper^[k] t ∧
    (∀ j, 1 ≤ j → j ≤ k → deviceOf h s (upper^[j] t) = some dev) ∧
    (mp = ['/'] ∨ deviceOf h s (upper mp) ≠ some dev)

theorem Highest.refl {dev : ℕ} (ht : t = ['/'] ∨ deviceOf h s (upper t) ≠ some dev) :
    Highest h s dev t t :=
  ⟨0, rfl, fun j h1 h0 => absurd h1 (by omega), ht⟩

theorem Highest.of_upper {dev : ℕ} {mp : Str} (hdev : deviceOf h s (upper t) = some dev)
    (hmp : Highest h s dev (upper t) mp) : Highest h s dev t mp := by
  obtain ⟨k, hk, hall, hlast⟩ := hmp
  refine ⟨k + 1, hk, fun j h1 hle => ?_, hlast⟩
  obtain ⟨j, rfl⟩ : ∃ i, j = i + 1 := ⟨j - 1, by omega⟩
  rw [Function.iterate_succ_apply]
  cases j with
  | zero => exact hdev
  | succ j => exact hall (j + 1) (by omega) (by omega)

theorem run_findRoot (ht : isAbs t = true) (hfuel : t.length ≤ fuel)
    (hcalls : ∀ u, Call.stat u ∈ (findRoot st1 rino fq fuel t).calls h s →
      ∃ st2, h (.stat u) s = (.ok st2, s) ∧ st2.obj.ino ≠ rino) :
    ∃ mp, (findRoot st1 rino fq fuel t).run h s = (some (.mountpoint fq mp), s) ∧ mp <+: t ∧
      Highest h s st1.obj.dev t mp := by
  induction fuel generalizing t with
  | zero =>
    obtain ⟨u, rfl⟩ := isAbs_iff.1 ht
    simp at hfuel
  | succ fuel ih =>
    have hup : (if dirname t = ['/', '/'] then ['/'] else dirname t) = upper t := rfl
    rw [findRoot, hup] at hcalls ⊢
    obtain ⟨st2, hst, hino⟩ := hcalls (upper t) List.mem_cons_self
    have hdev : deviceOf h s (upper t) = some st2.obj.dev := by
      rw [deviceOf, hst]
      rfl
    rw [calls_call, hst] at hcalls
    rw [run_call, hst]
    dsimp only at hcalls ⊢
    rw [if_neg hino] at hcalls ⊢
    by_cases hroot : t = ['/'] ∧ upper t = ['/']
    · rw [if_pos hroot]
      exact ⟨t, rfl, List.prefix_rfl, Highest.refl (.inl hroot.1)⟩
    · rw [if_neg hroot] at hcalls ⊢
      by_cases hne : st1.obj.dev = st2.obj.dev
      · rw [if_neg (not_not.2 hne)] at hcalls ⊢
        have ht' : t ≠ ['/'] := fun e => hroot ⟨e, e ▸ upper_root⟩
        have hlt := length_upper_lt ht ht'
        obtain ⟨mp, hrun, hpre, hmp⟩ := ih (isAbs_upper ht) (by omega) fun u hu =>
          hcalls u (List.mem_cons_of_mem _ hu)
        exact ⟨mp, hrun, hpre.trans (upper_isPrefix ht), hmp.of_upper (hne ▸ hdev)⟩
      · rw [if_pos hne]
        refine ⟨t, rfl, List.prefix_rfl, Highest.refl (.inr fun e => hne ?_)⟩
        exact (Option.some.inj (hdev.symm.trans e)).symm

/-- For every absolute pathname and all answers of `stat` that are no errors and not the recycler's
inode, the loop ends with the first part of the pathname up to which all directories are on the
device, and the pathname inside the recycler goes on with the rest. -/
theorem findRoot_finds_mountpoint (hfq : isAbs fq = true) (hfuel : fq.length ≤ fuel)
    (hcalls : ∀ u, Call.stat u ∈ (findRoot st1 rino fq fuel fq).calls h s →
      ∃ st2, h (.stat u) s = (.ok st2, s) ∧ st2.obj.ino ≠ rino) :
    ∃ mp rest, (findRoot st1 rino fq fuel fq).run h s = (some (.mountpoint fq mp), s) ∧
      mp ++ rest = fq ∧ Highest h s st1.obj.dev fq mp ∧
      ∀ recycler, recycledPath recycler fq mp = recycler ++ '/' :: rest := by
  obtain ⟨mp, hrun, ⟨rest, rfl⟩, hmp⟩ := run_findRoot hfq hfuel hcalls
  refine ⟨mp, rest, hrun, rfl, hmp, fun recycler => ?_⟩
  rw [recycledPath, List.drop_left]

/-- The entry `/a/f`, in a machine with one device. -/
theorem findRoot_finds_mountpoint_fileTree :
    ∃ mp rest, (findRoot ⟨⟨1, 5⟩, Sample.file⟩ 3 "/a/f".toList 4 "/a/f".toList).run
        (exec Sample.process) Sample.fileTree = (some (.mountpoint "/a/f".toList mp), Sample.fileTree) ∧
      mp ++ rest = "/a/f".toList ∧
      Highest (exec Sample.process) Sample.fileTree 1 "/a/f".toList mp ∧
      ∀ recycler, recycledPath recycler "/a/f".toList mp = recycler ++ '/' :: rest := by
  refine findRoot_finds_mountpoint rfl (by decide) fun u hu => ?_
  have hall : ∀ c ∈ (findRoot ⟨⟨1, 5⟩, Sample.file⟩ 3 "/a/f".toList 4 "/a/f".toList).calls
      (exec Sample.process) Sample.fileTree, c = .stat "/a".toList ∨ c = .stat "/".toList := by
    decide +kernel
  rcases hall _ hu with e | e
  · cases e
    exact ⟨⟨⟨1, 4⟩, Sample.dir⟩, Prod.ext (by decide +kernel) rfl, by decide⟩
  · cases e
    exact ⟨⟨⟨1, 2⟩, Sample.dir⟩, Prod.ext (by decide +kernel) rfl, by decide⟩

end YazzyPreload.Recyclix

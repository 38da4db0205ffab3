import Mathlib.Data.Fintype.Card

/-!
# Open files

The table of the open files of a process.  A new file gets the lowest descriptor that is free, and
there is none from the limit on: `exists_openFile_iff` and `exists_openPair_iff` say when there is
room, and the lemmas on `fds` what is open after each operation.
-/

namespace YazzyPreload

/-- The open files of a process that may have `limit` of them, by their descriptors. -/
structure OpenFiles (File : Type) (limit : ℕ) where
  file : Fin limit → Option File

namespace OpenFiles

variable {File : Type} {limit : ℕ}

/-- The descriptor with the number. -/
def number (limit : ℕ) (n : ℤ) : Option (Fin limit) :=
  if h : 0 ≤ n ∧ n.toNat < limit then some ⟨n.toNat, h.2⟩ else none

section Operations

variable (t : OpenFiles File limit)

/-- The descriptors that are open. -/
def fds : Finset (Fin limit) := Finset.univ.filter fun fd => (t.file fd).isSome = true

/-- The lowest descriptor that is free. -/
def lowest : Option (Fin limit) := (List.finRange limit).find? fun fd => (t.file fd).isNone

/-- What is open at a descriptor. -/
def fileAt (n : ℕ) : Option File := (number limit n).bind t.file

/-- A file takes the place of what the descriptor was. -/
def install (fd : Fin limit) (f : File) : OpenFiles File limit :=
  ⟨Function.update t.file fd (some f)⟩

def close (fd : Fin limit) : OpenFiles File limit := ⟨Function.update t.file fd none⟩

/-- `close` of a number, which need not be a descriptor that is open. -/
def closeAt (n : ℕ) : OpenFiles File limit := (number limit n).elim t t.close

def openFile (f : File) : Option (Fin limit × OpenFiles File limit) :=
  t.lowest.map fun fd => (fd, t.install fd f)

/-- Two files are opened, or none. -/
def openPair (f g : File) : Option ((Fin limit × Fin limit) × OpenFiles File limit) :=
  (t.openFile f).bind fun (a, t) => (t.openFile g).map fun (b, t) => ((a, b), t)

def dup2 (oldfd newfd : Fin limit) : Option (OpenFiles File limit) :=
  (t.file oldfd).map (t.install newfd)

/-- The same descriptors, with the files as `g` has them. -/
def map {File' : Type} (g : File → File') : OpenFiles File' limit := ⟨fun fd => (t.file fd).map g⟩

end Operations

variable {t t' : OpenFiles File limit} {a b fd : Fin limit} {f g : File} {n : ℕ}

@[simp] theorem number_val (fd : Fin limit) : number limit (fd.val : ℤ) = some fd := by
  rw [number, dif_pos ⟨Int.natCast_nonneg _, by simp⟩]
  rfl

@[simp] theorem fileAt_val (t : OpenFiles File limit) (fd : Fin limit) :
    t.fileAt fd.val = t.file fd := by
  rw [fileAt, number_val, Option.bind_some]

theorem fileAt_eq_none (h : limit ≤ n) : t.fileAt n = none := by
  rw [fileAt, number, dif_neg (by omega), Option.bind_none]

@[simp] theorem mem_fds : fd ∈ t.fds ↔ (t.file fd).isSome = true := by simp [fds]

@[simp] theorem install_file_self (t : OpenFiles File limit) (fd : Fin limit) (f : File) :
    (t.install fd f).file fd = some f := by
  simp [install]

theorem install_file_of_ne (h : a ≠ fd) : (t.install fd f).file a = t.file a := by
  simp [install, Function.update_of_ne h]

theorem close_file_of_ne (h : a ≠ fd) : (t.close fd).file a = t.file a := by
  simp [close, Function.update_of_ne h]

theorem exists_val_eq (h : n < limit) : ∃ fd : Fin limit, n = fd.val := ⟨⟨n, h⟩, rfl⟩

theorem fileAt_install (t : OpenFiles File limit) (fd : Fin limit) (f : File) (n : ℕ) :
    (t.install fd f).fileAt n = if n = fd.val then some f else t.fileAt n := by
  by_cases hn : n < limit
  · obtain ⟨a, rfl⟩ := exists_val_eq hn
    simp only [fileAt_val, install, Function.update_apply, Fin.ext_iff]
  · have hne : n ≠ fd.val := fun h => hn (h.trans_lt fd.2)
    rw [fileAt_eq_none (Nat.le_of_not_lt hn), fileAt_eq_none (Nat.le_of_not_lt hn), if_neg hne]

theorem fileAt_closeAt (t : OpenFiles File limit) (m n : ℕ) :
    (t.closeAt m).fileAt n = if n = m then none else t.fileAt n := by
  by_cases hn : n < limit
  · obtain ⟨a, rfl⟩ := exists_val_eq hn
    by_cases hm : m < limit
    · obtain ⟨b, rfl⟩ := exists_val_eq hm
      simp only [fileAt_val, closeAt, number_val, Option.elim_some, close, Function.update_apply,
        Fin.ext_iff]
    · have hne : a.val ≠ m := fun h => hm (h ▸ hn)
      rw [closeAt, number, dif_neg (by omega), Option.elim_none, if_neg hne]
  · rw [fileAt_eq_none (Nat.le_of_not_lt hn), fileAt_eq_none (Nat.le_of_not_lt hn), ite_self]

theorem fileAt_map {File' : Type} (g : File → File') (t : OpenFiles File limit) (n : ℕ) :
    (t.map g).fileAt n = (t.fileAt n).map g := by
  rw [fileAt, fileAt, Option.map_bind]
  rfl

/-! ## What is open -/

theorem fds_install (t : OpenFiles File limit) (fd : Fin limit) (f : File) :
    (t.install fd f).fds = insert fd t.fds := by
  ext a
  rw [mem_fds, Finset.mem_insert, mem_fds]
  by_cases h : a = fd
  · simp [h]
  · simp [h, install_file_of_ne h]

theorem fds_close (t : OpenFiles File limit) (fd : Fin limit) :
    (t.close fd).fds = t.fds.erase fd := by
  ext a
  rw [mem_fds, Finset.mem_erase, mem_fds]
  by_cases h : a = fd
  · simp [h, close]
  · simp [h, close_file_of_ne h]

theorem card_fds_le (t : OpenFiles File limit) : t.fds.card ≤ limit :=
  (Finset.card_le_univ _).trans_eq (Fintype.card_fin limit)

theorem lowest_notMem (h : t.lowest = some fd) : fd ∉ t.fds := by
  have := List.find?_some h
  simpa using this

/-- Every descriptor below the lowest free one is open. -/
theorem lowest_eq_some_iff : t.lowest = some fd ↔ fd ∉ t.fds ∧ ∀ a < fd, a ∈ t.fds := by
  rw [lowest, List.find?_eq_some_iff_getElem]
  constructor
  · rintro ⟨hfd, i, hi, rfl, hbelow⟩
    refine ⟨by simpa using hfd, fun a ha => ?_⟩
    have hlt : a.val < i := by simpa [Fin.lt_def] using ha
    simpa using hbelow a.val hlt
  · rintro ⟨hfd, hbelow⟩
    refine ⟨by simpa using hfd, fd.val, by simp, by simp, fun j hj => ?_⟩
    simpa using hbelow ⟨j, hj.trans fd.2⟩ hj

/-- Which descriptor is the lowest free one depends on nothing but what is open. -/
theorem lowest_congr {File' : Type} {u : OpenFiles File' limit} (h : t.fds = u.fds) :
    t.lowest = u.lowest := by
  refine Option.ext fun fd => ?_
  rw [lowest_eq_some_iff, lowest_eq_some_iff, h]

theorem exists_lowest_iff : (∃ fd, t.lowest = some fd) ↔ t.fds.card < limit := by
  rw [← Option.isSome_iff_exists, lowest, List.find?_isSome]
  constructor
  · rintro ⟨fd, -, hfd⟩
    have hlt : t.fds ⊂ Finset.univ := (Finset.ssubset_univ_iff).2 fun h => by
      have hmem : fd ∈ t.fds := h ▸ Finset.mem_univ fd
      rw [mem_fds, Option.isNone_iff_eq_none.1 hfd] at hmem
      cases hmem
    exact (Finset.card_lt_card hlt).trans_eq (by simp)
  · intro h
    have hne : t.fds ≠ Finset.univ := fun he => by
      rw [he, Finset.card_univ, Fintype.card_fin] at h
      exact lt_irrefl _ h
    obtain ⟨fd, hfd⟩ := not_forall.1 fun hall => hne (Finset.eq_univ_iff_forall.2 hall)
    exact ⟨fd, List.mem_finRange fd, by simpa using hfd⟩

theorem openFile_eq_some (h : t.openFile f = some (fd, t')) :
    fd ∉ t.fds ∧ t' = t.install fd f := by
  obtain ⟨fd, hfd, heq⟩ := Option.map_eq_some_iff.1 h
  cases heq
  exact ⟨lowest_notMem hfd, rfl⟩

theorem card_openFile (h : t.openFile f = some (fd, t')) : t'.fds.card = t.fds.card + 1 := by
  obtain ⟨hfd, rfl⟩ := openFile_eq_some h
  rw [fds_install, Finset.card_insert_of_notMem hfd]

/-- A file can be opened when fewer than `limit` are. -/
theorem exists_openFile_iff (f : File) :
    (∃ fd t', t.openFile f = some (fd, t')) ↔ t.fds.card < limit := by
  rw [← exists_lowest_iff]
  constructor
  · rintro ⟨fd, t', h⟩
    obtain ⟨fd, hfd, -⟩ := Option.map_eq_some_iff.1 h
    exact ⟨fd, hfd⟩
  · rintro ⟨fd, h⟩
    exact ⟨fd, _, by rw [openFile, h, Option.map_some]⟩

theorem openPair_eq_some_iff : t.openPair f g = some ((a, b), t') ↔
    ∃ t₁, t.openFile f = some (a, t₁) ∧ t₁.openFile g = some (b, t') := by
  rw [openPair, Option.bind_eq_some_iff]
  constructor
  · rintro ⟨⟨a', t₁⟩, ha, h⟩
    obtain ⟨⟨b', t₂⟩, hb, heq⟩ := Option.map_eq_some_iff.1 h
    cases heq
    exact ⟨t₁, ha, hb⟩
  · rintro ⟨t₁, ha, hb⟩
    exact ⟨(a, t₁), ha, Option.map_eq_some_iff.2 ⟨(b, t'), hb, rfl⟩⟩

theorem openPair_eq_some (h : t.openPair f g = some ((a, b), t')) :
    a ∉ t.fds ∧ b ∉ t.fds ∧ b ≠ a ∧ t' = (t.install a f).install b g := by
  obtain ⟨t₁, ha, hb⟩ := openPair_eq_some_iff.1 h
  obtain ⟨hfree, rfl⟩ := openFile_eq_some ha
  obtain ⟨hfree', rfl⟩ := openFile_eq_some hb
  rw [fds_install, Finset.mem_insert, not_or] at hfree'
  exact ⟨hfree, hfree'.2, hfree'.1, rfl⟩

/-- Two files can be opened when two more descriptors are below the limit. -/
theorem exists_openPair_iff (f g : File) :
    (∃ fds t', t.openPair f g = some (fds, t')) ↔ t.fds.card + 2 ≤ limit := by
  constructor
  · rintro ⟨⟨a, b⟩, t', h⟩
    obtain ⟨t₁, ha, hb⟩ := openPair_eq_some_iff.1 h
    have := card_openFile ha
    have := (exists_openFile_iff g).1 ⟨b, t', hb⟩
    omega
  · intro h
    obtain ⟨a, t₁, ha⟩ := (@exists_openFile_iff _ _ t f).2 (by omega)
    have := card_openFile ha
    obtain ⟨b, t', hb⟩ := (@exists_openFile_iff _ _ t₁ g).2 (by omega)
    exact ⟨(a, b), t', openPair_eq_some_iff.2 ⟨t₁, ha, hb⟩⟩

end OpenFiles

end YazzyPreload

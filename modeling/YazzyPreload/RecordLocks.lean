import Mathlib.Data.Nat.Init
import Mathlib.Tactic.ByContra
import Mathlib.Tactic.SplitIfs

/-!
# Record locks

The locks that owners hold on the bytes of files.  A lock is set on a range of bytes when no other
owner has a lock there that excludes it, and all locks of an owner on a file are given up together.

`Exclusive` says that a byte that is locked for writing has no other lock.  `Overstates` relates the
locks that are held with those that somebody takes to be held: where the two differ, it is a lock for
reading that is not there.
-/

namespace YazzyPreload

/-- What a byte is locked for. -/
inductive LockMode
  | read
  | write
  deriving DecidableEq

/-- A range of bytes.  The length zero stands for all bytes from the start on. -/
structure ByteRange where
  start : ℕ
  len : ℕ
  deriving DecidableEq

def ByteRange.Covers (r : ByteRange) (b : ℕ) : Prop := r.start ≤ b ∧ (r.len = 0 ∨ b < r.start + r.len)

instance (r : ByteRange) (b : ℕ) : Decidable (r.Covers b) := inferInstanceAs (Decidable (_ ∧ _))

/-- The lock of an owner on a byte of a file. -/
abbrev RecordLocks (F P : Type) : Type := F → P → ℕ → Option LockMode

namespace RecordLocks

variable {F P : Type} (locks : RecordLocks F P)

/-- Another owner has a lock that excludes the new one. -/
def Conflict (f : F) (p : P) (r : ByteRange) (m : Option LockMode) : Prop :=
  ∃ q b m', q ≠ p ∧ r.Covers b ∧ locks f q b = some m' ∧
    (m = some .write ∨ m = some .read ∧ m' = .write)

/-- A byte that is locked for writing has no other lock. -/
def Exclusive : Prop :=
  ∀ f p q b, p ≠ q → locks f p b = some .write → locks f q b = none

/-- Where `told` differs it is a lock for reading that is not held. -/
def Overstates (told : RecordLocks F P) : Prop :=
  ∀ f p b, told f p b = locks f p b ∨ told f p b = some .read ∧ locks f p b ≠ some .read

section Operations

variable [DecidableEq F] [DecidableEq P]

/-- The bytes of the range get the lock, or lose theirs. -/
def set (f : F) (p : P) (r : ByteRange) (m : Option LockMode) : RecordLocks F P :=
  fun f' p' b => if f' = f ∧ p' = p ∧ r.Covers b then m else locks f' p' b

/-- The owner gives up its locks on the file. -/
def clear (f : F) (p : P) : RecordLocks F P :=
  fun f' p' b => if f' = f ∧ p' = p then none else locks f' p' b

end Operations

variable {locks} {told : RecordLocks F P} {f : F} {p q : P} {b : ℕ} {r : ByteRange}
  {m : Option LockMode}

theorem Exclusive.unique (h : locks.Exclusive) (hp : locks f p b = some .write)
    (hq : locks f q b = some .write) : p = q := by
  by_contra hne
  rw [h f p q b hne hp] at hq
  cases hq

theorem Overstates.refl (locks : RecordLocks F P) : locks.Overstates locks :=
  fun _ _ _ => Or.inl rfl

/-- A lock for writing is not overstated. -/
theorem Overstates.write (h : locks.Overstates told) (ht : told f p b = some .write) :
    locks f p b = some .write := by
  rcases h f p b with heq | ⟨hread, -⟩
  · rw [← heq, ht]
  · rw [ht] at hread
    cases hread

variable [DecidableEq F] [DecidableEq P]

theorem set_of_covers (locks : RecordLocks F P) (f : F) (p : P) (m : Option LockMode)
    (h : r.Covers b) : locks.set f p r m f p b = m :=
  if_pos ⟨rfl, rfl, h⟩

/-- A lock that is in conflict with none may be set. -/
theorem Exclusive.set (h : locks.Exclusive) (hc : ¬ locks.Conflict f p r m) :
    (locks.set f p r m).Exclusive := by
  intro f' p' q' b hne hp
  unfold RecordLocks.set at hp ⊢
  by_cases hcov : f' = f ∧ r.Covers b
  · obtain ⟨rfl, hcov⟩ := hcov
    by_cases hp' : p' = p
    · subst hp'
      rw [if_pos ⟨rfl, rfl, hcov⟩] at hp
      rw [if_neg fun hq => hne hq.2.1.symm]
      cases hq : locks f' q' b with
      | none => rfl
      | some m' => exact absurd ⟨q', b, m', hne.symm, hcov, hq, Or.inl hp⟩ hc
    · rw [if_neg fun hq => hp' hq.2.1] at hp
      by_cases hq' : q' = p
      · subst hq'
        rw [if_pos ⟨rfl, rfl, hcov⟩]
        match m, hc with
        | none, _ => rfl
        | some .read, hc => exact absurd ⟨p', b, _, hp', hcov, hp, Or.inr ⟨rfl, rfl⟩⟩ hc
        | some .write, hc => exact absurd ⟨p', b, _, hp', hcov, hp, Or.inl rfl⟩ hc
      · rw [if_neg fun hq => hq' hq.2.1]
        exact h f' p' q' b hne hp
  · rw [if_neg fun hq => hcov ⟨hq.1, hq.2.2⟩] at hp ⊢
    exact h f' p' q' b hne hp

theorem Exclusive.clear (h : locks.Exclusive) (f : F) (p : P) : (locks.clear f p).Exclusive := by
  intro f' p' q' b hne hp
  unfold RecordLocks.clear at hp ⊢
  split_ifs at hp with hp'
  split_ifs with hq'
  · rfl
  · exact h f' p' q' b hne hp

theorem Overstates.set (h : locks.Overstates told) (f : F) (p : P) (r : ByteRange)
    (m : Option LockMode) : (locks.set f p r m).Overstates (told.set f p r m) := by
  intro f' p' b
  unfold RecordLocks.set
  split_ifs
  · exact Or.inl rfl
  · exact h f' p' b

theorem Overstates.clear (h : locks.Overstates told) (f : F) (p : P) :
    (locks.clear f p).Overstates (told.clear f p) := by
  intro f' p' b
  unfold RecordLocks.clear
  split_ifs
  · exact Or.inl rfl
  · exact h f' p' b

/-- A lock for reading that is only said to be set. -/
theorem Overstates.set_read (h : locks.Overstates told) (f : F) (p : P) (r : ByteRange) :
    locks.Overstates (told.set f p r (some .read)) := by
  intro f' p' b
  unfold RecordLocks.set
  split_ifs
  · by_cases hl : locks f' p' b = some .read
    · exact Or.inl hl.symm
    · exact Or.inr ⟨rfl, hl⟩
  · exact h f' p' b

end RecordLocks

end YazzyPreload

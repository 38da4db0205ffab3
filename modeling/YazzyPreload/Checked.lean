import YazzyPreload.Program

/-!
# Programs with checks

A program that returns `Except E α` may end early with an error.  `Checks q p` says that `q` is the
program `p` with such checks put in, so that both do the same as long as the checks pass
(`Checks.run_eq`).  `NeverFails` says that they pass whatever the answers to the calls are, `RunsTo`
that they pass in the run against a handler.
-/

namespace YazzyPreload.Prog

variable {C : Type} {R : C → Type} {E S α β : Type}

/-- Goes on if the condition holds. -/
def require (c : Prop) [Decidable c] (e : E) (q : Prog C R (Except E α)) : Prog C R (Except E α) :=
  if c then q else ret (.error e)

/-- Goes on with the value returned, unless a check has failed. -/
def andThen (q : Prog C R (Except E α)) (f : α → Prog C R (Except E β)) :
    Prog C R (Except E β) := q >>= fun
  | .ok a => f a
  | .error e => ret (.error e)

@[simp] theorem andThen_ok (a : α) (f : α → Prog C R (Except E β)) :
    andThen (ret (.ok a)) f = f a := rfl

@[simp] theorem andThen_error (e : E) (f : α → Prog C R (Except E β)) :
    andThen (ret (.error e)) f = ret (.error e) := rfl

@[simp] theorem andThen_call (c : C) (k : R c → Prog C R (Except E α))
    (f : α → Prog C R (Except E β)) :
    andThen (call c k) f = call c fun r => andThen (k r) f := rfl

/-! ## With and without the checks -/

/-- The first program is the second one with checks. -/
inductive Checks : Prog C R (Except E α) → Prog C R α → Prop
  | error (e : E) (p : Prog C R α) : Checks (ret (.error e)) p
  | ret (a : α) : Checks (ret (.ok a)) (ret a)
  | call (c : C) {k : R c → Prog C R (Except E α)} {k' : R c → Prog C R α}
      (h : ∀ r, Checks (k r) (k' r)) : Checks (call c k) (call c k')

theorem Checks.require {c : Prop} [Decidable c] {e : E} {q : Prog C R (Except E α)}
    {p : Prog C R α} (h : c → Checks q p) : Checks (require c e q) p := by
  by_cases hc : c
  · rw [Prog.require, if_pos hc]
    exact h hc
  · rw [Prog.require, if_neg hc]
    exact .error e p

theorem Checks.andThen {q : Prog C R (Except E α)} {p : Prog C R α}
    {f : α → Prog C R (Except E β)} {g : α → Prog C R β} (h : Checks q p)
    (hf : ∀ a, Checks (f a) (g a)) : Checks (andThen q f) (p >>= g) := by
  induction h with
  | error e p => exact .error e _
  | ret a => exact hf a
  | call c _ ih => exact .call c ih

/-- The programs do the same when no check fails. -/
theorem Checks.run_eq {q : Prog C R (Except E α)} {p : Prog C R α} (h : Checks q p)
    {hd : Handler C R S} {s : S} {a : α} (ha : (q.run hd s).1 = .ok a) :
    p.run hd s = (a, (q.run hd s).2) := by
  induction h generalizing s with
  | error e p => cases ha
  | ret a =>
    cases ha
    rfl
  | call c _ ih => exact ih _ ha

/-! ## Checks that pass -/

/-- No check fails, whatever the answers are. -/
inductive NeverFails : Prog C R (Except E α) → Prop
  | ret (a : α) : NeverFails (ret (.ok a))
  | call (c : C) {k : R c → Prog C R (Except E α)} (h : ∀ r, NeverFails (k r)) : NeverFails (call c k)

theorem NeverFails.require {c : Prop} [Decidable c] {e : E} {q : Prog C R (Except E α)} (hc : c)
    (h : NeverFails q) : NeverFails (require c e q) := by
  rwa [Prog.require, if_pos hc]

theorem NeverFails.andThen {q : Prog C R (Except E α)} {f : α → Prog C R (Except E β)}
    (h : NeverFails q) (hf : ∀ a, NeverFails (f a)) : NeverFails (andThen q f) := by
  induction h with
  | ret a => exact hf a
  | call c _ ih => exact .call c ih

/-- No check fails in the run from `s`, and it ends with value and state in `Q`. -/
def RunsTo (hd : Handler C R S) (q : Prog C R (Except E α)) (s : S) (Q : α → S → Prop) : Prop :=
  ∃ a s', q.run hd s = (.ok a, s') ∧ Q a s'

section RunsTo

variable {hd : Handler C R S} {q : Prog C R (Except E α)} {s : S} {Q Q' : α → S → Prop}

@[simp] theorem runsTo_ok {a : α} : RunsTo hd (ret (.ok a) : Prog C R (Except E α)) s Q ↔ Q a s := by
  constructor
  · rintro ⟨a', s', h, hQ⟩
    cases h
    exact hQ
  · exact fun h => ⟨a, s, rfl, h⟩

@[simp] theorem runsTo_call {c : C} {k : R c → Prog C R (Except E α)} :
    RunsTo hd (call c k) s Q ↔ RunsTo hd (k (hd c s).1) (hd c s).2 Q := Iff.rfl

@[simp] theorem runsTo_require {c : Prop} [Decidable c] {e : E} :
    RunsTo hd (require c e q) s Q ↔ c ∧ RunsTo hd q s Q := by
  by_cases hc : c
  · rw [require, if_pos hc, and_iff_right hc]
  · rw [require, if_neg hc]
    constructor
    · rintro ⟨a, s', h, -⟩
      cases h
    · exact fun h => absurd h.1 hc

theorem runsTo_andThen {f : α → Prog C R (Except E β)} {Q : β → S → Prop} :
    RunsTo hd (andThen q f) s Q ↔ RunsTo hd q s fun a s' => RunsTo hd (f a) s' Q := by
  induction q generalizing s with
  | ret a =>
    cases a with
    | ok a => rw [andThen_ok, runsTo_ok]
    | error e =>
      constructor
      · rintro ⟨a, s', h, -⟩
        cases h
      · rintro ⟨a, s', h, -⟩
        cases h
  | call c k ih => exact ih _

theorem RunsTo.mono (h : RunsTo hd q s Q) (hQ : ∀ a s', Q a s' → Q' a s') : RunsTo hd q s Q' := by
  obtain ⟨a, s', hr, h⟩ := h
  exact ⟨a, s', hr, hQ a s' h⟩

theorem NeverFails.runsTo (h : NeverFails q) (s : S) : RunsTo hd q s fun _ _ => True := by
  induction h generalizing s with
  | ret a => exact runsTo_ok.2 trivial
  | call c _ ih => exact ih _ _

theorem runsTo_iff_ne_error :
    RunsTo hd q s (fun _ _ => True) ↔ ∀ e, (q.run hd s).1 ≠ .error e := by
  constructor
  · rintro ⟨a, s', h, -⟩ e he
    rw [h] at he
    cases he
  · intro h
    cases hr : (q.run hd s).1 with
    | error e => exact absurd hr (h e)
    | ok a => exact ⟨a, _, Prod.ext hr rfl, trivial⟩

end RunsTo

end YazzyPreload.Prog

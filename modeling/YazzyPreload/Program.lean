import Mathlib.Logic.Basic
import Mathlib.Order.Notation

/-!
# Interaction programs

A program over the interface `(C, R)` issues calls `c : C` one at a time and continues with an
answer in `R c`.  The same program text is given three meanings here:

* `Prog.run h`: against a handler `h` that answers each call and updates a state;
* `Prog.Runs sys`: against a system `sys` that may answer a call in several ways, with the events
  of the run recorded;
* in `Pool`, interleaved with other programs on a shared state.

`Prog.wp` is the weakest precondition of the second meaning, with its rules.
-/

namespace YazzyPreload

/-- A program that issues calls and finally returns a value of type `α`. -/
inductive Prog (C : Type) (R : C → Type) (α : Type) : Type
  | ret (a : α) : Prog C R α
  | call (c : C) (k : R c → Prog C R α) : Prog C R α

/-- Answers a call in a state, and gives the next state. -/
abbrev Handler (C : Type) (R : C → Type) (S : Type) : Type := (c : C) → S → R c × S

/-- The answers and next states a call may have in a state. -/
abbrev System (C : Type) (R : C → Type) (S : Type) : Type := S → (c : C) → R c → S → Prop

/-- A call that was made, the state it was made in and the answer it got. -/
structure Event (C : Type) (R : C → Type) (S : Type) : Type where
  before : S
  call : C
  answer : R call

namespace Prog

variable {C : Type} {R : C → Type} {S α β : Type}

/-- Sequential composition. -/
protected def bind : Prog C R α → (α → Prog C R β) → Prog C R β
  | ret a, f => f a
  | call c k, f => call c fun r => (k r).bind f

instance : Monad (Prog C R) where
  pure := ret
  bind := Prog.bind

@[simp] theorem ret_bind (a : α) (f : α → Prog C R β) : (ret a >>= f) = f a := rfl

@[simp] theorem call_bind (c : C) (k : R c → Prog C R α) (f : α → Prog C R β) :
    (call c k >>= f) = call c fun r => k r >>= f := rfl

theorem bind_assoc {γ : Type} (p : Prog C R α) (f : α → Prog C R β) (g : β → Prog C R γ) :
    (p >>= f >>= g) = (p >>= fun a => f a >>= g) := by
  induction p with
  | ret a => rfl
  | call c k ih => exact congrArg (call c) (funext ih)

/-! ## Running against a handler -/

section Run

variable (h : Handler C R S)

/-- The value a program returns and the state it leaves. -/
def run : Prog C R α → S → α × S
  | ret a, s => (a, s)
  | call c k, s => run (k (h c s).1) (h c s).2

/-- The calls a program makes, in order. -/
def calls : Prog C R α → S → List C
  | ret _, _ => []
  | call c k, s => c :: calls (k (h c s).1) (h c s).2

@[simp] theorem run_ret (a : α) (s : S) : run h (ret a : Prog C R α) s = (a, s) := rfl

@[simp] theorem run_call (c : C) (k : R c → Prog C R α) (s : S) :
    run h (call c k) s = run h (k (h c s).1) (h c s).2 := rfl

@[simp] theorem calls_ret (a : α) (s : S) : calls h (ret a : Prog C R α) s = [] := rfl

@[simp] theorem calls_call (c : C) (k : R c → Prog C R α) (s : S) :
    calls h (call c k) s = c :: calls h (k (h c s).1) (h c s).2 := rfl

theorem run_bind (p : Prog C R α) (f : α → Prog C R β) (s : S) :
    run h (p >>= f) s = run h (f (run h p s).1) (run h p s).2 := by
  induction p generalizing s with
  | ret a => rfl
  | call c k ih => exact ih _ _

theorem calls_bind (p : Prog C R α) (f : α → Prog C R β) (s : S) :
    calls h (p >>= f) s = calls h p s ++ calls h (f (run h p s).1) (run h p s).2 := by
  induction p generalizing s with
  | ret a => rfl
  | call c k ih => exact congrArg (c :: ·) (ih _ _)

/-- A property of states that every call keeps holds at the end of a run. -/
theorem run_invariant {I : S → Prop} (hI : ∀ c s, I s → I (h c s).2) (p : Prog C R α) (s : S)
    (hs : I s) : I (run h p s).2 := by
  induction p generalizing s with
  | ret a => exact hs
  | call c k ih => exact ih _ _ (hI c s hs)

end Run

/-! ## The calls a program can make -/

/-- Every call the program can make, whatever the answers, satisfies `P`. -/
def Only (P : C → Prop) : Prog C R α → Prop
  | ret _ => True
  | call c k => P c ∧ ∀ r, Only P (k r)

section Only

variable {P P' : C → Prop}

theorem Only.bind {p : Prog C R α} {f : α → Prog C R β} (hp : p.Only P) (hf : ∀ a, (f a).Only P) :
    (p >>= f).Only P := by
  induction p with
  | ret a => exact hf a
  | call c k ih => exact ⟨hp.1, fun r => ih r (hp.2 r)⟩

theorem Only.of_mem_calls {h : Handler C R S} {p : Prog C R α} (hp : p.Only P) {c : C} {s : S}
    (hc : c ∈ p.calls h s) : P c := by
  induction p generalizing s with
  | ret a => exact absurd hc List.not_mem_nil
  | call c' k ih =>
    rw [calls_call, List.mem_cons] at hc
    rcases hc with rfl | hc
    · exact hp.1
    · exact ih _ (hp.2 _) hc

end Only

/-! ## Running against a system -/

/-- `Runs sys p s es a s'`: started in `s`, the program can make the events `es`, return `a` and
leave the state `s'`. -/
inductive Runs (sys : System C R S) : Prog C R α → S → List (Event C R S) → α → S → Prop
  | ret (a : α) (s : S) : Runs sys (ret a) s [] a s
  | call {c : C} {k : R c → Prog C R α} {s s' s'' : S} {r : R c} {es : List (Event C R S)} {a : α}
      (step : sys s c r s') (rest : Runs sys (k r) s' es a s'') :
      Runs sys (call c k) s (⟨s, c, r⟩ :: es) a s''

variable {sys : System C R S}

/-- Every run from `s` ends with events, value and state in `Q`. -/
def wp (sys : System C R S) :
    Prog C R α → S → (List (Event C R S) → α → S → Prop) → Prop
  | ret a, s, Q => Q [] a s
  | call c k, s, Q => ∀ r s', sys s c r s' → wp sys (k r) s' fun es a s'' => Q (⟨s, c, r⟩ :: es) a s''

theorem wp_ret {a : α} {s : S} {Q : List (Event C R S) → α → S → Prop} :
    wp sys (ret a) s Q ↔ Q [] a s := Iff.rfl

theorem wp_call {c : C} {k : R c → Prog C R α} {s : S} {Q : List (Event C R S) → α → S → Prop} :
    wp sys (call c k) s Q ↔
      ∀ r s', sys s c r s' → wp sys (k r) s' fun es a s'' => Q (⟨s, c, r⟩ :: es) a s'' := Iff.rfl

theorem wp_mono {p : Prog C R α} {s : S} {Q Q' : List (Event C R S) → α → S → Prop}
    (h : wp sys p s Q) (hQ : ∀ es a s', Q es a s' → Q' es a s') : wp sys p s Q' := by
  induction p generalizing s Q Q' with
  | ret a => exact hQ _ _ _ h
  | call c k ih => exact fun r s' hr => ih r (h r s' hr) fun es a s'' => hQ _ a s''

theorem wp_bind {p : Prog C R α} {f : α → Prog C R β} {s : S}
    {Q : List (Event C R S) → β → S → Prop} :
    wp sys (p >>= f) s Q ↔
      wp sys p s fun es a s' => wp sys (f a) s' fun es' b s'' => Q (es ++ es') b s'' := by
  induction p generalizing s Q with
  | ret a => rfl
  | call c k ih => exact forall₃_congr fun r s' _ => ih r

theorem wp_iff_runs {p : Prog C R α} {s : S} {Q : List (Event C R S) → α → S → Prop} :
    wp sys p s Q ↔ ∀ es a s', Runs sys p s es a s' → Q es a s' := by
  induction p generalizing s Q with
  | ret a =>
    constructor
    · rintro h _ _ _ ⟨⟩
      exact h
    · exact fun h => h _ _ _ (.ret a s)
  | call c k ih =>
    constructor
    · intro h es a s'' run
      cases run with
      | call step rest => exact (ih _).1 (h _ _ step) _ _ _ rest
    · exact fun h r s' step => (ih r).2 fun es a s'' rest => h _ _ _ (.call step rest)

theorem wp_and {p : Prog C R α} {s : S} {Q Q' : List (Event C R S) → α → S → Prop}
    (h : wp sys p s Q) (h' : wp sys p s Q') : wp sys p s fun es a s' => Q es a s' ∧ Q' es a s' :=
  wp_iff_runs.2 fun es a s' run => ⟨wp_iff_runs.1 h es a s' run, wp_iff_runs.1 h' es a s' run⟩

/-- What the calls of a program keep, as a property of the events so far and the state, holds at
its end. -/
theorem Only.wp {P : C → Prop} {K : List (Event C R S) → S → Prop}
    (hK : ∀ es s c r s', P c → sys s c r s' → K es s → K (es ++ [⟨s, c, r⟩]) s')
    {p : Prog C R α} (hp : p.Only P) {es : List (Event C R S)} {s : S} (h : K es s) :
    wp sys p s fun es' _ s' => K (es ++ es') s' := by
  induction p generalizing es s with
  | ret a =>
    rw [wp_ret, List.append_nil]
    exact h
  | call c k ih =>
    intro r s' step
    refine wp_mono (ih r (hp.2 r) (hK es s c r s' hp.1 step h)) fun es' _ s'' h' => ?_
    rwa [List.append_assoc] at h'

/-- A system that admits the handler's answers admits the handler's run. -/
theorem exists_runs_run {h : Handler C R S} (hs : ∀ s c, sys s c (h c s).1 (h c s).2)
    (p : Prog C R α) (s : S) :
    ∃ es, Runs sys p s es (run h p s).1 (run h p s).2 ∧ es.map Event.call = calls h p s := by
  induction p generalizing s with
  | ret a => exact ⟨[], .ret a s, rfl⟩
  | call c k ih =>
    obtain ⟨es, hes, hcs⟩ := ih (h c s).1 (h c s).2
    exact ⟨_, .call (hs s c) hes, congrArg (c :: ·) hcs⟩

/-- What holds of every run of a system holds of the handler's run. -/
theorem wp.run {h : Handler C R S} (hs : ∀ s c, sys s c (h c s).1 (h c s).2) {p : Prog C R α}
    {s : S} {Q : α → S → Prop} (hw : wp sys p s fun _ => Q) : Q (run h p s).1 (run h p s).2 := by
  obtain ⟨es, hes, -⟩ := exists_runs_run hs p s
  exact wp_iff_runs.1 hw _ _ _ hes

/-- The same for the calls that are made. -/
theorem wp.calls {h : Handler C R S} (hs : ∀ s c, sys s c (h c s).1 (h c s).2) {p : Prog C R α}
    {s : S} {P : C → Prop} (hw : wp sys p s fun es _ _ => ∀ e ∈ es, P e.call) :
    ∀ c ∈ calls h p s, P c := by
  obtain ⟨es, hes, hcs⟩ := exists_runs_run hs p s
  rw [← hcs]
  exact List.forall_mem_map.2 (wp_iff_runs.1 hw _ _ _ hes)

end Prog

end YazzyPreload

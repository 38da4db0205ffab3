import Mathlib.Data.List.Basic
import Mathlib.Data.Nat.Notation
import Mathlib.Logic.Function.Basic
import Mathlib.Tactic.SplitIfs
import YazzyPreload.Program

/-!
# Concurrent programs

A `Pool` is a family of programs on one state.  A schedule says whose turn it is to make a call, and
the call is answered at once by the handler of the thread.

`Prog.Safe` is the correctness of one thread among others that change the state by steps of a
relation `rel` only, and that is also what the thread guarantees.  `Pool.safe_run` puts the threads
together.  `Prog.Follows` is for threads that keep to rules about their calls, and `Pool.follows_run`
draws the conclusion for all states of a run.  `Pool.exists_result` says that a thread that is given
enough turns comes to its end, and `Pool.result_of_mem_log` that certain calls bring it about at
once.  `Pool.reached_once` is about what one call of all threads brings about, and
`Pool.exists_of_result` about values that a thread does not return without a certain call.
`Pool.traces_log` has the calls of one thread, and `Pool.before_of_log` the state that a call finds.
-/

namespace YazzyPreload

variable {ι C : Type} {R : C → Type} {S α β : Type}

namespace Prog

/-! ## The number of calls -/

/-- The program makes at most `n` calls. -/
def Within : ℕ → Prog C R α → Prop
  | _, ret _ => True
  | 0, call _ _ => False
  | n + 1, call _ k => ∀ r, Within n (k r)

theorem within_ret (n : ℕ) (a : α) : Within n (ret a : Prog C R α) := by
  unfold Within
  trivial

theorem Within.mono {n m : ℕ} {p : Prog C R α} (h : p.Within n) (hnm : n ≤ m) : p.Within m := by
  induction p generalizing n m with
  | ret a => exact within_ret m a
  | call c k ih =>
    cases n with
    | zero => exact h.elim
    | succ n =>
      obtain ⟨m, rfl⟩ : ∃ m', m = m' + 1 := ⟨m - 1, by omega⟩
      exact fun r => ih r (h r) (by omega)

theorem Within.bind {n m : ℕ} {p : Prog C R α} {f : α → Prog C R β} (hp : p.Within n)
    (hf : ∀ a, (f a).Within m) : (p >>= f).Within (n + m) := by
  induction p generalizing n with
  | ret a => exact (hf a).mono (Nat.le_add_left m n)
  | call c k ih =>
    cases n with
    | zero => exact hp.elim
    | succ n =>
      rw [Nat.succ_add]
      exact fun r => ih r (hp r)

/-! ## One thread among others -/

section Safe

variable (h : Handler C R S) (adm : Event C R S → Prop) (rel : S → S → Prop)

/-- While others change the state along `rel`, and as long as its calls are admitted, the program
changes the state along `rel` and ends as `Q` says. -/
def Safe (Q : α → S → Prop) : Prog C R α → S → Prop
  | ret a, s => ∀ s', rel s s' → Q a s'
  | call c k, s => ∀ s', rel s s' → adm ⟨s', c, (h c s').1⟩ →
      rel s' (h c s').2 ∧ Safe Q (k (h c s').1) (h c s').2

variable {h adm rel} {Q Q' : α → S → Prop}

theorem Safe.mono {p : Prog C R α} {s : S} (hp : p.Safe h adm rel Q s)
    (hQ : ∀ a s, Q a s → Q' a s) : p.Safe h adm rel Q' s := by
  induction p generalizing s with
  | ret a => exact fun s' hs => hQ a s' (hp s' hs)
  | call c k ih => exact fun s' hs ha => ⟨(hp s' hs ha).1, ih _ (hp s' hs ha).2⟩

/-- Changes made by others do no harm. -/
theorem Safe.changed (htrans : ∀ s s' s'', rel s s' → rel s' s'' → rel s s'') {p : Prog C R α}
    {s s' : S} (hp : p.Safe h adm rel Q s) (hs : rel s s') : p.Safe h adm rel Q s' := by
  cases p with
  | ret a => exact fun s'' hs' => hp s'' (htrans s s' s'' hs hs')
  | call c k => exact fun s'' hs' ha => hp s'' (htrans s s' s'' hs hs') ha

theorem Safe.bind (hrefl : ∀ s, rel s s) {p : Prog C R β} {f : β → Prog C R α} {Q₀ : β → S → Prop}
    {s : S} (hp : p.Safe h adm rel Q₀ s) (hf : ∀ b s, Q₀ b s → (f b).Safe h adm rel Q s) :
    (p >>= f).Safe h adm rel Q s := by
  induction p generalizing s with
  | ret b => exact hf b s (hp s (hrefl s))
  | call c k ih => exact fun s' hs ha => ⟨(hp s' hs ha).1, ih _ (hp s' hs ha).2⟩

/-- The rule for a call. -/
theorem safe_call {c : C} {k : R c → Prog C R α} {s : S}
    (hc : ∀ s', rel s s' → adm ⟨s', c, (h c s').1⟩ →
      ∃ r s'', h c s' = (r, s'') ∧ rel s' s'' ∧ (k r).Safe h adm rel Q s'') :
    (call c k).Safe h adm rel Q s := by
  intro s' hs ha
  obtain ⟨r, s'', hr, hrel, hk⟩ := hc s' hs ha
  rw [hr]
  exact ⟨hrel, hk⟩

end Safe

/-! ## Keeping to rules -/

section Follows

variable (h : Handler C R S) (I : S → Prop) (rel : S → S → Prop) (may : S → C → Prop)

/-- As long as the states are in `I` and others change them along `rel`, the program makes only calls
that it may make, and ends as `Q` says. -/
def Follows (Q : α → S → Prop) : Prog C R α → S → Prop
  | ret a, s => ∀ s', rel s s' → Q a s'
  | call c k, s => ∀ s', rel s s' → I s' → may s' c ∧ Follows Q (k (h c s').1) (h c s').2

variable {h I rel may} {I' : S → Prop} {Q Q' : α → S → Prop}

theorem Follows.mono {p : Prog C R α} {s : S} (hp : p.Follows h I rel may Q s)
    (hQ : ∀ a s, Q a s → Q' a s) : p.Follows h I rel may Q' s := by
  induction p generalizing s with
  | ret a => exact fun s' hs => hQ a s' (hp s' hs)
  | call c k ih => exact fun s' hs hI => ⟨(hp s' hs hI).1, ih _ (hp s' hs hI).2⟩

/-- It is enough to keep to the rules in fewer states. -/
theorem Follows.anti {p : Prog C R α} {s : S} (hp : p.Follows h I rel may Q s)
    (hI : ∀ s, I' s → I s) : p.Follows h I' rel may Q s := by
  induction p generalizing s with
  | ret a => exact hp
  | call c k ih => exact fun s' hs hs' => ⟨(hp s' hs (hI s' hs')).1, ih _ (hp s' hs (hI s' hs')).2⟩

theorem Follows.changed (htrans : ∀ s s' s'', rel s s' → rel s' s'' → rel s s'') {p : Prog C R α}
    {s s' : S} (hp : p.Follows h I rel may Q s) (hs : rel s s') : p.Follows h I rel may Q s' := by
  cases p with
  | ret a => exact fun s'' hs' => hp s'' (htrans s s' s'' hs hs')
  | call c k => exact fun s'' hs' hI => hp s'' (htrans s s' s'' hs hs') hI

theorem Follows.bind (hrefl : ∀ s, rel s s) {p : Prog C R β} {f : β → Prog C R α}
    {Q₀ : β → S → Prop} {s : S} (hp : p.Follows h I rel may Q₀ s)
    (hf : ∀ b s, Q₀ b s → (f b).Follows h I rel may Q s) : (p >>= f).Follows h I rel may Q s := by
  induction p generalizing s with
  | ret b => exact hf b s (hp s (hrefl s))
  | call c k ih => exact fun s' hs hI => ⟨(hp s' hs hI).1, ih _ (hp s' hs hI).2⟩

end Follows

/-! ## Calls that end a program -/

section StopsAt

variable (h : Handler C R S) (bad : Event C R S → Prop)

/-- A call that is bad when it is made is the last one, and the program then returns `v`. -/
def StopsAt (v : α) : Prog C R α → Prop
  | ret _ => True
  | call c k => (∀ s, bad ⟨s, c, (h c s).1⟩ → k (h c s).1 = ret v) ∧ ∀ r, StopsAt v (k r)

variable {h bad}

theorem StopsAt.bind {v : β} {w : α} {p : Prog C R β} {f : β → Prog C R α}
    (hp : p.StopsAt h bad v) (hv : f v = ret w) (hf : ∀ b, (f b).StopsAt h bad w) :
    (p >>= f).StopsAt h bad w := by
  induction p with
  | ret b => exact hf b
  | call c k ih =>
    refine ⟨fun s hs => ?_, fun r => ih r (hp.2 r)⟩
    show (k (h c s).1 >>= f) = ret w
    rw [hp.1 s hs, ret_bind, hv]

/-- A program that makes no bad calls. -/
theorem Only.stopsAt {P : C → Prop} {v : α} {p : Prog C R α} (hp : p.Only P)
    (hP : ∀ c, P c → ∀ s, ¬ bad ⟨s, c, (h c s).1⟩) : p.StopsAt h bad v := by
  induction p with
  | ret a => trivial
  | call c k ih => exact ⟨fun s hs => absurd hs (hP c hp.1 s), fun r => ih r (hp.2 r)⟩

/-- A program that makes no bad calls before another one. -/
theorem Only.stopsAt_bind {P : C → Prop} {w : α} {p : Prog C R β} {f : β → Prog C R α}
    (hp : p.Only P) (hP : ∀ c, P c → ∀ s, ¬ bad ⟨s, c, (h c s).1⟩)
    (hf : ∀ b, (f b).StopsAt h bad w) : (p >>= f).StopsAt h bad w := by
  induction p with
  | ret b => exact hf b
  | call c k ih => exact ⟨fun s hs => absurd hs (hP c hp.1 s), fun r => ih r (hp.2 r)⟩

end StopsAt

section Earns

variable (h : Handler C R S) (good : Event C R S → Prop)

/-- The program does not return `v` without a good call. -/
def Earns (v : α) : Prog C R α → Prop
  | ret a => a ≠ v
  | call c k => ∀ s, ¬ good ⟨s, c, (h c s).1⟩ → Earns v (k (h c s).1)

variable {h good}

theorem Earns.bind {v : β} {w : α} {p : Prog C R β} {f : β → Prog C R α} (hp : p.Earns h good v)
    (hf : ∀ b, b ≠ v → (f b).Earns h good w) : (p >>= f).Earns h good w := by
  induction p with
  | ret b => exact hf b hp
  | call c k ih => exact fun s hs => ih _ (hp s hs)

theorem earns_bind {w : α} (p : Prog C R β) {f : β → Prog C R α}
    (hf : ∀ b, (f b).Earns h good w) : (p >>= f).Earns h good w := by
  induction p with
  | ret b => exact hf b
  | call c k ih => exact fun s _ => ih _

end Earns

section Traces

variable (h : Handler C R S)

/-- The program makes these calls, one after the other, and maybe more after them. -/
def Traces : Prog C R α → List (Event C R S) → Prop
  | _, [] => True
  | ret _, _ :: _ => False
  | call c k, e :: es => ∃ s, e = ⟨s, c, (h c s).1⟩ ∧ Traces (k (h c s).1) es

variable {h}

theorem traces_nil (p : Prog C R α) : p.Traces h [] := by
  cases p <;> trivial

@[simp] theorem traces_ret {a : α} {es : List (Event C R S)} :
    (ret a : Prog C R α).Traces h es ↔ es = [] := by
  cases es <;> simp [Traces]

theorem traces_call {c : C} {k : R c → Prog C R α} {es : List (Event C R S)} :
    (call c k).Traces h es ↔
      es = [] ∨ ∃ s es', es = ⟨s, c, (h c s).1⟩ :: es' ∧ (k (h c s).1).Traces h es' := by
  cases es with
  | nil => simp [Traces]
  | cons e es =>
    simp only [Traces, List.cons.injEq, reduceCtorEq, false_or]
    constructor
    · rintro ⟨s, he, hk⟩
      exact ⟨s, es, ⟨he, rfl⟩, hk⟩
    · rintro ⟨s, es', ⟨he, rfl⟩, hk⟩
      exact ⟨s, he, hk⟩

end Traces

end Prog

/-- Programs that run concurrently. -/
structure Pool (ι C : Type) (R : C → Type) (S α : Type) where
  state : S
  thread : ι → Prog C R α

namespace Pool

open Prog

variable [DecidableEq ι] (h : ι → Handler C R S) (P : Pool ι C R S α)

/-- The thread `i` makes its next call, if there is one. -/
def step (i : ι) : Pool ι C R S α :=
  match P.thread i with
  | .ret _ => P
  | .call c k => ⟨(h i c P.state).2, Function.update P.thread i (k (h i c P.state).1)⟩

/-- The threads take turns as the schedule says. -/
def run (sched : List ι) : Pool ι C R S α := sched.foldl (step h) P

/-- The calls that are made meanwhile, each with the thread that makes it. -/
def log : Pool ι C R S α → List ι → List (ι × Event C R S)
  | _, [] => []
  | P, i :: sched =>
    match P.thread i with
    | .ret _ => log P sched
    | .call c _ => (i, ⟨P.state, c, (h i c P.state).1⟩) :: log (P.step h i) sched

/-- What a thread has returned. -/
def result (i : ι) : Option α :=
  match P.thread i with
  | .ret a => some a
  | .call _ _ => none

variable {h P} {i j : ι} {a : α} {c : C} {k : R c → Prog C R α}

theorem step_of_ret (hi : P.thread i = .ret a) : P.step h i = P := by
  unfold step
  rw [hi]

theorem step_of_call (hi : P.thread i = .call c k) : P.step h i =
    ⟨(h i c P.state).2, Function.update P.thread i (k (h i c P.state).1)⟩ := by
  unfold step
  rw [hi]

theorem log_cons_of_ret (hi : P.thread i = .ret a) (sched : List ι) :
    P.log h (i :: sched) = (P.step h i).log h sched := by
  rw [step_of_ret hi, log, hi]

theorem log_cons_of_call (hi : P.thread i = .call c k) (sched : List ι) : P.log h (i :: sched) =
    (i, ⟨P.state, c, (h i c P.state).1⟩) :: (P.step h i).log h sched := by
  rw [log, hi]

theorem thread_step_of_ne (hij : j ≠ i) : (P.step h i).thread j = P.thread j := by
  cases hi : P.thread i with
  | ret a => rw [step_of_ret hi]
  | call c k =>
    rw [step_of_call hi]
    exact Function.update_of_ne hij _ _

theorem thread_step_of_call (hi : P.thread i = .call c k) :
    (P.step h i).thread i = k (h i c P.state).1 := by
  rw [step_of_call hi]
  exact Function.update_self _ _ _

/-- A thread that has come to its end makes no calls. -/
theorem ne_of_mem_log {sched : List ι} (hi : P.thread i = .ret a) {x : ι × Event C R S}
    (hx : x ∈ P.log h sched) : x.1 ≠ i := by
  induction sched generalizing P with
  | nil => exact absurd hx List.not_mem_nil
  | cons j sched ih =>
    cases hj : P.thread j with
    | ret b =>
      rw [log_cons_of_ret hj, step_of_ret hj] at hx
      exact ih hi hx
    | call c k =>
      have hne : i ≠ j := by
        rintro rfl
        cases hi.symm.trans hj
      rw [log_cons_of_call hj, List.mem_cons] at hx
      rcases hx with rfl | hx
      · exact Ne.symm hne
      · exact ih ((thread_step_of_ne hne).trans hi) hx

omit [DecidableEq ι] in
theorem result_eq_some : P.result i = some a ↔ P.thread i = .ret a := by
  unfold result
  cases P.thread i <;> simp

/-! ## Safety -/

section Safe

variable {adm : ι → Event C R S → Prop} {rel : S → S → Prop} {Q : ι → α → S → Prop}
  (hrefl : ∀ s, rel s s) (htrans : ∀ s s' s'', rel s s' → rel s' s'' → rel s s'')

include hrefl htrans

theorem safe_step (hP : ∀ i, (P.thread i).Safe (h i) (adm i) rel (Q i) P.state)
    (hadm : ∀ c k, P.thread i = .call c k → adm i ⟨P.state, c, (h i c P.state).1⟩) (j : ι) :
    ((P.step h i).thread j).Safe (h j) (adm j) rel (Q j) (P.step h i).state := by
  cases hi : P.thread i with
  | ret a =>
    rw [step_of_ret hi]
    exact hP j
  | call c k =>
    have hcall := hP i
    rw [hi] at hcall
    obtain ⟨hstep, hrest⟩ := hcall P.state (hrefl _) (hadm c k hi)
    rw [step_of_call hi]
    dsimp only
    by_cases hj : j = i
    · subst hj
      rw [Function.update_self]
      exact hrest
    · rw [Function.update_of_ne hj]
      exact (hP j).changed htrans hstep

/-- Threads that are each safe among the others are safe together, whatever the schedule. -/
theorem safe_run {sched : List ι} (hP : ∀ i, (P.thread i).Safe (h i) (adm i) rel (Q i) P.state)
    (hadm : ∀ x ∈ P.log h sched, adm x.1 x.2) (j : ι) :
    ((P.run h sched).thread j).Safe (h j) (adm j) rel (Q j) (P.run h sched).state := by
  induction sched generalizing P with
  | nil => exact hP j
  | cons i sched ih =>
    cases hi : P.thread i with
    | ret a =>
      rw [log_cons_of_ret hi] at hadm
      refine ih (safe_step hrefl htrans hP fun c k hc => ?_) hadm
      rw [hi] at hc
      cases hc
    | call c k =>
      rw [log_cons_of_call hi] at hadm
      refine ih (safe_step hrefl htrans hP fun c' k' hc => ?_) fun x hx =>
        hadm x (List.mem_cons_of_mem _ hx)
      rw [hi] at hc
      cases hc
      exact hadm _ List.mem_cons_self

/-- What a thread that has come to its end has achieved. -/
theorem of_result {sched : List ι} (hP : ∀ i, (P.thread i).Safe (h i) (adm i) rel (Q i) P.state)
    (hadm : ∀ x ∈ P.log h sched, adm x.1 x.2) (hv : (P.run h sched).result i = some a) :
    Q i a (P.run h sched).state := by
  have hsafe := safe_run hrefl htrans hP hadm i
  rw [result_eq_some.1 hv] at hsafe
  exact hsafe _ (hrefl _)

end Safe

/-! ## Rules -/

section Follows

variable {I : S → Prop} {rel : S → S → Prop} {may : ι → S → C → Prop} {Q : ι → α → S → Prop}
  (hrefl : ∀ s, rel s s) (htrans : ∀ s s' s'', rel s s' → rel s' s'' → rel s s'')
  (hkeeps : ∀ i s c, I s → may i s c → I (h i c s).2 ∧ rel s (h i c s).2)

include hrefl htrans hkeeps

theorem follows_step (hI : I P.state)
    (hP : ∀ i, (P.thread i).Follows (h i) I rel (may i) (Q i) P.state) (i : ι) :
    I (P.step h i).state ∧
      ∀ j, ((P.step h i).thread j).Follows (h j) I rel (may j) (Q j) (P.step h i).state := by
  cases hi : P.thread i with
  | ret a =>
    rw [step_of_ret hi]
    exact ⟨hI, hP⟩
  | call c k =>
    have hcall := hP i
    rw [hi] at hcall
    obtain ⟨hmay, hrest⟩ := hcall P.state (hrefl _) hI
    obtain ⟨hI', hrel⟩ := hkeeps i P.state c hI hmay
    rw [step_of_call hi]
    refine ⟨hI', fun j => ?_⟩
    dsimp only
    by_cases hj : j = i
    · subst hj
      rw [Function.update_self]
      exact hrest
    · rw [Function.update_of_ne hj]
      exact (hP j).changed htrans hrel

/-- Threads that keep to rules which preserve the invariant do so together, whatever the schedule. -/
theorem follows_run (hI : I P.state)
    (hP : ∀ i, (P.thread i).Follows (h i) I rel (may i) (Q i) P.state) (sched : List ι) :
    I (P.run h sched).state ∧
      ∀ x ∈ P.log h sched, I x.2.before ∧ may x.1 x.2.before x.2.call := by
  induction sched generalizing P with
  | nil => exact ⟨hI, fun x hx => absurd hx List.not_mem_nil⟩
  | cons i sched ih =>
    obtain ⟨hI', hP'⟩ := follows_step hrefl htrans hkeeps hI hP i
    obtain ⟨hend, hlog⟩ := ih hI' hP'
    refine ⟨hend, ?_⟩
    cases hi : P.thread i with
    | ret a =>
      rw [log_cons_of_ret hi]
      exact hlog
    | call c k =>
      have hcall := hP i
      rw [hi] at hcall
      rw [log_cons_of_call hi]
      exact List.forall_mem_cons.2 ⟨⟨hI, (hcall P.state (hrefl _) hI).1⟩, hlog⟩

end Follows

/-! ## What happens once -/

section Once

variable {I G : S → Prop} {rel : S → S → Prop} {may : ι → S → C → Prop} {Q : ι → α → S → Prop}
  {A : ι → Event C R S → Prop} (hrefl : ∀ s, rel s s)
  (htrans : ∀ s s' s'', rel s s' → rel s' s'' → rel s s'')
  (hkeeps : ∀ i s c, I s → may i s c → I (h i c s).2 ∧ rel s (h i c s).2)
  (hstep : ∀ i s c, I s → may i s c → (A i ⟨s, c, (h i c s).1⟩ ∧ ¬ G s ∧ G (h i c s).2) ∨
    (¬ A i ⟨s, c, (h i c s).1⟩ ∧ (G (h i c s).2 ↔ G s)))

include hrefl htrans hkeeps hstep

/-- What is reached stays, and is not reached again. -/
theorem not_reached_again (hI : I P.state) (hG : G P.state)
    (hP : ∀ i, (P.thread i).Follows (h i) I rel (may i) (Q i) P.state) (sched : List ι) :
    G (P.run h sched).state ∧ ∀ x ∈ P.log h sched, ¬ A x.1 x.2 := by
  induction sched generalizing P with
  | nil => exact ⟨hG, fun x hx => absurd hx List.not_mem_nil⟩
  | cons i sched ih =>
    obtain ⟨hI', hP'⟩ := follows_step hrefl htrans hkeeps hI hP i
    cases hi : P.thread i with
    | ret a =>
      rw [log_cons_of_ret hi]
      exact ih hI' (by rwa [step_of_ret hi]) hP'
    | call c k =>
      have hcall := hP i
      rw [hi] at hcall
      have hc := (hstep i P.state c hI (hcall P.state (hrefl _) hI).1).resolve_left fun hA => hA.2.1 hG
      obtain ⟨hend, hlog⟩ := ih hI' (by rw [step_of_call hi]; exact hc.2.2 hG) hP'
      rw [log_cons_of_call hi]
      exact ⟨hend, List.forall_mem_cons.2 ⟨hc.1, hlog⟩⟩

/-- What is reached in a run is reached by one call. -/
theorem reached_once (hI : I P.state) (hG : ¬ G P.state)
    (hP : ∀ i, (P.thread i).Follows (h i) I rel (may i) (Q i) P.state) (sched : List ι) :
    (G (P.run h sched).state ↔ ∃ x ∈ P.log h sched, A x.1 x.2) ∧
      ∀ x ∈ P.log h sched, ∀ y ∈ P.log h sched, A x.1 x.2 → A y.1 y.2 → x = y := by
  induction sched generalizing P with
  | nil =>
    exact ⟨iff_of_false hG fun ⟨x, hx, _⟩ => absurd hx List.not_mem_nil,
      fun x hx => absurd hx List.not_mem_nil⟩
  | cons i sched ih =>
    obtain ⟨hI', hP'⟩ := follows_step hrefl htrans hkeeps hI hP i
    cases hi : P.thread i with
    | ret a =>
      rw [log_cons_of_ret hi]
      exact ih hI' (by rwa [step_of_ret hi]) hP'
    | call c k =>
      have hcall := hP i
      rw [hi] at hcall
      have hstate : (P.step h i).state = (h i c P.state).2 := by rw [step_of_call hi]
      rw [log_cons_of_call hi, List.exists_mem_cons_iff]
      rcases hstep i P.state c hI (hcall P.state (hrefl _) hI).1 with ⟨hA, -, hG'⟩ | ⟨hA, hG'⟩
      · obtain ⟨hend, hlog⟩ := not_reached_again hrefl htrans hkeeps hstep hI'
          (by rwa [hstate]) hP' sched
        refine ⟨iff_of_true hend (Or.inl hA), fun x hx y hy hAx hAy => ?_⟩
        rw [(List.mem_cons.1 hx).resolve_right fun hx => hlog x hx hAx,
          (List.mem_cons.1 hy).resolve_right fun hy => hlog y hy hAy]
      · obtain ⟨hend, hlog⟩ := ih hI' (by rwa [hstate, hG']) hP'
        refine ⟨hend.trans (or_iff_right hA).symm, fun x hx y hy hAx hAy => ?_⟩
        refine hlog x ((List.mem_cons.1 hx).resolve_left ?_) y
          ((List.mem_cons.1 hy).resolve_left ?_) hAx hAy
        · rintro rfl
          exact hA hAx
        · rintro rfl
          exact hA hAy

end Once

/-! ## Termination -/

theorem within_step {n : ℕ} (hn : (P.thread j).Within n) :
    ((P.step h i).thread j).Within (if j = i then n - 1 else n) := by
  cases hi : P.thread i with
  | ret a =>
    rw [step_of_ret hi]
    split_ifs with hj
    · rw [hj, hi]
      exact within_ret _ a
    · exact hn
  | call c k =>
    rw [step_of_call hi]
    dsimp only
    split_ifs with hj
    · subst hj
      rw [hi] at hn
      rw [Function.update_self]
      cases n with
      | zero => exact hn.elim
      | succ n => exact hn _
    · rw [Function.update_of_ne hj]
      exact hn

/-- A thread that has as many turns as it makes calls comes to its end. -/
theorem exists_result {n : ℕ} {sched : List ι} (hn : (P.thread i).Within n)
    (hc : n ≤ sched.count i) : ∃ a, (P.run h sched).result i = some a := by
  induction sched generalizing P n with
  | nil =>
    obtain rfl : n = 0 := by simpa using hc
    cases hi : P.thread i with
    | ret a => exact ⟨a, result_eq_some.2 hi⟩
    | call c k =>
      rw [hi] at hn
      exact hn.elim
  | cons j sched ih =>
    refine ih (within_step hn) ?_
    rw [List.count_cons] at hc
    by_cases hij : i = j
    · simp only [hij, if_true, beq_self_eq_true] at hc ⊢
      omega
    · have hji : (j == i) = false := by simpa using Ne.symm hij
      simp only [hij, hji, if_false] at hc ⊢
      simpa using hc

/-! ## Bad calls -/

theorem result_step (hv : P.result j = some a) : (P.step h i).result j = some a := by
  cases hi : P.thread i with
  | ret a' => rwa [step_of_ret hi]
  | call c k =>
    have hj : j ≠ i := by
      rintro rfl
      rw [result_eq_some, hi] at hv
      cases hv
    rw [step_of_call hi, result_eq_some]
    dsimp only
    rw [Function.update_of_ne hj]
    exact result_eq_some.1 hv

theorem result_run {sched : List ι} (hv : P.result j = some a) :
    (P.run h sched).result j = some a := by
  induction sched generalizing P with
  | nil => exact hv
  | cons i sched ih => exact ih (result_step hv)

section StopsAt

variable {bad : ι → Event C R S → Prop} {v : ι → α}

theorem stopsAt_step (hP : ∀ i, (P.thread i).StopsAt (h i) (bad i) (v i)) (j : ι) :
    ((P.step h i).thread j).StopsAt (h j) (bad j) (v j) := by
  cases hi : P.thread i with
  | ret a =>
    rw [step_of_ret hi]
    exact hP j
  | call c k =>
    rw [step_of_call hi]
    dsimp only
    by_cases hj : j = i
    · subst hj
      have hcall := hP j
      rw [hi] at hcall
      rw [Function.update_self]
      exact hcall.2 _
    · rw [Function.update_of_ne hj]
      exact hP j

/-- A thread that has made a bad call has come to its end. -/
theorem result_of_mem_log {sched : List ι} (hP : ∀ i, (P.thread i).StopsAt (h i) (bad i) (v i))
    {x : ι × Event C R S} (hx : x ∈ P.log h sched) (hb : bad x.1 x.2) :
    (P.run h sched).result x.1 = some (v x.1) := by
  induction sched generalizing P with
  | nil => exact absurd hx List.not_mem_nil
  | cons i sched ih =>
    cases hi : P.thread i with
    | ret a =>
      rw [log_cons_of_ret hi] at hx
      exact ih (stopsAt_step hP) hx
    | call c k =>
      rw [log_cons_of_call hi, List.mem_cons] at hx
      rcases hx with rfl | hx
      · have hcall := hP i
        rw [hi] at hcall
        have hv : (P.step h i).result i = some (v i) := by
          rw [result_eq_some, thread_step_of_call hi]
          exact hcall.1 _ hb
        show ((P.step h i).run h sched).result i = some (v i)
        exact result_run hv
      · exact ih (stopsAt_step hP) hx

/-- A thread makes one bad call at most. -/
theorem eq_of_mem_log {sched : List ι} (hP : ∀ i, (P.thread i).StopsAt (h i) (bad i) (v i))
    {x y : ι × Event C R S} (hx : x ∈ P.log h sched) (hy : y ∈ P.log h sched) (hxy : x.1 = y.1)
    (hbx : bad x.1 x.2) (hby : bad y.1 y.2) : x = y := by
  induction sched generalizing P with
  | nil => exact absurd hx List.not_mem_nil
  | cons i sched ih =>
    cases hi : P.thread i with
    | ret a =>
      rw [log_cons_of_ret hi] at hx hy
      exact ih (stopsAt_step hP) hx hy
    | call c k =>
      have hcall := hP i
      rw [hi] at hcall
      have hlast : bad i ⟨P.state, c, (h i c P.state).1⟩ →
          ∀ z ∈ (P.step h i).log h sched, z.1 ≠ i := fun hb z hz =>
        ne_of_mem_log ((thread_step_of_call hi).trans (hcall.1 _ hb)) hz
      rw [log_cons_of_call hi, List.mem_cons] at hx hy
      rcases hx with rfl | hx <;> rcases hy with rfl | hy
      · rfl
      · exact absurd hxy.symm (hlast hbx y hy)
      · exact absurd hxy (hlast hby x hx)
      · exact ih (stopsAt_step hP) hx hy

end StopsAt

/-- A thread that has returned `a` has made a good call. -/
theorem exists_of_result {good : Event C R S → Prop} {sched : List ι}
    (hP : (P.thread i).Earns (h i) good a) (hv : (P.run h sched).result i = some a) :
    ∃ x ∈ P.log h sched, x.1 = i ∧ good x.2 := by
  induction sched generalizing P with
  | nil =>
    have hret : P.thread i = .ret a := result_eq_some.1 hv
    rw [hret] at hP
    exact absurd rfl hP
  | cons j sched ih =>
    cases hj : P.thread j with
    | ret b =>
      rw [log_cons_of_ret hj]
      exact ih (by rwa [step_of_ret hj]) hv
    | call c k =>
      rw [log_cons_of_call hj, List.exists_mem_cons_iff]
      by_cases hij : i = j
      · subst hij
        rw [hj] at hP
        by_cases hg : good ⟨P.state, c, (h i c P.state).1⟩
        · exact Or.inl ⟨rfl, hg⟩
        · exact Or.inr (ih (by rw [thread_step_of_call hj]; exact hP _ hg) hv)
      · exact Or.inr (ih (by rwa [thread_step_of_ne hij]) hv)

/-! ## The log -/

/-- The calls of a thread among those of the others. -/
theorem traces_log (P : Pool ι C R S α) (sched : List ι) (i : ι) :
    (P.thread i).Traces (h i) (((P.log h sched).filter (·.1 = i)).map Prod.snd) := by
  induction sched generalizing P with
  | nil => exact traces_nil _
  | cons j sched ih =>
    cases hj : P.thread j with
    | ret b =>
      rw [log_cons_of_ret hj, step_of_ret hj]
      exact ih P
    | call c k =>
      rw [log_cons_of_call hj]
      by_cases hij : j = i
      · subst hij
        rw [List.filter_cons_of_pos (by simp), List.map_cons, hj]
        refine ⟨P.state, rfl, ?_⟩
        rw [← thread_step_of_call hj]
        exact ih (P.step h j)
      · rw [List.filter_cons_of_neg (by simpa using hij), ← thread_step_of_ne (Ne.symm hij)]
        exact ih (P.step h j)

/-- A call finds the state that the calls before it have left. -/
theorem before_of_log {sched : List ι} {l₁ l₂ : List (ι × Event C R S)} {x : ι × Event C R S}
    (hlog : P.log h sched = l₁ ++ x :: l₂) :
    x.2.before = l₁.foldl (fun s y => (h y.1 y.2.call s).2) P.state := by
  induction sched generalizing P l₁ with
  | nil => simp [log] at hlog
  | cons i sched ih =>
    cases hi : P.thread i with
    | ret b =>
      rw [log_cons_of_ret hi, step_of_ret hi] at hlog
      exact ih hlog
    | call c k =>
      rw [log_cons_of_call hi] at hlog
      cases l₁ with
      | nil =>
        obtain ⟨rfl, -⟩ := List.cons.inj hlog
        rfl
      | cons y l₁ =>
        obtain ⟨rfl, hrest⟩ := List.cons.inj hlog
        rw [ih hrest, step_of_call hi]
        rfl

end Pool

end YazzyPreload

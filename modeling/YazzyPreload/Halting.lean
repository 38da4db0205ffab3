import Mathlib.Computability.StateTransition
import Mathlib.Data.Fintype.EquivFin
import Mathlib.Order.WellFounded

/-!
# Where a chain of steps ends

A partial function is applied again and again.  On finitely many states this ends unless it comes to
a state that comes back (`dom_eval_iff_no_cycle`), and a chain that follows another one ends when
that one does (`dom_eval_follows`).
-/

namespace YazzyPreload

open Relation StateTransition

variable {σ τ : Type*} {f : σ → Option σ} {g : τ → Option τ} {a b : σ}

theorem dom_eval_iff : (eval f a).Dom ↔ ∃ b, Reaches f a b ∧ f b = none := by
  rw [Part.dom_iff_mem]
  exact exists_congr fun _ => mem_eval

theorem dom_eval_of_none (h : f a = none) : (eval f a).Dom :=
  dom_eval_iff.2 ⟨a, ReflTransGen.refl, h⟩

theorem dom_eval_of_some (h : f a = some b) : (eval f a).Dom ↔ (eval f b).Dom := by
  rw [reaches_eval (ReflTransGen.single h)]

/-- From a state that comes back there is no way out. -/
theorem reaches_cycle {c : σ} (h : Reaches₁ f b b) (hbc : Reaches f b c) : Reaches f c b := by
  induction hbc with
  | refl => exact ReflTransGen.refl
  | tail _ hd ih => exact reaches₁_fwd (TransGen.trans_right ih h) hd

theorem not_dom_eval_of_cycle (h : Reaches₁ f b b) (hab : Reaches f a b) : ¬ (eval f a).Dom := by
  rw [reaches_eval hab, dom_eval_iff]
  rintro ⟨c, hbc, hc⟩
  obtain ⟨d, hd, -⟩ := TransGen.head'_iff.1 (TransGen.trans_right (reaches_cycle h hbc) h)
  rw [hc] at hd
  cases hd

/-- On finitely many states a chain ends unless it comes to one that comes back. -/
theorem dom_eval_iff_no_cycle [Finite σ] :
    (eval f a).Dom ↔ ∀ b, Reaches f a b → ¬ Reaches₁ f b b := by
  refine ⟨fun hdom b hab hb => not_dom_eval_of_cycle hb hab hdom, fun hno => ?_⟩
  -- the last state in the order in which they are reached has no successor
  let r (x y : {b // Reaches f a b}) : Prop := Reaches₁ f y.1 x.1
  have : IsTrans _ r := ⟨fun _ _ _ hxy hyz => TransGen.trans hyz hxy⟩
  have : Std.Irrefl r := ⟨fun x hx => hno x.1 x.2 hx⟩
  have hwf : WellFounded r := Finite.wellFounded_of_trans_of_irrefl r
  obtain ⟨⟨b, hab⟩, -, hmin⟩ := hwf.has_min Set.univ ⟨⟨a, ReflTransGen.refl⟩, trivial⟩
  refine dom_eval_iff.2 ⟨b, hab, ?_⟩
  rcases hb : f b with _ | c
  · rfl
  · exact (hmin ⟨c, hab.tail hb⟩ trivial (TransGen.single hb)).elim

/-- A chain ends when it follows another one and ends where that one does. -/
theorem dom_eval_follows (emb : τ → σ) (hsome : ∀ x y, g x = some y → f (emb x) = some (emb y))
    (hnone : ∀ x, g x = none → (eval f (emb x)).Dom) (x : τ) :
    (eval f (emb x)).Dom ↔ (eval g x).Dom := by
  constructor
  · intro h
    obtain ⟨b, hb⟩ := Part.dom_iff_mem.1 h
    refine evalInduction (C := fun a => ∀ x, emb x = a → (eval g x).Dom) hb ?_ x rfl
    rintro - - ih x rfl
    rcases hx : g x with _ | y
    · exact dom_eval_of_none hx
    · exact (dom_eval_of_some hx).2 (ih (emb y) (hsome x y hx) y rfl)
  · intro h
    obtain ⟨y, hxy, hy⟩ := dom_eval_iff.1 h
    have hreach : Reaches f (emb x) (emb y) := hxy.lift emb fun _ _ hs => hsome _ _ hs
    rw [reaches_eval hreach]
    exact hnone y hy

end YazzyPreload

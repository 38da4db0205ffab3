import Mathlib.Data.List.Basic
import Mathlib.Data.List.Induction

/-!
# A place for one thing

Some events clear a place, and others put a thing there if it is clear.  What is there after a list
of events is what has been put there first since the place was cleared for the last time:
`foldl_spec`.
-/

namespace YazzyPreload.Slot

variable {α β : Type}

section Events

variable (clears : β → Prop) (puts : β → α → Prop)

/-- The place is clear after the events: nothing has been put there since an event that clears it. -/
def Free (l : List β) : Prop :=
  ∃ l₁ z l₂, l = l₁ ++ z :: l₂ ∧ clears z ∧ ∀ x ∈ l₂, ∀ a, ¬puts x a

/-- The thing is there after the events: it has been put there when the place was clear, and has not
been cleared away. -/
def Left (l : List β) (a : α) : Prop :=
  ∃ l₁ y l₂, l = l₁ ++ y :: l₂ ∧ Free clears puts l₁ ∧ puts y a ∧ ∀ x ∈ l₂, ¬clears x

/-- What an event does to the place. -/
structure Acts (f : Option α → β → Option α) (x : β) : Prop where
  clear : clears x → ∀ o, f o x = none
  put : ∀ a, puts x a → ∀ o, f o x = o.or (some a)
  other : ¬clears x → (∀ a, ¬puts x a) → ∀ o, f o x = o

end Events

variable {clears clears' : β → Prop} {puts puts' : β → α → Prop} {f : Option α → β → Option α}
  {l : List β} {x : β} {a : α} {o : Option α}

theorem free_concat_iff :
    Free clears puts (l ++ [x]) ↔ clears x ∨ Free clears puts l ∧ ∀ a, ¬puts x a := by
  constructor
  · rintro ⟨l₁, z, l₂, h, hz, hl₂⟩
    rcases List.eq_nil_or_concat l₂ with rfl | ⟨l₂, y, rfl⟩
    · obtain ⟨-, hx⟩ := List.append_inj' h rfl
      cases hx
      exact Or.inl hz
    · rw [List.concat_eq_append] at h hl₂
      have happ : l₁ ++ z :: (l₂ ++ [y]) = (l₁ ++ z :: l₂) ++ [y] := by simp
      obtain ⟨rfl, hx⟩ := List.append_inj' (h.trans happ) rfl
      cases hx
      exact Or.inr ⟨⟨l₁, z, l₂, rfl, hz, fun w hw => hl₂ w (List.mem_append_left _ hw)⟩,
        hl₂ _ (List.mem_append_right _ List.mem_cons_self)⟩
  · rintro (hx | ⟨⟨l₁, z, l₂, rfl, hz, hl₂⟩, hx⟩)
    · exact ⟨l, x, [], rfl, hx, fun w hw => absurd hw List.not_mem_nil⟩
    · refine ⟨l₁, z, l₂ ++ [x], by simp, hz, fun w hw => ?_⟩
      rcases List.mem_append.1 hw with hw | hw
      · exact hl₂ w hw
      · rwa [List.mem_singleton.1 hw]

theorem left_concat_iff : Left clears puts (l ++ [x]) a ↔
    Left clears puts l a ∧ ¬clears x ∨ Free clears puts l ∧ puts x a := by
  constructor
  · rintro ⟨l₁, y, l₂, h, hfree, hy, hl₂⟩
    rcases List.eq_nil_or_concat l₂ with rfl | ⟨l₂, w, rfl⟩
    · obtain ⟨rfl, hx⟩ := List.append_inj' h rfl
      cases hx
      exact Or.inr ⟨hfree, hy⟩
    · rw [List.concat_eq_append] at h hl₂
      have happ : l₁ ++ y :: (l₂ ++ [w]) = (l₁ ++ y :: l₂) ++ [w] := by simp
      obtain ⟨rfl, hx⟩ := List.append_inj' (h.trans happ) rfl
      cases hx
      exact Or.inl ⟨⟨l₁, y, l₂, rfl, hfree, hy, fun w hw => hl₂ w (List.mem_append_left _ hw)⟩,
        hl₂ _ (List.mem_append_right _ List.mem_cons_self)⟩
  · rintro (⟨⟨l₁, y, l₂, rfl, hfree, hy, hl₂⟩, hx⟩ | ⟨hfree, hx⟩)
    · refine ⟨l₁, y, l₂ ++ [x], by simp, hfree, hy, fun w hw => ?_⟩
      rcases List.mem_append.1 hw with hw | hw
      · exact hl₂ w hw
      · rwa [List.mem_singleton.1 hw]
    · exact ⟨l, x, [], rfl, hfree, hx, fun w hw => absurd hw List.not_mem_nil⟩

/-- Events that have cleared the place once leave it clear, or with what has been put there. -/
theorem foldl_spec (hf : ∀ x ∈ l, Acts clears puts f x) (hl : ∃ x ∈ l, clears x) :
    (l.foldl f o = none ↔ Free clears puts l) ∧
      ∀ a, l.foldl f o = some a ↔ Left clears puts l a := by
  induction l using List.reverseRecOn with
  | nil =>
    obtain ⟨x, hx, -⟩ := hl
    exact absurd hx List.not_mem_nil
  | append_singleton l x ih =>
    have hx := hf x (List.mem_append_right _ List.mem_cons_self)
    rw [List.foldl_append, List.foldl_cons, List.foldl_nil, free_concat_iff]
    simp only [left_concat_iff]
    by_cases hc : clears x
    · have hno : ∀ a, ¬puts x a := fun a ha => by
        have := (hx.clear hc (some a)).symm.trans (hx.put a ha (some a))
        cases this
      rw [hx.clear hc]
      simp [hc, hno]
    · have hl' : ∃ y ∈ l, clears y := by
        obtain ⟨y, hy, hcy⟩ := hl
        rcases List.mem_append.1 hy with hy | hy
        · exact ⟨y, hy, hcy⟩
        · exact absurd (List.mem_singleton.1 hy ▸ hcy) hc
      obtain ⟨hfree, hleft⟩ := ih (fun y hy => hf y (List.mem_append_left _ hy)) hl'
      by_cases hp : ∃ a, puts x a
      · obtain ⟨b, hb⟩ := hp
        have hputs : ∀ a, puts x a ↔ b = a := fun a =>
          ⟨fun ha => Option.some.inj ((hx.put b hb none).symm.trans (hx.put a ha none)),
            fun e => e ▸ hb⟩
        rw [hx.put b hb]
        cases hv : l.foldl f o with
        | none =>
          rw [hv] at hfree hleft
          have hnot : ∀ a, ¬Left clears puts l a := fun a ha => nomatch (hleft a).2 ha
          simp [hc, hputs, hfree.1 rfl, hnot]
        | some c =>
          rw [hv] at hfree hleft
          have hnot : ¬Free clears puts l := fun h => nomatch hfree.2 h
          simp [hc, hnot, ← hleft]
      · rw [not_exists] at hp
        rw [hx.other hc hp]
        simp [hc, hp, hfree, hleft]

theorem Free.congr (hclears : ∀ x ∈ l, clears x ↔ clears' x)
    (hputs : ∀ x ∈ l, ∀ a, puts x a ↔ puts' x a) (h : Free clears puts l) :
    Free clears' puts' l := by
  obtain ⟨l₁, z, l₂, rfl, hz, hl₂⟩ := h
  refine ⟨l₁, z, l₂, rfl, (hclears z (by simp)).1 hz, fun x hx a ha => ?_⟩
  exact hl₂ x hx a ((hputs x (by simp [hx]) a).2 ha)

theorem Left.congr (hclears : ∀ x ∈ l, clears x ↔ clears' x)
    (hputs : ∀ x ∈ l, ∀ a, puts x a ↔ puts' x a) (h : Left clears puts l a) :
    Left clears' puts' l a := by
  obtain ⟨l₁, y, l₂, rfl, hfree, hy, hl₂⟩ := h
  refine ⟨l₁, y, l₂, rfl, ?_, (hputs y (by simp) a).1 hy, fun x hx hc => ?_⟩
  · exact hfree.congr (fun x hx => hclears x (List.mem_append_left _ hx)) fun x hx =>
      hputs x (List.mem_append_left _ hx)
  · exact hl₂ x hx ((hclears x (by simp [hx])).2 hc)

theorem left_congr (hclears : ∀ x ∈ l, clears x ↔ clears' x)
    (hputs : ∀ x ∈ l, ∀ a, puts x a ↔ puts' x a) :
    Left clears puts l a ↔ Left clears' puts' l a :=
  ⟨Left.congr hclears hputs, Left.congr (fun x hx => (hclears x hx).symm) fun x hx a =>
    (hputs x hx a).symm⟩

end YazzyPreload.Slot

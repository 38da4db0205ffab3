import Mathlib.Tactic.SplitIfs
import YazzyPreload.Pathname

/-!
# Scanning a list in a text

A list is written in a text with a separator between its entries.  A program that scans it in place
holds a pointer into the text, so that at each turn it sees not the entry but all of the `rests` from
there on: `takeWhile_rests` relates the two.

`scan` looks for a value and stops at the first entry that has it, or that cannot be read at all.
`Finds` and `Trips` say what this means.  Where two readings of the same entries differ, the scans
do only if there is a `Misread`.
-/

namespace YazzyPreload

/-! ## Entries -/

/-- What is left of a text after each separator. -/
def restsAfter (sep : Char) : Str → List Str
  | [] => []
  | c :: s => if c = sep then s :: restsAfter sep s else restsAfter sep s

/-- The texts that begin at the entries of a list. -/
def rests (sep : Char) (s : Str) : List Str := s :: restsAfter sep s

/-- The entry that a text begins with. -/
def entry (sep : Char) (s : Str) : Str := s.takeWhile (· ≠ sep)

theorem entry_rests (sep : Char) (s : Str) : (rests sep s).map (entry sep) = s.splitOn sep := by
  induction s with
  | nil => rfl
  | cons c s ih =>
    rw [List.splitOn, List.splitOnP_cons_eq_if_modifyHead]
    by_cases hc : c = sep
    · rw [if_pos (by simpa using hc), ← List.splitOn, ← ih]
      simp [rests, restsAfter, entry, hc]
    · rw [if_neg (by simpa using hc), ← List.splitOn, ← ih]
      simp [rests, restsAfter, entry, hc]

/-- What a text begins with is an entry, which a separator follows unless it is the last one. -/
theorem eq_entry_or (sep : Char) (s : Str) : s = entry sep s ∨ ∃ t, s = entry sep s ++ sep :: t := by
  induction s with
  | nil => exact .inl rfl
  | cons c s ih =>
    by_cases hc : c = sep
    · subst hc
      exact .inr ⟨s, by simp [entry]⟩
    · have he : entry sep (c :: s) = c :: entry sep s := by simp [entry, hc]
      rw [he]
      rcases ih with h | ⟨t, h⟩
      · exact .inl (congrArg (c :: ·) h)
      · exact .inr ⟨t, congrArg (c :: ·) h⟩

theorem restsAfter_append {sep : Char} {e : Str} (he : sep ∉ e) (s : Str) :
    restsAfter sep (e ++ sep :: s) = rests sep s := by
  induction e with
  | nil => simp [restsAfter, rests]
  | cons c e ih =>
    rw [List.mem_cons, not_or] at he
    rw [List.cons_append, restsAfter, if_neg (Ne.symm he.1), ih he.2]

/-! ## Scans -/

/-- How a scan ends. -/
inductive Scan (β : Type)
  | found
  | missing
  | malformed (b : β)
  deriving DecidableEq

section Scan

variable {α β γ : Type} [DecidableEq α]

/-- Looks for an entry that is read as `x`, up to the first that cannot be read. -/
def scan (read : β → Option α) (x : α) : List β → Scan β
  | [] => .missing
  | b :: l =>
    match read b with
    | none => .malformed b
    | some y => if y = x then .found else scan read x l

omit [DecidableEq α] in
/-- The scan for `x` goes past all of these. -/
def Passes (read : β → Option α) (x : α) (l : List β) : Prop := ∀ b ∈ l, ∃ y, read b = some y ∧ y ≠ x

/-- The first of these that the scan for `x` does not go past is `x`. -/
def Finds (read : β → Option α) (x : α) (l : List β) : Prop :=
  ∃ l₁ b l₂, l = l₁ ++ b :: l₂ ∧ Passes read x l₁ ∧ read b = some x

/-- The first of these that the scan for `x` does not go past cannot be read. -/
def Trips (read : β → Option α) (x : α) (l : List β) : Prop :=
  ∃ l₁ b l₂, l = l₁ ++ b :: l₂ ∧ Passes read x l₁ ∧ read b = none

variable {read read' : β → Option α} {x : α} {l l₁ l₂ : List β} {b : β}

theorem scan_append (h : Passes read x l₁) : scan read x (l₁ ++ l₂) = scan read x l₂ := by
  induction l₁ with
  | nil => rfl
  | cons b l₁ ih =>
    obtain ⟨y, hy, hne⟩ := h b List.mem_cons_self
    rw [List.cons_append, scan, hy]
    dsimp only
    rw [if_neg hne]
    exact ih fun c hc => h c (List.mem_cons_of_mem _ hc)

theorem scan_of_none (h : read b = none) : scan read x (b :: l) = .malformed b := by
  rw [scan, h]

theorem scan_of_some (h : read b = some x) : scan read x (b :: l) = .found := by
  rw [scan, h]
  exact if_pos rfl

theorem scan_spec (read : β → Option α) (x : α) (l : List β) :
    (scan read x l = .found ∧ Finds read x l) ∨
    (∃ b, scan read x l = .malformed b ∧ ∃ l₁ l₂, l = l₁ ++ b :: l₂ ∧ Passes read x l₁ ∧
      read b = none) ∨
    (scan read x l = .missing ∧ Passes read x l) := by
  induction l with
  | nil => exact .inr (.inr ⟨rfl, fun b hb => absurd hb List.not_mem_nil⟩)
  | cons b l ih =>
    cases hb : read b with
    | none => exact .inr (.inl ⟨b, scan_of_none hb, [], l, rfl, by simp [Passes], hb⟩)
    | some y =>
      by_cases hy : y = x
      · subst hy
        exact .inl ⟨scan_of_some hb, [], b, l, rfl, by simp [Passes], hb⟩
      · have hpass : ∀ l', Passes read x l' → Passes read x (b :: l') := fun l' h c hc => by
          rcases List.mem_cons.1 hc with rfl | hc
          · exact ⟨y, hb, hy⟩
          · exact h c hc
        have hscan : scan read x (b :: l) = scan read x l :=
          scan_append (hpass [] fun c hc => absurd hc List.not_mem_nil)
        rw [hscan]
        rcases ih with ⟨h, l₁, b', l₂, rfl, h₁, h₂⟩ | ⟨b', h, l₁, l₂, rfl, h₁, h₂⟩ | ⟨h, h₁⟩
        · exact .inl ⟨h, b :: l₁, b', l₂, rfl, hpass l₁ h₁, h₂⟩
        · exact .inr (.inl ⟨b', h, b :: l₁, l₂, rfl, hpass l₁ h₁, h₂⟩)
        · exact .inr (.inr ⟨h, hpass l h₁⟩)

theorem scan_eq_found : scan read x l = .found ↔ Finds read x l := by
  constructor
  · intro h
    rcases scan_spec read x l with ⟨-, hf⟩ | ⟨b, hb, -⟩ | ⟨hm, -⟩
    · exact hf
    · cases hb.symm.trans h
    · cases hm.symm.trans h
  · rintro ⟨l₁, b, l₂, rfl, h₁, h₂⟩
    rw [scan_append h₁, scan_of_some h₂]

theorem scan_eq_malformed :
    scan read x l = .malformed b ↔ ∃ l₁ l₂, l = l₁ ++ b :: l₂ ∧ Passes read x l₁ ∧ read b = none := by
  constructor
  · intro h
    rcases scan_spec read x l with ⟨hf, -⟩ | ⟨b', hb, h'⟩ | ⟨hm, -⟩
    · cases hf.symm.trans h
    · cases hb.symm.trans h
      exact h'
    · cases hm.symm.trans h
  · rintro ⟨l₁, l₂, rfl, h₁, h₂⟩
    rw [scan_append h₁, scan_of_none h₂]

theorem trips_iff : Trips read x l ↔ ∃ b, scan read x l = .malformed b := by
  simp only [scan_eq_malformed]
  exact ⟨fun ⟨l₁, b, l₂, h⟩ => ⟨b, l₁, l₂, h⟩, fun ⟨b, l₁, l₂, h⟩ => ⟨l₁, b, l₂, h⟩⟩

theorem not_finds_nil : ¬ Finds read x [] := by
  rw [← scan_eq_found]
  exact fun h => by cases h

theorem finds_cons_of_none (h : read b = none) : ¬ Finds read x (b :: l) := by
  rw [← scan_eq_found, scan_of_none h]
  exact fun h => by cases h

theorem finds_cons {y : α} (h : read b = some y) :
    Finds read x (b :: l) ↔ y = x ∨ Finds read x l := by
  rw [← scan_eq_found, ← scan_eq_found, scan, h]
  dsimp only
  split_ifs with hy <;> simp [hy]

/-- The same outcome, with the entry read by other means. -/
def Scan.map (f : β → γ) : Scan β → Scan γ
  | .found => .found
  | .missing => .missing
  | .malformed b => .malformed (f b)

theorem scan_map (read : γ → Option α) (x : α) (f : β → γ) (l : List β) :
    scan read x (l.map f) = (scan (fun b => read (f b)) x l).map f := by
  induction l with
  | nil => rfl
  | cons b l ih =>
    rw [List.map_cons, scan, scan]
    cases read (f b) with
    | none => rfl
    | some y =>
      dsimp only
      rw [ih]
      split_ifs <;> rfl

theorem finds_map {read : γ → Option α} {f : β → γ} :
    Finds read x (l.map f) ↔ Finds (fun b => read (f b)) x l := by
  rw [← scan_eq_found, ← scan_eq_found, scan_map]
  cases scan (fun b => read (f b)) x l <;> simp [Scan.map]

theorem trips_map {read : γ → Option α} {f : β → γ} :
    Trips read x (l.map f) ↔ Trips (fun b => read (f b)) x l := by
  rw [trips_iff, trips_iff, scan_map]
  cases scan (fun b => read (f b)) x l <;> simp [Scan.map]

/-! ## Two readings of one list -/

omit [DecidableEq α] in
/-- The scan for `x` with `read` ends at `b`, which only `read'` can read. -/
def Misread (read read' : β → Option α) (x : α) (l : List β) (b : β) (l₂ : List β) : Prop :=
  ∃ l₁, l = l₁ ++ b :: l₂ ∧ Passes read x l₁ ∧ read b = none ∧ read' b ≠ none

section Misread

variable (hext : ∀ b y, read b = some y → read' b = some y)

include hext

omit [DecidableEq α] in
theorem Passes.extend (h : Passes read x l) : Passes read' x l := fun b hb => by
  obtain ⟨y, hy, hne⟩ := h b hb
  exact ⟨y, hext b y hy, hne⟩

/-- With `read'` the scan goes on from an entry that it misreads. -/
theorem scan_of_misread (h : Misread read read' x l b l₂) :
    scan read x l = .malformed b ∧ scan read' x l = scan read' x (b :: l₂) := by
  obtain ⟨l₁, rfl, hpass, hb, -⟩ := h
  exact ⟨scan_eq_malformed.2 ⟨l₁, l₂, rfl, hpass, hb⟩, scan_append (hpass.extend hext)⟩

theorem scan_eq_or_misread (x : α) (l : List β) :
    scan read' x l = scan read x l ∨ ∃ b l₂, Misread read read' x l b l₂ := by
  rcases scan_spec read x l with ⟨h, l₁, b, l₂, rfl, h₁, h₂⟩ | ⟨b, h, l₁, l₂, rfl, h₁, h₂⟩ | ⟨h, h₁⟩
  · refine .inl ?_
    rw [h, scan_append (h₁.extend hext), scan_of_some (hext b x h₂)]
  · cases hb : read' b with
    | none =>
      refine .inl ?_
      rw [h, scan_append (h₁.extend hext), scan_of_none hb]
    | some y => exact .inr ⟨b, l₂, l₁, rfl, h₁, h₂, by simp [hb]⟩
  · refine .inl ?_
    have hend : scan read' x (l ++ []) = scan read' x [] := scan_append (h₁.extend hext)
    rw [List.append_nil] at hend
    rw [h, hend, scan]

end Misread

end Scan

end YazzyPreload

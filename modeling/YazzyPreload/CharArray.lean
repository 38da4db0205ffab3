import Mathlib.Data.List.Infix

/-!
# Character arrays

Arrays of a fixed number of characters, and the functions of `string.h` on them.  A string in an
array is what stands before a null character; a store past the end of the array has no result, and
neither has the reading of a string that nothing ends.

`exists_strcpy_iff` says when a string fits, the lemmas on `stringAt` what is in the array then.
-/

namespace YazzyPreload

/-- An array of `n` characters; `none` is the null character. -/
structure CharArray (α : Type) (n : ℕ) where
  cells : List (Option α)
  length_cells : cells.length = n

namespace CharArray

variable {α : Type} {n : ℕ}

/-- The string that characters begin with, if there is a null character among them. -/
def text : List (Option α) → Option (List α)
  | [] => none
  | none :: _ => some []
  | some c :: cs => (text cs).map (c :: ·)

/-- The string at an index. -/
def stringAt (a : CharArray α n) (i : ℕ) : Option (List α) := text (a.cells.drop i)

/-- Stores characters from an index on. -/
def write (a : CharArray α n) (i : ℕ) (cs : List (Option α)) : Option (CharArray α n) :=
  if h : i + cs.length ≤ n then
    some
      { cells := a.cells.take i ++ cs ++ a.cells.drop (i + cs.length)
        length_cells := by
          have hn := a.length_cells
          simp only [List.length_append, List.length_take, List.length_drop]
          omega }
  else none

/-- `strcpy`. -/
def strcpy (a : CharArray α n) (i : ℕ) (s : List α) : Option (CharArray α n) :=
  a.write i (s.map some ++ [none])

/-! ## Strings in an array -/

theorem text_eq_some_iff {cs : List (Option α)} {s : List α} :
    text cs = some s ↔ ∃ rest, cs = s.map some ++ none :: rest := by
  induction cs generalizing s with
  | nil => simp [text]
  | cons c cs ih =>
    cases c with
    | none => cases s <;> simp [text]
    | some c =>
      rw [text, Option.map_eq_some_iff]
      constructor
      · rintro ⟨t, ht, rfl⟩
        obtain ⟨rest, rfl⟩ := ih.1 ht
        exact ⟨rest, rfl⟩
      · rintro ⟨rest, h⟩
        cases s with
        | nil => cases h
        | cons d s =>
          obtain ⟨hc, hcs⟩ := List.cons.inj h
          cases hc
          exact ⟨s, ih.2 ⟨rest, hcs⟩, rfl⟩

variable {a b : CharArray α n} {i : ℕ} {s u v : List α} {cs : List (Option α)}

theorem stringAt_eq_some_iff :
    a.stringAt i = some s ↔ ∃ rest, a.cells.drop i = s.map some ++ none :: rest := text_eq_some_iff

/-- A string and its null character are in the array. -/
theorem lt_of_stringAt (h : a.stringAt i = some s) : i + s.length < n := by
  obtain ⟨rest, hr⟩ := stringAt_eq_some_iff.1 h
  have hlen := congrArg List.length hr
  have hn := a.length_cells
  simp only [List.length_drop, List.length_append, List.length_map, List.length_cons] at hlen
  omega

/-- The rest of a string is the string further on. -/
theorem stringAt_add (h : a.stringAt i = some (u ++ v)) : a.stringAt (i + u.length) = some v := by
  obtain ⟨rest, hr⟩ := stringAt_eq_some_iff.1 h
  refine stringAt_eq_some_iff.2 ⟨rest, ?_⟩
  rw [← List.drop_drop, hr, List.map_append, List.append_assoc]
  exact List.drop_left' (List.length_map _)

/-! ## Stores -/

theorem write_eq_some_iff : a.write i cs = some b ↔
    i + cs.length ≤ n ∧ b.cells = a.cells.take i ++ cs ++ a.cells.drop (i + cs.length) := by
  rw [write]
  split_ifs with h
  · rw [and_iff_right h, Option.some_inj]
    constructor
    · rintro rfl
      rfl
    · intro hb
      cases b
      cases hb
      rfl
  · exact iff_of_false (by simp) fun hb => h hb.1

theorem exists_write_iff : (∃ b, a.write i cs = some b) ↔ i + cs.length ≤ n := by
  rw [write]
  split_ifs with h <;> simp [h]

theorem exists_strcpy_iff : (∃ b, a.strcpy i s = some b) ↔ i + s.length < n := by
  rw [strcpy, exists_write_iff, List.length_append, List.length_map, List.length_singleton]
  omega

/-- What is before the index stays, and what is stored follows it. -/
theorem drop_write (h : a.write i cs = some b) {j : ℕ} (hj : j ≤ i) :
    b.cells.drop j =
      (a.cells.drop j).take (i - j) ++ cs ++ a.cells.drop (i + cs.length) := by
  obtain ⟨hfit, hb⟩ := write_eq_some_iff.1 h
  have hlen : (a.cells.take i).length = i := by
    rw [List.length_take, a.length_cells]
    omega
  rw [hb, List.append_assoc, List.drop_append_of_le_length (by omega), List.drop_take,
    List.append_assoc]

/-- What comes after the stored characters stays. -/
theorem getElem?_write (h : a.write i cs = some b) {k : ℕ} (hk : i + cs.length ≤ k) :
    b.cells[k]? = a.cells[k]? := by
  obtain ⟨hfit, hb⟩ := write_eq_some_iff.1 h
  have hlen : (a.cells.take i ++ cs).length = i + cs.length := by
    rw [List.length_append, List.length_take, a.length_cells]
    omega
  rw [hb, List.getElem?_append_right (by omega), List.getElem?_drop, hlen]
  congr 1
  omega

/-- Characters stored without a null character are a string when there happens to be one after them. -/
theorem stringAt_write (h : a.write 0 (s.map some) = some b)
    (hnull : a.cells[s.length]? = some none) : b.stringAt 0 = some s := by
  obtain ⟨hlt, hget⟩ := List.getElem?_eq_some_iff.1 hnull
  have hd := drop_write h le_rfl
  rw [Nat.sub_self, List.take_zero, List.nil_append, Nat.zero_add, List.length_map,
    List.drop_eq_getElem_cons hlt, hget] at hd
  exact stringAt_eq_some_iff.2 ⟨_, hd⟩

theorem stringAt_strcpy (h : a.strcpy i s = some b) : b.stringAt i = some s := by
  have hd := drop_write h le_rfl
  rw [Nat.sub_self, List.take_zero, List.nil_append, List.append_assoc] at hd
  exact stringAt_eq_some_iff.2 ⟨_, hd⟩

/-- A string that is copied into another one takes the place of its rest. -/
theorem stringAt_strcpy_append (ha : a.stringAt i = some (u ++ v))
    (h : a.strcpy (i + u.length) s = some b) : b.stringAt i = some (u ++ s) := by
  obtain ⟨rest, hr⟩ := stringAt_eq_some_iff.1 ha
  have hd := drop_write h (Nat.le_add_right i u.length)
  have hu : (a.cells.drop i).take (i + u.length - i) = u.map some := by
    rw [hr, Nat.add_sub_cancel_left, List.map_append, List.append_assoc]
    exact List.take_left' (List.length_map _)
  rw [hu, List.append_assoc, List.append_assoc, ← List.append_assoc, ← List.map_append] at hd
  exact stringAt_eq_some_iff.2 ⟨_, hd⟩

end CharArray

/-! ## Searching -/

section Search

variable {α : Type} {t s pre post pre' post' : List α}

/-- The text is cut around the leftmost occurrence of `t` in it. -/
structure Leftmost (t s pre post : List α) : Prop where
  eq : s = pre ++ t ++ post
  le : ∀ pre' post', s = pre' ++ t ++ post' → pre.length ≤ pre'.length

/-- There is only one. -/
theorem Leftmost.unique (h : Leftmost t s pre post) (h' : Leftmost t s pre' post') :
    pre = pre' ∧ post = post' := by
  have hlen : pre.length = pre'.length := le_antisymm (h.le _ _ h'.eq) (h'.le _ _ h.eq)
  have heq := h.eq.symm.trans h'.eq
  rw [List.append_assoc, List.append_assoc] at heq
  obtain ⟨hpre, hrest⟩ := List.append_inj heq hlen
  exact ⟨hpre, List.append_cancel_left hrest⟩

theorem Leftmost.infix (h : Leftmost t s pre post) : t <:+: s := ⟨pre, post, h.eq.symm⟩

variable [DecidableEq α] {i : ℕ}

/-- `strstr`: the index of the first occurrence of `t` in `s`. -/
def strstr (t s : List α) : Option ℕ := s.tails.findIdx? t.isPrefixOf

theorem strstr_eq_none_iff : strstr t s = none ↔ ¬ t <:+: s := by
  rw [strstr, List.findIdx?_eq_none_iff]
  simp only [List.mem_tails, Bool.eq_false_iff, Ne, List.isPrefixOf_iff_prefix]
  rw [List.infix_iff_prefix_suffix]
  exact ⟨fun h ⟨u, hp, hs⟩ => h u hs hp, fun h u hs hp => h ⟨u, hp, hs⟩⟩

/-- `strstr` finds the leftmost occurrence. -/
theorem exists_leftmost_of_strstr (h : strstr t s = some i) :
    ∃ pre post, Leftmost t s pre post ∧ pre.length = i := by
  simp only [strstr, List.findIdx?_eq_some_iff_getElem, List.length_tails, List.getElem_tails,
    List.isPrefixOf_iff_prefix, Nat.lt_succ_iff, exists_prop] at h
  obtain ⟨hi, ⟨post, hpost⟩, hfirst⟩ := h
  have hlen : (s.take i).length = i := List.length_take_of_le hi
  refine ⟨s.take i, post, ⟨?_, fun pre' post' hs => ?_⟩, hlen⟩
  · rw [List.append_assoc, hpost, List.take_append_drop]
  · rw [hlen]
    by_contra hlt
    refine hfirst pre'.length (by omega) ⟨post', ?_⟩
    rw [hs, List.append_assoc, List.drop_left]

end Search

end YazzyPreload

import Mathlib.Data.List.Basic
import Mathlib.Logic.Function.Basic

/-!
# A file that is open more than once

A file has one content, and every description that it is open through has an offset of its own.
What is written through a description moves its own offset only (`offset_writes`); what is written
through one that is at the end, and through no other, is added to the content (`content_writes`).
-/

namespace YazzyPreload

/-- The content of a file, and how far each description is in it. -/
structure SharedFile (α D : Type) where
  content : List α
  offset : D → ℕ

/-! ## What is sent where -/

/-- Of the texts that are written, those that go where `p` says, in order. -/
def sent {α K : Type} (p : K → Bool) (ws : List (K × List α)) : List α :=
  (ws.filter fun w => p w.1).flatMap Prod.snd

section Sent

variable {α K : Type} {p q : K → Bool} {w : K × List α} {ws : List (K × List α)}

@[simp] theorem sent_nil (p : K → Bool) : sent p ([] : List (K × List α)) = [] := rfl

theorem sent_cons_of_pos (h : p w.1 = true) : sent p (w :: ws) = w.2 ++ sent p ws := by
  rw [sent, List.filter_cons_of_pos (by simpa using h), List.flatMap_cons]
  rfl

theorem sent_cons_of_neg (h : p w.1 = false) : sent p (w :: ws) = sent p ws := by
  rw [sent, List.filter_cons_of_neg (by simp [h])]
  rfl

theorem sent_eq_nil_iff : sent p ws = [] ↔ ∀ w ∈ ws, p w.1 = true → w.2 = [] := by
  rw [sent, List.flatMap_eq_nil_iff]
  simp only [List.mem_filter, and_imp]

theorem length_sent (hqp : ∀ k, q k = true → p k = true) (ws : List (K × List α)) :
    (sent p ws).length = (sent q ws).length + (sent (fun k => p k && !q k) ws).length := by
  induction ws with
  | nil => rfl
  | cons w ws ih =>
    cases hq : q w.1 with
    | true =>
      rw [sent_cons_of_pos (hqp _ hq), sent_cons_of_pos hq, sent_cons_of_neg (by simp [hq]),
        List.length_append, List.length_append, ih, Nat.add_assoc]
    | false =>
      rw [sent_cons_of_neg hq]
      cases hp : p w.1 with
      | true =>
        rw [sent_cons_of_pos hp, sent_cons_of_pos (by simp [hp, hq]), List.length_append,
          List.length_append, ih, Nat.add_left_comm]
      | false => rw [sent_cons_of_neg hp, sent_cons_of_neg (by simp [hp]), ih]

/-- Fewer places get as much just when nothing is sent to the other ones. -/
theorem sent_eq_iff (hqp : ∀ k, q k = true → p k = true) :
    sent p ws = sent q ws ↔ ∀ w ∈ ws, p w.1 = true → q w.1 = false → w.2 = [] := by
  constructor
  · intro h w hw hp hq
    have hlen := length_sent hqp ws
    rw [h, Nat.left_eq_add, List.length_eq_zero_iff, sent_eq_nil_iff] at hlen
    exact hlen w hw (by rw [hp, hq]; rfl)
  · intro h
    induction ws with
    | nil => rfl
    | cons w ws ih =>
      rw [List.forall_mem_cons] at h
      cases hp : p w.1 with
      | false =>
        have hq : q w.1 = false := Bool.eq_false_iff.2 fun e => by simp [hqp _ e] at hp
        rw [sent_cons_of_neg hp, sent_cons_of_neg hq, ih h.2]
      | true =>
        cases hq : q w.1 with
        | true => rw [sent_cons_of_pos hp, sent_cons_of_pos hq, ih h.2]
        | false => rw [sent_cons_of_pos hp, sent_cons_of_neg hq, h.1 hp hq, List.nil_append, ih h.2]

end Sent

/-! ## Writing -/

namespace SharedFile

variable {α D : Type} [DecidableEq D]

/-- The file is opened anew through `d`, at its beginning, and cut if `cut` says so. -/
def reopen (f : SharedFile α D) (d : D) (cut : Bool) : SharedFile α D :=
  ⟨if cut then [] else f.content, Function.update f.offset d 0⟩

/-- A text takes the place of what is at the offset of `d`.  There is `blank` where there was
nothing before. -/
def write (blank : α) (f : SharedFile α D) (d : D) (s : List α) : SharedFile α D :=
  if s = [] then f
  else
    ⟨f.content.take (f.offset d) ++ List.replicate (f.offset d - f.content.length) blank ++ s ++
        f.content.drop (f.offset d + s.length),
      Function.update f.offset d (f.offset d + s.length)⟩

/-- Writes to descriptors, one after the other; `desc` has the description of each that is one of
the file. -/
def writes {K : Type} (blank : α) (desc : K → Option D) (f : SharedFile α D) :
    List (K × List α) → SharedFile α D
  | [] => f
  | (k, s) :: ws =>
    match desc k with
    | none => f.writes blank desc ws
    | some d => (f.write blank d s).writes blank desc ws

variable {K : Type} {blank : α} {desc : K → Option D} {f : SharedFile α D} {d e : D} {s : List α}
  {ws : List (K × List α)}

@[simp] theorem write_nil (f : SharedFile α D) (d : D) : f.write blank d [] = f := if_pos rfl

theorem offset_write_self (f : SharedFile α D) (d : D) (s : List α) :
    (f.write blank d s).offset d = f.offset d + s.length := by
  rw [write]
  split_ifs with h
  · simp [h]
  · exact Function.update_self ..

theorem offset_write_of_ne (h : e ≠ d) : (f.write blank d s).offset e = f.offset e := by
  rw [write]
  split_ifs
  · rfl
  · exact Function.update_of_ne h ..

theorem content_write (h : f.offset d = f.content.length) :
    (f.write blank d s).content = f.content ++ s := by
  rw [write]
  split_ifs with hs
  · rw [hs, List.append_nil]
  · simp [h]

/-- Every description has moved by what was written through it. -/
theorem offset_writes (f : SharedFile α D) (e : D) (ws : List (K × List α)) :
    (f.writes blank desc ws).offset e = f.offset e + (sent (desc · = some e) ws).length := by
  induction ws generalizing f with
  | nil => rfl
  | cons w ws ih =>
    rw [writes]
    cases hd : desc w.1 with
    | none => rw [ih, sent_cons_of_neg (by simp [hd])]
    | some d =>
      rw [ih]
      by_cases h : d = e
      · subst h
        rw [offset_write_self, sent_cons_of_pos (by simp [hd]), List.length_append, Nat.add_assoc]
      · rw [offset_write_of_ne (Ne.symm h), sent_cons_of_neg (by simp [hd, h])]

/-- What is written through a description at the end, and through no other, is added. -/
theorem content_writes (hend : f.offset d = f.content.length)
    (hws : ∀ w ∈ ws, ∀ e, desc w.1 = some e → e ≠ d → w.2 = []) :
    (f.writes blank desc ws).content = f.content ++ sent (desc · = some d) ws := by
  induction ws generalizing f with
  | nil => rw [writes, sent_nil, List.append_nil]
  | cons w ws ih =>
    rw [List.forall_mem_cons] at hws
    rw [writes]
    cases he : desc w.1 with
    | none => rw [ih hend hws.2, sent_cons_of_neg (by simp [he])]
    | some e =>
      dsimp only
      by_cases h : e = d
      · subst h
        have hcontent : (f.write blank e w.2).content = f.content ++ w.2 := content_write hend
        rw [ih (by rw [offset_write_self, hcontent, hend, List.length_append]) hws.2, hcontent,
          sent_cons_of_pos (by simp [he]), List.append_assoc]
      · rw [hws.1 e he h, write_nil, ih hend hws.2, sent_cons_of_neg (by simp [he, h])]

end SharedFile

end YazzyPreload

import Mathlib.Data.List.DropRight

/-!
# Pathnames

Strings are lists of characters.  A pathname is read in two ways: the C library cuts it with
`dirname` and `basename`, which look at the text, and the kernel reads it as a list of components.
This file defines both and relates them: `segments_dirname` and `basename_eq` say what the two C
functions do to the components.
-/

namespace YazzyPreload

/-- C strings. -/
abbrev Str : Type := List Char

/-- A text that can be the name of a directory entry. -/
def Ordinary (s : Str) : Prop := s ≠ [] ∧ '/' ∉ s ∧ s ≠ ['.'] ∧ s ≠ ['.', '.']

instance (s : Str) : Decidable (Ordinary s) := inferInstanceAs (Decidable (_ ∧ _))

/-- The names of directory entries. -/
abbrev Name : Type := {s : Str // Ordinary s}

/-- A component of a pathname, as path resolution treats it. -/
inductive Comp
  | here
  | up
  | name (n : Name)
  deriving DecidableEq

/-- The component a non-empty text without slashes stands for. -/
def Comp.ofStr (s : Str) : Comp :=
  if h : Ordinary s then .name ⟨s, h⟩ else if s = ['.', '.'] then .up else .here

@[simp] theorem Comp.ofStr_name (n : Name) : Comp.ofStr n.1 = .name n := by
  rw [ofStr, dif_pos n.2]

theorem Comp.ofStr_eq_name {s : Str} {n : Name} (h : Comp.ofStr s = .name n) : s = n.1 := by
  rw [ofStr] at h
  split_ifs at h
  cases h
  rfl

/-- The non-empty texts between the slashes of a pathname. -/
def segments (s : Str) : List Str := (s.splitOn '/').filter (· ≠ [])

/-- The components of a pathname. -/
def comps (s : Str) : List Comp := (segments s).map Comp.ofStr

/-- The pathname starts with a slash. -/
def isAbs (s : Str) : Bool := s.head? = some '/'

/-- The pathname ends with a slash. -/
def slashed (s : Str) : Bool := s.getLast? = some '/'

/-- The components to look up: a trailing slash counts as a final dot. -/
def lookupComps (s : Str) : List Comp := comps s ++ if slashed s then [.here] else []

/-! ## Segments -/

@[simp] theorem segments_nil : segments [] = [] := rfl

theorem segments_append (a b : Str) : segments (a ++ '/' :: b) = segments a ++ segments b := by
  rw [segments, List.splitOn_append_cons_self, List.filter_append]
  rfl

theorem segments_slash_cons (b : Str) : segments ('/' :: b) = segments b := segments_append [] b

theorem segments_concat_slash (a : Str) : segments (a ++ ['/']) = segments a := by
  rw [segments_append, segments_nil, List.append_nil]

theorem segments_of_notMem {c : Str} (h : '/' ∉ c) (hc : c ≠ []) : segments c = [c] := by
  rw [segments, List.splitOn_eq_singleton h]
  simp [hc]

theorem segments_name (n : Name) : segments n.1 = [n.1] := segments_of_notMem n.2.2.1 n.2.1

theorem segments_append_name (a : Str) (n : Name) :
    segments (a ++ '/' :: n.1) = segments a ++ [n.1] := by
  rw [segments_append, segments_name]

theorem comps_eq_nil_iff {s : Str} : comps s = [] ↔ segments s = [] := List.map_eq_nil_iff

theorem isAbs_iff {s : Str} : isAbs s = true ↔ ∃ u, s = '/' :: u := by
  rw [isAbs, decide_eq_true_eq, List.head?_eq_some_iff]

theorem comps_name (n : Name) : comps n.1 = [.name n] := by
  rw [comps, segments_name, List.map_singleton, Comp.ofStr_name]

theorem isAbs_name (n : Name) : isAbs n.1 = false := by
  rw [Bool.eq_false_iff, Ne, isAbs_iff]
  rintro ⟨u, hu⟩
  exact n.2.2.1 (hu ▸ List.mem_cons_self)

theorem slashed_name (n : Name) : slashed n.1 = false := by
  rw [slashed, decide_eq_false_iff_not]
  exact fun e => n.2.2.1 (List.mem_of_getLast? e)

theorem isAbs_append {a : Str} (ha : a ≠ []) (b : Str) : isAbs (a ++ b) = isAbs a := by
  obtain ⟨c, u, rfl⟩ := List.exists_cons_of_ne_nil ha
  rfl

/-! ## Trailing slashes -/

/-- A pathname without its trailing slashes. -/
def stripSlashes (s : Str) : Str := s.rdropWhile (· = '/')

theorem segments_stripSlashes (s : Str) : segments (stripSlashes s) = segments s := by
  unfold stripSlashes
  induction s using List.reverseRecOn with
  | nil => rfl
  | append_singleton s c ih =>
    by_cases hc : c = '/'
    · rw [List.rdropWhile_concat_pos _ _ _ (by simpa using hc), ih, hc, segments_concat_slash]
    · rw [List.rdropWhile_concat_neg _ _ _ (by simpa using hc)]

theorem stripSlashes_eq_nil_iff {s : Str} : stripSlashes s = [] ↔ ∀ c ∈ s, c = '/' := by
  simp [stripSlashes, List.rdropWhile_eq_nil_iff]

theorem slashed_stripSlashes (s : Str) : slashed (stripSlashes s) = false := by
  by_cases h : stripSlashes s = []
  · rw [h]
    rfl
  · have hl := List.rdropWhile_last_not (fun c : Char => decide (c = '/')) s h
    rw [slashed, List.getLast?_eq_some_getLast h]
    simpa [stripSlashes] using hl

theorem stripSlashes_of_not_slashed {s : Str} (h : slashed s = false) : stripSlashes s = s := by
  rw [stripSlashes, List.rdropWhile_eq_self_iff]
  intro hs hc
  rw [slashed, List.getLast?_eq_some_getLast hs] at h
  simp_all

theorem isAbs_stripSlashes {s : Str} (h : stripSlashes s ≠ []) : isAbs (stripSlashes s) = isAbs s := by
  obtain ⟨t, ht⟩ : stripSlashes s <+: s := List.rdropWhile_prefix _ s
  conv_rhs => rw [← ht]
  exact (isAbs_append h t).symm

theorem segments_of_all_slash {s : Str} (h : ∀ c ∈ s, c = '/') : segments s = [] := by
  rw [← segments_stripSlashes, stripSlashes_eq_nil_iff.2 h, segments_nil]

/-! ## The C library's `dirname` and `basename` -/

/-- The directory part of a non-empty pathname without trailing slashes, up to and including its
last slash. -/
def dirPart (t : Str) : Str := t.rdropWhile (· ≠ '/')

/-- The text after the last slash. -/
def lastPart (t : Str) : Str := t.rtakeWhile (· ≠ '/')

/-- `dirname(3)`: the result for a pathname of slashes only keeps exactly two of them. -/
def dirname (s : Str) : Str :=
  let t := stripSlashes s
  if t = [] then
    if s = [] then ['.'] else if s.length = 2 then ['/', '/'] else ['/']
  else
    let p := dirPart t
    if p = [] then ['.']
    else if stripSlashes p = [] then if p.length = 2 then ['/', '/'] else ['/']
    else stripSlashes p

/-- `basename(3)`, the POSIX version. -/
def basename (s : Str) : Str :=
  let t := stripSlashes s
  if t = [] then if s = [] then ['.'] else ['/']
  else lastPart t

theorem dirPart_append_lastPart (t : Str) : dirPart t ++ lastPart t = t :=
  List.rdropWhile_append_rtakeWhile

theorem slash_notMem_lastPart (t : Str) : '/' ∉ lastPart t := by
  intro h
  simpa using List.mem_rtakeWhile_imp h

theorem dirPart_append_name {a c : Str} (hc : '/' ∉ c) : dirPart (a ++ '/' :: c) = a ++ ['/'] := by
  unfold dirPart
  induction c using List.reverseRecOn with
  | nil => exact List.rdropWhile_concat_neg _ _ _ (by simp)
  | append_singleton c x ih =>
    have hx : x ≠ '/' := fun h => hc (by simp [h])
    have : a ++ '/' :: (c ++ [x]) = (a ++ '/' :: c) ++ [x] := by simp
    rw [this, List.rdropWhile_concat_pos _ _ _ (by simpa using hx)]
    exact ih fun h => hc (List.mem_append_left _ h)

theorem slashed_dirPart {t : Str} (h : dirPart t ≠ []) : ∃ a, dirPart t = a ++ ['/'] := by
  have hl := List.rdropWhile_last_not (fun c : Char => decide (c ≠ '/')) t h
  refine ⟨(dirPart t).dropLast, ?_⟩
  have hc : (dirPart t).getLast h = '/' := by simpa [dirPart] using hl
  rw [← hc, List.dropLast_append_getLast]

theorem lastPart_ne_nil {t : Str} (ht : t ≠ []) (hs : slashed t = false) : lastPart t ≠ [] := by
  rw [lastPart, Ne, List.rtakeWhile_eq_nil_iff]
  intro h
  have := h ht
  rw [slashed, List.getLast?_eq_some_getLast ht] at hs
  simp_all

theorem segments_dirPart {t : Str} (ht : t ≠ []) (hs : slashed t = false) :
    segments t = segments (dirPart t) ++ [lastPart t] := by
  have hl := segments_of_notMem (slash_notMem_lastPart t) (lastPart_ne_nil ht hs)
  by_cases hp : dirPart t = []
  · have := dirPart_append_lastPart t
    rw [hp, List.nil_append] at this
    rw [hp, segments_nil, List.nil_append, ← hl, this]
  · obtain ⟨a, ha⟩ := slashed_dirPart hp
    have := dirPart_append_lastPart t
    rw [ha, List.append_assoc, List.singleton_append] at this
    rw [← this, segments_append, this, hl, ha, segments_concat_slash]

theorem isAbs_of_all_slash {p : Str} (hp : p ≠ []) (h : ∀ c ∈ p, c = '/') : isAbs p = true := by
  obtain ⟨x, u, rfl⟩ := List.exists_cons_of_ne_nil hp
  rw [h x List.mem_cons_self]
  rfl

theorem segments_eq_nil {s : Str} (h : segments s = []) : stripSlashes s = [] := by
  by_contra hne
  have := segments_dirPart hne (slashed_stripSlashes s)
  rw [segments_stripSlashes, h] at this
  simp at this

theorem isAbs_or_segments {p : Str} (hp : p ≠ []) : isAbs p = true ∨ segments p ≠ [] := by
  by_cases hs : segments p = []
  · exact Or.inl (isAbs_of_all_slash hp (stripSlashes_eq_nil_iff.1 (segments_eq_nil hs)))
  · exact Or.inr hs

theorem stripSlashes_ne_nil {s c : Str} {xs : List Str} (hs : segments s = xs ++ [c]) :
    stripSlashes s ≠ [] := by
  intro h0
  rw [segments_of_all_slash (stripSlashes_eq_nil_iff.1 h0)] at hs
  simp at hs

/-- The two parts of a pathname without its trailing slashes. -/
theorem parts_of_segments {s c : Str} {xs : List Str} (hs : segments s = xs ++ [c]) :
    xs = segments (dirPart (stripSlashes s)) ∧ c = lastPart (stripSlashes s) := by
  have hseg := segments_dirPart (stripSlashes_ne_nil hs) (slashed_stripSlashes s)
  rw [segments_stripSlashes, hs] at hseg
  obtain ⟨hxs, hc⟩ := List.append_inj' hseg rfl
  exact ⟨hxs, List.singleton_inj.1 hc⟩

/-- Cutting a pathname drops its last component, as long as something is left before it. -/
theorem segments_dirname {s c : Str} {xs : List Str} (hs : segments s = xs ++ [c])
    (h : isAbs s = true ∨ xs ≠ []) :
    segments (dirname s) = xs ∧ isAbs (dirname s) = isAbs s := by
  have ht := stripSlashes_ne_nil hs
  obtain ⟨hxs, -⟩ := parts_of_segments hs
  have happ := dirPart_append_lastPart (stripSlashes s)
  have habs := isAbs_stripSlashes ht
  simp only [dirname, if_neg ht]
  by_cases hp : dirPart (stripSlashes s) = []
  · exfalso
    rcases h with h | h
    · rw [← habs, isAbs_iff] at h
      obtain ⟨u, hu⟩ := h
      rw [hp, List.nil_append] at happ
      exact slash_notMem_lastPart (stripSlashes s) (by rw [happ, hu]; exact List.mem_cons_self)
    · exact h (by rw [hxs, hp, segments_nil])
  have hps : isAbs (dirPart (stripSlashes s)) = isAbs s := by
    rw [← habs]
    conv_rhs => rw [← happ]
    exact (isAbs_append hp _).symm
  rw [if_neg hp]
  by_cases hq : stripSlashes (dirPart (stripSlashes s)) = []
  · have hall := stripSlashes_eq_nil_iff.1 hq
    rw [if_pos hq, ← hps, isAbs_of_all_slash hp hall, hxs, segments_of_all_slash hall]
    split_ifs <;> exact ⟨rfl, rfl⟩
  · rw [if_neg hq, segments_stripSlashes, isAbs_stripSlashes hq, hps]
    exact ⟨hxs.symm, rfl⟩

/-- A relative pathname of one component is in the current directory. -/
theorem dirname_of_single {s c : Str} (hs : segments s = [c]) (h : isAbs s = false) :
    dirname s = ['.'] := by
  have hs' : segments s = [] ++ [c] := hs
  have ht := stripSlashes_ne_nil hs'
  obtain ⟨hxs, -⟩ := parts_of_segments hs'
  have hp : dirPart (stripSlashes s) = [] := by
    by_contra hp
    obtain ⟨a, ha⟩ := slashed_dirPart hp
    have happ := dirPart_append_lastPart (stripSlashes s)
    have hall : stripSlashes (dirPart (stripSlashes s)) = [] := by
      by_contra hq
      have := segments_dirPart hq (slashed_stripSlashes _)
      rw [segments_stripSlashes, ← hxs] at this
      simp at this
    have habs := isAbs_of_all_slash hp (stripSlashes_eq_nil_iff.1 hall)
    rw [← isAbs_append hp (lastPart (stripSlashes s)), happ, isAbs_stripSlashes ht, h] at habs
    exact Bool.false_ne_true habs
  simp only [dirname, if_neg ht, if_pos hp]

theorem basename_eq {s c : Str} {xs : List Str} (hs : segments s = xs ++ [c]) : basename s = c := by
  rw [basename, if_neg (stripSlashes_ne_nil hs)]
  exact (parts_of_segments hs).2.symm

/-- `dirname` leaves a trailing slash on the root only. -/
theorem segments_of_slashed_dirname {s : Str} (h : slashed (dirname s) = true) :
    segments (dirname s) = [] := by
  simp only [dirname] at h ⊢
  split_ifs at h ⊢ <;> first | rfl | exact absurd h (by decide) |
    exact absurd h (by rw [slashed_stripSlashes]; decide)

/-! ## Cutting an absolute pathname -/

theorem slash_isPrefix {s : Str} (h : isAbs s = true) : ['/'] <+: s := by
  obtain ⟨u, rfl⟩ := isAbs_iff.1 h
  exact ⟨u, rfl⟩

theorem isAbs_of_isPrefix {a s : Str} (ha : a ≠ []) (h : a <+: s) : isAbs a = isAbs s := by
  obtain ⟨t, rfl⟩ := h
  exact (isAbs_append ha t).symm

theorem length_dirPart_lt {t : Str} (ht : t ≠ []) (hs : slashed t = false) :
    (dirPart t).length < t.length := by
  have happ := congrArg List.length (dirPart_append_lastPart t)
  have hpos := List.length_pos_iff.2 (lastPart_ne_nil ht hs)
  rw [List.length_append] at happ
  omega

theorem dirPart_ne_nil {s : Str} (h : isAbs s = true) (ht : stripSlashes s ≠ []) :
    dirPart (stripSlashes s) ≠ [] := by
  intro hp
  have happ := dirPart_append_lastPart (stripSlashes s)
  obtain ⟨u, hu⟩ := isAbs_iff.1 ((isAbs_stripSlashes ht).trans h)
  rw [hp, List.nil_append] at happ
  refine slash_notMem_lastPart (stripSlashes s) ?_
  rw [happ, hu]
  exact List.mem_cons_self

/-- The text of slashes only that `dirname` has for the first directory. -/
theorem rootText_isPrefix {p : Str} (hp : p ≠ []) (h : stripSlashes p = []) :
    (if p.length = 2 then ['/', '/'] else ['/']) <+: p := by
  have hall := stripSlashes_eq_nil_iff.1 h
  split_ifs with hlen
  · match p, hlen with
    | [c, d], _ =>
      obtain rfl := hall c (by simp)
      obtain rfl := hall d (by simp)
      exact List.prefix_rfl
  · exact slash_isPrefix (isAbs_of_all_slash hp hall)

/-- The directory of an absolute pathname is the first part of its text. -/
theorem dirname_isPrefix {s : Str} (h : isAbs s = true) : dirname s <+: s := by
  have hs : s ≠ [] := by
    rintro rfl
    cases h
  have hpre : stripSlashes s <+: s := List.rdropWhile_prefix _ s
  by_cases ht : stripSlashes s = []
  · have hroot := rootText_isPrefix hs ht
    simpa only [dirname, if_pos ht, if_neg hs] using hroot
  · have hp := dirPart_ne_nil h ht
    have hpart : dirPart (stripSlashes s) <+: stripSlashes s := List.rdropWhile_prefix _ _
    refine List.IsPrefix.trans ?_ (hpart.trans hpre)
    simp only [dirname, if_neg ht, if_neg hp]
    by_cases hq : stripSlashes (dirPart (stripSlashes s)) = []
    · rw [if_pos hq]
      exact rootText_isPrefix hp hq
    · rw [if_neg hq]
      exact List.rdropWhile_prefix _ _

/-- It is shorter, unless there are only slashes. -/
theorem length_dirname_lt {s : Str} (h : isAbs s = true) (ht : stripSlashes s ≠ []) :
    (dirname s).length < s.length := by
  have hpart := length_dirPart_lt ht (slashed_stripSlashes s)
  have hstrip : (stripSlashes s).length ≤ s.length := (List.rdropWhile_prefix _ s).length_le
  have hp := dirPart_ne_nil h ht
  have hdir : (dirname s).length ≤ (dirPart (stripSlashes s)).length := by
    simp only [dirname, if_neg ht, if_neg hp]
    split_ifs with hq hlen
    · exact hlen.ge
    · exact List.length_pos_iff.2 hp
    · exact (List.rdropWhile_prefix _ _).length_le
  omega

theorem length_dirname_le (s : Str) : (dirname s).length ≤ max s.length 1 := by
  have hstrip : (stripSlashes s).length ≤ s.length := (List.rdropWhile_prefix _ s).length_le
  have hpart : (dirPart (stripSlashes s)).length ≤ (stripSlashes s).length :=
    (List.rdropWhile_prefix _ _).length_le
  have hstrip' : (stripSlashes (dirPart (stripSlashes s))).length ≤
      (dirPart (stripSlashes s)).length := (List.rdropWhile_prefix _ _).length_le
  simp only [dirname]
  split_ifs <;> first | omega | (simp only [List.length_cons, List.length_nil]; omega)

/-! ## Appending one component -/

theorem stripSlashes_append_of_notMem {a c : Str} (hc : c ≠ []) (h : '/' ∉ c) :
    stripSlashes (a ++ c) = a ++ c := by
  apply stripSlashes_of_not_slashed
  have hl : c.getLast hc ≠ '/' := fun e => h (by rw [← e]; exact List.getLast_mem hc)
  rw [slashed, List.getLast?_append_of_ne_nil _ hc, List.getLast?_eq_some_getLast hc]
  simpa using hl

theorem dirname_append {a c : Str} (hc : c ≠ []) (h : '/' ∉ c) (ha : a ≠ [])
    (hs : slashed a = false) : dirname (a ++ '/' :: c) = a := by
  have hstrip : stripSlashes (a ++ '/' :: c) = a ++ '/' :: c := by
    have := stripSlashes_append_of_notMem (a := a ++ ['/']) hc h
    simpa using this
  have hd : stripSlashes (a ++ ['/']) = a := by
    rw [stripSlashes, List.rdropWhile_concat_pos _ _ _ (by simp)]
    exact stripSlashes_of_not_slashed hs
  simp only [dirname, hstrip, dirPart_append_name h, hd]
  simp [ha]

theorem dirname_slash_name {c : Str} (hc : c ≠ []) (h : '/' ∉ c) : dirname ('/' :: c) = ['/'] := by
  have hstrip : stripSlashes ('/' :: c) = '/' :: c := stripSlashes_append_of_notMem (a := ['/']) hc h
  have hd : dirPart ('/' :: c) = ['/'] := dirPart_append_name (a := []) h
  simp only [dirname, hstrip, hd]
  rfl

theorem dirname_slash_slash_name {c : Str} (hc : c ≠ []) (h : '/' ∉ c) :
    dirname ('/' :: '/' :: c) = ['/', '/'] := by
  have hstrip : stripSlashes ('/' :: '/' :: c) = '/' :: '/' :: c :=
    stripSlashes_append_of_notMem (a := ['/', '/']) hc h
  have hd : dirPart ('/' :: '/' :: c) = ['/', '/'] := dirPart_append_name (a := ['/']) h
  simp only [dirname, hstrip, hd]
  rfl

end YazzyPreload

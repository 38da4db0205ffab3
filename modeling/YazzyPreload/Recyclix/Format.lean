import Mathlib.Tactic.FinCases
import YazzyPreload.Recyclix.Limit
import YazzyPreload.Recyclix.Selection

/-!
# Printing and reading `RECYCLER`

`BinDef` is a recycle bin as its user means it, and `printBins` writes a list of them in the format
of the README.  `readings_printBins` reads such a text back.
-/

namespace YazzyPreload.Recyclix

/-! ## Definitions of recycle bins -/

/-- `<N><UNIT>`. -/
structure Size where
  number : ℕ
  unit : SizeUnit
  deriving DecidableEq

def Size.print (z : Size) : Str := Nat.toDigits 10 z.number ++ [z.unit.letter]

def Size.bytes (z : Size) : ℤ := z.number * z.unit.bytes

/-- `<N><UNIT>[-<N><UNIT>]`. -/
structure SizeLimit where
  lower : Size
  upper : Option Size
  deriving DecidableEq

def SizeLimit.print (l : SizeLimit) : Str :=
  l.lower.print ++
    match l.upper with
    | none => []
    | some z => '-' :: z.print

/-- The upper limit in bytes, 0 if there is none. -/
def SizeLimit.max (l : SizeLimit) : ℤ :=
  match l.upper with
  | none => 0
  | some z => z.bytes

/-- An option. -/
inductive OptDef
  | size (l : SizeLimit)
  | exclude (pattern : Str)
  deriving DecidableEq

def OptDef.print : OptDef → Str
  | size l => l.print
  | exclude pattern => '!' :: pattern

/-- What the option says. -/
def OptDef.opt : OptDef → Opt
  | size l => .size l.lower.bytes l.max
  | exclude pattern => .exclude pattern

/-- `<DIR>[,<SIZE_LIMIT>][,!<EXCLUDE_PATTERN>]`, with the options in either order.  `path` is the
directory, or for a directory in the home directory the text after `~/`. -/
structure BinDef where
  underHome : Bool
  path : Str
  limit : Option SizeLimit
  exclude : Option Str
  excludeFirst : Bool
  deriving DecidableEq

namespace BinDef

variable (d : BinDef)

def options : List OptDef :=
  let sizes := d.limit.toList.map .size
  let excludes := d.exclude.toList.map .exclude
  if d.excludeFirst then excludes ++ sizes else sizes ++ excludes

/-- The directory as it is written. -/
def dirText : Str := if d.underHome then '~' :: '/' :: d.path else d.path

def print : Str := [','].intercalate (d.dirText :: d.options.map OptDef.print)

/-- The directory that is meant. -/
def dir (home : Option Str) : Str := if d.underHome then home.getD [] ++ '/' :: d.path else d.path

/-- The directory can be told. -/
def resolvable (home : Option Str) : Bool := !d.underHome || home.isSome

/-- The limits that are meant, for a file with the given pathname. -/
def limits (regcomp : Regcomp) (pathname : Str) : Limits where
  szMin := (d.limit.map fun l => l.lower.bytes).getD 1
  szMax := (d.limit.map SizeLimit.max).getD 0
  excluded := ((d.exclude.bind regcomp).map fun regexec => regexec pathname).getD false

/-- An absolute directory if it is not in the home directory, a lower limit that is not above the
upper one, and a valid pattern. -/
structure Valid (regcomp : Regcomp) : Prop where
  isAbs : d.underHome = false → isAbs d.path = true
  sane : ∀ l, d.limit = some l → l.max ≠ 0 → l.lower.bytes ≤ l.max
  pattern : ∀ r, d.exclude = some r → regcomp r ≠ none

/-- The directory and the pattern have no separators in them. -/
structure Plain : Prop where
  path : ':' ∉ d.path ∧ ',' ∉ d.path
  pattern : ∀ r, d.exclude = some r → ':' ∉ r ∧ ',' ∉ r

/-- Every number of a size fits an `int`. -/
structure Fits : Prop where
  lower : ∀ l, d.limit = some l → l.lower.number < 2 ^ 31
  upper : ∀ l z, d.limit = some l → l.upper = some z → z.number < 2 ^ 31

end BinDef

/-- A list of recycle bins in the format of the README. -/
def printBins (ds : List BinDef) : Str := [':'].intercalate (ds.map BinDef.print)

/-- What the items of a `RECYCLER` say, without those that are skipped. -/
def Env.readings (env : Env) (pathname recyclers : Str) : List Reading :=
  ((recyclers.splitOn ':').map (env.readItem pathname)).filter (· ≠ .skipped)

/-- The readings a list of recycle bins should have; those in a home directory that is not known
are skipped. -/
def Env.meant (env : Env) (pathname : Str) (ds : List BinDef) : List Reading :=
  (ds.filter fun d => d.resolvable env.home).map fun d =>
    .bin ⟨d.dir env.home, d.limits env.regcomp pathname⟩

/-- The options of an item, in the order in which the loop recognizes them. -/
def recognizeOptions : List Str → Option (List Opt)
  | [] => some []
  | [[]] => some []
  | o :: os => (recognizeOption o).bind fun opt => (recognizeOptions os).map (opt :: ·)

theorem readOptions_eq (regcomp : Regcomp) (pathname : Str) (os : List Str) (lim : Limits) :
    readOptions regcomp pathname os lim =
      (recognizeOptions os).bind fun opts => opts.foldlM (Limits.apply regcomp pathname) lim := by
  induction os generalizing lim with
  | nil => rfl
  | cons o os ih =>
    by_cases h0 : o = [] ∧ os = []
    · rw [h0.1, h0.2]
      rfl
    · have hs : recognizeOptions (o :: os) =
          (recognizeOption o).bind fun opt => (recognizeOptions os).map (opt :: ·) := by
        rw [recognizeOptions]
        exact fun e e' => h0 ⟨e, e'⟩
      rw [readOptions_cons h0, hs]
      cases recognizeOption o with
      | none => rfl
      | some opt =>
        simp only [Option.bind_some]
        cases hl : lim.apply regcomp pathname opt with
        | none => cases recognizeOptions os <;> simp [hl]
        | some lim' => cases h : recognizeOptions os <;> simp [hl, ih, h]

/-! ## Sizes -/

theorem ofLetter_letter (u : SizeUnit) : SizeUnit.ofLetter u.letter = some u := by
  cases u <;> decide

/-- A size as a text that matches `([0-9]+)([BkMG]?)`. -/
def Size.toText (z : Size) : SizeText where
  digits := Nat.toDigits 10 z.number
  unit := some z.unit.letter
  ne_nil := List.ne_nil_of_length_pos Nat.length_toDigits_pos
  isDigit _ := isDigit_of_mem_toDigits
  isUnit c h := by
    cases h
    rw [ofLetter_letter]
    rfl

theorem Size.bytes_toText (z : Size) : z.toText.bytes = z.bytes := by
  have hfactor : z.toText.factor = z.unit.bytes := by
    rw [SizeText.factor, toText, Option.bind_some, ofLetter_letter]
    rfl
  rw [SizeText.bytes, hfactor, bytes, ← digitsValue_toDigits z.number]
  rfl

theorem Size.readable {z : Size} (h : z.number < 2 ^ 31) : z.toText.Readable := by
  have hlen : (Nat.toDigits 10 z.number).length ≤ 10 :=
    (Nat.length_toDigits_le_iff (by decide) (by decide)).2 (by omega)
  rw [← digitsValue_toDigits z.number] at h
  exact ⟨h, Or.inl (le_trans hlen (by decide))⟩

def SizeLimit.toText (l : SizeLimit) : LimitText where
  lower := l.lower.toText
  upper := l.upper.map Size.toText

theorem SizeLimit.print_eq (l : SizeLimit) : l.print = l.toText.text := by
  rw [print, LimitText.text, toText]
  cases l.upper <;> rfl

theorem recognizeOption_size {l : SizeLimit} (hl : l.lower.number < 2 ^ 31)
    (hu : ∀ z, l.upper = some z → z.number < 2 ^ 31) :
    recognizeOption l.print = some (.size l.lower.bytes l.max) := by
  have hlow := l.lower.toText.read_eq_iff.2 (Size.readable hl)
  have hread := l.toText.recognizeOption_text
  rw [l.print_eq, hread, SizeLimit.toText, hlow, l.lower.bytes_toText, SizeLimit.max]
  cases h : l.upper with
  | none => rfl
  | some z =>
    have hupp := z.toText.read_eq_iff.2 (Size.readable (hu z h))
    rw [Option.map_some, Option.elim_some, hupp, z.bytes_toText]

theorem recognizeOption_exclude (pattern : Str) :
    recognizeOption ('!' :: pattern) = some (.exclude pattern) := rfl

/-! ## Separators -/

/-- What the items of `RECYCLER` and the parts of an item are separated by. -/
def IsSeparator (c : Char) : Prop := c = ':' ∨ c = ','

theorem notMem_intercalate {c x : Char} (hc : c ≠ x) {ls : List Str} (h : ∀ l ∈ ls, c ∉ l) :
    c ∉ [x].intercalate ls := by
  induction ls with
  | nil => exact List.not_mem_nil
  | cons l ls ih =>
    rw [List.forall_mem_cons] at h
    by_cases e : ls = []
    · rw [e, List.intercalate_singleton]
      exact h.1
    · rw [List.intercalate_cons_of_ne_nil e, List.mem_append, List.mem_append, not_or, not_or,
        List.mem_singleton]
      exact ⟨⟨h.1, hc⟩, ih h.2⟩

theorem intercalate_append_cons (x : Char) (a l : Str) (ls : List Str) :
    [x].intercalate ((a ++ l) :: ls) = a ++ [x].intercalate (l :: ls) := by
  by_cases e : ls = []
  · rw [e, List.intercalate_singleton, List.intercalate_singleton]
  · rw [List.intercalate_cons_of_ne_nil e, List.intercalate_cons_of_ne_nil e]
    simp only [List.append_assoc]

theorem notMem_size {c : Char} (hc : IsSeparator c) (z : Size) : c ∉ z.print := by
  intro h
  rcases List.mem_append.1 h with h | h
  · have := isDigit_of_mem_toDigits h
    rcases hc with rfl | rfl <;> exact absurd this (by decide)
  · rw [List.mem_singleton] at h
    cases hu : z.unit <;> rw [hu] at h <;> rcases hc with rfl | rfl <;> exact absurd h (by decide)

theorem notMem_limit {c : Char} (hc : IsSeparator c) (l : SizeLimit) : c ∉ l.print := by
  rw [SizeLimit.print, List.mem_append, not_or]
  refine ⟨notMem_size hc l.lower, ?_⟩
  cases l.upper with
  | none => exact List.not_mem_nil
  | some z =>
    rw [List.mem_cons, not_or]
    exact ⟨by rcases hc with rfl | rfl <;> decide, notMem_size hc z⟩

namespace BinDef

variable {d : BinDef}

theorem mem_options {o : OptDef} (h : o ∈ d.options) :
    (∃ l, d.limit = some l ∧ o = .size l) ∨ ∃ r, d.exclude = some r ∧ o = .exclude r := by
  rw [options] at h
  split_ifs at h <;> simp only [List.mem_append, List.mem_map, Option.mem_toList] at h <;>
    rcases h with ⟨x, hx, rfl⟩ | ⟨x, hx, rfl⟩ <;> simp_all

theorem Plain.option {c : Char} (hd : d.Plain) (hc : IsSeparator c) {o : OptDef}
    (ho : o ∈ d.options) : c ∉ o.print := by
  rcases mem_options ho with ⟨l, -, rfl⟩ | ⟨r, hr, rfl⟩
  · exact notMem_limit hc l
  · have := hd.pattern r hr
    rw [OptDef.print, List.mem_cons, not_or]
    rcases hc with rfl | rfl
    · exact ⟨by decide, this.1⟩
    · exact ⟨by decide, this.2⟩

theorem Plain.notMem_path {c : Char} (hd : d.Plain) (hc : IsSeparator c) : c ∉ d.path := by
  rcases hc with rfl | rfl
  · exact hd.path.1
  · exact hd.path.2

theorem Plain.notMem_dirText {c : Char} (hd : d.Plain) (hc : IsSeparator c) : c ∉ d.dirText := by
  rw [dirText]
  split_ifs
  · simp only [List.mem_cons, not_or]
    rcases hc with rfl | rfl <;> exact ⟨by decide, by decide, hd.notMem_path (by simp [IsSeparator])⟩
  · exact hd.notMem_path hc

theorem Plain.colon_notMem_print (hd : d.Plain) : ':' ∉ d.print := by
  refine notMem_intercalate (by decide) fun l hl => ?_
  rcases List.mem_cons.1 hl with rfl | hl
  · exact hd.notMem_dirText (Or.inl rfl)
  · obtain ⟨o, ho, rfl⟩ := List.mem_map.1 hl
    exact hd.option (Or.inl rfl) ho

/-! ## One item -/

variable {home : Option Str} {regcomp : Regcomp}

theorem dir_ne_nil (hv : d.Valid regcomp) : d.dir home ≠ [] := by
  rw [dir]
  split_ifs with hu
  · simp
  · rintro e
    have := hv.isAbs (by simpa using hu)
    rw [e] at this
    exact Bool.false_ne_true this

/-- The text of an item after `~/` is resolved. -/
theorem expandHome_print (hv : d.Valid regcomp) (hr : d.resolvable home = true) :
    expandHome home d.print = [','].intercalate (d.dir home :: d.options.map OptDef.print) := by
  rw [print, dirText, dir]
  by_cases hu : d.underHome = true
  · obtain ⟨h, rfl⟩ : ∃ h, home = some h := by
      simpa [resolvable, hu, Option.isSome_iff_exists] using hr
    have hp := intercalate_append_cons ',' ['~', '/'] d.path (d.options.map OptDef.print)
    have hq := intercalate_append_cons ',' (h ++ ['/']) d.path (d.options.map OptDef.print)
    simp only [List.cons_append, List.nil_append, List.append_assoc] at hp hq
    rw [if_pos hu, if_pos hu, hp, Option.getD_some, hq]
    simp [expandHome]
  · obtain ⟨u, hp⟩ := isAbs_iff.1 (hv.isAbs (by simpa using hu))
    have hq := intercalate_append_cons ',' ['/'] u (d.options.map OptDef.print)
    rw [List.singleton_append] at hq
    rw [if_neg hu, if_neg hu, hp, hq]
    simp [expandHome]

theorem expandHome_print_eq_nil (hr : d.resolvable home = false) :
    expandHome home d.print = [] := by
  rw [resolvable, Bool.or_eq_false_iff, Bool.not_eq_false', Option.isSome_eq_false_iff,
    Option.isNone_iff_eq_none] at hr
  have hp := intercalate_append_cons ',' ['~', '/'] d.path (d.options.map OptDef.print)
  simp only [List.cons_append, List.nil_append] at hp
  rw [print, dirText, if_pos hr.1, hr.2, hp]
  simp [expandHome]

theorem splitOn_expandHome (hd : d.Plain) (hv : d.Valid regcomp) (hr : d.resolvable home = true)
    (hh : ∀ h, home = some h → ',' ∉ h) :
    (expandHome home d.print).splitOn ',' = d.dir home :: d.options.map OptDef.print := by
  rw [expandHome_print hv hr]
  refine List.splitOn_intercalate ',' (fun l hl => ?_) (List.cons_ne_nil _ _)
  rcases List.mem_cons.1 hl with rfl | hl
  · have hp := hd.notMem_path (Or.inr rfl)
    rw [dir]
    split_ifs
    · cases home with
      | none => simpa using hp
      | some h => simpa [hp] using hh h rfl
    · exact hp
  · obtain ⟨o, ho, rfl⟩ := List.mem_map.1 hl
    exact hd.option (Or.inr rfl) ho

theorem Fits.recognizeOption (hf : d.Fits) {o : OptDef} (ho : o ∈ d.options) :
    recognizeOption o.print = some o.opt := by
  rcases mem_options ho with ⟨l, hl, rfl⟩ | ⟨r, hr, rfl⟩
  · exact recognizeOption_size (hf.lower l hl) fun z hz => hf.upper l z hl hz
  · exact recognizeOption_exclude r

theorem recognizeOptions_map {os : List OptDef}
    (h : ∀ o ∈ os, Recyclix.recognizeOption o.print = some o.opt) :
    recognizeOptions (os.map OptDef.print) = some (os.map OptDef.opt) := by
  induction os with
  | nil => rfl
  | cons o os ih =>
    rw [List.forall_mem_cons] at h
    have hne : o.print ≠ [] := by
      intro e
      rw [e] at h
      exact absurd h.1 (by simp [Recyclix.recognizeOption, szlimit, numLen, excludePattern])
    rw [List.map_cons, recognizeOptions, h.1, ih h.2]
    · rfl
    · exact fun e => absurd e hne

/-- The options of a bin, in either order, leave its limits. -/
theorem foldlM_apply (hv : d.Valid regcomp) (pathname : Str) :
    (d.options.map OptDef.opt).foldlM (Limits.apply regcomp pathname) .initial =
      some (d.limits regcomp pathname) := by
  have hsize : ∀ l lim, d.limit = some l → Limits.apply regcomp pathname lim
      (.size l.lower.bytes l.max) = some { lim with szMin := l.lower.bytes, szMax := l.max } := by
    intro l lim hl
    have := hv.sane l hl
    rw [Limits.apply, if_neg]
    rintro ⟨h0, hlt⟩
    exact absurd (this h0) (by omega)
  have hexclude : ∀ r lim, d.exclude = some r → Limits.apply regcomp pathname lim (.exclude r) =
      some { lim with excluded := ((regcomp r).map fun m => m pathname).getD false } := by
    intro r lim hr
    obtain ⟨m, hm⟩ := Option.ne_none_iff_exists'.1 (hv.pattern r hr)
    rw [Limits.apply, hm]
    rfl
  rw [options, limits]
  cases hl : d.limit with
  | none =>
    cases hr : d.exclude with
    | none => split_ifs <;> rfl
    | some r => split_ifs <;> simp [OptDef.opt, hexclude r _ hr, Limits.initial]
  | some l =>
    cases hr : d.exclude with
    | none => split_ifs <;> simp [OptDef.opt, hsize l _ hl, Limits.initial]
    | some r =>
      split_ifs <;> simp [OptDef.opt, hsize l _ hl, hexclude r _ hr, Limits.initial]

/-- An item is read as it was meant. -/
theorem readItem_print {env : Env} (hd : d.Plain) (hv : d.Valid env.regcomp) (hf : d.Fits)
    (hr : d.resolvable env.home = true) (hh : ∀ h, env.home = some h → ',' ∉ h) (pathname : Str) :
    env.readItem pathname d.print = .bin ⟨d.dir env.home, d.limits env.regcomp pathname⟩ := by
  have hs := splitOn_expandHome hd hv hr hh
  have hne : expandHome env.home d.print ≠ [] := by
    intro e
    rw [e, List.splitOn_nil] at hs
    exact dir_ne_nil hv (List.cons.inj hs).1.symm
  have hopts : binOptions (expandHome env.home d.print) = d.options.map OptDef.print := by
    rw [binOptions, hs]
    rfl
  have hdir : binDir (expandHome env.home d.print) = d.dir env.home := by
    rw [binDir, hs]
    rfl
  simp only [Env.readItem, if_neg hne, hopts, hdir, readOptions_eq,
    recognizeOptions_map fun o ho => hf.recognizeOption ho, Option.bind_some, foldlM_apply hv]

theorem readItem_print_skipped {env : Env} (hr : d.resolvable env.home = false) (pathname : Str) :
    env.readItem pathname d.print = .skipped := by
  rw [Env.readItem, expandHome_print_eq_nil hr]
  rfl

end BinDef

/-! ## The whole list -/

theorem splitOn_printBins {ds : List BinDef} (hd : ∀ d ∈ ds, d.Plain) (hne : ds ≠ []) :
    (printBins ds).splitOn ':' = ds.map BinDef.print := by
  refine List.splitOn_intercalate ':' (fun l hl => ?_) (by simpa using hne)
  obtain ⟨d, hd', rfl⟩ := List.mem_map.1 hl
  exact (hd d hd').colon_notMem_print

theorem filter_readItem_print {env : Env} {ds : List BinDef}
    (h : ∀ d ∈ ds, d.Plain ∧ d.Valid env.regcomp ∧ d.Fits)
    (hh : ∀ h, env.home = some h → ',' ∉ h) (pathname : Str) :
    ((ds.map BinDef.print).map (env.readItem pathname)).filter (· ≠ .skipped) =
      env.meant pathname ds := by
  rw [Env.meant]
  induction ds with
  | nil => rfl
  | cons d ds ih =>
    rw [List.forall_mem_cons] at h
    obtain ⟨⟨hd, hv, hf⟩, h⟩ := h
    rw [List.map_cons, List.map_cons]
    cases hr : d.resolvable env.home with
    | false =>
      rw [BinDef.readItem_print_skipped hr, List.filter_cons_of_neg (by simp),
        List.filter_cons_of_neg (by simp [hr]), ih h]
    | true =>
      rw [BinDef.readItem_print hd hv hf hr hh, List.filter_cons_of_pos (by simp),
        List.filter_cons_of_pos (by simpa using hr), List.map_cons, ih h]

/-- A printed list of recycle bins is read back as it was meant, each bin with its directory, its
limits and its exclude pattern, as long as no directory, pattern or home directory has a separator
in it. -/
theorem readings_printBins {env : Env} {ds : List BinDef} (hd : ∀ d ∈ ds, d.Plain)
    (hv : ∀ d ∈ ds, d.Valid env.regcomp) (hf : ∀ d ∈ ds, d.Fits)
    (hh : ∀ h, env.home = some h → ',' ∉ h) (pathname : Str) :
    env.readings pathname (printBins ds) = env.meant pathname ds := by
  by_cases hne : ds = []
  · subst hne
    rfl
  · rw [Env.readings, splitOn_printBins hd hne]
    exact filter_readItem_print (fun d h => ⟨hd d h, hv d h, hf d h⟩) hh pathname

/-- A valid definition is misread when there is a separator in the directory, in the pattern or in
the home directory, and refused when its lower limit is above the upper one. -/
theorem readings_printBins_ne :
    let regcomp : Regcomp := fun r => some fun s => s.tails.any r.isPrefixOf
    let misread (home : Option Str) (d : BinDef) : Prop :=
      (⟨none, home, regcomp⟩ : Env).readings "/x".toList (printBins [d]) ≠
        (⟨none, home, regcomp⟩ : Env).meant "/x".toList [d]
    misread none ⟨false, "/a:/b".toList, none, none, false⟩ ∧
    misread none ⟨false, "/a".toList, none, some "x,5k".toList, false⟩ ∧
    misread (some "/home,a".toList) ⟨true, "bin".toList, none, none, false⟩ ∧
    misread none ⟨false, "/a".toList, some ⟨⟨2, .k⟩, some ⟨1, .k⟩⟩, none, false⟩ := by
  decide +kernel

theorem readings_printBins_home :
    (⟨none, some "/home/a".toList, fun r => some fun s => s.tails.any r.isPrefixOf⟩ : Env).readings
      "/home/a/x.bak".toList (printBins
        [⟨true, "bin".toList, some ⟨⟨100, .B⟩, some ⟨1, .G⟩⟩, some "bak".toList, true⟩,
          ⟨false, "/bin".toList, none, none, false⟩]) =
      [.bin ⟨"/home/a/bin".toList, 100, 1024 * 1024 * 1024, true⟩, .bin ⟨"/bin".toList, 1, 0, false⟩] :=
  (readings_printBins
    (fun d hd => by
      fin_cases hd <;> exact ⟨by decide, by simp⟩)
    (fun d hd => by
      fin_cases hd <;> exact ⟨by decide, by decide, by simp⟩)
    (fun d hd => by
      fin_cases hd <;> exact ⟨by decide, by rintro l z ⟨⟩ ⟨⟩ <;> decide⟩)
    (by decide) _).trans (by decide +kernel)

end YazzyPreload.Recyclix

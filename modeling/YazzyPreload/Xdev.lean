import YazzyPreload.Place
import YazzyPreload.Syscall

/-!
# `xdev_allow` of `xdev.so`

The function denies a path that seems to be on a network mount: it reads `/proc/mounts` line by
line and looks for a network device whose mountpoint the real path starts with.

`livesOn` is the mount that a place is on, by the components of its path.  Of a line the loop sees
what `Mount.seen` says, whatever its length, and it compares the texts of paths, so that a network
mount counts for the places below it and for places `Beside` it.  `xdevAllow_iff` says for which
tables the function denies exactly the places whose mount has a network device; `xdevAllow_fails`
has a sibling of a network mount, a local mount in a network mount and a mountpoint with an escape.
-/

namespace YazzyPreload.Xdev

/-! ## The function -/

/-- `MBUF_LENGTH`. -/
def mbufLength : ℕ := 1024

/-- What `fgets` leaves in a buffer of `size` characters, time after time up to the end of the file;
`buf` is what it holds already. -/
def fgetsLoop (size : ℕ) (buf : Str) : Str → List Str
  | [] => if buf = [] then [] else [buf]
  | c :: s =>
    if c = '\n' ∨ size ≤ buf.length + 2 then (buf ++ [c]) :: fgetsLoop size [] s
    else fgetsLoop size (buf ++ [c]) s

/-- A text up to its first space, which is overwritten, and from there on. -/
def cutSpace (s : Str) : Option (Str × Str) :=
  if ' ' ∈ s then some (s.takeWhile (· ≠ ' '), (s.dropWhile (· ≠ ' ')).tail) else none

/-- The fields of a line that the function looks at. -/
structure Record where
  mntdev : Str
  mntpnt : Str
  deriving DecidableEq

/-- The fields in the buffer, if there are four spaces. -/
def record (mbuf : Str) : Option Record := do
  let (mntdev, s) ← cutSpace mbuf
  let (mntpnt, s) ← cutSpace s
  let (_mntype, s) ← cutSpace s
  let (_mntopt, _) ← cutSpace s
  some ⟨mntdev, mntpnt⟩

/-- It is likely a network device. -/
def likelyNetwork (mntdev : Str) : Bool := ['/', '/'].isPrefixOf mntdev || mntdev.contains ':'

/-- The real path starts with the mountpoint, and the device is likely a network device. -/
def Record.denies (r : Record) (realpathname : Str) : Bool :=
  r.mntpnt.isPrefixOf realpathname && likelyNetwork r.mntdev

/-- The loop over the lines. -/
def scanMounts (realpathname : Str) : List Str → Bool
  | [] => true
  | mbuf :: mbufs =>
    match record mbuf with
    | none => scanMounts realpathname mbufs
    | some r => if r.denies realpathname then false else scanMounts realpathname mbufs

/-- `xdev_allow`; with the answer `FALSE`, `errno` is `ECONNREFUSED`. -/
def xdevAllow (fs : FileSystem) (p : Process) (procMounts pathname : Str) : Bool :=
  match fs.realpath p pathname with
  | .error _ => true
  | .ok realpathname => scanMounts realpathname (fgetsLoop mbufLength [] procMounts)

/-! ## Mounts -/

/-- An octal digit. -/
def octal (c : Char) : Option ℕ :=
  if '0' ≤ c ∧ c ≤ '7' then some (c.toNat - '0'.toNat) else none

/-- A field with its escapes read: a backslash and three octal digits are a character. -/
def unescape : Str → Str
  | '\\' :: x :: y :: z :: s =>
    match octal x, octal y, octal z with
    | some a, some b, some c => Char.ofNat (64 * a + 8 * b + c) :: unescape s
    | _, _, _ => '\\' :: unescape (x :: y :: z :: s)
  | c :: s => c :: unescape s
  | [] => []

/-- A mount: its fields as they stand in `/proc/mounts`, and the place of its mountpoint. -/
structure Mount where
  device : Str
  point : Str
  type : Str
  options : Str
  freq : Str
  passno : Str
  place : Loc
  fields : ∀ f ∈ [device, point, type, options, freq, passno], f ≠ [] ∧ ' ' ∉ f ∧ '\n' ∉ f
  unescape_point : unescape point = pathOf place

namespace Mount

variable (m : Mount)

/-- The line without its end. -/
def text : Str := [' '].intercalate [m.device, m.point, m.type, m.options, m.freq, m.passno]

/-- The device is a network device. -/
def IsNetwork : Prop := likelyNetwork m.device = true

instance : Decidable m.IsNetwork := inferInstanceAs (Decidable (_ = _))

/-- What the loop reads of the line. -/
def reads : List Record := (fgetsLoop mbufLength [] (m.text ++ ['\n'])).filterMap record

/-- The loop ends at the line. -/
def Hits (realpathname : Str) : Prop := ∃ r ∈ m.reads, r.denies realpathname = true

end Mount

/-- The text of `/proc/mounts`. -/
def table (ms : List Mount) : Str := ms.flatMap fun m => m.text ++ ['\n']

/-- The mount a place is on: the last one with the longest mountpoint that is at or above it. -/
def livesOn (l : Loc) : List Mount → Option Mount
  | [] => none
  | m :: ms =>
    match livesOn l ms with
    | none => if m.place <:+ l then some m else none
    | some m' => if m.place <:+ l ∧ m'.place.length < m.place.length then some m else some m'

/-- The mount of the place has a network device. -/
def OnNetwork (ms : List Mount) (l : Loc) : Prop := ∃ m, livesOn l ms = some m ∧ m.IsNetwork

variable {ms : List Mount} {m : Mount} {l : Loc}

theorem livesOn_eq_none_iff : livesOn l ms = none ↔ ∀ m ∈ ms, ¬m.place <:+ l := by
  induction ms with
  | nil => simp [livesOn]
  | cons m ms ih =>
    rw [livesOn, List.forall_mem_cons, ← ih]
    cases livesOn l ms with
    | none => by_cases h : m.place <:+ l <;> simp [h]
    | some m' =>
      by_cases h : m.place <:+ l ∧ m'.place.length < m.place.length <;> simp [h]

/-- The mounts listed before it do not have longer mountpoints, those after it have shorter ones. -/
theorem livesOn_spec (h : livesOn l ms = some m) : ∃ pre post, ms = pre ++ m :: post ∧
    m.place <:+ l ∧ (∀ x ∈ pre, x.place <:+ l → x.place.length ≤ m.place.length) ∧
      ∀ x ∈ post, x.place <:+ l → x.place.length < m.place.length := by
  induction ms generalizing m with
  | nil => cases h
  | cons x ms ih =>
    rw [livesOn] at h
    cases hms : livesOn l ms with
    | none =>
      rw [hms] at h
      obtain ⟨hx, rfl⟩ := Option.ite_some_none_eq_some.1 h
      have hnone := livesOn_eq_none_iff.1 hms
      exact ⟨[], ms, rfl, hx, by simp, fun y hy hyl => absurd hyl (hnone y hy)⟩
    | some m' =>
      rw [hms] at h
      obtain ⟨pre, post, rfl, hm', hpre, hpost⟩ := ih hms
      by_cases hx : x.place <:+ l ∧ m'.place.length < x.place.length
      · simp only [if_pos hx, Option.some_inj] at h
        subst h
        refine ⟨[], _, rfl, hx.1, by simp, fun y hy hyl => ?_⟩
        rcases List.mem_append.1 hy with hy | hy
        · exact Nat.lt_of_le_of_lt (hpre y hy hyl) hx.2
        · rcases List.mem_cons.1 hy with rfl | hy
          · exact hx.2
          · exact (hpost y hy hyl).trans hx.2
      · simp only [if_neg hx, Option.some_inj] at h
        subst h
        refine ⟨x :: pre, post, rfl, hm', fun y hy hyl => ?_, hpost⟩
        rcases List.mem_cons.1 hy with rfl | hy
        · exact Nat.le_of_not_lt fun e => hx ⟨hyl, e⟩
        · exact hpre y hy hyl

/-- The two pathnames part within a name, at the end of the first. -/
def Beside (m l : Loc) : Prop := ∃ n n' p, m = n :: p ∧ n' :: p <:+ l ∧ n ≠ n' ∧ n.1 <+: n'.1

/-! ## The loop -/

theorem fgetsLoop_append {s : Str} (hs : '\n' ∉ s) (size : ℕ) (buf t : Str) :
    fgetsLoop size buf (s ++ '\n' :: t) =
      fgetsLoop size buf (s ++ ['\n']) ++ fgetsLoop size [] t := by
  induction s generalizing buf with
  | nil => simp [fgetsLoop]
  | cons c s ih =>
    rw [List.mem_cons, not_or] at hs
    simp only [List.cons_append, fgetsLoop, ih hs.2]
    split_ifs <;> rfl

theorem scanMounts_eq_false_iff {R : Str} {mbufs : List Str} : scanMounts R mbufs = false ↔
    ∃ r ∈ mbufs.filterMap record, r.denies R = true := by
  induction mbufs with
  | nil => simp [scanMounts]
  | cons mbuf mbufs ih =>
    rw [scanMounts, List.filterMap_cons]
    cases record mbuf with
    | none => exact ih
    | some r =>
      rw [List.exists_mem_cons_iff, ← ih]
      by_cases hr : r.denies R = true <;> simp [hr]

/-- A line has no end in it. -/
theorem Mount.newline_notMem_text (m : Mount) : '\n' ∉ m.text := by
  have h := m.fields
  simp only [List.forall_mem_cons] at h
  simp [text, List.intercalate, h]

theorem filterMap_table (ms : List Mount) :
    (fgetsLoop mbufLength [] (table ms)).filterMap record = ms.flatMap Mount.reads := by
  induction ms with
  | nil => rfl
  | cons m ms ih =>
    rw [table, List.flatMap_cons, List.append_assoc, List.singleton_append,
      fgetsLoop_append m.newline_notMem_text, List.filterMap_append, List.flatMap_cons, ← ih]
    rfl

/-- The path is denied if and only if the loop ends at one of the lines. -/
theorem scanMounts_table {R : Str} :
    scanMounts R (fgetsLoop mbufLength [] (table ms)) = false ↔ ∃ m ∈ ms, m.Hits R := by
  rw [scanMounts_eq_false_iff, filterMap_table]
  simp only [List.mem_flatMap, Mount.Hits]
  tauto

theorem xdevAllow_eq_false_iff {fs : FileSystem} {p : Process} {pathname R : Str}
    (hR : fs.realpath p pathname = .ok R) :
    xdevAllow fs p (table ms) pathname = false ↔ ∃ m ∈ ms, m.Hits R := by
  rw [xdevAllow, hR]
  exact scanMounts_table

/-! ## Lines of any length -/

theorem fgetsLoop_short {size : ℕ} {s buf : Str} (hs : '\n' ∉ s)
    (hlen : buf.length + s.length + 1 < size) :
    fgetsLoop size buf (s ++ ['\n']) = [buf ++ s ++ ['\n']] := by
  induction s generalizing buf with
  | nil => simp [fgetsLoop]
  | cons c s ih =>
    rw [List.mem_cons, not_or] at hs
    rw [List.length_cons] at hlen
    have hroom : ¬(c = '\n' ∨ size ≤ buf.length + 2) := by
      rw [not_or]
      exact ⟨fun e => hs.1 e.symm, by omega⟩
    rw [List.cons_append, fgetsLoop, if_neg hroom, ih hs.2 (by rw [List.length_append]; simp; omega)]
    simp

theorem cutSpace_field {f : Str} (hf : ' ' ∉ f) (s : Str) : cutSpace (f ++ ' ' :: s) = some (f, s) := by
  have hall : ∀ c ∈ f, decide (c ≠ ' ') = true := fun c hc => by
    rw [decide_eq_true_eq]
    exact fun e => hf (e ▸ hc)
  rw [cutSpace, if_pos (by simp), List.takeWhile_append_of_pos hall,
    List.dropWhile_append_of_pos hall]
  simp

namespace Mount

theorem text_eq (m : Mount) : m.text = m.device ++ ' ' :: (m.point ++ ' ' :: (m.type ++
    ' ' :: (m.options ++ ' ' :: (m.freq ++ ' ' :: m.passno)))) := by
  simp [text, List.intercalate]

end Mount

/-- The characters that the buffer has room for. -/
def bufLength : ℕ := mbufLength - 1

theorem bufLength_pos : 0 < bufLength := by decide

/-- What is in the buffer in which a field ends, if the line begins with the field. -/
def lastPart (f : Str) : Str := f.drop (bufLength * (f.length / bufLength))

/-- The records in a line. -/
def recordsOf (s : Str) : List Record := (fgetsLoop mbufLength [] (s ++ ['\n'])).filterMap record

theorem fgetsLoop_fill {size : ℕ} {s buf : Str} (hs : '\n' ∉ s) (hbuf : buf.length + 1 < size)
    (hlen : size ≤ buf.length + s.length + 1) (t : Str) :
    fgetsLoop size buf (s ++ t) = (buf ++ s.take (size - 1 - buf.length)) ::
      fgetsLoop size [] (s.drop (size - 1 - buf.length) ++ t) := by
  induction s generalizing buf with
  | nil =>
    rw [List.length_nil] at hlen
    omega
  | cons c s ih =>
    rw [List.mem_cons, not_or] at hs
    rw [List.length_cons] at hlen
    have hc : c ≠ '\n' := fun e => hs.1 e.symm
    rw [List.cons_append, fgetsLoop]
    by_cases hfull : size ≤ buf.length + 2
    · have hone : size - 1 - buf.length = 1 := by omega
      rw [if_pos (Or.inr hfull), hone]
      rfl
    · have hsucc : size - 1 - buf.length = (size - 1 - (buf ++ [c]).length) + 1 := by
        rw [List.length_append, List.length_singleton]
        omega
      have hlen' : (buf ++ [c]).length = buf.length + 1 := by simp
      rw [if_neg (not_or.2 ⟨hc, hfull⟩), ih hs.2 (by omega) (by omega), hsucc, List.take_succ_cons,
        List.drop_succ_cons, List.append_assoc, List.singleton_append]

theorem recordsOf_short {s : Str} (hs : '\n' ∉ s) (hlen : s.length < bufLength) :
    recordsOf s = (record (s ++ ['\n'])).toList := by
  have hsize : ([] : Str).length + s.length + 1 < mbufLength := by
    rw [List.length_nil, Nat.zero_add]
    exact Nat.succ_lt_succ hlen
  rw [recordsOf, fgetsLoop_short hs hsize, List.nil_append, List.filterMap_cons]
  cases record (s ++ ['\n']) <;> rfl

theorem recordsOf_long {s : Str} (hs : '\n' ∉ s) (hlen : bufLength ≤ s.length) :
    recordsOf s = (record (s.take bufLength)).toList ++ recordsOf (s.drop bufLength) := by
  have hsize : mbufLength ≤ ([] : Str).length + s.length + 1 := by
    rw [List.length_nil, Nat.zero_add]
    exact Nat.succ_le_succ hlen
  have hroom : mbufLength - 1 - ([] : Str).length = bufLength := rfl
  rw [recordsOf, fgetsLoop_fill hs (by decide) hsize, List.nil_append, List.filterMap_cons, hroom]
  cases record (s.take bufLength) <;> rfl

theorem count_of_cutSpace {s : Str} {x : Str × Str} (h : cutSpace s = some x) :
    s.count ' ' = x.2.count ' ' + 1 := by
  have hs : ' ' ∈ s := by
    by_contra hn
    rw [cutSpace, if_neg hn] at h
    cases h
  obtain ⟨f, t, rfl, hf⟩ := List.eq_append_cons_of_mem hs
  rw [cutSpace_field hf] at h
  cases h
  rw [List.count_append, List.count_eq_zero.2 hf, List.count_cons_self, Nat.zero_add]

theorem record_eq_none {s : Str} (h : s.count ' ' < 4) : record s = none := by
  unfold record
  simp only [Option.bind_eq_bind]
  cases h₁ : cutSpace s with
  | none => rfl
  | some x₁ =>
    have c₁ := count_of_cutSpace h₁
    dsimp only [Option.bind_some]
    cases h₂ : cutSpace x₁.2 with
    | none => rfl
    | some x₂ =>
      have c₂ := count_of_cutSpace h₂
      dsimp only [Option.bind_some]
      cases h₃ : cutSpace x₂.2 with
      | none => rfl
      | some x₃ =>
        have c₃ := count_of_cutSpace h₃
        dsimp only [Option.bind_some]
        cases h₄ : cutSpace x₃.2 with
        | none => rfl
        | some x₄ =>
          have c₄ := count_of_cutSpace h₄
          omega

/-- A text without four spaces has no record. -/
theorem recordsOf_eq_nil {s : Str} (hs : '\n' ∉ s) (h : s.count ' ' < 4) : recordsOf s = [] := by
  induction hn : s.length using Nat.strong_induction_on generalizing s with
  | _ n ih =>
    by_cases hlen : s.length < bufLength
    · rw [recordsOf_short hs hlen, record_eq_none (by simpa using h)]
      rfl
    · have htake := (List.take_sublist bufLength s).count_le ' '
      have hdrop := (List.drop_sublist bufLength s).count_le ' '
      have hpos := bufLength_pos
      rw [recordsOf_long hs (not_lt.1 hlen), record_eq_none (htake.trans_lt h),
        ih (s.drop bufLength).length (by rw [List.length_drop]; omega)
          (fun hm => hs (List.mem_of_mem_drop hm)) (hdrop.trans_lt h) rfl]
      rfl

theorem length_lastPart (f : Str) : (lastPart f).length = f.length % bufLength := by
  rw [lastPart, List.length_drop, Nat.mod_eq_sub]

theorem length_lastPart_lt (f : Str) : (lastPart f).length < bufLength := by
  rw [length_lastPart]
  exact Nat.mod_lt _ bufLength_pos

theorem lastPart_of_lt {f : Str} (h : f.length < bufLength) : lastPart f = f := by
  rw [lastPart, Nat.div_eq_of_lt h]
  rfl

theorem lastPart_drop {f : Str} (h : bufLength ≤ f.length) :
    lastPart (f.drop bufLength) = lastPart f := by
  have hdiv := Nat.div_eq_sub_div bufLength_pos h
  rw [lastPart, lastPart, List.length_drop, List.drop_drop, hdiv, Nat.mul_succ, Nat.add_comm]

/-- The buffers that a field fills have no record. -/
theorem recordsOf_lastPart {f : Str} (hf : ' ' ∉ f) {t : Str} (hs : '\n' ∉ f ++ ' ' :: t) :
    recordsOf (f ++ ' ' :: t) = recordsOf (lastPart f ++ ' ' :: t) := by
  induction hn : f.length using Nat.strong_induction_on generalizing f with
  | _ n ih =>
    by_cases hlen : f.length < bufLength
    · rw [lastPart_of_lt hlen]
    · have hle := not_lt.1 hlen
      have hpos := bufLength_pos
      have hcount : (f.take bufLength).count ' ' < 4 := by
        rw [List.count_eq_zero.2 fun hm => hf (List.mem_of_mem_take hm)]
        decide
      have hs' : '\n' ∉ f.drop bufLength ++ ' ' :: t := fun hm => hs <| by
        rw [List.mem_append] at hm ⊢
        exact hm.imp_left List.mem_of_mem_drop
      rw [recordsOf_long hs (by rw [List.length_append]; omega), List.take_append_of_le_length hle,
        List.drop_append_of_le_length hle, record_eq_none hcount,
        ih (f.drop bufLength).length (by rw [List.length_drop]; omega)
          (fun hm => hf (List.mem_of_mem_drop hm)) hs' rfl, lastPart_drop hle]
      rfl

theorem drop_past {a t : Str} {c : Char} {n : ℕ} (h : a.length < n) :
    (a ++ c :: t).drop n = t.drop (n - (a.length + 1)) := by
  have hn : n - a.length = n - (a.length + 1) + 1 := by omega
  rw [List.drop_append, List.drop_of_length_le h.le, List.nil_append, hn, List.drop_succ_cons]

/-- Four fields with a space after each. -/
def fourFields (a b c d : Str) : Str := a ++ ' ' :: (b ++ ' ' :: (c ++ ' ' :: (d ++ [' '])))

section Four

variable {a b c d t : Str} (ha : ' ' ∉ a) (hb : ' ' ∉ b) (hc : ' ' ∉ c) (hd : ' ' ∉ d)

include ha hb hc hd

theorem count_fourFields : (fourFields a b c d).count ' ' = 4 := by
  simp only [fourFields, List.count_append, List.count_cons_self, List.count_nil,
    List.count_eq_zero.2 ha, List.count_eq_zero.2 hb, List.count_eq_zero.2 hc,
    List.count_eq_zero.2 hd]

theorem record_fourFields (t : Str) : record (fourFields a b c d ++ t) = some ⟨a, b⟩ := by
  have happ : fourFields a b c d ++ t =
      a ++ ' ' :: (b ++ ' ' :: (c ++ ' ' :: (d ++ ' ' :: t))) := by
    simp [fourFields]
  rw [happ, record, cutSpace_field ha]
  simp only [Option.bind_eq_bind, Option.bind_some, cutSpace_field hb, cutSpace_field hc,
    cutSpace_field hd]

/-- The fields are read if they are in one buffer. -/
theorem recordsOf_fits (hs : '\n' ∉ fourFields a b c d ++ t) (ht : t.count ' ' < 4)
    (hlen : (fourFields a b c d).length ≤ bufLength) :
    recordsOf (fourFields a b c d ++ t) = [⟨a, b⟩] := by
  by_cases hshort : (fourFields a b c d ++ t).length < bufLength
  · rw [recordsOf_short hs hshort, List.append_assoc, record_fourFields ha hb hc hd]
    rfl
  · have hcount := (List.drop_sublist (bufLength - (fourFields a b c d).length) t).count_le ' '
    have htail : '\n' ∉ t := fun hm => hs (List.mem_append_right _ hm)
    rw [recordsOf_long hs (not_lt.1 hshort), List.take_append, List.take_of_length_le hlen,
      record_fourFields ha hb hc hd, List.drop_append, List.drop_of_length_le hlen,
      List.nil_append, recordsOf_eq_nil (fun hm => htail (List.mem_of_mem_drop hm))
        (hcount.trans_lt ht)]
    rfl

/-- Otherwise what follows the first buffer decides. -/
theorem recordsOf_overflows (hs : '\n' ∉ fourFields a b c d ++ t)
    (hlen : bufLength < (fourFields a b c d).length) :
    recordsOf (fourFields a b c d ++ t) =
      recordsOf ((fourFields a b c d).drop bufLength ++ t) := by
  have hcount : ((fourFields a b c d).take bufLength).count ' ' < 4 := by
    have hsplit := List.take_append_drop bufLength (fourFields a b c d)
    have happ : fourFields a b c d = a ++ ' ' :: (b ++ ' ' :: (c ++ ' ' :: d)) ++ [' '] := by
      simp [fourFields]
    have hlast : ' ' ∈ (fourFields a b c d).drop bufLength := by
      rw [happ, List.length_append, List.length_singleton] at hlen
      rw [happ, List.drop_append_of_le_length (by omega)]
      exact List.mem_append_right _ List.mem_cons_self
    have h4 := count_fourFields ha hb hc hd
    rw [← hsplit, List.count_append] at h4
    have hpos := List.count_pos_iff.2 hlast
    omega
  rw [recordsOf_long hs (by rw [List.length_append]; omega),
    List.take_append_of_le_length hlen.le, record_eq_none hcount,
    List.drop_append_of_le_length hlen.le]
  rfl

end Four

theorem space_notMem_lastPart {f : Str} (hf : ' ' ∉ f) : ' ' ∉ lastPart f := fun hm =>
  hf (List.mem_of_mem_drop hm)

theorem newline_notMem_lastPart {f : Str} (hf : '\n' ∉ f) : '\n' ∉ lastPart f := fun hm =>
  hf (List.mem_of_mem_drop hm)

theorem newline_notMem_fourFields {a b c d t : Str} (ha : '\n' ∉ a) (hb : '\n' ∉ b)
    (hc : '\n' ∉ c) (hd : '\n' ∉ d) (ht : '\n' ∉ t) : '\n' ∉ fourFields a b c d ++ t := by
  simp [fourFields, ha, hb, hc, hd, ht]

/-- What is left of a line after a buffer that ends in its second field. -/
theorem recordsOf_second {a b c d e : Str} (ha : ' ' ∉ a) (hb : ' ' ∉ b) (hc : ' ' ∉ c)
    (hd : ' ' ∉ d) (he : ' ' ∉ e)
    (hs : '\n' ∉ a ++ ' ' :: (b ++ ' ' :: (c ++ ' ' :: (d ++ ' ' :: e)))) :
    recordsOf (a ++ ' ' :: (b ++ ' ' :: (c ++ ' ' :: (d ++ ' ' :: e)))) =
      if (fourFields (lastPart a) b c d).length ≤ bufLength then [⟨lastPart a, b⟩] else [] := by
  have hs' : '\n' ∉ fourFields (lastPart a) b c d ++ e := by
    simp [fourFields] at hs ⊢
    exact ⟨newline_notMem_lastPart hs.1, hs.2⟩
  have htext : lastPart a ++ ' ' :: (b ++ ' ' :: (c ++ ' ' :: (d ++ ' ' :: e))) =
      fourFields (lastPart a) b c d ++ e := by
    simp [fourFields]
  have hcount : e.count ' ' = 0 := List.count_eq_zero.2 he
  rw [recordsOf_lastPart ha hs, htext]
  split_ifs with hlen
  · exact recordsOf_fits (space_notMem_lastPart ha) hb hc hd hs' (by omega) hlen
  · rw [recordsOf_overflows (space_notMem_lastPart ha) hb hc hd hs' (not_le.1 hlen)]
    -- the space after the first field is in the buffer
    refine recordsOf_eq_nil (fun hm => hs' ?_) ?_
    · rw [← List.drop_append_of_le_length (not_le.1 hlen).le] at hm
      exact List.mem_of_mem_drop hm
    · rw [fourFields, drop_past (length_lastPart_lt a)]
      have hdrop := (List.drop_sublist (bufLength - ((lastPart a).length + 1))
        (b ++ ' ' :: (c ++ ' ' :: (d ++ [' '])))).count_le ' '
      have hcount' : (b ++ ' ' :: (c ++ ' ' :: (d ++ [' ']))).count ' ' = 3 := by
        simp [List.count_append, List.count_eq_zero.2 hb, List.count_eq_zero.2 hc,
          List.count_eq_zero.2 hd]
      rw [List.count_append]
      omega

namespace Mount

/-- What the loop reads of the line, by its fields: the end of the device field that is in a buffer
with the three fields after it, or the end of the mountpoint field in the same way. -/
def seen (m : Mount) : Option Record :=
  let mntdev := lastPart m.device
  let rest := lastPart (m.point.drop (bufLength - (mntdev.length + 1)))
  if (fourFields mntdev m.point m.type m.options).length ≤ bufLength then some ⟨mntdev, m.point⟩
  else if bufLength < mntdev.length + m.point.length + 2 ∧
      (fourFields rest m.type m.options m.freq).length ≤ bufLength then some ⟨rest, m.type⟩
  else none

/-- A line of any length is read as the fields say. -/
theorem reads_eq (m : Mount) : m.reads = m.seen.toList := by
  have hfields := m.fields
  simp only [List.forall_mem_cons] at hfields
  obtain ⟨⟨-, hdev, hdev'⟩, ⟨-, hpoint, hpoint'⟩, ⟨-, htype, htype'⟩, ⟨-, hopt, hopt'⟩,
    ⟨-, hfreq, hfreq'⟩, ⟨-, hpass, hpass'⟩, -⟩ := hfields
  have hs := m.newline_notMem_text
  have hfour : lastPart m.device ++ ' ' :: (m.point ++ ' ' :: (m.type ++ ' ' :: (m.options ++
      ' ' :: (m.freq ++ ' ' :: m.passno)))) =
        fourFields (lastPart m.device) m.point m.type m.options ++ (m.freq ++ ' ' :: m.passno) := by
    simp [fourFields]
  have hd := space_notMem_lastPart hdev
  have hs' : '\n' ∉ fourFields (lastPart m.device) m.point m.type m.options ++
      (m.freq ++ ' ' :: m.passno) :=
    newline_notMem_fourFields (newline_notMem_lastPart hdev') hpoint' htype' hopt'
      (by simp [hfreq', hpass'])
  have hcount : (m.freq ++ ' ' :: m.passno).count ' ' = 1 := by
    simp [List.count_append, List.count_eq_zero.2 hfreq, List.count_eq_zero.2 hpass]
  have hlt := length_lastPart_lt m.device
  change recordsOf m.text = _
  rw [m.text_eq, recordsOf_lastPart hdev (m.text_eq ▸ hs), hfour, seen]
  by_cases hfit : (fourFields (lastPart m.device) m.point m.type m.options).length ≤ bufLength
  · rw [if_pos hfit, recordsOf_fits hd hpoint htype hopt hs' (by omega) hfit]
    rfl
  · rw [if_neg hfit, recordsOf_overflows hd hpoint htype hopt hs' (not_le.1 hfit)]
    by_cases hspill : bufLength < (lastPart m.device).length + m.point.length + 2
    · -- the buffer ends in the second field
      have hrest : (fourFields (lastPart m.device) m.point m.type m.options).drop bufLength ++
          (m.freq ++ ' ' :: m.passno) =
            m.point.drop (bufLength - ((lastPart m.device).length + 1)) ++ ' ' :: (m.type ++
              ' ' :: (m.options ++ ' ' :: (m.freq ++ ' ' :: m.passno))) := by
        rw [fourFields, drop_past hlt, List.drop_append_of_le_length (by omega)]
        simp
      have hpoint₁ : ' ' ∉ m.point.drop (bufLength - ((lastPart m.device).length + 1)) := fun hm =>
        hpoint (List.mem_of_mem_drop hm)
      have hpoint₂ : '\n' ∉ m.point.drop (bufLength - ((lastPart m.device).length + 1)) := fun hm =>
        hpoint' (List.mem_of_mem_drop hm)
      rw [hrest, recordsOf_second hpoint₁ htype hopt hfreq hpass
        (by simp [hpoint₂, htype', hopt', hfreq', hpass'])]
      simp only [hspill, true_and]
      split_ifs <;> rfl
    · rw [if_neg fun h => hspill h.1]
      refine recordsOf_eq_nil (fun hm => hs' ?_) ?_
      · rw [← List.drop_append_of_le_length (not_le.1 hfit).le] at hm
        exact List.mem_of_mem_drop hm
      · -- two spaces are in the buffer
        rw [fourFields, drop_past hlt, drop_past (by omega)]
        have hdrop := (List.drop_sublist (bufLength - ((lastPart m.device).length + 1) -
          (m.point.length + 1)) (m.type ++ ' ' :: (m.options ++ [' ']))).count_le ' '
        have htwo : (m.type ++ ' ' :: (m.options ++ [' '])).count ' ' = 2 := by
          simp [List.count_append, List.count_eq_zero.2 htype, List.count_eq_zero.2 hopt]
        rw [List.count_append]
        omega

/-- A line that fits the buffer is seen as it stands. -/
theorem seen_of_short (m : Mount) (h : m.text.length + 1 < mbufLength) :
    m.seen = some ⟨m.device, m.point⟩ := by
  have htext : m.text = fourFields m.device m.point m.type m.options ++
      (m.freq ++ ' ' :: m.passno) := by
    rw [m.text_eq]
    simp [fourFields]
  have hlen : m.text.length < bufLength := Nat.lt_of_succ_lt_succ h
  have hdev : m.device.length < bufLength := by
    rw [m.text_eq, List.length_append] at hlen
    omega
  rw [htext, List.length_append] at hlen
  rw [seen, lastPart_of_lt hdev, if_pos (by omega)]

/-- It ends the loop if the device is a network device and the path starts with its mountpoint, as
a text. -/
theorem hits_of_short {R : Str} (m : Mount) (h : m.text.length + 1 < mbufLength) :
    m.Hits R ↔ m.point <+: R ∧ m.IsNetwork := by
  rw [Hits, m.reads_eq, m.seen_of_short h]
  simp [Record.denies, IsNetwork]

end Mount

/-! ## Texts of places -/

theorem pathOf_isPrefix {m : Loc} (h : m <:+ l) : pathOf m <+: pathOf l := by
  obtain ⟨r, rfl⟩ := h
  by_cases hm : m = []
  · subst hm
    obtain ⟨u, hu⟩ := isAbs_iff.1 (spells_pathOf (r ++ [])).isAbs
    exact ⟨u, hu.symm⟩
  · rw [pathOf_of_ne_nil hm, pathOf_of_ne_nil (by simp [hm]), absPath_append]
    exact List.prefix_append _ _

/-- The text of names, each after a slash. -/
def slashes (ns : List Name) : Str := ns.flatMap fun n => '/' :: n.1

theorem absPath_eq_slashes (l : Loc) : absPath l = slashes l.reverse := by
  induction l with
  | nil => rfl
  | cons n l ih => rw [absPath, ih, List.reverse_cons, slashes, slashes, List.flatMap_append,
      List.flatMap_singleton]

theorem head?_slashes {ns : List Name} {c : Char} (h : (slashes ns).head? = some c) : c = '/' := by
  cases ns with
  | nil => cases h
  | cons n ns => exact (Option.some.inj h).symm

/-- Names that differ part before the next slash. -/
theorem append_slashes_isPrefix_iff {n n' : Name} (hne : n ≠ n') {a b : List Name} :
    n.1 ++ slashes a <+: n'.1 ++ slashes b ↔ a = [] ∧ n.1 <+: n'.1 := by
  constructor
  · intro h
    have hn : n.1 <+: n'.1 ++ slashes b := (List.prefix_append _ _).trans h
    rcases le_total n.1.length n'.1.length with hle | hle
    · have hpre := List.prefix_of_prefix_length_le hn (List.prefix_append _ _) hle
      refine ⟨?_, hpre⟩
      obtain ⟨x, hx⟩ := hpre
      rw [← hx, List.append_assoc, List.prefix_append_right_inj] at h
      cases a with
      | nil => rfl
      | cons m a =>
        cases x with
        | nil => exact absurd (Subtype.ext (by simpa using hx)) hne
        | cons c x =>
          obtain rfl := (List.cons_prefix_cons.1 h).1
          exact absurd (hx ▸ List.mem_append_right _ List.mem_cons_self) n'.2.2.1
    · obtain ⟨x, hx⟩ := List.prefix_of_prefix_length_le (List.prefix_append _ _) hn hle
      rw [← hx, List.prefix_append_right_inj] at hn
      cases x with
      | nil => exact absurd (Subtype.ext (by simpa using hx)).symm hne
      | cons c x =>
        obtain ⟨y, hy⟩ := hn
        obtain rfl := head?_slashes (c := c) (by rw [← hy]; rfl)
        exact absurd (hx ▸ List.mem_append_right _ List.mem_cons_self) n.2.2.1
  · rintro ⟨rfl, h⟩
    rw [slashes, List.flatMap_nil, List.append_nil]
    exact h.trans (List.prefix_append _ _)

theorem slashes_isPrefix_iff {a b : List Name} : slashes a <+: slashes b ↔
    a <+: b ∨ ∃ n n' p, a = p ++ [n] ∧ p ++ [n'] <+: b ∧ n ≠ n' ∧ n.1 <+: n'.1 := by
  induction a generalizing b with
  | nil => simp [slashes]
  | cons n a ih =>
    cases b with
    | nil => simp [slashes]
    | cons n' b =>
      have hcons (n : Name) (a : List Name) : slashes (n :: a) = '/' :: (n.1 ++ slashes a) := rfl
      rw [hcons, hcons, List.cons_prefix_cons, and_iff_right rfl]
      by_cases hn : n = n'
      · subst hn
        rw [List.prefix_append_right_inj, ih, List.cons_prefix_cons, and_iff_right rfl]
        refine or_congr_right ⟨?_, ?_⟩
        · rintro ⟨m, m', p, rfl, h, hne⟩
          exact ⟨m, m', n :: p, rfl, List.cons_prefix_cons.2 ⟨rfl, h⟩, hne⟩
        · rintro ⟨m, m', p, hp, h, hne, hm⟩
          cases p with
          | nil =>
            cases hp
            exact absurd (List.cons_prefix_cons.1 h).1.symm hne
          | cons x p =>
            cases hp
            exact ⟨m, m', p, rfl, (List.cons_prefix_cons.1 h).2, hne, hm⟩
      · rw [append_slashes_isPrefix_iff hn, List.cons_prefix_cons]
        constructor
        · rintro ⟨rfl, h⟩
          exact Or.inr ⟨n, n', [], rfl, by simp, hn, h⟩
        · rintro (⟨h, -⟩ | ⟨m, m', p, hp, h, hne, hm⟩)
          · exact absurd h hn
          · cases p with
            | nil =>
              cases hp
              obtain rfl := (List.cons_prefix_cons.1 h).1
              exact ⟨rfl, hm⟩
            | cons x p =>
              cases hp
              exact absurd (List.cons_prefix_cons.1 h).1 hn

/-- As a text, the pathname of a place begins those of the places below it, and of places beside. -/
theorem pathOf_isPrefix_iff {m l : Loc} : pathOf m <+: pathOf l ↔ m <:+ l ∨ Beside m l := by
  by_cases hm : m = []
  · subst hm
    exact iff_of_true (pathOf_isPrefix List.nil_suffix) (Or.inl List.nil_suffix)
  · have htext : pathOf m <+: pathOf l ↔ slashes m.reverse <+: slashes l.reverse := by
      rw [pathOf_of_ne_nil hm, absPath_eq_slashes]
      by_cases hl : l = []
      · subst hl
        obtain ⟨n, ns, hns⟩ := List.exists_cons_of_ne_nil (List.reverse_ne_nil_iff.2 hm)
        have hn := n.2.1
        rw [hns, slashes, List.flatMap_cons]
        simp [pathOf, slashes, hn]
      · rw [pathOf_of_ne_nil hl, absPath_eq_slashes]
    rw [htext, slashes_isPrefix_iff, List.reverse_prefix, Beside]
    refine or_congr_right ⟨?_, ?_⟩
    · rintro ⟨n, n', p, hp, h, hne⟩
      refine ⟨n, n', p.reverse, ?_, ?_, hne⟩
      · rw [← List.reverse_reverse m, hp, List.reverse_append]
        rfl
      · rwa [← List.reverse_prefix, List.reverse_cons, List.reverse_reverse]
    · rintro ⟨n, n', p, rfl, h, hne⟩
      refine ⟨n, n', p.reverse, List.reverse_cons, ?_, hne⟩
      rwa [← List.reverse_cons, List.reverse_prefix]

/-! ## What is denied -/

namespace Mount

/-- The line fits the buffer, and its mountpoint has no escapes. -/
def Plain (m : Mount) : Prop := m.text.length + 1 < mbufLength ∧ m.point = pathOf m.place

instance (m : Mount) : Decidable m.Plain := inferInstanceAs (Decidable (_ ∧ _))

/-- What the loop sees of the line is a network device, with a text that the path begins with. -/
def Denies (m : Mount) (l : Loc) : Prop :=
  ∃ r, m.seen = some r ∧ r.mntpnt <+: pathOf l ∧ likelyNetwork r.mntdev = true

theorem hits_iff (m : Mount) : m.Hits (pathOf l) ↔ m.Denies l := by
  rw [Hits, m.reads_eq]
  simp [Denies, Record.denies]

/-- A plain line ends the loop for the places at, below and beside its own. -/
theorem hits_of_plain {m : Mount} (h : m.Plain) :
    m.Hits (pathOf l) ↔ m.IsNetwork ∧ (m.place <:+ l ∨ Beside m.place l) := by
  rw [m.hits_of_short h.1, h.2, pathOf_isPrefix_iff, and_comm]

end Mount

/-- The lines of the table tell whether the mount of the place has a network device. -/
structure Tells (ms : List Mount) (l : Loc) : Prop where
  /-- on a network mount with a long or escaped line, some line denies the place -/
  own : ∀ m, livesOn l ms = some m → m.IsNetwork → ¬m.Plain → ∃ m' ∈ ms, m'.Denies l
  /-- on a local mount, no network mount is at or above the place -/
  above : ¬OnNetwork ms l → ∀ m ∈ ms, m.Plain → m.IsNetwork → ¬m.place <:+ l
  /-- on a local mount, no network mount is beside the place or a directory above it -/
  beside : ¬OnNetwork ms l → ∀ m ∈ ms, m.Plain → m.IsNetwork → ¬Beside m.place l
  /-- on a local mount, no long or escaped line denies the place -/
  other : ¬OnNetwork ms l → ∀ m ∈ ms, ¬m.Plain → ¬m.Denies l

/-- A plain line of a network mount ends the loop for the places on it. -/
theorem hits_of_livesOn (h : livesOn l ms = some m) (hnet : m.IsNetwork) (hm : m.Plain) :
    m ∈ ms ∧ m.Hits (pathOf l) := by
  obtain ⟨pre, post, rfl, hml, -⟩ := livesOn_spec h
  exact ⟨List.mem_append_right _ List.mem_cons_self, (Mount.hits_of_plain hm).2 ⟨hnet, Or.inl hml⟩⟩

/-- The function is right about a path if and only if the lines tell where its place is. -/
theorem xdevAllow_iff {fs : FileSystem} {p : Process} {pathname : Str}
    (hR : fs.realpath p pathname = .ok (pathOf l)) :
    (xdevAllow fs p (table ms) pathname = false ↔ OnNetwork ms l) ↔ Tells ms l := by
  rw [xdevAllow_eq_false_iff hR]
  constructor
  · intro h
    have hlocal : ¬OnNetwork ms l → ∀ m ∈ ms, ¬m.Hits (pathOf l) := fun hn m hm hit =>
      hn (h.1 ⟨m, hm, hit⟩)
    constructor
    · intro m hm hnet _
      obtain ⟨m', hm', hit⟩ := h.2 ⟨m, hm, hnet⟩
      exact ⟨m', hm', m'.hits_iff.1 hit⟩
    · exact fun hn m hm hp hnet hml => hlocal hn m hm ((Mount.hits_of_plain hp).2 ⟨hnet, Or.inl hml⟩)
    · exact fun hn m hm hp hnet hml => hlocal hn m hm ((Mount.hits_of_plain hp).2 ⟨hnet, Or.inr hml⟩)
    · exact fun hn m hm _ hden => hlocal hn m hm (m.hits_iff.2 hden)
  · intro h
    constructor
    · rintro ⟨m, hm, hit⟩
      by_contra hn
      by_cases hp : m.Plain
      · obtain ⟨hnet, hml | hml⟩ := (Mount.hits_of_plain hp).1 hit
        · exact h.above hn m hm hp hnet hml
        · exact h.beside hn m hm hp hnet hml
      · exact h.other hn m hm hp (m.hits_iff.1 hit)
    · rintro ⟨m, hm, hnet⟩
      by_cases hp : m.Plain
      · exact ⟨m, hits_of_livesOn hm hnet hp⟩
      · obtain ⟨m', hm', hden⟩ := h.own m hm hnet hp
        exact ⟨m', hm', m'.hits_iff.2 hden⟩

/-- A place on a network mount is denied, if every line fits the buffer and no mountpoint has
escapes. -/
theorem xdevAllow_of_onNetwork {fs : FileSystem} {p : Process} {pathname : Str}
    (hR : fs.realpath p pathname = .ok (pathOf l)) (hms : ∀ m ∈ ms, m.Plain)
    (h : OnNetwork ms l) : xdevAllow fs p (table ms) pathname = false := by
  obtain ⟨m, hm, hnet⟩ := h
  obtain ⟨pre, post, hsplit, -⟩ := livesOn_spec hm
  have hmem : m ∈ ms := hsplit ▸ List.mem_append_right _ List.mem_cons_self
  exact (xdevAllow_eq_false_iff hR).2 ⟨m, hits_of_livesOn hm hnet (hms m hmem)⟩

namespace Sample

def srv : Name := ⟨"srv".toList, by decide⟩

def srv2 : Name := ⟨"srv2".toList, by decide⟩

def disk : Name := ⟨"disk".toList, by decide⟩

def spaced : Name := ⟨"a b".toList, by decide⟩

def dir : Inode := ⟨.dir, 0o755, 0, 0⟩

/-- The directories `/srv`, `/srv2`, `/srv/disk` and one with a space in its name. -/
def fs : FileSystem :=
  ((((FileSystem.bare ⟨1, 2⟩).addChild [] srv dir).addChild [] srv2 dir).addChild [srv] disk
    dir).addChild [] spaced dir

def process : Process := ⟨[], fun _ => none, 0, 0, 0⟩

def root : Mount := ⟨"/dev/sda".toList, "/".toList, "ext4".toList, "rw".toList, "0".toList,
  "0".toList, [], by decide, by decide⟩

def share : Mount := ⟨"host:/srv".toList, "/srv".toList, "nfs".toList, "rw".toList, "0".toList,
  "0".toList, [srv], by decide, by decide⟩

def inner : Mount := ⟨"/dev/sdb".toList, "/srv/disk".toList, "ext4".toList, "rw".toList, "0".toList,
  "0".toList, [disk, srv], by decide, by decide⟩

def escaped : Mount := ⟨"//host/b".toList, "/a\\040b".toList, "cifs".toList, "rw".toList,
  "0".toList, "0".toList, [spaced], by decide, by decide⟩

def mounts : List Mount := [root, share, inner, escaped]

end Sample

theorem xdevAllow_iff_root :
    (xdevAllow Sample.fs Sample.process (table Sample.mounts) "/".toList = false ↔
        OnNetwork Sample.mounts []) ↔ Tells Sample.mounts [] :=
  xdevAllow_iff (by decide +kernel)

/-- Two places that are denied though their mount is a local one, and one that is allowed though its
mount is a network one. -/
theorem xdevAllow_fails :
    (xdevAllow Sample.fs Sample.process (table Sample.mounts) "/srv2".toList = false ∧
      ¬OnNetwork Sample.mounts [Sample.srv2]) ∧
    (xdevAllow Sample.fs Sample.process (table Sample.mounts) "/srv/disk".toList = false ∧
      ¬OnNetwork Sample.mounts [Sample.disk, Sample.srv]) ∧
    (xdevAllow Sample.fs Sample.process (table Sample.mounts) "/a b".toList = true ∧
      OnNetwork Sample.mounts [Sample.spaced]) := by
  refine ⟨⟨by decide +kernel, ?_⟩, ⟨by decide +kernel, ?_⟩, ⟨by decide +kernel, Sample.escaped, ?_⟩⟩
  · rintro ⟨m, hm, hnet⟩
    cases hm
    exact absurd hnet (by decide +kernel)
  · rintro ⟨m, hm, hnet⟩
    cases hm
    exact absurd hnet (by decide +kernel)
  · exact ⟨rfl, by decide +kernel⟩

end YazzyPreload.Xdev

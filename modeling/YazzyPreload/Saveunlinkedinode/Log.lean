import YazzyPreload.Saveunlinkedinode

/-!
# The log of `saveunlinkedinode.so`

The log is a text with a line for each record, and a line has neither quotes nor escapes.  It can be
read back as long as there is no end of line in what was removed (`run_read_back_iff`).
-/

namespace YazzyPreload.Saveunlinkedinode

open FileSystem Prog

/-! ## The text -/

/-- What `fprintf` writes for a record, without the end of the line. -/
def Record.line (r : Record) : Str := r.time ++ ' ' :: (showInt r.ino ++ ' ' :: r.path)

/-- The text of the log. -/
def logText (rs : List Record) : Str := rs.flatMap fun r => r.line ++ ['\n']

/-- What follows a space. -/
def afterSpace : Str → Option Str
  | c :: s => if c = ' ' then some s else none
  | [] => none

/-- Reads a line: the 19 characters of the time, the inode number, and the path. -/
def readRecord (line : Str) : Option Record := do
  let s ← afterSpace (line.drop 19)
  let path ← afterSpace (s.dropWhile (· ≠ ' '))
  some ⟨line.take 19, strtol (s.takeWhile (· ≠ ' ')), path⟩

/-- Reads a log, line by line. -/
def readLog (text : Str) : List (Option Record) := ((text.splitOn '\n').dropLast).map readRecord

/-- A record with a time as it is printed, and a number that a `long` can hold. -/
structure Record.Printed (r : Record) : Prop where
  time_length : r.time.length = 19
  time_newline : '\n' ∉ r.time
  ino_ge : -2 ^ 63 ≤ r.ino
  ino_lt : r.ino < 2 ^ 63

variable {r : Record} {rs : List Record}

theorem space_notMem_showInt (n : ℤ) : ∀ c ∈ showInt n, c ≠ ' ' := by
  have hdigits (c : Char) (hc : c ∈ Nat.toDigits 10 n.natAbs) : c ≠ ' ' := by
    rintro rfl
    exact absurd (isDigit_of_mem_toDigits hc) (by decide)
  intro c hc
  rw [showInt] at hc
  split_ifs at hc
  · rcases List.mem_cons.1 hc with rfl | hc
    · decide
    · exact hdigits c hc
  · exact hdigits c hc

theorem newline_notMem_showInt (n : ℤ) : '\n' ∉ showInt n := by
  have hdigits : '\n' ∉ Nat.toDigits 10 n.natAbs :=
    fun h => absurd (isDigit_of_mem_toDigits h) (by decide)
  rw [showInt]
  split_ifs
  · simp [hdigits]
  · exact hdigits

/-- A line that is not broken is read back. -/
theorem readRecord_line (h : r.Printed) : readRecord r.line = some r := by
  have hdrop : r.line.drop 19 = ' ' :: (showInt r.ino ++ ' ' :: r.path) :=
    List.drop_left' h.time_length
  have htake : r.line.take 19 = r.time := List.take_left' h.time_length
  have hspace (c : Char) (hc : c ∈ showInt r.ino) : decide (c ≠ ' ') = true :=
    decide_eq_true (space_notMem_showInt r.ino c hc)
  have hcons (s : Str) : afterSpace (' ' :: s) = some s := by
    rw [afterSpace, if_pos rfl]
  rw [readRecord, hdrop, hcons, Option.bind_eq_bind, Option.bind_some,
    List.dropWhile_append_of_pos hspace, List.takeWhile_append_of_pos hspace,
    List.dropWhile_cons_of_neg (by decide), List.takeWhile_cons_of_neg (by decide), htake,
    List.append_nil, strtol_showInt h.ino_ge h.ino_lt, hcons]
  rfl

theorem newline_mem_line_iff (h : r.Printed) : '\n' ∈ r.line ↔ '\n' ∈ r.path := by
  simp [Record.line, h.time_newline, newline_notMem_showInt]

/-! ## Lines -/

theorem splitOn_logText (rs : List Record) :
    (logText rs).splitOn '\n' = (rs.flatMap fun r => r.line.splitOn '\n') ++ [[]] := by
  induction rs with
  | nil => rfl
  | cons r rs ih =>
    rw [logText, List.flatMap_cons, List.append_assoc, List.singleton_append,
      List.splitOn_append_cons_self, List.flatMap_cons, List.append_assoc, ← ih]
    rfl

theorem readLog_logText (rs : List Record) :
    readLog (logText rs) = rs.flatMap fun r => (r.line.splitOn '\n').map readRecord := by
  rw [readLog, splitOn_logText, List.dropLast_concat, List.map_flatMap]

theorem length_splitOn_eq_one_iff {s : Str} : (s.splitOn '\n').length = 1 ↔ '\n' ∉ s := by
  constructor
  · intro h hmem
    obtain ⟨s₁, s₂, rfl⟩ := List.append_of_mem hmem
    rw [List.splitOn_append_cons_self, List.length_append] at h
    have h₁ := List.length_pos_iff.2 (List.splitOn_ne_nil '\n' s₁)
    have h₂ := List.length_pos_iff.2 (List.splitOn_ne_nil '\n' s₂)
    omega
  · intro h
    rw [List.splitOn_eq_singleton h, List.length_singleton]

theorem length_le_readLog (rs : List Record) : rs.length ≤ (readLog (logText rs)).length := by
  rw [readLog_logText]
  induction rs with
  | nil => exact Nat.le_refl _
  | cons r rs ih =>
    have hpos := List.length_pos_iff.2 (List.splitOn_ne_nil '\n' r.line)
    rw [List.flatMap_cons, List.length_append, List.length_map, List.length_cons]
    omega

/-- A log is read back if and only if no path in it has an end of line. -/
theorem read_back_iff (hrs : ∀ r ∈ rs, r.Printed) :
    readLog (logText rs) = rs.map some ↔ ∀ r ∈ rs, '\n' ∉ r.path := by
  induction rs with
  | nil => exact iff_of_true rfl fun r hr => absurd hr List.not_mem_nil
  | cons r rs ih =>
    obtain ⟨hr, hrs⟩ := List.forall_mem_cons.1 hrs
    have hcons : readLog (logText (r :: rs)) =
        (r.line.splitOn '\n').map readRecord ++ readLog (logText rs) := by
      rw [readLog_logText, readLog_logText, List.flatMap_cons]
    rw [List.forall_mem_cons, ← ih hrs, ← newline_mem_line_iff hr, hcons, List.map_cons]
    constructor
    · -- more lines than records if the first one is broken
      intro h
      have hlen := congrArg List.length h
      have hle := length_le_readLog rs
      have hpos := List.length_pos_iff.2 (List.splitOn_ne_nil '\n' r.line)
      simp only [List.length_append, List.length_map, List.length_cons] at hlen
      have hline : '\n' ∉ r.line := length_splitOn_eq_one_iff.1 (by omega)
      rw [List.splitOn_eq_singleton hline] at h
      exact ⟨hline, (List.cons.inj h).2⟩
    · rintro ⟨hline, h⟩
      rw [List.splitOn_eq_singleton hline, List.map_singleton, readRecord_line hr, h]
      rfl

/-! ## The log of a run -/

/-- The state after a run. -/
def after (env : Env) (es : List Event) (w : World) : World := es.foldl (fun w e => e.after env w) w

/-- The time is printed with 19 characters. -/
def Timed (c : Removal) : Prop := c.timebuf.length = 19 ∧ '\n' ∉ c.timebuf

/-- When the call removes an entry, there is no end of line in its pathname or in that of the
directory. -/
def Unbroken (w : World) (c : Removal) : Prop := ∀ l n d dir, Removes w.fs c l n d →
  dirOf c.p c.dirfd = some dir → '\n' ∉ pathOf dir ∧ '\n' ∉ c.pathname

variable {env : Env} {home : Str} {w : World} {c : Removal} {es : List Event}

section LogOpen

variable (hhome : env.home = some home)
  (hopen : env.fopen (home ++ "/.unlinked_inodes".toList) = .ok ()) (hfits : home.length < 239)

include hhome hopen hfits

/-- What a call appends that reaches no defect. -/
theorem log_of_recordable (h : Recordable w c) :
    (∀ l n d, ¬ Removes w.fs c l n d) ∧ (c.after env w).log = w.log ∨
    ∃ l n d dir, Removes w.fs c l n d ∧ dirOf c.p c.dirfd = some dir ∧ d.obj.ino < 2 ^ 63 ∧
      (c.after env w).log = w.log ++ [⟨c.timebuf, d.obj.ino, pathOf dir ++ '/' :: c.pathname⟩] := by
  cases hok : (w.fs.unlinkat c.p c.dirfd c.pathname c.flags).1 with
  | error e =>
    have hno (l : Loc) (n : Name) (d : Dent) : ¬ Removes w.fs c l n d := fun hr => by
      cases hok.symm.trans hr.ok
    refine Or.inl ⟨hno, ?_⟩
    obtain ⟨outcome, hrun, hzero, hfail⟩ := @truthful_of_error env c w e hok
    refine hfail fun hret => ?_
    obtain ⟨l, n, d, path, hr, -⟩ := hzero hret
    exact hno l n d hr
  | ok _ =>
    obtain ⟨l, n, d, hrem⟩ := exists_removes hok
    have hp := h l n d hrem
    obtain ⟨st, hst, hino⟩ := hp.fstatat hrem
    obtain ⟨dir, hdir, hlen, hnull, habs⟩ := hp.dir
    obtain ⟨xs, hxs, hw, hl⟩ := target_eq_entry_iff.1 (hrem.target_dir hdir habs)
    obtain ⟨a, hf, ha⟩ := found_of_dirOf hdir (walk_ok_dir hw hl) hlen hnull
    have hrun := run_of_found hhome hopen hfits hok hst hf ha (spells_pathOf dir).isAbs_ne_nil
    refine Or.inr ⟨l, n, d, dir, hrem, hdir, hp.ino, ?_⟩
    rw [Removal.after, hrun, hino]
    rfl

/-- The records stay printed. -/
theorem printed_after (h : Recordable w c) (ht : Timed c) (hw : ∀ r ∈ w.log, r.Printed) :
    ∀ r ∈ (c.after env w).log, r.Printed := by
  rcases log_of_recordable hhome hopen hfits h with ⟨-, hlog⟩ | ⟨l, n, d, dir, -, -, hino, hlog⟩
  · rwa [hlog]
  · rw [hlog]
    intro r hr
    rcases List.mem_append.1 hr with hr | hr
    · exact hw r hr
    · obtain rfl := List.mem_singleton.1 hr
      exact ⟨ht.1, ht.2, by dsimp only; omega, by dsimp only; omega⟩

/-- The paths stay without an end of line just when the call is not broken. -/
theorem newline_after_iff (h : Recordable w c) :
    (∀ r ∈ (c.after env w).log, '\n' ∉ r.path) ↔ (∀ r ∈ w.log, '\n' ∉ r.path) ∧ Unbroken w c := by
  rcases log_of_recordable hhome hopen hfits h with ⟨hno, hlog⟩ | ⟨l, n, d, dir, hrem, hdir, -, hlog⟩
  · rw [hlog]
    exact (and_iff_left fun l n d _ hrem => absurd hrem (hno l n d)).symm
  · have hun : Unbroken w c ↔ '\n' ∉ pathOf dir ++ '/' :: c.pathname := by
      have hpath : '\n' ∉ pathOf dir ++ '/' :: c.pathname ↔
          '\n' ∉ pathOf dir ∧ '\n' ∉ c.pathname := by simp
      rw [hpath]
      constructor
      · exact fun h => h l n d dir hrem hdir
      · intro h l' n' d' dir' _ hdir'
        cases hdir.symm.trans hdir'
        exact h
    rw [hlog, hun, List.forall_mem_append, List.forall_mem_singleton]

theorem after_run (hrec : Throughout env Recordable es w)
    (htime : Throughout env (fun _ c => Timed c) es w) (hw : ∀ r ∈ w.log, r.Printed) :
    (∀ r ∈ (after env es w).log, r.Printed) ∧
      ((∀ r ∈ (after env es w).log, '\n' ∉ r.path) ↔
        (∀ r ∈ w.log, '\n' ∉ r.path) ∧ Throughout env Unbroken es w) := by
  induction es generalizing w with
  | nil => exact ⟨hw, (and_iff_left trivial).symm⟩
  | cons e es ih =>
    rw [after, List.foldl_cons, ← after]
    cases e with
    | other change =>
      obtain ⟨hprinted, hiff⟩ := ih hrec.2 htime.2 hw
      exact ⟨hprinted, hiff.trans (and_congr_right fun _ =>
        ⟨fun h => ⟨fun c hc => (by cases hc), h⟩, fun h => h.2⟩)⟩
    | unlinkat c =>
      have hc := hrec.1 c rfl
      obtain ⟨hprinted, hiff⟩ := ih hrec.2 htime.2
        (printed_after hhome hopen hfits hc (htime.1 c rfl) hw)
      refine ⟨hprinted, hiff.trans ?_⟩
      rw [Event.after, newline_after_iff hhome hopen hfits hc, and_assoc]
      refine and_congr_right fun _ => and_congr_left fun _ => ?_
      exact ⟨fun h c' hc' => (by cases hc'; exact h), fun h => h c rfl⟩

/-- After a run whose calls reach no defect, the log is read back as it was written if and only if
no entry was removed with an end of line in its pathname or in that of the directory. -/
theorem run_read_back_iff (hrec : Throughout env Recordable es w)
    (htime : Throughout env (fun _ c => Timed c) es w) (hlog : w.log = []) :
    readLog (logText (after env es w).log) = (after env es w).log.map some ↔
      Throughout env Unbroken es w := by
  have hnil {P : Record → Prop} : ∀ r ∈ w.log, P r := by
    rw [hlog]
    exact fun r hr => absurd hr List.not_mem_nil
  obtain ⟨hprinted, hiff⟩ := after_run hhome hopen hfits hrec htime hnil
  rw [read_back_iff hprinted, hiff]
  exact and_iff_right hnil

end LogOpen

namespace Sample

/-- A file with an end of line in its name. -/
def twoLines : World :=
  ⟨tree.addChild process.cwd (name "a\nb") ⟨.reg 20, 0o644, 1000, 1000⟩, []⟩

def dropTwoLines : Removal := removal atFdcwd "a\nb".toList 0 none

end Sample

theorem run_read_back_iff_broken :
    readLog (logText (after Sample.settings [.unlinkat Sample.dropTwoLines] Sample.twoLines).log) ≠
      (after Sample.settings [.unlinkat Sample.dropTwoLines] Sample.twoLines).log.map some := by
  have hrec : Recordable Sample.twoLines Sample.dropTwoLines :=
    recordable_of_reg (k := 20) (l := [Sample.name "d"]) (n := Sample.name "a\nb")
      (d := ⟨⟨1, 7⟩, false⟩) (by decide +kernel) (by decide +kernel) (by decide +kernel) rfl
      (by decide) rfl rfl (by decide) (by decide)
  have hrem : Removes Sample.twoLines.fs Sample.dropTwoLines [Sample.name "d"] (Sample.name "a\nb")
      ⟨⟨1, 7⟩, false⟩ := ⟨by decide +kernel, by decide +kernel, by decide +kernel⟩
  have hiff := @run_read_back_iff Sample.settings "/home".toList Sample.twoLines
    [.unlinkat Sample.dropTwoLines] rfl rfl (by decide)
    ⟨fun c hc => (by cases hc; exact hrec), trivial⟩
    ⟨fun c hc => (by cases hc; exact ⟨by decide, by decide⟩), trivial⟩ rfl
  rw [Ne, hiff]
  intro h
  exact absurd (h.1 Sample.dropTwoLines rfl _ _ _ [Sample.name "d"] hrem rfl).2 (by decide)

end YazzyPreload.Saveunlinkedinode

import YazzyPreload.Autossl.Wrapper

/-!
# The name of the server

`openssl s_client` must be told which of the names of its address is meant.  `autossl` takes the name
from the last `https:` argument, and it comes to `openssl` through `OPENSSL_EXTRA_ARGS`, a text that
`autossl-conn` splits into words again: `wrapper_passes_servername`.
-/

namespace YazzyPreload.Autossl

open Bash

variable {bash : Bash} {env : Environ} {u : Url}

/-! ## The name in an argument -/

theorem isHostChar_of_mem {c : Char} (hc : c ∈ u.host) : isHostChar c = true := by
  have := u.host_ok.2 c hc
  simp only [List.mem_cons, List.not_mem_nil, or_false, not_or] at this
  simp [isHostChar, this]

/-- The part of a URL after the host. -/
def Url.rest (u : Url) : Str := u.port.elim [] (':' :: ·.1) ++ u.path

theorem head?_path {c : Char} (h : u.path.head? = some c) : c = '/' := by
  have := u.path_ok
  rw [h] at this
  simpa using this

theorem head?_rest {c : Char} (h : u.rest.head? = some c) : isHostChar c = false := by
  unfold Url.rest at h
  cases hp : u.port with
  | none =>
    rw [hp] at h
    obtain rfl := head?_path h
    rfl
  | some d =>
    rw [hp] at h
    cases h
    rfl

/-- What follows the host ends it. -/
theorem takeWhile_host (u : Url) : (u.host ++ u.rest).takeWhile isHostChar = u.host := by
  rw [List.takeWhile_append_of_pos fun c hc => isHostChar_of_mem hc]
  cases h : u.rest with
  | nil => simp
  | cons c rest =>
    have := @head?_rest u c (by rw [h]; rfl)
    simp [this]

/-- The host and the port, where there is neither `@` nor `/`. -/
theorem mem_authority {c : Char} (hc : c ∈ u.host ++ u.port.elim [] (':' :: ·.1)) :
    c ≠ '@' ∧ c ≠ '/' := by
  rcases List.mem_append.1 hc with hc | hc
  · have := u.host_ok.2 c hc
    simp only [List.mem_cons, List.not_mem_nil, or_false, not_or] at this
    exact ⟨this.2.2.1, this.1⟩
  · cases hp : u.port with
    | none =>
      rw [hp] at hc
      cases hc
    | some d =>
      rw [hp] at hc
      rcases List.mem_cons.1 hc with rfl | hc
      · decide
      · obtain ⟨p, hd⟩ := Option.isSome_iff_exists.1 d.2
        obtain ⟨n, hn, -⟩ := portNumber_eq_some hd
        have hdigit := (decimal_eq_some hn).2.1 c hc
        constructor <;> rintro rfl <;> cases hdigit

theorem head?_dropWhile_rest (u : Url) :
    ((u.host ++ u.rest).dropWhile fun c => decide (c ≠ '@' ∧ c ≠ '/')).head? ≠ some '@' := by
  rw [Url.rest, ← List.append_assoc, List.dropWhile_append_of_pos fun c hc =>
    decide_eq_true (mem_authority hc)]
  intro h
  cases hp : u.path with
  | nil =>
    rw [hp] at h
    cases h
  | cons c path =>
    obtain rfl := @head?_path u c (by rw [hp]; rfl)
    rw [hp] at h
    cases h

/-- The expression finds the host of a URL. -/
theorem servername_text (u : Url) : servername (u.text "https".toList) = some u.host := by
  have htext : u.text "https".toList =
      "https://".toList ++ (u.userinfo.elim [] (· ++ ['@']) ++ (u.host ++ u.rest)) := by
    simp [Url.text, Url.rest]
  have hhost : (if (u.host ++ u.rest).takeWhile isHostChar = [] then none
      else some ((u.host ++ u.rest).takeWhile isHostChar)) = some u.host := by
    rw [takeWhile_host, if_neg u.host_ok.1]
  have hdrop8 (t : Str) : ("https://".toList ++ t).drop 8 = t := List.drop_left' (by decide)
  rw [servername, htext, if_pos (by simp)]
  dsimp only
  rw [hdrop8]
  cases hu : u.userinfo with
  | none =>
    rw [Option.elim_none, List.nil_append]
    have hhead := head?_dropWhile_rest u
    generalize (u.host ++ u.rest).dropWhile (fun c => decide (c ≠ '@' ∧ c ≠ '/')) = t at hhead
    split
    · exact absurd rfl hhead
    · exact hhost
  | some i =>
    have hi := u.userinfo_ok i hu
    have hdrop : (i ++ ['@'] ++ (u.host ++ u.rest)).dropWhile
        (fun c => decide (c ≠ '@' ∧ c ≠ '/')) = '@' :: (u.host ++ u.rest) := by
      rw [List.append_assoc, List.dropWhile_append_of_pos]
      · simp
      · exact fun c hc => decide_eq_true
          ⟨fun e => hi.1 (e ▸ hc), fun e => hi.2 (e ▸ hc)⟩
    rw [Option.elim_some, hdrop]
    simp only [hhost]
    rfl

/-! ## The words of `OPENSSL_EXTRA_ARGS` -/

/-- A word that is not a pattern. -/
def Literal (w : Str) : Prop := ∀ c ∈ w, c ∉ ['*', '?', '[', '\\']

instance (w : Str) : Decidable (Literal w) := List.decidableBAll _ w

theorem expand_join (bash : Bash) (s t : Str) :
    bash.expand (s ++ sep s ++ t) = bash.expand s ++ bash.expand t := by
  unfold sep
  split_ifs with hs
  · subst hs
    rfl
  · rw [List.append_assoc, List.singleton_append, expand_append_space]

theorem expand_single {w : Str} (hne : w ≠ []) (hifs : w.any isIfs = false)
    (hglob : bash.glob w = [w]) : bash.expand w = [w] := by
  have hnone (c : Char) (hc : c ∈ w) : isIfs c = false := by simpa using List.any_eq_false.1 hifs c hc
  have hwords : words w = [w] := by
    rw [words, List.splitOnP_eq_singleton hnone]
    simp [hne]
  rw [expand, hwords, List.flatMap_singleton, hglob]

/-- When the test of `AUTOSSL_SILENT` succeeds there is one more word. -/
def quietArgs (bash : Bash) (env : Environ) : List Str :=
  if bash.test (bash.expand (var env "AUTOSSL_SILENT")) = true then ["-quiet".toList] else []

theorem expand_opensslExtraArgs (env : Environ) (hglob : ∀ w, Literal w → bash.glob w = [w])
    (name : Str) :
    ∃ extra, opensslExtraArgs bash env (some name) = some extra ∧
      bash.expand extra = bash.expand (var env "OPENSSL_EXTRA_ARGS") ++ "-servername".toList ::
        (bash.expand name ++ quietArgs bash env) := by
  have hservername : bash.expand ("-servername ".toList ++ name) =
      "-servername".toList :: bash.expand name := by
    have hsplit : "-servername ".toList ++ name = "-servername".toList ++ ' ' :: name := by simp
    rw [hsplit, expand_append_space, expand_single (by decide) (by decide) (hglob _ (by decide))]
    rfl
  have hquiet : bash.expand "-quiet".toList = ["-quiet".toList] :=
    expand_single (by decide) (by decide) (hglob _ (by decide))
  unfold opensslExtraArgs quietArgs
  dsimp only
  split_ifs
  · refine ⟨_, rfl, ?_⟩
    rw [expand_join, expand_join, hservername, hquiet, List.append_assoc, List.cons_append]
  · refine ⟨_, rfl, ?_⟩
    rw [expand_join, hservername, List.append_nil]

theorem conn_no_environment (bash : Bash) (ip k : Str) :
    (conn bash (fun _ => none) ip k).tls = none := by
  have hports : tlsPorts bash (fun _ => none) k = none := rfl
  rw [conn_tls, hports]
  exact if_pos bash.test_z

/-- With the usual backend every TLS program is given the words of `OPENSSL_EXTRA_ARGS`. -/
theorem conn_of_backend (hbackend : env "AUTOSSL_BACKEND" ≠ some "stunnel".toList) (ip k : Str) :
    (conn bash env ip k).tls = none ∨
      ∃ t, conn bash env ip k = .openssl ip t (bash.expand (var env "OPENSSL_EXTRA_ARGS")) := by
  have hback : var env "AUTOSSL_BACKEND" ≠ "stunnel".toList := var_ne (by decide) hbackend
  unfold conn
  dsimp only
  split_ifs
  · exact Or.inl rfl
  · exact Or.inr ⟨_, rfl⟩

/-- Every TLS program of the command is given the host of the last `https:` argument as one word,
whichever server it connects to, when the words of the host are not patterns. -/
theorem wrapper_passes_servername (hglob : ∀ w, Literal w → bash.glob w = [w])
    {args pre post args' stderr : List Str} {cmd : Command}
    (hargs : args = pre ++ u.text "https".toList :: post)
    (hpost : ∀ arg ∈ post, servername arg = none)
    (hhost : Literal u.host ∧ '\t' ∉ u.host ∧ '\n' ∉ u.host)
    (hconv : env "AUTOSSL_CONVENIENCE" ≠ some "off".toList)
    (hbackend : env "AUTOSSL_BACKEND" ≠ some "stunnel".toList)
    (hrun : wrapper bash env args = .exec stderr args' (.ok cmd)) (ip k : Str) :
    (conn bash cmd.env ip k).tls = none ∨
      ∃ t, conn bash cmd.env ip k = .openssl ip t (bash.expand (var env "OPENSSL_EXTRA_ARGS") ++
        "-servername".toList :: u.host :: quietArgs bash env) := by
  have hserver : (args.filterMap servername).getLast? = some u.host := by
    have hnone : post.filterMap servername = [] := List.filterMap_eq_nil_iff.2 hpost
    rw [hargs, List.filterMap_append, List.filterMap_cons, servername_text, hnone]
    simp
  obtain ⟨extra, hextra, hexpand⟩ := expand_opensslExtraArgs env hglob u.host
  have hword : bash.expand u.host = [u.host] := by
    refine expand_single u.host_ok.1 (List.any_eq_false.2 fun c hc hifs => ?_) (hglob _ hhost.1)
    have hok := u.host_ok.2 c hc
    simp only [List.mem_cons, List.not_mem_nil, or_false, not_or] at hok
    rcases of_decide_eq_true hifs with rfl | rfl | rfl
    · exact hok.2.2.2 rfl
    · exact hhost.2.1 hc
    · exact hhost.2.2 hc
  rw [hword] at hexpand
  obtain ⟨server, henv | henv, hname⟩ := env_of_wrapper hrun
  · rw [hname hconv, hserver] at henv
    have hvar : bash.expand (var cmd.env "OPENSSL_EXTRA_ARGS") = bash.expand extra := by
      rw [henv, var]
      simp [exported, hextra]
    have hback : cmd.env "AUTOSSL_BACKEND" ≠ some "stunnel".toList := by
      rw [henv]
      simpa [exported] using hbackend
    have hconn := @conn_of_backend bash cmd.env hback ip k
    rwa [hvar, hexpand] at hconn
  · rw [henv]
    exact .inl (conn_no_environment bash ip k)

/-- `autossl wget https://example.org/`. -/
theorem wrapper_passes_servername_wget : ∃ stderr args' cmd,
    wrapper Sample.bash (fun _ => none) ["wget".toList, (Sample.url none).text "https".toList] =
      .exec stderr args' (.ok cmd) ∧
    conn Sample.bash cmd.env "192.0.2.1".toList "80".toList =
      .openssl "192.0.2.1".toList "443".toList ["-servername".toList, "example.org".toList] := by
  obtain ⟨stderr, server, file, argv, hrun⟩ :=
    Sample.wrapper_wget (fun _ => none) rfl (Sample.url none)
  refine ⟨_, _, _, hrun, ?_⟩
  have htls : (conn Sample.bash (exported Sample.bash (fun _ => none) server) "192.0.2.1".toList
      "80".toList).tls = some ("192.0.2.1".toList, "443".toList) := by
    rw [conn_tls, tlsPorts_exported]
    decide +kernel
  have hargs : ["wget".toList, (Sample.url none).text "https".toList] =
      ["wget".toList] ++ (Sample.url none).text "https".toList :: [] := rfl
  have hhost : Literal (Sample.url none).host ∧ '\t' ∉ (Sample.url none).host ∧
      '\n' ∉ (Sample.url none).host := by decide +kernel
  rcases wrapper_passes_servername (fun _ _ => rfl) hargs (fun arg h => by cases h) hhost
    (fun h => by cases h) (fun h => by cases h) hrun "192.0.2.1".toList "80".toList with h | ⟨t, h⟩
  · rw [htls] at h
    cases h
  · rw [h] at htls
    cases htls
    exact h

end YazzyPreload.Autossl

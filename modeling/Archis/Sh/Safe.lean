/-
  Which command lines are safe to run.

  `parse_line` accepts stages without a command (`ls |`, `> f`) and redirections of any number (`3> f`), and
  `spawn_stages` then reads `argv[0]` through NULL or writes behind `cur`: `parseLine_safe_iff`.
-/
import Archis.Sh.Spawn

namespace Archis.Sh

open Archis.Lib List

/-! ## The shape of a line -/

inductive Lexeme
  | word
  | pipe
  /-- The number, and whether a file name follows. -/
  | redir (fd : ℤ) (file : Bool)
deriving DecidableEq

def Token.lexeme : Token → Lexeme
  | .word _ => .word
  | .pipe => .pipe
  | .redir fd kind _ => .redir fd (kind ≠ .dupFd)

def skipWord : ℕ → Str → Str
  | 0, p => p
  | _ + 1, [] => []
  | fuel + 1, c :: q =>
    if isWordEnd c then c :: q
    else if c = DOLLAR then skipWord fuel (scanName q).2
    else skipWord fuel q

/-- The words, pipes and redirections of a segment, up to so many of them. -/
def lexemes : ℕ → Str → List Lexeme
  | room, p =>
    match p.dropWhile isspace with
    | [] => []
    | c :: q =>
      match room with
      | 0 => []
      | room + 1 =>
        if c = PIPE then .pipe :: lexemes room q
        else match scanRedir (c :: q) with
          | some ((fd, kind, _), r) => .redir fd (kind ≠ .dupFd) :: lexemes room r
          | none => .word :: lexemes room (skipWord (c :: q).length (c :: q))

/-- Every stage has a command (`seen`: the current one has), and every redirection a number below 3. -/
def hasCommands : Bool → List Lexeme → Bool
  | seen, [] => seen
  | seen, .pipe :: ls => seen && hasCommands false ls
  | _, .word :: ls => hasCommands true ls
  | seen, .redir fd false :: ls => (fd = 0 || fd = 1 || fd = 2) && hasCommands seen ls
  | _, [.redir _ true] => false
  | seen, .redir fd true :: _ :: ls => (fd = 0 || fd = 1 || fd = 2) && hasCommands seen ls

/-- The segments between `&&`, up to so many of them. -/
def segments : ℕ → Str → List Str
  | 0, _ => []
  | room + 1, p =>
    match (cutAmp p).2 with
    | none => [(cutAmp p).1]
    | some rest => (cutAmp p).1 :: segments room rest

def Runnable (raw : Str) : Prop :=
  ∀ seg ∈ segments SH_MAX_CHAIN (stripLine raw).1, hasCommands false (lexemes SH_MAX_TOKENS seg) = true

instance (raw : Str) : Decidable (Runnable raw) := inferInstanceAs (Decidable (∀ seg ∈ _, _))

section
variable {env : Env} {k k' room : ℕ} {p : Str} {toks : List Token}

theorem scanWord_rest : ∀ (fuel : ℕ) (p buf : Str), (scanWord env fuel p buf).2 = skipWord fuel p
  | 0, _, _ => rfl
  | _ + 1, [], _ => rfl
  | fuel + 1, c :: q, buf => by
    unfold scanWord skipWord
    split_ifs
    · rfl
    · exact scanWord_rest fuel _ _
    · exact scanWord_rest fuel _ _

/-- **The tokens have the shape of the text.**  The variables do not change it. -/
theorem tokenize_lexemes : ∀ {room k k' : ℕ} {p : Str} {toks : List Token}, tokenize env room k p = some (toks, k') →
    toks.map Token.lexeme = lexemes room p
  | room, k, k', p, toks, h => by
    unfold tokenize at h
    unfold lexemes
    cases hp : p.dropWhile isspace with
    | nil =>
      rw [hp] at h
      cases h
      rfl
    | cons c q =>
      simp only [hp] at h ⊢
      cases room with
      | zero => cases h
      | succ room =>
        simp only at h ⊢
        by_cases hpipe : c = PIPE
        · rw [if_pos hpipe] at h ⊢
          obtain ⟨⟨ts, k₁⟩, hrest, heq⟩ := Option.map_eq_some_iff.1 h
          cases heq
          rw [map_cons, tokenize_lexemes hrest]
          rfl
        · rw [if_neg hpipe] at h ⊢
          split_ifs at h with hamp
          obtain ⟨⟨t, k₁, r⟩, htok, h⟩ := Option.bind_eq_some_iff.1 h
          obtain ⟨⟨ts, k₂⟩, hrest, heq⟩ := Option.map_eq_some_iff.1 h
          cases heq
          rw [map_cons, tokenize_lexemes hrest]
          unfold scanToken at htok
          cases hredir : scanRedir (c :: q) with
          | some x =>
            obtain ⟨⟨fd, kind, target⟩, r'⟩ := x
            rw [hredir] at htok
            cases htok
            rfl
          | none =>
            rw [hredir] at htok
            dsimp only at htok
            split_ifs at htok
            cases htok
            rw [scanWord_rest]
            rfl

/-! ## Stages -/

/-- A stage that is being filled. -/
structure Stage.Open (st : Stage) : Prop extends st.Formed where
  args : ∀ i < st.argc, ∃ w, st.argv[i]? = some (some w)
  paths : ∀ r ∈ st.redirects, r.path ≠ none ↔ r.kind ≠ .dupFd

/-- The redirections are of the numbers that `cur` has. -/
def Stage.FdsOk (st : Stage) : Prop := ∀ r ∈ st.redirects, r.fd = 0 ∨ r.fd = 1 ∨ r.fd = 2

variable {st : Stage}

theorem Stage.open_zero : Stage.zero.Open := ⟨⟨length_replicate .., Nat.zero_le _, Nat.zero_le _⟩, nofun, nofun⟩

theorem Stage.Open.addArg (h : st.Open) (hlt : st.argc < SH_MAX_ARGS) (w : Str) : (st.addArg w).Open := by
  have hlen := h.argv
  refine ⟨⟨(length_set ..).trans hlen, hlt, h.redirects⟩, fun i hi => ?_, h.paths⟩
  rcases Nat.lt_succ_iff_lt_or_eq.1 hi with hlt' | rfl
  · obtain ⟨w', hw'⟩ := h.args i hlt'
    exact ⟨w', (getElem?_set_ne hlt'.ne').trans hw'⟩
  · exact ⟨w, getElem?_set_self (by omega)⟩

theorem Stage.Open.addRedirect (h : st.Open) (hlt : st.redirects.length < SH_MAX_REDIRECTS) {r : Redirect}
    (hr : r.path ≠ none ↔ r.kind ≠ .dupFd) : (st.addRedirect r).Open := by
  refine ⟨⟨h.argv, h.argc, ?_⟩, h.args, fun r' hr' => ?_⟩
  · simp only [Stage.addRedirect, length_append, length_singleton]
    omega
  · rcases mem_append.1 hr' with hr' | hr'
    · exact h.paths r' hr'
    · rw [mem_singleton.1 hr']
      exact hr

theorem Stage.fdsOk_addRedirect {r : Redirect} :
    (st.addRedirect r).FdsOk ↔ st.FdsOk ∧ (r.fd = 0 ∨ r.fd = 1 ∨ r.fd = 2) := by
  simp only [Stage.FdsOk, Stage.addRedirect, forall_mem_append, mem_singleton, forall_eq]

theorem Stage.Open.safe_close (h : st.Open) : st.close.Safe ↔ 0 < st.argc ∧ st.FdsOk := by
  have hlen := h.argv
  have hargc := h.argc
  refine ⟨fun hs => ⟨hs.argc, hs.fds⟩, fun ⟨h1, h2⟩ => ⟨h1, fun i hi => ?_, ?_, h2, h.paths⟩⟩
  · obtain ⟨w, hw⟩ := h.args i hi
    exact ⟨w, (getElem?_set_ne (Nat.ne_of_gt hi)).trans hw⟩
  · exact getElem?_set_self (by omega)

theorem Stage.Open.formed_close (h : st.Open) : st.close.Formed := ⟨(length_set ..).trans h.argv, h.argc, h.redirects⟩

/-- **`build_job`.**  The stages are safe if the tokens have commands. -/
theorem buildJob_spec (toks : List Token) (done : List Stage) (st : Stage) (stages : List Stage) (hst : st.Open)
    (hdone : done.length < SH_MAX_STAGES) (hb : buildJob toks done st = some stages) :
    ∃ new, stages = done ++ new ∧ stages.length ≤ SH_MAX_STAGES ∧ (∀ s ∈ new, s.Formed) ∧
      ((∀ s ∈ new, s.Safe) ↔ st.FdsOk ∧ hasCommands (0 < st.argc) (toks.map Token.lexeme) = true) := by
  fun_induction buildJob toks done st with
  | case1 done st =>
    cases hb
    refine ⟨[st.close], rfl, by simpa using hdone, by simpa using hst.formed_close, ?_⟩
    simp [hasCommands, hst.safe_close, and_comm]
  | case2 => cases hb
  | case3 ts done st hfull ih =>
    obtain ⟨new, rfl, hlen, hformed, hiff⟩ := ih Stage.open_zero (by simpa using hfull) hb
    refine ⟨st.close :: new, by simp, hlen, by simpa using ⟨hst.formed_close, hformed⟩, ?_⟩
    rw [forall_mem_cons, hiff, hst.safe_close]
    simp [hasCommands, Token.lexeme, Stage.FdsOk, Stage.zero, and_assoc, and_comm, and_left_comm]
  | case4 => cases hb
  | case5 fd target ts done st hroom ih =>
    obtain ⟨new, rfl, hlen, hformed, hiff⟩ := ih (hst.addRedirect (by omega) (by simp)) hdone hb
    refine ⟨new, rfl, hlen, hformed, hiff.trans ?_⟩
    change _ ∧ hasCommands (0 < st.argc) _ = true ↔ _
    simp [Stage.fdsOk_addRedirect, hasCommands, Token.lexeme, and_assoc, or_assoc]
  | case6 fd kind target done st hroom hkind w ts ih =>
    obtain ⟨new, rfl, hlen, hformed, hiff⟩ := ih (hst.addRedirect (by omega) (by simp [hkind])) hdone hb
    refine ⟨new, rfl, hlen, hformed, hiff.trans ?_⟩
    change _ ∧ hasCommands (0 < st.argc) _ = true ↔ _
    simp [Stage.fdsOk_addRedirect, hasCommands, Token.lexeme, hkind, and_assoc, or_assoc]
  | case7 => cases hb
  | case8 => cases hb
  | case9 w ts done st hroom ih =>
    obtain ⟨new, rfl, hlen, hformed, hiff⟩ := ih (hst.addArg (by omega) w) hdone hb
    refine ⟨new, rfl, hlen, hformed, hiff.trans ?_⟩
    simp [hasCommands, Token.lexeme, Stage.addArg, Stage.FdsOk]

/-! ## Lines -/

theorem parseSegment_spec {seg : Str} {job : Job} (h : parseSegment env k seg = some (job, k')) :
    job.length ≤ SH_MAX_STAGES ∧ (∀ st ∈ job, st.Formed) ∧
      ((∀ st ∈ job, st.Safe) ↔ hasCommands false (lexemes SH_MAX_TOKENS seg) = true) := by
  obtain ⟨⟨toks, k₁⟩, htok, h⟩ := Option.bind_eq_some_iff.1 h
  dsimp only at h
  split_ifs at h
  obtain ⟨job', hbuild, heq⟩ := Option.map_eq_some_iff.1 h
  cases heq
  obtain ⟨new, rfl, hlen, hformed, hiff⟩ := buildJob_spec toks [] .zero job Stage.open_zero (by decide) hbuild
  rw [tokenize_lexemes htok] at hiff
  exact ⟨hlen, hformed, hiff.trans (and_iff_right nofun)⟩

theorem parseChain_forall {P : Job → Prop} {C : Str → Prop}
    (hseg : ∀ k seg job k', parseSegment env k seg = some (job, k') → (P job ↔ C seg)) :
    ∀ {room k : ℕ} {p : Str} {jobs : List Job}, parseChain env room k p = some jobs →
      ((∀ job ∈ jobs, P job) ↔ ∀ seg ∈ segments room p, C seg)
  | 0, _, _, _, h => by cases h
  | room + 1, k, p, jobs, h => by
    obtain ⟨⟨job, k₁⟩, hjob, h⟩ := Option.bind_eq_some_iff.1 h
    unfold segments
    cases hcut : (cutAmp p).2 with
    | none =>
      rw [hcut] at h
      cases h
      simpa using hseg k _ job k₁ hjob
    | some rest =>
      rw [hcut] at h
      obtain ⟨jobs', hrest, rfl⟩ := Option.map_eq_some_iff.1 h
      rw [forall_mem_cons, forall_mem_cons, hseg k _ job k₁ hjob, parseChain_forall hseg hrest]

/-- The stages are safe, and `spawn_stages` does not fault, whatever the variables and replies are. -/
def Job.CanRun (job : Job) : Prop :=
  (∀ st ∈ job, st.Safe) ∧ ∀ (env : Env) (tty : ℤ), Sure (spawnStages env tty job) fun _ => True

/-- **An accepted line is safe to run** exactly if its stages have commands and its redirections are of 0, 1 and
2. -/
theorem parseLine_safe_iff (env : Env) (raw : Str) (jobs : List Job) (background : Bool)
    (h : parseLine env raw = .runnable jobs background) : (∀ job ∈ jobs, Job.CanRun job) ↔ Runnable raw := by
  unfold parseLine at h
  split_ifs at h
  cases hchain : parseChain env SH_MAX_CHAIN 0 (stripLine raw).1 with
  | none =>
    rw [hchain] at h
    cases h
  | some jobs' =>
    rw [hchain] at h
    cases h
    refine parseChain_forall (fun k seg job k' hseg => ?_) hchain
    obtain ⟨hlen, hformed, hiff⟩ := parseSegment_spec hseg
    rw [← hiff]
    exact ⟨fun hrun => hrun.1, fun hs => ⟨hs, fun _ _ => sure_spawnStages hlen fun st hst => ⟨hs st hst, hformed st hst⟩⟩⟩

def plainEnv : Env := ⟨fun _ => none, fun _ => true⟩

/-- The text `ls 2>&1 | wc > f && ls`. -/
def pipeLine : Str :=
  [108, 115, 32, 50, 62, 38, 49, 32, 124, 32, 119, 99, 32, 62, 32, 102, 32, 38, 38, 32, 108, 115]

theorem parseLine_safe_iff_pipe : ∃ jobs, parseLine plainEnv pipeLine = .runnable jobs false ∧
    jobs.map List.length = [2, 1] ∧ ∀ job ∈ jobs, Job.CanRun job := by
  have hjobs : ∃ jobs, parseLine plainEnv pipeLine = .runnable jobs false ∧ jobs.map List.length = [2, 1] := ⟨_, rfl, rfl⟩
  obtain ⟨jobs, hparse, hlen⟩ := hjobs
  exact ⟨jobs, hparse, hlen, (parseLine_safe_iff plainEnv pipeLine jobs false hparse).2 (by decide +kernel)⟩

/-- **A redirection without a command**: `> f` is accepted, and `spawn_stages` reads its name through NULL. -/
theorem redirect_only_faults : ∃ job, parseLine plainEnv [62, 32, 102] = .runnable [job] false ∧
    (∀ st ∈ job, st.argc = 0) ∧ spawnStages plainEnv 0 job ⟨fun _ => 0, 0⟩ = .error .null ⟨fun _ => 0, 0⟩ ∧
      ¬ Job.CanRun job :=
  ⟨_, rfl, by decide, rfl, fun h => (h.2 plainEnv 0 ⟨fun _ => 0, 0⟩).elim⟩

end

end Archis.Sh

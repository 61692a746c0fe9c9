/-
  How the shell starts a job: `spawn_stages` (`userspace/sh/exec.c`).

  A read through NULL and an index outside of an array are faults; the replies of the kernel are given.  There is no
  fault if all stages are safe (`Stage.Safe`).
-/
import Archis.Lib.ErrState
import Archis.Sh.Parse

namespace Archis.Sh

open Archis.Lib List

inductive Fault
  | null
  | bounds

structure Sys where
  reply : ℕ → ℤ
  calls : ℕ

abbrev M := EStateM Fault Sys

def E_INVALID : ℤ := -1
def E_NOT_FOUND : ℤ := -13
def PATH_MAX : ℕ := 256

/-! ## Memory and system calls -/

section
variable {α : Type}

def sys : M ℤ := fun s => .ok (s.reply s.calls) { s with calls := s.calls + 1 }

def deref (p : Option α) : M α :=
  match p with
  | some a => pure a
  | none => throw .null

/-- `l[i]` -/
def readAt (l : List α) (i : ℤ) : M α :=
  match l[i.toNat]? with
  | some a => if 0 ≤ i then pure a else throw .bounds
  | none => throw .bounds

/-- `l[i] = v` -/
def writeAt (l : List α) (i : ℤ) (v : α) : M (List α) :=
  if 0 ≤ i ∧ i < l.length then pure (l.set i.toNat v) else throw .bounds

end

/-! ## `redir.c` -/

def isDirectPath (name : Str) : Bool := name.take 1 = [47] || name.take 2 = [46, 47] || name.take 3 = [46, 46, 47]

def PATH : Str := [80, 65, 84, 72]

/-- The directories of a path: the parts between colons that are not empty. -/
def pathDirs (path : Str) : List Str := (path.splitOn 58).filter (· ≠ [])

/-- The loop of `sh_create_process_path_search` over the directories. -/
def tryDirs (name : Str) : List Str → List (Option Str) → M ℤ
  | [], _ => pure E_NOT_FOUND
  | dir :: dirs, argvCopy =>
    if dir.length + 1 + name.length < PATH_MAX then do
      let argvCopy ← writeAt argvCopy 0 (some (dir ++ 47 :: name))
      let h ← sys
      if h ≥ 0 then pure h else tryDirs name dirs argvCopy
    else tryDirs name dirs argvCopy

/-- `sh_create_process_path_search` -/
def pathSearch (env : Env) (argv : List (Option Str)) (argc : ℕ) : M ℤ := do
  let name ← deref (← readAt argv 0)
  if isDirectPath name then sys
  else do
    let argvCopy ← (List.range (argc + 1)).foldlM (fun copy (i : ℕ) => do writeAt copy i (← readAt argv i))
      (replicate (SH_MAX_ARGS + 1) none)
    match env.getenv PATH with
    | none => pure E_NOT_FOUND
    | some path => tryDirs name (pathDirs path) argvCopy

/-- `sh_resolve_redirect` -/
def resolveRedirect (r : Redirect) (current : List ℤ) : M ℤ :=
  match r.kind with
  | .dupFd => if r.dupTargetFd < 0 ∨ r.dupTargetFd > 2 then pure E_INVALID else readAt current r.dupTargetFd
  | .append => do
    let _ ← deref r.path
    let h ← sys
    if h ≥ 0 then do
      let _ ← sys
      pure h
    else do
      let h ← sys
      if h ≥ 0 then do
        let _ ← sys
        pure h
      else pure h
  | .read => do
    let _ ← deref r.path
    sys
  | .trunc => do
    let _ ← deref r.path
    sys

/-! ## `spawn_stages` -/

structure Wiring where
  cur : List ℤ
  openedFiles : List ℤ
  nOpened : ℕ
  redirectFailed : Bool

def applyRedirect (w : Wiring) (r : Redirect) : M Wiring := do
  let resolved ← resolveRedirect r w.cur
  if resolved < 0 then pure { w with redirectFailed := true }
  else do
    let cur ← writeAt w.cur r.fd resolved
    if r.kind = .dupFd then pure { w with cur }
    else do
      let openedFiles ← writeAt w.openedFiles w.nOpened resolved
      pure { w with cur, openedFiles, nOpened := w.nOpened + 1 }

structure Spawned where
  stageHandles : List ℤ
  stagePids : List ℤ
  stageNames : List (Option Str)
  jobPgid : ℤ
  openedFiles : List ℤ
  nOpened : ℕ
  created : ℕ
  aborted : Bool

/-- The first `n` handles of an array are read, for `sys_close` and `sys_issue_signal`. -/
def closeAll (n : ℕ) (l : List ℤ) : M Unit := (List.range n).foldlM (fun _ (i : ℕ) => do let _ ← readAt l i) ()

/-- The pipes between the stages, up to the first that the kernel does not give. -/
def createPipes : ℕ → ℕ → List ℤ × List ℤ → M (Bool × List ℤ × List ℤ)
  | 0, _, pipes => pure (true, pipes)
  | n + 1, i, (pipeR, pipeW) => do
    let ok ← sys
    let pipeR ← writeAt pipeR i (← sys)
    let pipeW ← writeAt pipeW i (← sys)
    if ok < 0 then do
      closeAll i pipeR
      closeAll i pipeW
      pure (false, pipeR, pipeW)
    else createPipes n (i + 1) (pipeR, pipeW)

/-- `c ? v : l[i]` -/
def readUnless (c : Bool) (v : ℤ) (l : List ℤ) (i : ℕ) : M ℤ := if c then pure v else readAt l i

def spawnStage (env : Env) (tty : ℤ) (total : ℕ) (pipeR pipeW : List ℤ) (s : Spawned) (st : Stage) : M Spawned := do
  let h ← pathSearch env st.argv st.argc
  if h < 0 then pure { s with aborted := true }
  else do
    let stageHandles ← writeAt s.stageHandles s.created h
    let stageNames ← writeAt s.stageNames s.created (← readAt st.argv 0)
    let stagePids ← writeAt s.stagePids s.created (← sys)
    let jobPgid ← readUnless (s.created ≠ 0) s.jobPgid stagePids 0
    let stdin ← readUnless (s.created = 0) tty pipeR (s.created - 1)
    let stdout ← readUnless (s.created = total - 1) tty pipeW s.created
    let w ← st.redirects.foldlM applyRedirect ⟨[stdin, stdout, tty], s.openedFiles, s.nOpened, false⟩
    let _ ← readAt w.cur 0
    let _ ← readAt w.cur 1
    let _ ← readAt w.cur 2
    pure ⟨stageHandles, stagePids, stageNames, jobPgid, w.openedFiles, w.nOpened, s.created + 1, w.redirectFailed⟩

def spawnLoop (env : Env) (tty : ℤ) (total : ℕ) (pipeR pipeW : List ℤ) : List Stage → Spawned → M Spawned
  | [], s => pure s
  | st :: stages, s => do
    let s ← spawnStage env tty total pipeR pipeW s st
    if s.aborted then pure s else spawnLoop env tty total pipeR pipeW stages s

def killStages (s : Spawned) : M Unit :=
  if s.aborted then do
    closeAll s.created s.stagePids
    closeAll s.created s.stageHandles
  else pure ()

def spawnStages (env : Env) (tty : ℤ) (job : Job) : M Spawned := do
  let total := job.length
  let zeros := replicate (SH_MAX_STAGES - 1) 0
  let s : Spawned := ⟨replicate SH_MAX_STAGES 0, replicate SH_MAX_STAGES 0, replicate SH_MAX_STAGES none, 0,
    replicate (SH_MAX_STAGES * SH_MAX_REDIRECTS) 0, 0, 0, false⟩
  let (ok, pipeR, pipeW) ← createPipes (total - 1) 0 (zeros, zeros)
  if ok then do
    let s ← spawnLoop env tty total pipeR pipeW job s
    closeAll (total - 1) pipeR
    closeAll (total - 1) pipeW
    closeAll s.nOpened s.openedFiles
    killStages s
    pure s
  else pure { s with aborted := true }

/-! ## Safety -/

/-- What the code relies on in a stage. -/
structure Stage.Safe (st : Stage) : Prop where
  argc : 1 ≤ st.argc
  args : ∀ i < st.argc, ∃ w, st.argv[i]? = some (some w)
  last : st.argv[st.argc]? = some none
  fds : ∀ r ∈ st.redirects, r.fd = 0 ∨ r.fd = 1 ∨ r.fd = 2
  paths : ∀ r ∈ st.redirects, r.path ≠ none ↔ r.kind ≠ .dupFd

/-- The arrays and counters of a stage. -/
structure Stage.Formed (st : Stage) : Prop where
  argv : st.argv.length = SH_MAX_ARGS + 1
  argc : st.argc ≤ SH_MAX_ARGS
  redirects : st.redirects.length ≤ SH_MAX_REDIRECTS

section
variable {α : Type} {l : List α} {a : α} {i : ℤ} {n : ℕ}

theorem sure_sys : Sure sys fun _ => True := fun _ => trivial

theorem sure_deref : Sure (deref (some a)) (· = a) := .pure rfl

theorem sure_readAt (h0 : 0 ≤ i) (hi : i < l.length) : Sure (readAt l i) fun _ => True := by
  unfold readAt
  rw [getElem?_eq_getElem (by omega)]
  exact .ite (fun _ => .pure trivial) fun hno => absurd h0 hno

theorem sure_readAt_eq (h : l[n]? = some a) : Sure (readAt l n) (· = a) := by
  unfold readAt
  rw [Int.toNat_natCast, h]
  exact .ite (fun _ => .pure rfl) fun hno => absurd (Int.natCast_nonneg n) hno

theorem sure_writeAt (h0 : 0 ≤ i) (hi : i < l.length) : Sure (writeAt l i a) (·.length = l.length) :=
  .ite (fun _ => .pure (length_set ..)) fun hno => absurd ⟨h0, hi⟩ hno

theorem sure_closeAll {l : List ℤ} (h : n ≤ l.length) : Sure (closeAll n l) fun _ => True := by
  refine .foldlM (fun _ _ => True) (.range n) 0 () (fun k j _ hj _ _ => ?_) trivial
  have hlt := mem_range.1 hj
  exact (sure_readAt (by omega) (by omega)).bind fun _ _ => .pure trivial

theorem sure_readUnless {c : Bool} {v : ℤ} {l : List ℤ} (h : c = false → n < l.length) :
    Sure (readUnless c v l n) fun _ => True :=
  .ite (fun _ => .pure trivial) fun hc =>
    have := h (by simpa using hc)
    sure_readAt (by omega) (by omega)

theorem sure_tryDirs (name : Str) : ∀ (dirs : List Str) (argvCopy : List (Option Str)), 0 < argvCopy.length →
    Sure (tryDirs name dirs argvCopy) fun _ => True
  | [], _, _ => .pure trivial
  | dir :: dirs, argvCopy, hpos => by
    refine .ite (fun _ => ?_) fun _ => sure_tryDirs name dirs argvCopy hpos
    refine (sure_writeAt le_rfl (by omega)).bind fun copy hcopy => sure_sys.bind fun h _ => ?_
    exact .ite (fun _ => .pure trivial) fun _ => sure_tryDirs name dirs copy (by omega)

/-- **`sh_create_process_path_search`** finds a name, and copies no more than the array has. -/
theorem sure_pathSearch {st : Stage} (env : Env) (hs : st.Safe) (hf : st.Formed) :
    Sure (pathSearch env st.argv st.argc) fun _ => True := by
  obtain ⟨w, hw⟩ := hs.args 0 hs.argc
  refine (sure_readAt_eq (n := 0) hw).bind fun p hp => ?_
  subst hp
  refine sure_deref.bind fun name _ => .ite (fun _ => sure_sys) fun _ => ?_
  have hargv := hf.argv
  have hargc := hf.argc
  refine (Sure.foldlM (fun _ copy => copy.length = SH_MAX_ARGS + 1) _ 0 _ (fun k j copy hj _ hlen => ?_)
    (length_replicate ..)).bind fun copy hlen => ?_
  · have hlt := mem_range.1 hj
    exact (sure_readAt (by omega) (by omega)).bind fun a _ =>
      (sure_writeAt (by omega) (by omega)).mono fun copy' h' => h'.trans hlen
  · cases env.getenv PATH with
    | none => exact .pure trivial
    | some path => exact sure_tryDirs name _ copy (by omega)

theorem sure_resolveRedirect {r : Redirect} {cur : List ℤ} (hp : r.path ≠ none ↔ r.kind ≠ .dupFd)
    (hcur : cur.length = 3) : Sure (resolveRedirect r cur) fun _ => True := by
  unfold resolveRedirect
  cases hk : r.kind with
  | dupFd => exact .ite (fun _ => .pure trivial) fun _ => sure_readAt (by omega) (by omega)
  | append =>
    obtain ⟨path, hpath⟩ := Option.ne_none_iff_exists'.1 (hp.2 (by simp [hk]))
    rw [hpath]
    refine sure_deref.bind fun _ _ => sure_sys.bind fun h _ => ?_
    refine .ite (fun _ => sure_sys.bind fun _ _ => .pure trivial) fun _ => sure_sys.bind fun h' _ => ?_
    exact .ite (fun _ => sure_sys.bind fun _ _ => .pure trivial) fun _ => .pure trivial
  | read =>
    obtain ⟨path, hpath⟩ := Option.ne_none_iff_exists'.1 (hp.2 (by simp [hk]))
    rw [hpath]
    exact sure_deref.bind fun _ _ => sure_sys
  | trunc =>
    obtain ⟨path, hpath⟩ := Option.ne_none_iff_exists'.1 (hp.2 (by simp [hk]))
    rw [hpath]
    exact sure_deref.bind fun _ _ => sure_sys

/-- The arrays of the loop over the redirections, after `k` of them. -/
def Wiring.Fits (k : ℕ) (w : Wiring) : Prop :=
  w.cur.length = 3 ∧ w.openedFiles.length = SH_MAX_STAGES * SH_MAX_REDIRECTS ∧ w.nOpened ≤ k

theorem sure_applyRedirect {w : Wiring} {r : Redirect} {k : ℕ} (hfd : r.fd = 0 ∨ r.fd = 1 ∨ r.fd = 2)
    (hp : r.path ≠ none ↔ r.kind ≠ .dupFd) (hk : k < SH_MAX_STAGES * SH_MAX_REDIRECTS) (hw : w.Fits k) :
    Sure (applyRedirect w r) (Wiring.Fits (k + 1)) := by
  obtain ⟨hcur, hopen, hn⟩ := hw
  refine (sure_resolveRedirect hp hcur).bind fun h _ => .ite (fun _ => .pure ⟨hcur, hopen, hn.step⟩) fun _ => ?_
  refine (sure_writeAt (by omega) (by omega)).bind fun cur' hcur' => ?_
  refine .ite (fun _ => .pure ⟨hcur'.trans hcur, hopen, hn.step⟩) fun _ => ?_
  refine (sure_writeAt (by omega) (by omega)).bind fun open' hopen' => ?_
  exact .pure ⟨hcur'.trans hcur, hopen'.trans hopen, Nat.succ_le_succ hn⟩

/-- The arrays of the loop over the stages. -/
structure Spawned.Fits (s : Spawned) : Prop where
  handles : s.stageHandles.length = SH_MAX_STAGES
  pids : s.stagePids.length = SH_MAX_STAGES
  names : s.stageNames.length = SH_MAX_STAGES
  opened : s.openedFiles.length = SH_MAX_STAGES * SH_MAX_REDIRECTS
  count : s.nOpened ≤ s.created * SH_MAX_REDIRECTS

variable {env : Env} {tty : ℤ} {total : ℕ} {pipeR pipeW : List ℤ}

theorem sure_redirects {st : Stage} {w : Wiring} {k : ℕ} (hs : st.Safe) (hf : st.Formed) (hk : k < SH_MAX_STAGES)
    (hw : w.Fits (k * SH_MAX_REDIRECTS)) :
    Sure (st.redirects.foldlM applyRedirect w) (Wiring.Fits ((k + 1) * SH_MAX_REDIRECTS)) := by
  have hlen := hf.redirects
  simp only [SH_MAX_STAGES, SH_MAX_REDIRECTS] at *
  refine (Sure.foldlM Wiring.Fits st.redirects (k * 4) w (fun j r w' hr hj hw' => ?_) hw).mono fun w' hw' => ?_
  · exact sure_applyRedirect (hs.fds r hr) (hs.paths r hr) (by simp only [SH_MAX_STAGES, SH_MAX_REDIRECTS]; omega) hw'
  · exact ⟨hw'.1, hw'.2.1, hw'.2.2.trans (by omega)⟩

theorem sure_spawnStage {s : Spawned} {st : Stage} (hs : st.Safe) (hf : st.Formed) (hfit : s.Fits)
    (hlt : s.created < total) (htotal : total ≤ SH_MAX_STAGES) (hr : pipeR.length = SH_MAX_STAGES - 1)
    (hw : pipeW.length = SH_MAX_STAGES - 1) : Sure (spawnStage env tty total pipeR pipeW s st) fun t =>
      t.Fits ∧ t.created ≤ s.created + 1 ∧ (t.aborted = false → t.created = s.created + 1) := by
  obtain ⟨hhandles, hpids, hnames, hopen, hcount⟩ := hfit
  obtain ⟨name, hname⟩ := hs.args 0 hs.argc
  have hstages : SH_MAX_STAGES = 8 := rfl
  refine (sure_pathSearch env hs hf).bind fun h _ => .ite (fun _ => ?_) fun _ => ?_
  · exact .pure ⟨⟨hhandles, hpids, hnames, hopen, hcount⟩, Nat.le_succ _, nofun⟩
  refine (sure_writeAt (by omega) (by omega)).bind fun handles' hhandles' => ?_
  refine (sure_readAt_eq (n := 0) hname).bind fun _ _ => ?_
  refine (sure_writeAt (by omega) (by omega)).bind fun names' hnames' => sure_sys.bind fun pid _ => ?_
  refine (sure_writeAt (by omega) (by omega)).bind fun pids' hpids' => ?_
  refine (sure_readUnless fun _ => by omega).bind fun pgid _ => ?_
  refine (sure_readUnless fun hfirst => by have := of_decide_eq_false hfirst; omega).bind fun stdin _ => ?_
  refine (sure_readUnless fun hlast => by have := of_decide_eq_false hlast; omega).bind fun stdout _ => ?_
  refine (sure_redirects hs hf (by omega) ⟨rfl, hopen, hcount⟩).bind fun w hw => ?_
  obtain ⟨hcur, hopen', hcount'⟩ := hw
  refine (sure_readAt (by omega) (by omega)).bind fun _ _ => (sure_readAt (by omega) (by omega)).bind fun _ _ => ?_
  refine (sure_readAt (by omega) (by omega)).bind fun _ _ => .pure ⟨⟨?_, ?_, ?_, hopen', hcount'⟩, le_rfl, fun _ => rfl⟩
  · exact hhandles'.trans hhandles
  · exact hpids'.trans hpids
  · exact hnames'.trans hnames

theorem sure_spawnLoop (htotal : total ≤ SH_MAX_STAGES) (hr : pipeR.length = SH_MAX_STAGES - 1)
    (hw : pipeW.length = SH_MAX_STAGES - 1) : ∀ (stages : List Stage) (s : Spawned), (∀ st ∈ stages, st.Safe ∧ st.Formed) →
    s.Fits → s.created + stages.length = total →
    Sure (spawnLoop env tty total pipeR pipeW stages s) fun t => t.Fits ∧ t.created ≤ total
  | [], s, _, hfit, htot => .pure ⟨hfit, by simpa using htot.le⟩
  | st :: stages, s, hall, hfit, htot => by
    rw [length_cons] at htot
    obtain ⟨hs, hf⟩ := hall st (.head _)
    refine (sure_spawnStage hs hf hfit (by omega) htotal hr hw).bind fun t ⟨hfit', hle, hnext⟩ => ?_
    refine .ite (fun _ => .pure ⟨hfit', by omega⟩) fun hgo => ?_
    have := hnext (by simpa using hgo)
    exact sure_spawnLoop htotal hr hw stages t (fun st' h' => hall st' (.tail _ h')) hfit' (by omega)

theorem sure_createPipes : ∀ (n i : ℕ) (pipes : List ℤ × List ℤ), n + i ≤ SH_MAX_STAGES - 1 →
    pipes.1.length = SH_MAX_STAGES - 1 → pipes.2.length = SH_MAX_STAGES - 1 → Sure (createPipes n i pipes) fun r =>
      r.2.1.length = SH_MAX_STAGES - 1 ∧ r.2.2.length = SH_MAX_STAGES - 1
  | 0, _, _, _, hr, hw => .pure ⟨hr, hw⟩
  | n + 1, i, (pipeR, pipeW), hle, hr, hw => by
    simp only at hr hw
    refine sure_sys.bind fun ok _ => sure_sys.bind fun a _ => ?_
    refine (sure_writeAt (by omega) (by omega)).bind fun pipeR' hr' => sure_sys.bind fun b _ => ?_
    refine (sure_writeAt (by omega) (by omega)).bind fun pipeW' hw' => ?_
    refine .ite (fun _ => ?_) fun _ => sure_createPipes n (i + 1) (pipeR', pipeW') (by omega) (hr'.trans hr) (hw'.trans hw)
    refine (sure_closeAll (by omega)).bind fun _ _ => (sure_closeAll (by omega)).bind fun _ _ => ?_
    exact .pure ⟨hr'.trans hr, hw'.trans hw⟩

/-- **`spawn_stages` does not fault** on safe stages, whatever the kernel replies. -/
theorem sure_spawnStages {job : Job} (hlen : job.length ≤ SH_MAX_STAGES) (hall : ∀ st ∈ job, st.Safe ∧ st.Formed) :
    Sure (spawnStages env tty job) fun _ => True := by
  have hstages : SH_MAX_STAGES = 8 := rfl
  have hfiles : SH_MAX_REDIRECTS = 4 := rfl
  refine (sure_createPipes (job.length - 1) 0 _ (by omega) (length_replicate ..) (length_replicate ..)).bind
    fun ⟨ok, pipeR, pipeW⟩ ⟨hr, hw⟩ => .ite (fun _ => ?_) fun _ => .pure trivial
  refine (sure_spawnLoop hlen hr hw job _ hall ?_ (by simp)).bind fun s ⟨hfit, hcreated⟩ => ?_
  · exact ⟨length_replicate .., length_replicate .., length_replicate .., length_replicate .., Nat.zero_le _⟩
  obtain ⟨hhandles, hpids, -, hopen, hcount⟩ := hfit
  simp only at hr hw
  refine (sure_closeAll (by omega)).bind fun _ _ => (sure_closeAll (by omega)).bind fun _ _ => ?_
  refine (sure_closeAll ?_).bind fun _ _ => ?_
  · rw [hopen]
    exact hcount.trans (Nat.mul_le_mul_right _ (hcreated.trans hlen))
  · have hkill : Sure (killStages s) fun _ => True :=
      .ite (fun _ => (sure_closeAll (by omega)).bind fun _ _ => sure_closeAll (by omega)) fun _ => .pure trivial
    exact hkill.bind fun _ _ => .pure trivial

end

end Archis.Sh

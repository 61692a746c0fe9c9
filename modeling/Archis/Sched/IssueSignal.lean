/-
  `sys_issue_signal`: `sys_issue_signal_handler` of `sched/user.rs` with `issue_signal` of `sched/scheduler.rs`, and
  `kill_process` and `issue_pgrp` of `sched/proc.rs`.

  A process that is ready gets the signal: it is queued, handed to a thread that has no such signal yet, or the process is
  killed for want of a handler.  A call panics if its target is a kernel process, or a ready one and the number is not
  a signal (`sysIssueSignal_iff`); else what it changes is marked (`System.Le`).
-/
import Archis.Lib.ErrState
import Archis.Sched.SignalFrame

namespace Archis.Sched

open Archis.Lib
open Function (update update_eq_self update_idem update_of_ne update_self)

/-! ## The state -/

inductive ProcessStatus where
  | ready
  | suspended
  | terminated
  deriving DecidableEq

inductive TaskStatus where
  | running
  | active
  | waiting
  | waitingInterruptible
  | terminated
  | suspended
  deriving DecidableEq

inductive SignalCause where
  | normal
  | timerExpiry
  | interruption
  deriving DecidableEq

inductive ExitReason where
  | normal
  | signal
  deriving DecidableEq

structure ExitInfo where
  reason : ExitReason
  code : ℕ
  deriving DecidableEq

def ExitInfo.signal (signal : UInt8) : ExitInfo := ⟨.signal, signal.toNat⟩

structure SignalHandler where
  userCtx : UInt64
  handler : UInt64
  deriving DecidableEq

/-- The fields of `Process` that a signal uses. -/
structure Process where
  isUser : Bool
  status : ProcessStatus
  threads : List ℕ
  pgroup : ℕ
  signalHandlers : Vector (Option SignalHandler) MAX_SIGNALS
  pendingSignals : UInt8
  exitInfo : ExitInfo

/-- A task: a waiting one waits on one semaphore, and a handler that runs has its frame. -/
structure Thread extends Task where
  status : TaskStatus
  process : ℕ
  waitSemaphores : List ℕ
  /-- The task is in `waiting_tasks` of its core. -/
  queued : Bool
  issuedIrps : List ℕ
  lastSignalCause : SignalCause
  /-- `last_signal_cause` of the frames. -/
  frameCauses : ℕ → SignalCause
  pendingKill : Bool
  exitInfo : ExitInfo
  frames : signalFrameInit.length = MAX_SIGNALS
  waits : status = .waiting ∨ status = .waitingInterruptible → waitSemaphores.length = 1
  framed : ∀ k, getHighestSetBit pendingSignals = some k → (frameAt signalFramePending k).isSome = true

inductive SemState where
  | semaphore (maxCount counter : ℤ)
  | event

structure SemInner where
  state : SemState
  blockedList : List ℕ

structure System where
  /-- `PROCESSES`, by process id. -/
  processes : ℕ → Option Process
  /-- `TASKS`, by task id. -/
  tasks : ℕ → Option Thread
  groups : ℕ → List ℕ
  semaphores : ℕ → SemInner
  /-- The task that performs the system call. -/
  current : ℕ
  /-- The requests that have been handed to `cancel_irp`. -/
  swept : List ℕ

/-- What ends a call: a panic, or the immediate kill of a kernel thread, which has no model here. -/
inductive Stop where
  | panic
  | kernelThread
  deriving DecidableEq

abbrev SysM := EStateM Stop System

namespace System

def setProcess (s : System) (pid : ℕ) (p : Process) : System :=
  { s with processes := update s.processes pid (some p) }

def setTask (s : System) (tid : ℕ) (t : Thread) : System :=
  { s with tasks := update s.tasks tid (some t) }

@[simp] theorem setProcess_self (s : System) (pid : ℕ) (p : Process) :
    (s.setProcess pid p).processes pid = some p := update_self ..

@[simp] theorem setTask_self (s : System) (tid : ℕ) (t : Thread) : (s.setTask tid t).tasks tid = some t :=
  update_self ..

theorem setProcess_of_ne {s : System} {pid q : ℕ} (h : q ≠ pid) (p : Process) :
    (s.setProcess pid p).processes q = s.processes q := update_of_ne h ..

theorem setTask_of_ne {s : System} {tid q : ℕ} (h : q ≠ tid) (t : Thread) :
    (s.setTask tid t).tasks q = s.tasks q := update_of_ne h ..

/-! ## The code -/

/-- `assert!`. -/
def assert (b : Bool) : SysM Unit := if b then pure () else throw .panic

/-- `unwrap` and `expect`. -/
def unwrap {α : Type} (o : Option α) : SysM α :=
  match o with
  | none => throw .panic
  | some a => pure a

def setSignalCause (t : Thread) (cause : SignalCause) : Option Thread :=
  match getHighestSetBit t.pendingSignals with
  | none => some { t with lastSignalCause := cause }
  | some k =>
    if (frameAt t.signalFramePending k).isSome then some { t with frameCauses := update t.frameCauses k cause }
    else none

/-- The task of `signal_waiting_task` is woken, and `remove_wait_semaphore` forgets what it waited on. -/
def woken (t : Thread) (sem : ℕ) : Thread :=
  { t with
    status := if t.queued then .active else .running
    queued := false
    waitSemaphores := t.waitSemaphores.erase sem
    waits := fun h => by cases hq : t.queued <;> simp [hq] at h }

def signalWaitingTask (tid sem : ℕ) (cause : SignalCause) : SysM Bool := do
  let s ← get
  match s.tasks tid with
  | none => pure false
  | some t =>
    match t.status with
    | .waiting | .waitingInterruptible =>
      if cause = .interruption ∧ t.status ≠ .waitingInterruptible then pure false
      else do
        assert (t.waitSemaphores.length == 1)
        let t ← unwrap (setSignalCause (woken t sem) cause)
        set (s.setTask tid t)
        pure true
    | .terminated => pure false
    | .active | .running | .suspended => throw .panic

/-- The state of a semaphore gets the unit back that a wait has taken. -/
def SemInner.released (inner : SemInner) (tid : ℕ) : SemInner where
  state := match inner.state with
    | .semaphore maxCount counter => .semaphore maxCount (min maxCount (counter + 1))
    | .event => .event
  blockedList := inner.blockedList.erase tid

def signalTaskInterrupted (sem tid : ℕ) : SysM Unit := do
  let s ← get
  if tid ∈ (s.semaphores sem).blockedList then
    if ← signalWaitingTask tid sem .interruption then
      modify fun s => { s with
        semaphores := update s.semaphores sem (SemInner.released (s.semaphores sem) tid) }

def checkSignalValidity (t : Thread) (signal : UInt8) : Bool :=
  t.inSignalInit &&& (1 <<< signal) == 0 && t.pendingSignals &&& (1 <<< signal) == 0

/-- `setup_signal_handler`, with the mark that is set before it. -/
def setupSignalHandler (t : Thread) (signal : UInt8) (action : SignalHandler) : Thread :=
  { t with
    inSignalInit := t.inSignalInit ||| (1 <<< signal)
    signalFrameInit := t.signalFrameInit.set signal.toNat
      (some { handler := action.handler, userCtx := action.userCtx })
    frames := (List.length_set ..).trans t.frames }

/-- The task `tid` gets the signal, and is woken if it waits. -/
def deliver (tid : ℕ) (t : Thread) (signal : UInt8) (action : SignalHandler) : SysM Unit := do
  assert (signal.toNat < t.signalFrameInit.length)
  modify (·.setTask tid (setupSignalHandler t signal action))
  if t.status = .waitingInterruptible then
    let sem ← unwrap t.waitSemaphores.head?
    signalTaskInterrupted sem tid

def doIssueSignalToEligibleThread (action : SignalHandler) (signal : UInt8) (state : Option TaskStatus) :
    List ℕ → SysM Bool
  | [] => pure false
  | tid :: threads => do
    let s ← get
    match s.tasks tid with
    | none => doIssueSignalToEligibleThread action signal state threads
    | some t =>
      if checkSignalValidity t signal ∧ (state = none ∨ state = some t.status) then
        match t.status with
        | .terminated => doIssueSignalToEligibleThread action signal state threads
        | .suspended => throw .panic
        | _ => do
          deliver tid t signal action
          pure true
      else doIssueSignalToEligibleThread action signal state threads

def priorityList : List TaskStatus := [.running, .active, .waitingInterruptible, .waiting]

/-- The loop of `proc_do_issue_signal`. -/
def issueByPriority (action : SignalHandler) (signal : UInt8) (threads : List ℕ) : List TaskStatus → SysM Bool
  | [] => pure false
  | state :: states => do
    if ← doIssueSignalToEligibleThread action signal (some state) threads then pure true
    else issueByPriority action signal threads states

def procDoIssueSignal (p : Process) (action : SignalHandler) (signal : UInt8) : SysM Bool :=
  issueByPriority action signal p.threads priorityList

/-- `kill_sweep_irps`: the requests of the task are cancelled. -/
def killSweepIrps (tid : ℕ) : SysM Unit := modify fun s =>
  match s.tasks tid with
  | none => s
  | some t => { s.setTask tid { t with issuedIrps := [] } with swept := s.swept ++ t.issuedIrps }

def safeKillThread (tid : ℕ) (t : Thread) (exitInfo : ExitInfo) : SysM Unit :=
  if t.status = .terminated ∨ t.pendingKill = true then pure ()
  else do
    modify (·.setTask tid { t with exitInfo, pendingKill := true })
    if t.status = .waitingInterruptible then
      let sem ← unwrap t.waitSemaphores.head?
      killSweepIrps tid
      signalTaskInterrupted sem tid
    else killSweepIrps tid

def killThread (tid : ℕ) (exitInfo : ExitInfo) (forcedKill : Bool) : SysM Unit := do
  let s ← get
  let t ← unwrap (s.tasks tid)
  let p ← unwrap (s.processes t.process)
  assert (t.process != 0)
  if !forcedKill && p.isUser then safeKillThread tid t exitInfo else throw .kernelThread

/-- The threads of a process but the caller's are killed. -/
def killOthers (exitInfo : ExitInfo) : List ℕ → SysM Unit
  | [] => pure ()
  | tid :: threads => do
    let s ← get
    if tid ≠ s.current then killThread tid exitInfo false
    killOthers exitInfo threads

def killProcess (pid : ℕ) (exitInfo : ExitInfo) (forcedKill : Bool) : SysM Unit := do
  let s ← get
  match s.processes pid with
  | none => pure ()
  | some p => do
    assert (pid != 0)
    if p.status = .terminated then pure ()
    else do
      set (s.setProcess pid { p with status := .terminated, exitInfo })
      killOthers exitInfo p.threads
      if s.current ∈ p.threads then killThread s.current exitInfo forcedKill

def checkProcessSignalValidity (pid : ℕ) : SysM (Option Process) := do
  let s ← get
  match s.processes pid with
  | none => pure none
  | some p => do
    assert p.isUser
    pure (if p.status = .ready then some p else none)

def getSignalHandler (p : Process) (signal : UInt8) : SysM (Option SignalHandler) := do
  assert (signal.toNat < MAX_SIGNALS)
  pure (p.signalHandlers[signal.toNat]?).join

def unsetSignalFromProcess (pid : ℕ) (signal : UInt8) : SysM Unit := modify fun s =>
  match s.processes pid with
  | none => s
  | some p => s.setProcess pid { p with pendingSignals := p.pendingSignals &&& ~~~(1 <<< signal) }

/-- The last part of `issue_signal`: the signal is handed to the process `p`. -/
def takeAction (pid : ℕ) (p : Process) (action : Option SignalHandler) (signal : UInt8) : SysM Unit :=
  match action with
  | none => do
    unsetSignalFromProcess pid signal
    killProcess pid (.signal signal) false
  | some action => do
    if ← procDoIssueSignal p action signal then unsetSignalFromProcess pid signal

def issueSignal (pid : ℕ) (signal : UInt8) : SysM Unit := do
  match ← checkProcessSignalValidity pid with
  | none => pure ()
  | some p => do
    let action ← getSignalHandler p signal
    modify (·.setProcess pid { p with pendingSignals := p.pendingSignals ||| (1 <<< signal) })
    match getHighestSetBit p.pendingSignals with
    | none => takeAction pid p action signal
    | some pending => if signal.toNat ≤ pending then pure () else takeAction pid p action signal

/-- The loop of `issue_pgrp`. -/
def issueAll (signal : UInt8) : List ℕ → SysM Unit
  | [] => pure ()
  | pid :: pids => do
    issueSignal pid signal
    issueAll signal pids

/-- `get_current_process_id`. -/
def currentProcess (s : System) : Option ℕ := (s.tasks s.current).map Thread.process

/-- `sys_issue_signal_handler`, for the two words of the call. -/
def sysIssueSignal (arg0 arg1 : UInt64) : SysM Unit := do
  let s ← get
  if 0 < arg0.toInt64 then issueSignal arg0.toNat arg1.toUInt8
  else if arg0 = 0 then do
    let pid ← unwrap s.currentProcess
    issueSignal pid arg1.toUInt8
  else match s.processes (0 - arg0).toNat with
    | none => pure ()
    | some p => issueAll arg1.toUInt8 (s.groups p.pgroup)

/-! ## Masks -/

theorem mask_cases : ∀ (m : Fin 256) (k : Fin MAX_SIGNALS), (UInt8.ofNat m &&& (1 <<< UInt8.ofNat k) = 0 ∧
    (UInt8.ofNat m ||| (1 <<< UInt8.ofNat k)) &&& ~~~(1 <<< UInt8.ofNat k) = UInt8.ofNat m ∧
    (UInt8.ofNat m ||| (1 <<< UInt8.ofNat k)) ≠ UInt8.ofNat m) ∨ (UInt8.ofNat m &&& (1 <<< UInt8.ofNat k) ≠ 0 ∧
    (UInt8.ofNat m ||| (1 <<< UInt8.ofNat k)) = UInt8.ofNat m ∧ ∃ h ∈ getHighestSetBit (UInt8.ofNat m), k.val ≤ h) :=
    by
  decide +kernel

section
variable {mask signal : UInt8}

theorem mask_clear (hs : signal.toNat < MAX_SIGNALS) (h : mask &&& (1 <<< signal) = 0) :
    (mask ||| (1 <<< signal)) &&& ~~~(1 <<< signal) = mask ∧ (mask ||| (1 <<< signal)) ≠ mask := by
  have := mask_cases ⟨mask.toNat, mask.toNat_lt⟩ ⟨signal.toNat, hs⟩
  simp only [UInt8.ofNat_toNat, h, true_and, ne_eq, not_true, false_and, or_false] at this
  exact this

theorem mask_set (hs : signal.toNat < MAX_SIGNALS) (h : mask &&& (1 <<< signal) ≠ 0) :
    (mask ||| (1 <<< signal)) = mask ∧ ∃ k, getHighestSetBit mask = some k ∧ signal.toNat ≤ k := by
  have := mask_cases ⟨mask.toNat, mask.toNat_lt⟩ ⟨signal.toNat, hs⟩
  simp only [UInt8.ofNat_toNat, h, false_and, false_or, ne_eq, not_false_eq_true, true_and] at this
  exact this

end

/-! ## What signals leave -/

structure ProcessLe (p p' : Process) : Prop where
  isUser : p'.isUser = p.isUser
  threads : p'.threads = p.threads
  status : p'.status = p.status ∨ p'.status = .terminated
  pending : p.pendingSignals ||| p'.pendingSignals = p'.pendingSignals
  kernel : p.isUser = false → p' = p

structure ThreadLe (t t' : Thread) : Prop where
  process : t'.process = t.process
  marked : t.inSignalInit ||| t'.inSignalInit = t'.inSignalInit

/-- The state before and after signals: marks stay, and kernel processes and their threads are as they
were. -/
structure Le (s s' : System) : Prop where
  process : ∀ pid, Option.Rel ProcessLe (s.processes pid) (s'.processes pid)
  task : ∀ tid, Option.Rel ThreadLe (s.tasks tid) (s'.tasks tid)
  kernel : ∀ tid t p, s.tasks tid = some t → s.processes t.process = some p → p.isUser = false → s'.tasks tid = some t
  groups : s'.groups = s.groups
  current : s'.current = s.current

variable {s s' s'' : System} {p p' : Process} {t t' : Thread} {pid tid sem : ℕ} {signal : UInt8}

theorem or_le_trans {a b c : UInt8} (h₁ : a ||| b = b) (h₂ : b ||| c = c) : a ||| c = c := by
  rw [← h₂, ← UInt8.or_assoc, h₁]

theorem ProcessLe.refl (p : Process) : ProcessLe p p := ⟨rfl, rfl, .inl rfl, UInt8.or_self, fun _ => rfl⟩

theorem ProcessLe.trans {p'' : Process} (h₁ : ProcessLe p p') (h₂ : ProcessLe p' p'') : ProcessLe p p'' where
  isUser := h₂.isUser.trans h₁.isUser
  threads := h₂.threads.trans h₁.threads
  status := by
    rcases h₂.status with h | h
    · rw [h]
      exact h₁.status
    · exact .inr h
  pending := or_le_trans h₁.pending h₂.pending
  kernel := fun h => (h₂.kernel (h₁.isUser.trans h)).trans (h₁.kernel h)

theorem ThreadLe.refl (t : Thread) : ThreadLe t t := ⟨rfl, UInt8.or_self⟩

theorem ThreadLe.trans {t'' : Thread} (h₁ : ThreadLe t t') (h₂ : ThreadLe t' t'') : ThreadLe t t'' :=
  ⟨h₂.process.trans h₁.process, or_le_trans h₁.marked h₂.marked⟩

section
variable {α : Type} {R : α → α → Prop} {a b c : Option α} {x : α}

theorem rel_refl (hR : ∀ x, R x x) : ∀ a : Option α, Option.Rel R a a
  | none => .none
  | some x => .some (hR x)

theorem rel_trans (hR : ∀ x y z, R x y → R y z → R x z) (h₁ : Option.Rel R a b) (h₂ : Option.Rel R b c) :
    Option.Rel R a c := by
  cases h₁ with
  | none => exact h₂
  | some h =>
    cases h₂ with
    | some h' => exact .some (hR _ _ _ h h')

theorem rel_some (h : Option.Rel R a b) (ha : a = some x) : ∃ y, b = some y ∧ R x y := by
  subst ha
  cases h with
  | some h => exact ⟨_, rfl, h⟩

end

theorem Le.of_eq (hp : s'.processes = s.processes) (ht : s'.tasks = s.tasks) (hg : s'.groups = s.groups)
    (hc : s'.current = s.current) : Le s s' where
  process := fun _ => hp ▸ rel_refl ProcessLe.refl _
  task := fun _ => ht ▸ rel_refl ThreadLe.refl _
  kernel := fun _ _ _ h _ _ => ht ▸ h
  groups := hg
  current := hc

theorem Le.refl (s : System) : Le s s := .of_eq rfl rfl rfl rfl

theorem Le.process_eq_some (h : Le s s') (hp : s.processes pid = some p) :
    ∃ p', s'.processes pid = some p' ∧ ProcessLe p p' := rel_some (h.process pid) hp

theorem Le.process_eq_some' (h : Le s s') (hp' : s'.processes pid = some p') :
    ∃ p, s.processes pid = some p ∧ ProcessLe p p' := by
  have hrel := h.process pid
  cases hp : s.processes pid with
  | none =>
    rw [hp, hp'] at hrel
    cases hrel
  | some p =>
    obtain ⟨p₁, hp₁, hle⟩ := h.process_eq_some hp
    rw [hp'] at hp₁
    cases hp₁
    exact ⟨p, rfl, hle⟩

theorem Le.task_eq_some (h : Le s s') (ht : s.tasks tid = some t) :
    ∃ t', s'.tasks tid = some t' ∧ ThreadLe t t' := rel_some (h.task tid) ht

theorem Le.trans (h₁ : Le s s') (h₂ : Le s' s'') : Le s s'' where
  process := fun pid => rel_trans (fun _ _ _ => ProcessLe.trans) (h₁.process pid) (h₂.process pid)
  task := fun tid => rel_trans (fun _ _ _ => ThreadLe.trans) (h₁.task tid) (h₂.task tid)
  kernel := fun tid t p ht hp hk => by
    obtain ⟨p', hp', hle⟩ := h₁.process_eq_some hp
    exact h₂.kernel tid t p (h₁.kernel tid t p ht hp hk) (hp'.trans (by rw [hle.kernel hk])) hk
  groups := h₂.groups.trans h₁.groups
  current := h₂.current.trans h₁.current

theorem le_setProcess (hp : s.processes pid = some p) (h : ProcessLe p p') : Le s (s.setProcess pid p') where
  process := fun q => by
    by_cases hq : q = pid
    · subst hq
      rw [hp, setProcess_self]
      exact .some h
    · rw [setProcess_of_ne hq]
      exact (Le.refl s).process q
  task := (Le.refl s).task
  kernel := fun _ _ _ ht _ _ => ht
  groups := rfl
  current := rfl

def UserThread (s : System) (tid : ℕ) : Prop :=
  ∃ t p, s.tasks tid = some t ∧ s.processes t.process = some p ∧ p.isUser = true ∧ t.process ≠ 0

theorem Le.userThread (h : Le s s') (hu : s.UserThread tid) : s'.UserThread tid := by
  obtain ⟨t, p, ht, hp, huser, h0⟩ := hu
  obtain ⟨t', ht', hle⟩ := h.task_eq_some ht
  obtain ⟨p', hp', hle'⟩ := h.process_eq_some hp
  exact ⟨t', p', ht', by rw [hle.process]; exact hp', hle'.isUser.trans huser, by rw [hle.process]; exact h0⟩

theorem le_setTask (hu : s.UserThread tid) (ht : s.tasks tid = some t) (h : ThreadLe t t') :
    Le s (s.setTask tid t') where
  process := (Le.refl s).process
  task := fun q => by
    by_cases hq : q = tid
    · subst hq
      rw [ht, setTask_self]
      exact .some h
    · rw [setTask_of_ne hq]
      exact (Le.refl s).task q
  kernel := fun q u p hq hp hk => by
    rw [setTask_of_ne, hq]
    rintro rfl
    obtain ⟨t₁, p₁, ht₁, hp₁, huser, -⟩ := hu
    rw [hq] at ht₁
    cases ht₁
    rw [hp] at hp₁
    cases hp₁
    rw [hk] at huser
    cases huser
  groups := rfl
  current := rfl

/-! ## Threads -/

/-- The call returns, and what it leaves meets `Q`. -/
abbrev Returns {α : Type} (x : SysM α) (Q : α → System → Prop) (s : System) : Prop :=
  wp x Q (fun _ _ => False) s

def TasksLe (s s' : System) : Prop := Le s s' ∧ s'.processes = s.processes

theorem TasksLe.refl (s : System) : TasksLe s s := ⟨.refl s, rfl⟩

theorem TasksLe.trans (h₁ : TasksLe s s') (h₂ : TasksLe s' s'') : TasksLe s s'' :=
  ⟨h₁.1.trans h₂.1, h₂.2.trans h₁.2⟩

theorem tasksLe_setTask (hu : s.UserThread tid) (ht : s.tasks tid = some t) (h : ThreadLe t t') :
    TasksLe s (s.setTask tid t') := ⟨le_setTask hu ht h, rfl⟩

theorem setSignalCause_spec (t : Thread) (cause : SignalCause) :
    ∃ t', setSignalCause t cause = some t' ∧ ThreadLe t t' := by
  unfold setSignalCause
  cases hk : getHighestSetBit t.pendingSignals with
  | none => exact ⟨_, rfl, ⟨rfl, UInt8.or_self⟩⟩
  | some k =>
    refine ⟨_, if_pos (t.framed k hk), ⟨rfl, UInt8.or_self⟩⟩

theorem signalWaitingTask_spec (hu : s.UserThread tid) (ht : s.tasks tid = some t)
    (hw : t.status = .waitingInterruptible) (sem : ℕ) :
    Returns (signalWaitingTask tid sem .interruption) (fun _ s' => TasksLe s s') s := by
  obtain ⟨t', hcause, hle⟩ := setSignalCause_spec (woken t sem) .interruption
  have hlen : t.waitSemaphores.length = 1 := t.waits (.inr hw)
  have hwoken : ThreadLe t (woken t sem) := ⟨rfl, UInt8.or_self⟩
  simp only [signalWaitingTask, Returns, wp_bind, wp_get, ht, hw, ne_eq, not_true, and_false, if_false, assert,
    hlen, beq_self_eq_true, if_true, wp_pure, hcause, unwrap, wp_set]
  exact tasksLe_setTask hu ht (hwoken.trans hle)

theorem signalTaskInterrupted_spec (hu : s.UserThread tid) (ht : s.tasks tid = some t)
    (hw : t.status = .waitingInterruptible) (sem : ℕ) :
    Returns (signalTaskInterrupted sem tid) (fun _ s' => TasksLe s s') s := by
  unfold signalTaskInterrupted
  simp only [Returns, wp_bind, wp_get]
  split_ifs with hin
  · refine wp.seq (signalWaitingTask_spec hu ht hw sem) fun b s' hle => ?_
    cases b with
    | true => exact hle.trans ⟨.of_eq rfl rfl rfl rfl, rfl⟩
    | false => exact hle
  · exact .refl s

def Marked (s s' : System) : Prop := ¬ ∀ tid, Option.Rel ThreadLe (s'.tasks tid) (s.tasks tid)

/-- **A thread gets a signal** that it did not have. -/
theorem deliver_spec (hu : s.UserThread tid) (ht : s.tasks tid = some t) (hs : signal.toNat < MAX_SIGNALS)
    (hvalid : checkSignalValidity t signal = true) (action : SignalHandler) :
    Returns (deliver tid t signal action) (fun _ s' => TasksLe s s' ∧ Marked s s') s := by
  have hclear : t.inSignalInit &&& (1 <<< signal) = 0 := by
    simp only [checkSignalValidity, Bool.and_eq_true, beq_iff_eq] at hvalid
    exact hvalid.1
  have hle : TasksLe s (s.setTask tid (setupSignalHandler t signal action)) :=
    tasksLe_setTask hu ht ⟨rfl, by simp only [setupSignalHandler, ← UInt8.or_assoc, UInt8.or_self]⟩
  -- the mark is new, and nothing takes it back
  have hnew : ∀ s', Le (s.setTask tid (setupSignalHandler t signal action)) s' → Marked s s' := by
    intro s' h₁ h₂
    have hrel := rel_trans (R := ThreadLe) (fun _ _ _ => ThreadLe.trans) (h₁.task tid) (h₂ tid)
    obtain ⟨t', ht', hmark⟩ := rel_some hrel (setTask_self s tid _)
    rw [ht] at ht'
    cases ht'
    have hmarked : t.inSignalInit ||| (1 <<< signal) ||| t.inSignalInit = t.inSignalInit := hmark.marked
    rw [UInt8.or_comm, ← UInt8.or_assoc, UInt8.or_self] at hmarked
    exact (mask_clear hs hclear).2 hmarked
  simp only [deliver, Returns, wp_bind, assert, t.frames, hs, decide_true, if_true, wp_pure, wp_modify]
  split_ifs with hw
  · have hlen : t.waitSemaphores.length = 1 := t.waits (.inr hw)
    obtain ⟨sem, hsem⟩ := List.length_eq_one_iff.1 hlen
    simp only [hsem, List.head?_cons, unwrap, wp_bind, wp_pure]
    exact (signalTaskInterrupted_spec (hle.1.userThread hu) (setTask_self s tid _) hw sem).imp
      fun _ s' h => ⟨hle.trans h, hnew s' h.1⟩
  · exact ⟨hle, hnew _ (.refl _)⟩

/-- The threads of a process: those that have not gone belong to a user process. -/
def UserThreads (s : System) (threads : List ℕ) : Prop :=
  ∀ tid ∈ threads, ∀ t, s.tasks tid = some t → s.UserThread tid

/-- What handing out a signal leaves: it is handed to a thread, or nothing happens. -/
def Handed (s : System) (done : Bool) (s' : System) : Prop :=
  if done then TasksLe s s' ∧ Marked s s' else s' = s

theorem doIssueSignalToEligibleThread_spec (action : SignalHandler) (hs : signal.toNat < MAX_SIGNALS)
    {state : TaskStatus} (hstate : state ≠ .suspended) : ∀ {threads : List ℕ}, s.UserThreads threads →
    Returns (doIssueSignalToEligibleThread action signal (some state) threads) (Handed s) s
  | [], _ => rfl
  | tid :: threads, hu => by
    have htail : s.UserThreads threads := fun q hq => hu q (.tail _ hq)
    have ih := doIssueSignalToEligibleThread_spec action hs hstate htail
    simp only [doIssueSignalToEligibleThread, Returns, wp_bind, wp_get]
    cases ht : s.tasks tid with
    | none => exact ih
    | some t =>
      dsimp only
      by_cases hvalid : checkSignalValidity t signal = true ∧ (some state = none ∨ some state = some t.status)
      · rw [if_pos hvalid]
        obtain ⟨hv, hst⟩ := hvalid
        have hst : state = t.status := by simpa using hst
        have hdeliver : Returns (deliver tid t signal action >>= fun _ => pure true) (Handed s) s :=
          wp.seq (deliver_spec (hu tid (.head _) t ht) ht hs hv action) fun _ _ h => h
        cases hstatus : t.status with
        | terminated => exact ih
        | suspended => exact absurd (hst.trans hstatus) hstate
        | running => exact hdeliver
        | active => exact hdeliver
        | waiting => exact hdeliver
        | waitingInterruptible => exact hdeliver
      · rw [if_neg hvalid]
        exact ih

theorem issueByPriority_spec (action : SignalHandler) (hs : signal.toNat < MAX_SIGNALS) {threads : List ℕ}
    (hu : s.UserThreads threads) : ∀ {states : List TaskStatus}, .suspended ∉ states →
    Returns (issueByPriority action signal threads states) (Handed s) s
  | [], _ => rfl
  | state :: states, h => by
    refine wp.seq (doIssueSignalToEligibleThread_spec action hs (fun he => h (by simp [he])) hu) fun b s' hb => ?_
    cases b with
    | true => exact hb
    | false =>
      rw [show s' = s from hb]
      exact issueByPriority_spec action hs hu fun hmem => h (.tail _ hmem)

theorem killSweepIrps_spec (hu : s.UserThread tid) : Returns (killSweepIrps tid) (fun _ s' => TasksLe s s' ∧
    ∀ t, s.tasks tid = some t → ∃ t', s'.tasks tid = some t' ∧ t'.status = t.status) s := by
  obtain ⟨t, p, ht, hrest⟩ := hu
  simp only [killSweepIrps, Returns, wp_modify, ht]
  have hle : TasksLe s (s.setTask tid { t with issuedIrps := [] }) :=
    tasksLe_setTask ⟨t, p, ht, hrest⟩ ht ⟨rfl, UInt8.or_self⟩
  refine ⟨hle.trans ⟨.of_eq rfl rfl rfl rfl, rfl⟩, fun u hu => ?_⟩
  cases hu
  exact ⟨_, setTask_self s tid _, rfl⟩

/-- **A thread is marked for its end.** -/
theorem safeKillThread_spec (hu : s.UserThread tid) (ht : s.tasks tid = some t) (exitInfo : ExitInfo) :
    Returns (safeKillThread tid t exitInfo) (fun _ s' => TasksLe s s') s := by
  unfold safeKillThread
  by_cases hdying : t.status = .terminated ∨ t.pendingKill = true
  · rw [if_pos hdying]
    exact .refl s
  rw [if_neg hdying]
  have hle : TasksLe s (s.setTask tid { t with exitInfo, pendingKill := true }) :=
    tasksLe_setTask hu ht ⟨rfl, UInt8.or_self⟩
  have hu' := hle.1.userThread hu
  simp only [Returns, wp_bind, wp_modify]
  split_ifs with hw
  · obtain ⟨sem, hsem⟩ := List.length_eq_one_iff.1 (t.waits (.inr hw))
    have hhead : t.waitSemaphores.head? = some sem := by rw [hsem, List.head?_cons]
    simp only [hhead, unwrap, wp_bind, wp_pure]
    refine wp.imp (killSweepIrps_spec hu') (fun _ s' hs' => ?_)
    obtain ⟨hsweep, hstatus⟩ := hs'
    obtain ⟨t', ht', hst⟩ := hstatus _ (setTask_self s tid _)
    exact (signalTaskInterrupted_spec (hsweep.1.userThread hu') ht' (hst.trans hw) sem).imp
      fun _ s'' h => (hle.trans hsweep).trans h
  · exact (killSweepIrps_spec hu').imp fun _ s' h => hle.trans h.1

theorem killThread_spec (hu : s.UserThread tid) (exitInfo : ExitInfo) :
    Returns (killThread tid exitInfo false) (fun _ s' => TasksLe s s') s := by
  obtain ⟨t, p, ht, hp, huser, h0⟩ := hu
  have hne : (t.process != 0) = true := by simpa using h0
  simp only [killThread, Returns, wp_bind, wp_get, unwrap, ht, wp_pure, hp, assert, hne, if_true, huser,
    Bool.not_false, Bool.and_self]
  exact safeKillThread_spec ⟨t, p, ht, hp, huser, h0⟩ ht exitInfo

theorem killOthers_spec (exitInfo : ExitInfo) : ∀ {threads : List ℕ} {s : System},
    (∀ tid ∈ threads, s.UserThread tid) → Returns (killOthers exitInfo threads) (fun _ s' => TasksLe s s') s
  | [], s, _ => .refl s
  | tid :: threads, s, hu => by
    have hrest : ∀ s', TasksLe s s' →
        Returns (killOthers exitInfo threads) (fun _ s'' => TasksLe s s'') s' := fun s' hle =>
      (killOthers_spec exitInfo fun q hq => hle.1.userThread (hu q (.tail _ hq))).imp fun _ s'' h => hle.trans h
    simp only [killOthers, Returns, wp_bind, wp_get]
    split_ifs
    · exact wp.seq (killThread_spec (hu tid (.head _)) exitInfo) fun _ s' hle => hrest s' hle
    · exact hrest s (.refl s)

/-! ## Processes -/

/-- The threads of a process are tasks of it, process 0 is the kernel's, and a task performs the call. -/
structure WellFormed (s : System) : Prop where
  threads : ∀ pid p, s.processes pid = some p → ∀ tid ∈ p.threads, ∃ t, s.tasks tid = some t ∧ t.process = pid
  kernel : ∀ p, s.processes 0 = some p → p.isUser = false
  current : ∃ t, s.tasks s.current = some t

theorem WellFormed.le (hwf : s.WellFormed) (h : Le s s') : s'.WellFormed where
  threads := fun pid p' hp' tid htid => by
    obtain ⟨p, hp, hle⟩ := h.process_eq_some' hp'
    obtain ⟨t, ht, hproc⟩ := hwf.threads pid p hp tid (hle.threads ▸ htid)
    obtain ⟨t', ht', hle'⟩ := h.task_eq_some ht
    exact ⟨t', ht', hle'.process.trans hproc⟩
  kernel := fun p' hp' => by
    obtain ⟨p, hp, hle⟩ := h.process_eq_some' hp'
    exact hle.isUser.trans (hwf.kernel p hp)
  current := by
    obtain ⟨t, ht⟩ := hwf.current
    obtain ⟨t', ht', -⟩ := h.task_eq_some ht
    exact ⟨t', by rw [h.current]; exact ht'⟩

theorem WellFormed.userThread (hwf : s.WellFormed) (hp : s.processes pid = some p) (hu : p.isUser = true)
    (htid : tid ∈ p.threads) : s.UserThread tid := by
  obtain ⟨t, ht, rfl⟩ := hwf.threads pid p hp tid htid
  refine ⟨t, p, ht, hp, hu, fun h0 => ?_⟩
  rw [h0] at hp
  rw [hwf.kernel p hp] at hu
  cases hu

theorem killProcess_spec (hwf : s.WellFormed) (hp : s.processes pid = some p) (hu : p.isUser = true)
    (hready : p.status = .ready) (exitInfo : ExitInfo) :
    Returns (killProcess pid exitInfo false) (fun _ s' => Le s s' ∧ ¬ Le s' s) s := by
  have h0 : (pid != 0) = true := by
    rw [bne_iff_ne]
    rintro rfl
    rw [hwf.kernel p hp] at hu
    cases hu
  have hle : Le s (s.setProcess pid { p with status := .terminated, exitInfo }) := le_setProcess hp
    ⟨rfl, rfl, .inr rfl, UInt8.or_self, fun hk => by rw [hu] at hk; cases hk⟩
  have hnew : ∀ s', Le (s.setProcess pid { p with status := .terminated, exitInfo }) s' → ¬ Le s' s := by
    intro s' h₁ h₂
    obtain ⟨p', hp', hle'⟩ := (h₁.trans h₂).process_eq_some (setProcess_self s pid _)
    rw [hp] at hp'
    cases hp'
    have := hle'.status
    simp [hready] at this
  have huser : ∀ tid ∈ p.threads, (s.setProcess pid { p with status := .terminated, exitInfo }).UserThread tid :=
    fun tid htid => hle.userThread (hwf.userThread hp hu htid)
  have hne : p.status ≠ .terminated := by
    rw [hready]
    decide
  simp only [killProcess, Returns, wp_bind, wp_get, hp, assert, h0, if_true, wp_pure, if_neg hne, wp_set]
  refine wp.imp (killOthers_spec exitInfo huser) (fun _ s' hrest => ?_)
  by_cases hcur : s.current ∈ p.threads
  · rw [if_pos hcur]
    exact (killThread_spec (hrest.1.userThread (huser _ hcur)) exitInfo).imp fun _ s'' h =>
      ⟨(hle.trans hrest.1).trans h.1, hnew _ (hrest.1.trans h.1)⟩
  · rw [if_neg hcur]
    exact ⟨hle.trans hrest.1, hnew _ hrest.1⟩

def Pending (p : Process) (signal : UInt8) : Prop := p.pendingSignals &&& (1 <<< signal) ≠ 0

abbrev queue (s : System) (pid : ℕ) (p : Process) (signal : UInt8) : System :=
  s.setProcess pid { p with pendingSignals := p.pendingSignals ||| (1 <<< signal) }

theorem le_queue (hp : s.processes pid = some p) (hu : p.isUser = true) : Le s (s.queue pid p signal) :=
  le_setProcess hp ⟨rfl, rfl, .inl rfl, by simp only [← UInt8.or_assoc, UInt8.or_self],
    fun hk => by rw [hu] at hk; cases hk⟩

theorem pending_of_queue_le (hp : s.processes pid = some p) (hs : signal.toNat < MAX_SIGNALS)
    (h : Le (s.queue pid p signal) s) : Pending p signal := by
  intro hclear
  obtain ⟨p', hp', hle⟩ := h.process_eq_some (setProcess_self s pid _)
  rw [hp] at hp'
  cases hp'
  have hmask : p.pendingSignals ||| (1 <<< signal) ||| p.pendingSignals = p.pendingSignals := hle.pending
  rw [UInt8.or_comm, ← UInt8.or_assoc, UInt8.or_self] at hmask
  exact (mask_clear hs hclear).2 hmask

theorem queue_eq_self (hp : s.processes pid = some p) (hs : signal.toNat < MAX_SIGNALS)
    (h : Pending p signal) : s.queue pid p signal = s := by
  simp only [queue, setProcess, (mask_set hs h).1, ← hp, update_eq_self]

/-- The signal is not above the pending ones: it waits for them. -/
def Waits (p : Process) (signal : UInt8) : Prop :=
  ∃ k, getHighestSetBit p.pendingSignals = some k ∧ signal.toNat ≤ k

theorem issueSignal_eq (hp : s.processes pid = some p) (hu : p.isUser = true) (hready : p.status = .ready)
    (hs : signal.toNat < MAX_SIGNALS) : ∃ action, ∀ Q E, wp (issueSignal pid signal) Q E s ↔
      (Waits p signal → Q () (s.queue pid p signal)) ∧
      (¬ Waits p signal → wp (takeAction pid p action signal) Q E (s.queue pid p signal)) := by
  refine ⟨(p.signalHandlers[signal.toNat]?).join, fun Q E => ?_⟩
  simp only [issueSignal, checkProcessSignalValidity, getSignalHandler, wp_bind, wp_get, hp, assert, hu, hready,
    if_true, wp_pure, hs, decide_true, wp_modify]
  unfold Waits
  cases hk : getHighestSetBit p.pendingSignals with
  | none => simp [queue, hu, hready]
  | some k =>
    by_cases hle : signal.toNat ≤ k
    · simp [queue, hu, hready, hle]
    · simp [queue, hu, hready, hle]

theorem unsetSignalFromProcess_spec (hp : s.processes pid = some p) (hs : signal.toNat < MAX_SIGNALS)
    (hclear : ¬ Pending p signal) (hproc : s'.processes = (s.queue pid p signal).processes) :
    Returns (unsetSignalFromProcess pid signal) (fun _ s'' => s'' = { s' with processes := s.processes }) s' := by
  have hself := setProcess_self s pid { p with pendingSignals := p.pendingSignals ||| (1 <<< signal) }
  have hmask := (mask_clear hs (not_not.1 hclear)).1
  simp only [unsetSignalFromProcess, Returns, wp_modify, hproc, hself, hmask]
  simp only [setProcess, hproc, update_idem, ← hp, update_eq_self]

/-- **A signal above the pending ones** is handed to the process. -/
theorem takeAction_spec (hwf : s.WellFormed) (hp : s.processes pid = some p) (hu : p.isUser = true)
    (hready : p.status = .ready) (hs : signal.toNat < MAX_SIGNALS) (hwaits : ¬ Waits p signal)
    (action : Option SignalHandler) : Returns (takeAction pid p action signal) (fun _ s' => Le s s' ∧ ¬ Le s' s)
      (s.queue pid p signal) := by
  have hclear : ¬ Pending p signal := fun h => hwaits (mask_set hs h).2
  have hle : Le s (s.queue pid p signal) := le_queue hp hu
  cases action with
  | none =>
    refine wp.seq (unsetSignalFromProcess_spec hp hs hclear rfl) fun _ s' hs' => ?_
    subst hs'
    exact killProcess_spec hwf hp hu hready _
  | some action =>
    have huser : (s.queue pid p signal).UserThreads p.threads := fun tid htid _ _ =>
      hle.userThread (hwf.userThread hp hu htid)
    refine wp.seq (issueByPriority_spec action hs huser (by decide)) fun b s₂ hb => ?_
    cases b with
    | true =>
      obtain ⟨⟨hle₂, hproc⟩, hmarked⟩ := hb
      refine (unsetSignalFromProcess_spec hp hs hclear hproc).imp fun _ s' hs' => ?_
      subst hs'
      have hall := hle.trans hle₂
      exact ⟨⟨fun q => rel_refl ProcessLe.refl _, hall.task, hall.kernel, hall.groups, hall.current⟩,
        fun hback => hmarked hback.task⟩
    | false =>
      cases hb
      exact ⟨hle, fun hback => hclear (pending_of_queue_le hp hs hback)⟩

/-! ## Calls -/

/-- A signal that the process, if there is one, does not refuse with a panic. -/
def Accepts (s : System) (pid : ℕ) (signal : UInt8) : Prop :=
  ∀ p, s.processes pid = some p → p.isUser = true ∧ (p.status = .ready → signal.toNat < MAX_SIGNALS)

/-- The process is not to get the signal, or it is already pending in it. -/
def Settled (s : System) (pid : ℕ) (signal : UInt8) : Prop :=
  ∀ p, s.processes pid = some p → p.status = .ready → Pending p signal

theorem issueSignal_ok (hwf : s.WellFormed) (h : s.Accepts pid signal) : Returns (issueSignal pid signal)
    (fun _ s' => Le s s' ∧ (Le s' s → s.Settled pid signal) ∧ (s.Settled pid signal → s' = s)) s := by
  cases hp : s.processes pid with
  | none =>
    simp only [issueSignal, checkProcessSignalValidity, Returns, wp_bind, wp_get, hp, wp_pure]
    exact ⟨.refl s, fun _ p hp' => (by rw [hp] at hp'; cases hp'), fun _ => trivial⟩
  | some p =>
    obtain ⟨hu, hsig⟩ := h p hp
    by_cases hready : p.status = .ready
    · have hs := hsig hready
      obtain ⟨action, heq⟩ := issueSignal_eq hp hu hready hs
      have hsettled : s.Settled pid signal ↔ Pending p signal :=
        ⟨fun h => h p hp hready, fun h q hq _ => by rw [hp] at hq; cases hq; exact h⟩
      rw [hsettled]
      refine (heq _ _).2 ⟨fun hwaits => ?_, fun hwaits => ?_⟩
      · exact ⟨le_queue hp hu, pending_of_queue_le hp hs, queue_eq_self hp hs⟩
      · refine (takeAction_spec hwf hp hu hready hs hwaits action).imp fun _ s' hs' => ?_
        exact ⟨hs'.1, fun hback => absurd hback hs'.2, fun hpend => absurd (mask_set hs hpend).2 hwaits⟩
    · simp only [issueSignal, checkProcessSignalValidity, Returns, wp_bind, wp_get, hp, wp_pure, assert, hu,
        if_true, if_neg hready]
      exact ⟨.refl s, fun _ q hq hr => (by rw [hp] at hq; cases hq; exact absurd hr hready), fun _ => trivial⟩

theorem issueSignal_error (h : ¬ s.Accepts pid signal) :
    wp (issueSignal pid signal) (fun _ _ => False) (fun _ _ => True) s := by
  unfold Accepts at h
  push Not at h
  obtain ⟨p, hp, hno⟩ := h
  cases hu : p.isUser with
  | false =>
    simp only [issueSignal, checkProcessSignalValidity, wp_bind, wp_get, hp, assert, hu, Bool.false_eq_true,
      if_false, wp_throw]
  | true =>
    obtain ⟨hready, hs⟩ := hno hu
    have hs' : ¬ signal.toNat < MAX_SIGNALS := by omega
    simp only [issueSignal, checkProcessSignalValidity, getSignalHandler, wp_bind, wp_get, hp, assert, hu,
      if_true, wp_pure, hready, hs', decide_false, Bool.false_eq_true, if_false, wp_throw]

def targets (s : System) (arg0 : UInt64) : List ℕ :=
  if 0 < arg0.toInt64 then [arg0.toNat]
  else if arg0 = 0 then s.currentProcess.toList
  else match s.processes (0 - arg0).toNat with
    | none => []
    | some p => s.groups p.pgroup

theorem sysIssueSignal_eq (hwf : s.WellFormed) (arg0 arg1 : UInt64) (Q : Unit → System → Prop) (E : Stop → System →
    Prop) : wp (sysIssueSignal arg0 arg1) Q E s ↔ wp (issueAll arg1.toUInt8 (s.targets arg0)) Q E s := by
  obtain ⟨t, ht⟩ := hwf.current
  simp only [sysIssueSignal, wp_bind, wp_get, targets]
  split_ifs with hpos hzero
  · simp only [issueAll, wp_bind]
    exact Iff.rfl
  · simp only [currentProcess, ht, Option.map_some, unwrap, wp_pure, Option.toList_some, issueAll, wp_bind]
    exact Iff.rfl
  · cases s.processes (0 - arg0).toNat with
    | none => exact Iff.rfl
    | some p => exact Iff.rfl

theorem Le.accepts (h : Le s s') (hs : s.Accepts pid signal) : s'.Accepts pid signal := by
  intro p' hp'
  obtain ⟨p, hp, hle⟩ := h.process_eq_some' hp'
  obtain ⟨hu, hsig⟩ := hs p hp
  refine ⟨hle.isUser.trans hu, fun hready => hsig ?_⟩
  rcases hle.status with hst | hst
  · exact hst.symm.trans hready
  · rw [hst] at hready
    cases hready

theorem Le.settled (h : Le s s') (hback : Le s' s) (hs : s'.Settled pid signal) : s.Settled pid signal := by
  intro p hp hready
  obtain ⟨p', hp', hle⟩ := h.process_eq_some hp
  obtain ⟨q, hq, hle'⟩ := hback.process_eq_some hp'
  rw [hp] at hq
  cases hq
  have hmask : p'.pendingSignals = p.pendingSignals := by
    rw [← hle.pending, UInt8.or_comm, hle'.pending]
  have hready' : p'.status = .ready := by
    rcases hle'.status with hst | hst
    · exact hst.symm.trans hready
    · rw [hst] at hready
      cases hready
  unfold Pending
  rw [← hmask]
  exact hs p' hp' hready'

theorem issueAll_ok : ∀ {pids : List ℕ} {s : System}, s.WellFormed → (∀ pid ∈ pids, s.Accepts pid signal) →
    Returns (issueAll signal pids) (fun _ s' => Le s s' ∧ (Le s' s → ∀ pid ∈ pids, s.Settled pid signal) ∧
      ((∀ pid ∈ pids, s.Settled pid signal) → s' = s)) s
  | [], s, _, _ => ⟨.refl s, fun _ pid hpid => (by cases hpid), fun _ => rfl⟩
  | pid :: pids, s, hwf, h => by
    refine wp.seq (issueSignal_ok hwf (h pid (.head _))) fun _ s₁ ⟨hle, hset, hsame⟩ => ?_
    refine (issueAll_ok (hwf.le hle) fun q hq => hle.accepts (h q (.tail _ hq))).imp
      fun _ s' ⟨hle', hset', hsame'⟩ => ?_
    refine ⟨hle.trans hle', fun hback q hq => ?_, fun hall => ?_⟩
    · -- the states between are the same as the first, up to their marks
      rcases List.mem_cons.1 hq with rfl | hq
      · exact hset (hle'.trans hback)
      · exact hle.settled (hle'.trans hback) (hset' (hback.trans hle) q hq)
    · obtain rfl : s₁ = s := hsame (hall pid (.head _))
      exact hsame' fun q hq => hall q (.tail _ hq)

theorem issueAll_error : ∀ {pids : List ℕ} {s : System}, s.WellFormed → (∃ pid ∈ pids, ¬ s.Accepts pid signal) →
    wp (issueAll signal pids) (fun _ _ => False) (fun _ _ => True) s
  | [], s, _, ⟨_, hpid, _⟩ => by cases hpid
  | pid :: pids, s, hwf, ⟨q, hq, hno⟩ => by
    by_cases hacc : s.Accepts pid signal
    · have hq : q ∈ pids := by
        rcases List.mem_cons.1 hq with rfl | hq
        · exact absurd hacc hno
        · exact hq
      refine wp.seq (issueSignal_ok hwf hacc) fun _ s₁ ⟨hle, _, hsame⟩ =>
        issueAll_error (hwf.le hle) ⟨q, hq, fun hacc₁ => hno fun p hp => ?_⟩
      obtain ⟨p₁, hp₁, hle₁⟩ := hle.process_eq_some hp
      obtain ⟨hu, hsig⟩ := hacc₁ p₁ hp₁
      refine ⟨hle₁.isUser.symm.trans hu, fun hready => ?_⟩
      by_contra hs
      -- the first process is not ready, or the number would have been refused
      obtain rfl : s₁ = s := hsame fun p' hp' hready' => absurd ((hacc p' hp').2 hready') hs
      rw [hp] at hp₁
      cases hp₁
      exact hs (hsig hready)
    · exact wp_bind.2 ((issueSignal_error hacc).imp fun _ _ h => h.elim)

/-- The kernel's processes and their threads are as they were. -/
def KernelKept (s s' : System) : Prop :=
  (∀ pid p, s.processes pid = some p → p.isUser = false → s'.processes pid = some p) ∧
    ∀ tid t p, s.tasks tid = some t → s.processes t.process = some p → p.isUser = false → s'.tasks tid = some t

theorem Le.kernelKept (h : Le s s') : s.KernelKept s' := by
  refine ⟨fun pid p hp hk => ?_, h.kernel⟩
  obtain ⟨p', hp', hle⟩ := h.process_eq_some hp
  rw [hp', hle.kernel hk]

/-- A call returns, leaves the kernel's processes alone, and does nothing if the number is not a signal. -/
def Harmless (s : System) (arg0 arg1 : UInt64) : Prop :=
  ∃ s', sysIssueSignal arg0 arg1 s = .ok () s' ∧ s.KernelKept s' ∧ (MAX_SIGNALS ≤ arg1.toNat → s' = s)

/-- The process is a user process, and if it is ready then the number is a signal, or its low byte is a pending
one. -/
def Admits (s : System) (pid : ℕ) (arg1 : UInt64) : Prop :=
  ∀ p, s.processes pid = some p → p.isUser = true ∧ (p.status = .ready →
    arg1.toNat < MAX_SIGNALS ∨ arg1.toUInt8.toNat < MAX_SIGNALS ∧ Pending p arg1.toUInt8)

theorem toUInt8_lt {arg1 : UInt64} (h : arg1.toNat < MAX_SIGNALS) : arg1.toUInt8.toNat < MAX_SIGNALS := by
  rw [UInt64.toNat_toUInt8]
  exact (Nat.mod_le _ _).trans_lt h

/-- **A signal harms nothing exactly if every target admits it.** -/
theorem sysIssueSignal_iff (hwf : s.WellFormed) (arg0 arg1 : UInt64) :
    s.Harmless arg0 arg1 ↔ ∀ pid ∈ s.targets arg0, s.Admits pid arg1 := by
  constructor
  · rintro ⟨s', hrun, -, hnone⟩
    have hall : ∀ pid ∈ s.targets arg0, s.Accepts pid arg1.toUInt8 := by
      by_contra hno
      push Not at hno
      have herr := (sysIssueSignal_eq hwf arg0 arg1 _ _).2 (issueAll_error hwf hno)
      exact (wp_of_ok hrun).1 herr
    obtain ⟨hle, hset, -⟩ := (wp_of_ok hrun).1 ((sysIssueSignal_eq hwf arg0 arg1 _ _).2 (issueAll_ok hwf hall))
    intro pid hpid p hp
    obtain ⟨hu, hsig⟩ := hall pid hpid p hp
    refine ⟨hu, fun hready => ?_⟩
    by_cases harg : arg1.toNat < MAX_SIGNALS
    · exact .inl harg
    · have hsame := hnone (not_lt.1 harg)
      exact .inr ⟨hsig hready, hset (hsame ▸ .refl s) pid hpid p hp hready⟩
  · intro h
    have hall : ∀ pid ∈ s.targets arg0, s.Accepts pid arg1.toUInt8 := fun pid hpid p hp => by
      obtain ⟨hu, hsig⟩ := h pid hpid p hp
      exact ⟨hu, fun hready => (hsig hready).elim toUInt8_lt And.left⟩
    obtain ⟨_, s', hrun, hle, -, hsame⟩ := exists_of_wp
      ((sysIssueSignal_eq hwf arg0 arg1 _ _).2 (issueAll_ok hwf hall))
    refine ⟨s', hrun, hle.kernelKept, fun harg => hsame fun pid hpid p hp hready => ?_⟩
    rcases (h pid hpid p hp).2 hready with hlt | ⟨-, hpend⟩
    · omega
    · exact hpend

/-! ### A system with one user process -/

def shellThread (process : ℕ) (status : TaskStatus) (h : status = .running ∨ status = .active) : Thread where
  isInSyscall := true
  syscallGs := 0
  syscallRsp := 0
  context := 0
  inSignalInit := 0
  pendingSignals := 0
  signalFramePending := List.replicate MAX_SIGNALS none
  signalFrameInit := List.replicate MAX_SIGNALS none
  perCpuBase := 0
  status
  process
  waitSemaphores := []
  queued := false
  issuedIrps := []
  lastSignalCause := .normal
  frameCauses := fun _ => .normal
  pendingKill := false
  exitInfo := ⟨.normal, 0⟩
  frames := rfl
  waits := by rcases h with rfl | rfl <;> simp
  framed := by decide

def shellProcess (isUser : Bool) (thread : ℕ) : Process where
  isUser
  status := .ready
  threads := [thread]
  pgroup := 0
  signalHandlers := Vector.replicate MAX_SIGNALS none
  pendingSignals := 0
  exitInfo := ⟨.normal, 0⟩

/-- The init process 0 and a user process 1 that it has created: it is in the same group. -/
def shell : System where
  processes := fun
    | 0 => some (shellProcess false 0)
    | 1 => some (shellProcess true 1)
    | _ => none
  tasks := fun
    | 0 => some (shellThread 0 .active (.inr rfl))
    | 1 => some (shellThread 1 .running (.inl rfl))
    | _ => none
  groups := fun
    | 0 => [0, 1]
    | _ => []
  semaphores := fun _ => ⟨.event, []⟩
  current := 1
  swept := []

theorem shell_wellFormed : shell.WellFormed where
  threads := by
    rintro (_ | _ | pid) p hp tid htid
    · cases hp
      obtain rfl : tid = 0 := List.mem_singleton.1 htid
      exact ⟨_, rfl, rfl⟩
    · cases hp
      obtain rfl : tid = 1 := List.mem_singleton.1 htid
      exact ⟨_, rfl, rfl⟩
    · cases hp
  kernel := by
    intro p hp
    cases hp
    rfl
  current := ⟨_, rfl⟩

theorem sysIssueSignal_self : shell.WellFormed ∧ shell.Harmless 0 2 := by
  refine ⟨shell_wellFormed, (sysIssueSignal_iff shell_wellFormed 0 2).2 fun pid hpid p hp => ?_⟩
  obtain rfl : pid = 1 := List.mem_singleton.1 hpid
  cases hp
  exact ⟨rfl, fun _ => .inl (by decide)⟩

/-- A number that is no signal panics the kernel, and so does any signal to one's own group; 257 is delivered as
the signal 1. -/
theorem sysIssueSignal_panics : (∃ s, sysIssueSignal 0 6 shell = .error .panic s) ∧
    (∃ s, sysIssueSignal (0 - 1) 2 shell = .error .panic s) ∧
    ∃ s, sysIssueSignal 0 257 shell = .ok () s ∧ (s.processes 1).map Process.status = some .terminated :=
  ⟨⟨_, rfl⟩, ⟨_, rfl⟩, _, rfl, rfl⟩

end System

end Archis.Sched

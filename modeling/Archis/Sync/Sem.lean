/-
  Semaphores and events: `sync/semaphore.rs`, with the part of the scheduler that puts a thread to sleep, wakes it and
  kills it (`sched/scheduler.rs`).

  The critical sections of a semaphore's lock are the steps of `Sys`.  A kill is two of them: `kill_thread` marks the
  thread, and afterwards takes it off the list of the semaphore it waits on.  An expired timer leaves the timer list
  before it is acted upon.  A thread that waits leaves its core some time after it was marked as waiting (`onCpu`).  The
  frames of signal handlers are left out, and with them the causes they keep.
-/
import Mathlib

namespace Archis.Sync

open List hiding next

inductive TaskStatus where
  | running
  | active
  | waiting
  | waitingInterruptible
  | terminated
  | suspended
  deriving DecidableEq, Repr

def TaskStatus.Blocked (st : TaskStatus) : Prop := st = .waiting ∨ st = .waitingInterruptible

instance (st : TaskStatus) : Decidable st.Blocked := inferInstanceAs (Decidable (_ ∨ _))

inductive SignalCause where
  | normal
  | timerExpiry
  | interruption
  deriving DecidableEq, Repr

/-- The errors of a wait. -/
inductive WaitError where
  | waitFailed
  | waitTimedOut
  | waitInterrupted
  deriving DecidableEq, Repr

inductive SemState where
  | semaphore (maxCount counter : ℤ)
  | event (signalled isAutoReset : Bool)
  deriving DecidableEq, Repr

inductive Wake where
  | none
  | one
  | all

namespace SemState

def enter : SemState → SemState × Bool
  | semaphore maxCount counter => (semaphore maxCount (counter - 1), decide (counter - 1 < 0))
  | event true isAutoReset => (event (!isAutoReset) isAutoReset, false)
  | event false isAutoReset => (event false isAutoReset, true)

def tryEnter : SemState → Option SemState
  | semaphore maxCount counter =>
    if counter ≥ 1 then some (semaphore maxCount (counter - 1)) else none
  | event signalled isAutoReset =>
    if signalled then some (event (!isAutoReset) isAutoReset) else none

/-- A wait that could not block takes its decrement back. -/
def rollBack : SemState → SemState
  | semaphore maxCount counter => semaphore maxCount (counter + 1)
  | event signalled isAutoReset => event signalled isAutoReset

/-- A waiter that leaves without having been signalled gives its unit back. -/
def restore : SemState → SemState
  | semaphore maxCount counter => semaphore maxCount (min maxCount (counter + 1))
  | event signalled isAutoReset => event signalled isAutoReset

def signal : SemState → SemState × Wake
  | semaphore maxCount counter =>
    let counter := min maxCount (counter + 1)
    (semaphore maxCount counter, if counter ≤ 0 then .one else .none)
  | event signalled isAutoReset =>
    (event signalled isAutoReset, if isAutoReset then .one else .all)

def raise : SemState → SemState
  | semaphore maxCount counter => semaphore maxCount counter
  | event _ isAutoReset => event true isAutoReset

theorem rollBack_enter {st : SemState} (h : st.enter.2 = true) : st.enter.1.rollBack = st := by
  match st, h with
  | semaphore maxCount counter, _ => simp [enter, rollBack]
  | event false isAutoReset, _ => rfl

theorem tryEnter_of_enter {st : SemState} (h : st.enter.2 = false) : st.tryEnter = some st.enter.1 := by
  match st, h with
  | semaphore maxCount counter, h =>
    have hc : counter ≥ 1 := by
      simp only [enter, decide_eq_false_iff_not] at h
      omega
    simp [tryEnter, enter, hc]
  | event true isAutoReset, _ => rfl

end SemState

structure KSemInner (τ : Type) where
  state : SemState
  blockedList : List τ

structure Task (κ : Type) where
  status : TaskStatus
  onCpu : Bool
  /-- It is still in `TASKS`. -/
  inTasks : Bool
  pendingKill : Bool
  /-- `in_signal_init` is not 0. -/
  inSignalInit : Bool
  waitSemaphores : List κ
  lastSignalCause : SignalCause

/-- Semaphores, threads, the timers of waits, and the threads that are marked as killed but still on the lists.
-/
structure Sys (κ τ : Type) where
  sems : κ → KSemInner τ
  tasks : τ → Task κ
  timerList : List (τ × κ)
  timerNotifierList : List (τ × κ)
  dropping : List τ

/-- How the critical section of a wait ends. -/
inductive Outcome where
  | returned (r : Except WaitError Unit)
  | blocked

/-- What a step reports. -/
inductive Reply (τ : Type) where
  | waited (o : Outcome)
  | woke (ts : List τ)
  | done

inductive Action (κ τ : Type) where
  | wait (t : τ) (k : κ) (timeout : Option ℕ) (isInterruptible : Bool)
  | signal (k : κ)
  | reset (k : κ)
  /-- A timer runs out (`update_timers`). -/
  | expire (timer : τ × κ)
  /-- An expired timer is acted upon (`notify_watchers`). -/
  | timeout (timer : τ × κ)
  | interrupt (t : τ) (k : κ)
  /-- A kill is requested or a signal handler set up. -/
  | mark (t : τ) (pendingKill inSignalInit : Bool)
  | kill (t : τ)
  | dropTask (t : τ)
  /-- The scheduler carries out a requested kill. -/
  | finalize (t : τ)
  | switchOut (t : τ)
  | switchIn (t : τ)
  | suspend (t : τ)
  | resume (t : τ)
  /-- `reap_tasks`. -/
  | reap (t : τ)

namespace Sys
variable {κ τ : Type} [DecidableEq κ] [DecidableEq τ] (s : Sys κ τ) (t : τ) (k : κ)

/-! ## The code -/

def setTask (task : Task κ) : Sys κ τ :=
  { s with tasks := Function.update s.tasks t task }

def setState (st : SemState) : Sys κ τ :=
  { s with sems := Function.update s.sems k { s.sems k with state := st } }

def setBlocked (l : List τ) : Sys κ τ :=
  { s with sems := Function.update s.sems k { s.sems k with blockedList := l } }

/-- `add_cur_task_to_wait_queue`; no value is a panic. -/
def addCurTaskToWaitQueue (timeout : Option ℕ) (isInterruptible : Bool) : Option (Except SignalCause (Sys κ τ)) :=
  let task := s.tasks t
  if task.status = .suspended then none
  else if task.status = .terminated then some (.error .normal)
  else if isInterruptible && task.pendingKill then some (.error .interruption)
  else if isInterruptible && task.inSignalInit then some (.error .interruption)
  else if task.waitSemaphores.length ≠ 0 then none
  else
    let task := { task with
      waitSemaphores := task.waitSemaphores ++ [k]
      status := if isInterruptible then .waitingInterruptible else .waiting }
    some (.ok { s.setTask t task with
      timerList := if timeout.isSome then s.timerList ++ [(t, k)] else s.timerList })

def clearCause : Sys κ τ :=
  s.setTask t { s.tasks t with lastSignalCause := .normal }

/-- The critical section of `do_wait`; its callers do not disable interrupts or preemption. -/
def doWait (timeout : Option ℕ) (isInterruptible : Bool) : Option (Outcome × Sys κ τ) :=
  let s := s.clearCause t
  let state := (s.sems k).state
  if timeout = some 0 then
    match state.tryEnter with
    | some st => some (.returned (.ok ()), s.setState k st)
    | none => some (.returned (.error .waitTimedOut), s)
  else if state.enter.2 then
    match s.addCurTaskToWaitQueue t k timeout isInterruptible with
    | none => none
    | some (.ok s) =>
      some (.blocked, (s.setState k state.enter.1).setBlocked k ((s.sems k).blockedList ++ [t]))
    | some (.error cause) =>
      let r := match cause with
        | .interruption => .error .waitInterrupted
        | .normal => .error .waitFailed
        | .timerExpiry => .ok ()
      some (.returned r, s.setState k state.enter.1.rollBack)
  else some (.returned (.ok ()), s.setState k state.enter.1)

/-- What `signal_waiting_task` does to a thread it can wake. -/
def unblock (cause : SignalCause) : Sys κ τ :=
  let task := s.tasks t
  { s.setTask t { task with
      -- a thread that has not left its core yet goes on running
      status := if task.onCpu then .running else .active
      waitSemaphores := task.waitSemaphores.erase k
      lastSignalCause := cause } with
    timerList := s.timerList.erase (t, k) }

/-- `signal_waiting_task`; no value is a panic. -/
def signalWaitingTask (cause : SignalCause) : Option (Bool × Sys κ τ) :=
  let task := s.tasks t
  if task.inTasks = false then some (false, s)
  else
    match task.status with
    | .waiting | .waitingInterruptible =>
      if cause = .interruption ∧ task.status ≠ .waitingInterruptible then some (false, s)
      else if task.waitSemaphores.length ≠ 1 then none
      else some (true, s.unblock t k cause)
    | .terminated => some (false, s)
    | .active | .running | .suspended => none

/-- `wake_task`: the thread that was woken, and the threads and semaphores afterwards. -/
def wakeTask (taskId : Option τ) (isInterruptible : Bool) : Option (Option τ × Sys κ τ) :=
  if isInterruptible && taskId.isNone then none
  else
    let waitTask := match taskId with
      | some id => (s.sems k).blockedList.find? (· = id)
      | none => (s.sems k).blockedList.head?
    match waitTask with
    | none => some (none, s)
    | some t => do
      let cause := if isInterruptible then .interruption
        else if taskId.isSome then .timerExpiry else .normal
      let (woken, s) ← s.signalWaitingTask t k cause
      if woken then return (some t, s.setBlocked k ((s.sems k).blockedList.erase t))
      else return (none, s)

/-- `while wake_task(..) {}`, at most `n` times. -/
def wakeAll (s : Sys κ τ) (k : κ) : ℕ → Option (List τ × Sys κ τ)
  | 0 => some ([], s)
  | n + 1 => do
    let (woken, s) ← s.wakeTask k none false
    match woken with
    | none => return ([], s)
    | some t =>
      let (ts, s) ← s.wakeAll k n
      return (t :: ts, s)

/-- `do_signal`: the threads it woke. -/
def doSignal : Option (List τ × Sys κ τ) :=
  let (st, wake) := (s.sems k).state.signal
  let s := s.setState k st
  match wake with
  | .none => some ([], s)
  | .one => do
    let (woken, s) ← s.wakeTask k none false
    match woken with
    | some t => return ([t], s)
    | none => return ([], s.setState k (s.sems k).state.raise)
  | .all => do
    -- each round takes a thread off the list
    let (ts, s) ← s.wakeAll k ((s.sems k).blockedList.length + 1)
    return (ts, s.setState k (s.sems k).state.raise)

def doSignalOnTask (t : τ) (isInterruptible : Bool) : Option (List τ × Sys κ τ) := do
  let (woken, s) ← s.wakeTask k (some t) isInterruptible
  match woken with
  | some t => return ([t], s.setState k (s.sems k).state.restore)
  | none => return ([], s)

/-- `KSem::drop_task`. -/
def ksemDropTask (t : τ) : Sys κ τ :=
  if t ∈ (s.sems k).blockedList then
    (s.setState k (s.sems k).state.restore).setBlocked k ((s.sems k).blockedList.erase t)
  else s

/-- The part of `kill_thread` under the scheduler's lock. -/
def killMark : Sys κ τ :=
  let task := s.tasks t
  let s' := s.setTask t { task with status := .terminated }
  if task.status.Blocked then
    { s' with
      timerList := s.timerList.eraseP fun timer => timer.1 = t
      dropping := t :: s.dropping }
  else s'

/-- The rest of `kill_thread`. -/
def killDrop : Sys κ τ :=
  let waits := (s.tasks t).waitSemaphores
  let s := s.setTask t { s.tasks t with waitSemaphores := [] }
  { waits.foldl (fun s k => s.ksemDropTask k t) s with dropping := s.dropping.erase t }

/-- One step; no value is a panic. -/
def step : Action κ τ → Option (Reply τ × Sys κ τ)
  | .wait t k timeout isInterruptible =>
    (s.doWait t k timeout isInterruptible).map fun (o, s) => (.waited o, s)
  | .signal k => (s.doSignal k).map fun (ts, s) => (.woke ts, s)
  | .reset k =>
    match (s.sems k).state with
    | .event _ isAutoReset => some (.done, s.setState k (.event false isAutoReset))
    | .semaphore _ _ => some (.done, s)
  | .expire timer => some (.done, { s with
      timerList := s.timerList.erase timer
      timerNotifierList := s.timerNotifierList ++ [timer] })
  | .timeout timer =>
    (({ s with timerNotifierList := s.timerNotifierList.erase timer } : Sys κ τ).doSignalOnTask
      timer.2 timer.1 false).map fun (ts, s) => (.woke ts, s)
  | .interrupt t k => (s.doSignalOnTask k t true).map fun (ts, s) => (.woke ts, s)
  | .mark t pendingKill inSignalInit =>
    some (.done, s.setTask t { s.tasks t with pendingKill, inSignalInit })
  | .kill t => some (.done, s.killMark t)
  | .dropTask t => some (.done, s.killDrop t)
  | .finalize t => some (.done, s.setTask t { s.tasks t with status := .terminated })
  | .switchOut t =>
    let task := s.tasks t
    let status := if task.status = .running then .active else task.status
    some (.done, s.setTask t { task with onCpu := false, status })
  | .switchIn t => some (.done, s.setTask t { s.tasks t with onCpu := true, status := .running })
  | .suspend t => some (.done, s.setTask t { s.tasks t with status := .suspended })
  | .resume t =>
    let task := s.tasks t
    some (.done, s.setTask t { task with status := if task.onCpu then .running else .active })
  | .reap t => some (.done, s.setTask t { s.tasks t with inTasks := false })

def Executes : Prop :=
  (s.tasks t).onCpu = true ∧ ((s.tasks t).status = .running ∨ (s.tasks t).status = .terminated)

/-- The step can be taken: its thread executes, its timer is there, and so on. -/
def Enabled : Action κ τ → Prop
  | .wait t _ _ _ => s.Executes t
  | .signal _ | .reset _ | .interrupt _ _ | .mark _ _ _ => True
  | .expire timer => timer ∈ s.timerList
  | .timeout timer => timer ∈ s.timerNotifierList
  | .kill t => (s.tasks t).inTasks = true
  | .dropTask t => t ∈ s.dropping
  -- a thread that waits is in kernel mode, so the scheduler does not find it safe to kill
  | .finalize t => (s.tasks t).pendingKill = true ∧
      ((s.tasks t).status = .running ∨ (s.tasks t).status = .active)
  | .switchOut t => (s.tasks t).onCpu = true
  | .switchIn t => (s.tasks t).onCpu = false ∧ (s.tasks t).status = .active
  | .suspend t => (s.tasks t).onCpu = true ∧ (s.tasks t).status = .running
  | .resume t => (s.tasks t).status = .suspended
  | .reap t => (s.tasks t).onCpu = false ∧ (s.tasks t).status = .terminated

/-! ## Fields after an update -/

section
variable {s : Sys κ τ} {t t' : τ} {k k' : κ} {task : Task κ} {st : SemState} {l : List τ}
  {cause : SignalCause}

section
omit [DecidableEq κ]

@[simp] theorem setTask_sems : (s.setTask t task).sems = s.sems := rfl

@[simp] theorem setTask_tasks : (s.setTask t task).tasks = Function.update s.tasks t task := rfl

@[simp] theorem clearCause_sems : (s.clearCause t).sems = s.sems := rfl

@[simp] theorem setTask_dropping : (s.setTask t task).dropping = s.dropping := rfl

theorem killMark_eq : s.killMark t = { s.setTask t { s.tasks t with status := .terminated } with
      timerList := if (s.tasks t).status.Blocked then s.timerList.eraseP fun timer => timer.1 = t
        else s.timerList
      dropping := if (s.tasks t).status.Blocked then t :: s.dropping else s.dropping } := by
  unfold killMark
  dsimp only
  split_ifs <;> rfl

@[simp] theorem killMark_sems : (s.killMark t).sems = s.sems := by rw [killMark_eq]; rfl

@[simp] theorem killMark_tasks : (s.killMark t).tasks =
    Function.update s.tasks t { s.tasks t with status := .terminated } := by rw [killMark_eq]; rfl

theorem killMark_dropping : (s.killMark t).dropping =
    if (s.tasks t).status.Blocked then t :: s.dropping else s.dropping := by rw [killMark_eq]

end

section
omit [DecidableEq τ]

@[simp] theorem setState_tasks : (s.setState k st).tasks = s.tasks := rfl

@[simp] theorem setState_dropping : (s.setState k st).dropping = s.dropping := rfl

@[simp] theorem setState_blockedList : ((s.setState k st).sems k').blockedList = (s.sems k').blockedList := by
  rcases eq_or_ne k' k with rfl | h
  · simp [setState]
  · simp [setState, h]

@[simp] theorem setState_state : ((s.setState k st).sems k).state = st := by simp [setState]

theorem setState_sems_of_ne (h : k' ≠ k) : (s.setState k st).sems k' = s.sems k' := by
  simp [setState, h]

theorem setState_self : s.setState k (s.sems k).state = s := by
  simp [setState]

@[simp] theorem setBlocked_tasks : (s.setBlocked k l).tasks = s.tasks := rfl

@[simp] theorem setBlocked_dropping : (s.setBlocked k l).dropping = s.dropping := rfl

@[simp] theorem setBlocked_state : ((s.setBlocked k l).sems k').state = (s.sems k').state := by
  rcases eq_or_ne k' k with rfl | h
  · simp [setBlocked]
  · simp [setBlocked, h]

@[simp] theorem setBlocked_blockedList : ((s.setBlocked k l).sems k).blockedList = l := by
  simp [setBlocked]

theorem setBlocked_sems_of_ne (h : k' ≠ k) : (s.setBlocked k l).sems k' = s.sems k' := by
  simp [setBlocked, h]

end

@[simp] theorem unblock_sems : (s.unblock t k cause).sems = s.sems := rfl

@[simp] theorem unblock_dropping : (s.unblock t k cause).dropping = s.dropping := rfl

theorem unblock_tasks_of_ne (h : t' ≠ t) : (s.unblock t k cause).tasks t' = s.tasks t' := by
  simp [unblock, h]

theorem unblock_waitSemaphores :
    ((s.unblock t k cause).tasks t).waitSemaphores = (s.tasks t).waitSemaphores.erase k := by
  simp [unblock]

theorem unblock_inTasks : ((s.unblock t k cause).tasks t).inTasks = (s.tasks t).inTasks := by
  simp [unblock]

theorem unblock_status :
    ((s.unblock t k cause).tasks t).status = if (s.tasks t).onCpu then .running else .active := by
  simp [unblock]

end

/-! ## The lists -/

/-- A thread is on the list of a semaphore exactly when it records that it waits on it: on one at most, and it is
blocked, or killed and about to be taken off.  Only killed threads leave `TASKS`. -/
structure Wf (s : Sys κ τ) : Prop where
  mem_iff : ∀ k t, t ∈ (s.sems k).blockedList ↔ k ∈ (s.tasks t).waitSemaphores
  one : ∀ t, (s.tasks t).waitSemaphores.length ≤ 1
  nodup : ∀ k, (s.sems k).blockedList.Nodup
  of_blocked : ∀ t, (s.tasks t).status.Blocked → (s.tasks t).waitSemaphores ≠ []
  status : ∀ t, (s.tasks t).waitSemaphores ≠ [] →
    (s.tasks t).status.Blocked ∨ ((s.tasks t).status = .terminated ∧ t ∈ s.dropping)
  dropping : ∀ t ∈ s.dropping, (s.tasks t).status = .terminated
  inTasks : ∀ t, (s.tasks t).status ≠ .terminated → (s.tasks t).inTasks = true

def Wakes (s : Sys κ τ) (t : τ) (cause : SignalCause) : Prop :=
  (s.tasks t).inTasks = true ∧ (s.tasks t).status.Blocked ∧
    (cause = .interruption → (s.tasks t).status = .waitingInterruptible)

instance (s : Sys κ τ) (t : τ) (cause : SignalCause) : Decidable (s.Wakes t cause) :=
  inferInstanceAs (Decidable (_ ∧ _ ∧ _))

/-- The cause that `wake_task` gives a thread that is woken by its number. -/
def causeFor (isInterruptible : Bool) : SignalCause :=
  if isInterruptible then .interruption else .timerExpiry

def release (s : Sys κ τ) (t : τ) (k : κ) (cause : SignalCause) : Sys κ τ :=
  (s.unblock t k cause).setBlocked k ((s.sems k).blockedList.erase t)

section
variable {s s' : Sys κ τ} {t : τ} {k : κ} {cause : SignalCause}

section
omit [DecidableEq κ] [DecidableEq τ]

theorem Wf.waits_eq (h : s.Wf) (ht : t ∈ (s.sems k).blockedList) : (s.tasks t).waitSemaphores = [k] := by
  have hk := (h.mem_iff k t).1 ht
  have h1 := h.one t
  match hw : (s.tasks t).waitSemaphores, hk, h1 with
  | [k'], hk, _ => rw [mem_singleton.1 hk]

theorem Wf.waits_nil (h : s.Wf) (hr : ¬ (s.tasks t).status.Blocked ∧ (s.tasks t).status ≠ .terminated) :
    (s.tasks t).waitSemaphores = [] := by
  by_contra hne
  rcases h.status t hne with h' | ⟨h', -⟩
  · exact hr.1 h'
  · exact hr.2 h'

/-- The invariant only speaks of the lists, the statuses and what is to be dropped. -/
theorem Wf.congr (h : s.Wf) (hl : ∀ k, (s'.sems k).blockedList = (s.sems k).blockedList) (hw : ∀ t,
    (s'.tasks t).waitSemaphores = (s.tasks t).waitSemaphores) (hst : ∀ t, (s'.tasks t).status = (s.tasks t).status)
    (hin : ∀ t, (s'.tasks t).inTasks = (s.tasks t).inTasks) (hd : s'.dropping = s.dropping) : s'.Wf where
  mem_iff k t := by rw [hl, hw]; exact h.mem_iff k t
  one t := by rw [hw]; exact h.one t
  nodup k := by rw [hl]; exact h.nodup k
  of_blocked t := by rw [hst, hw]; exact h.of_blocked t
  status t := by rw [hst, hw, hd]; exact h.status t
  dropping t ht := by rw [hst]; exact h.dropping t (hd ▸ ht)
  inTasks t := by rw [hst, hin]; exact h.inTasks t

theorem Wf.unqueue (h : s.Wf) (l : List (τ × κ)) : ({ s with timerNotifierList := l } : Sys κ τ).Wf :=
  h.congr (fun _ => rfl) (fun _ => rfl) (fun _ => rfl) (fun _ => rfl) rfl

end

omit [DecidableEq τ] in
theorem Wf.setState (h : s.Wf) (st : SemState) : (s.setState k st).Wf :=
  h.congr (fun _ => setState_blockedList) (fun _ => rfl) (fun _ => rfl) (fun _ => rfl) rfl

section
omit [DecidableEq κ]

omit [DecidableEq τ] in
theorem Wf.update (h : s.Wf) (t : τ) (hother : ∀ t', t' ≠ t → s'.tasks t' = s.tasks t') (hd : ∀ t', t' ≠ t →
    (t' ∈ s'.dropping ↔ t' ∈ s.dropping)) (hl : ∀ k t', t' ≠ t →
    (t' ∈ (s'.sems k).blockedList ↔ t' ∈ (s.sems k).blockedList)) (hnodup : ∀ k, (s'.sems k).blockedList.Nodup)
    (hmem : ∀ k, t ∈ (s'.sems k).blockedList ↔ k ∈ (s'.tasks t).waitSemaphores)
    (hone : (s'.tasks t).waitSemaphores.length ≤ 1) (hb : (s'.tasks t).status.Blocked →
    (s'.tasks t).waitSemaphores ≠ []) (hst : (s'.tasks t).waitSemaphores ≠ [] → (s'.tasks t).status.Blocked ∨
    ((s'.tasks t).status = .terminated ∧ t ∈ s'.dropping)) (hdt : t ∈ s'.dropping → (s'.tasks t).status = .terminated)
    (hin : (s'.tasks t).status ≠ .terminated → (s'.tasks t).inTasks = true) : s'.Wf := by
  refine ⟨fun k t' => ?_, fun t' => ?_, hnodup, fun t' => ?_, fun t' => ?_, fun t' ht' => ?_, fun t' => ?_⟩ <;>
    rcases eq_or_ne t' t with rfl | hne <;> try rw [hother t' hne]
  · exact hmem k
  · exact (hl k t' hne).trans (h.mem_iff k t')
  · exact hone
  · exact h.one t'
  · exact hb
  · exact h.of_blocked t'
  · exact hst
  · rw [hd t' hne]
    exact h.status t'
  · exact hdt ht'
  · exact h.dropping t' ((hd t' hne).1 ht')
  · exact hin
  · exact h.inTasks t'

theorem Wf.setTask (h : s.Wf) {task : Task κ} (hw : task.waitSemaphores = (s.tasks t).waitSemaphores)
    (hb : task.status.Blocked → (s.tasks t).waitSemaphores ≠ []) (hst : (s.tasks t).waitSemaphores ≠ [] →
    task.status.Blocked ∨ (task.status = .terminated ∧ t ∈ s.dropping)) (hd : t ∈ s.dropping →
    task.status = .terminated) (hin : task.status ≠ .terminated → task.inTasks = true) : (s.setTask t task).Wf := by
  have hself : (s.setTask t task).tasks t = task := by simp
  refine h.update t (fun t' hne => Function.update_of_ne hne _ _) (fun _ _ => Iff.rfl) (fun _ _ _ => Iff.rfl)
    h.nodup ?_ ?_ ?_ ?_ ?_ ?_ <;> rw [hself]
  · exact fun k => hw ▸ h.mem_iff k t
  · exact hw ▸ h.one t
  · exact hw ▸ hb
  · exact hw ▸ hst
  · exact hd
  · exact hin

theorem Wf.setRunnable (h : s.Wf) (hr : ¬ (s.tasks t).status.Blocked ∧ (s.tasks t).status ≠ .terminated) {task : Task κ}
    (hw : task.waitSemaphores = (s.tasks t).waitSemaphores) (hb' : ¬ task.status.Blocked)
    (hin : task.inTasks = (s.tasks t).inTasks) : (s.setTask t task).Wf :=
  h.setTask hw (fun h' => absurd h' hb') (fun hne => absurd (h.waits_nil hr) hne)
    (fun hd => absurd (h.dropping t hd) hr.2) fun _ => hin.trans (h.inTasks t hr.2)

theorem Wf.leave (h : s.Wf) (ht : t ∈ (s.sems k).blockedList)
    (hl : (s'.sems k).blockedList = (s.sems k).blockedList.erase t) (hl' : ∀ k', k' ≠ k →
    (s'.sems k').blockedList = (s.sems k').blockedList) (hw : (s'.tasks t).waitSemaphores = [])
    (hst : ¬ (s'.tasks t).status.Blocked) (hother : ∀ t', t' ≠ t → s'.tasks t' = s.tasks t') (hd : ∀ t', t' ≠ t →
    (t' ∈ s'.dropping ↔ t' ∈ s.dropping)) (hdt : t ∈ s'.dropping → (s'.tasks t).status = .terminated)
    (hin : (s'.tasks t).status ≠ .terminated → (s'.tasks t).inTasks = true) : s'.Wf := by
  refine h.update t hother hd (fun k' t' hne => ?_) (fun k' => ?_) (fun k' => ?_) (hw ▸ Nat.zero_le _)
    (fun hb => absurd hb hst) (fun hne => absurd hw hne) hdt hin <;> rcases eq_or_ne k' k with rfl | hk
  · rw [hl, mem_erase_of_ne hne]
  · rw [hl' k' hk]
  · rw [hl]
    exact (h.nodup k').erase t
  · rw [hl' k' hk]
    exact h.nodup k'
  · rw [hl, hw]
    exact iff_of_false (h.nodup k').not_mem_erase not_mem_nil
  · rw [hl' k' hk, h.mem_iff, h.waits_eq ht, hw, mem_singleton]
    exact iff_of_false hk not_mem_nil

theorem Wf.killMark (h : s.Wf) : (s.killMark t).Wf := by
  have hself : (s.killMark t).tasks t = { s.tasks t with status := .terminated } := by simp
  have hdrop : ∀ t', t' ∈ (s.killMark t).dropping ↔ t' ∈ s.dropping ∨ (t' = t ∧ (s.tasks t).status.Blocked) := by
    intro t'
    rw [killMark_dropping]
    split_ifs with hb <;> simp [hb, or_comm]
  refine h.update t (fun t' hne => by simp [hne]) (fun t' hne => by simp [hdrop, hne]) (fun k t' _ => by simp)
    (fun k => by simpa using h.nodup k) ?_ ?_ ?_ ?_ ?_ ?_ <;> rw [hself]
  · exact fun k => by simpa using h.mem_iff k t
  · exact h.one t
  · exact fun hb => absurd hb (show ¬ TaskStatus.terminated.Blocked by decide)
  · refine fun hne => .inr ⟨rfl, (hdrop t).2 ?_⟩
    exact (h.status t hne).elim (fun hb => .inr ⟨rfl, hb⟩) fun hd => .inl hd.2
  · exact fun _ => rfl
  · exact fun hne => absurd rfl hne

end

theorem Wf.release (h : s.Wf) (ht : t ∈ (s.sems k).blockedList)
    (hb : (s.tasks t).status.Blocked) : (s.release t k cause).Wf := by
  have hnd : t ∉ s.dropping := fun hd => by
    rw [h.dropping t hd] at hb; exact absurd hb (by decide)
  have hlive : (s.tasks t).status ≠ .terminated := fun hst => by
    rw [hst] at hb; exact absurd hb (by decide)
  refine h.leave ht (by simp [Sys.release]) (fun k' hk => ?_) ?_ ?_ (fun t' ht' => ?_)
    (fun _ _ => Iff.rfl) (fun hd => absurd hd hnd) fun _ => ?_
  · simp [Sys.release, setBlocked_sems_of_ne hk]
  · rw [Sys.release, setBlocked_tasks, unblock_waitSemaphores, h.waits_eq ht, erase_cons_head]
  · rw [Sys.release, setBlocked_tasks, unblock_status]
    split_ifs <;> decide
  · rw [Sys.release, setBlocked_tasks, unblock_tasks_of_ne ht']
  · rw [Sys.release, setBlocked_tasks, unblock_inTasks]
    exact h.inTasks t hlive

/-! ## Waking -/

theorem Wf.signalWaitingTask (h : s.Wf) (ht : t ∈ (s.sems k).blockedList) : s.signalWaitingTask t k
    cause = some (if s.Wakes t cause then (true, s.unblock t k cause) else (false, s)) := by
  have hlen : (s.tasks t).waitSemaphores.length = 1 := by rw [h.waits_eq ht]; rfl
  have hstat := h.status t (by rw [h.waits_eq ht]; exact cons_ne_nil k [])
  unfold Sys.signalWaitingTask Wakes
  by_cases hin : (s.tasks t).inTasks = true
  · rcases hstat with (hb | hb) | ⟨hb, -⟩
    · by_cases hc : cause = .interruption <;> simp [hin, hb, hlen, hc, TaskStatus.Blocked]
    · simp [hin, hb, hlen, TaskStatus.Blocked]
    · simp [hin, hb, TaskStatus.Blocked]
  · simp [hin]

theorem Wf.wakeTask_head (h : s.Wf) : s.wakeTask k none false = some (match (s.sems k).blockedList.head? with
      | none => (none, s)
      | some t => if s.Wakes t .normal then (some t, s.release t k .normal) else (none, s)) := by
  unfold Sys.wakeTask
  rcases hhead : (s.sems k).blockedList.head? with _ | t
  · simp
  · have ht := mem_of_mem_head? (Option.mem_def.2 hhead)
    simp only [Bool.false_and, Bool.false_eq_true, if_false, Option.isSome_none,
      h.signalWaitingTask ht, Option.bind_eq_bind, Option.bind_some]
    by_cases hw : s.Wakes t .normal <;> simp [hw, Sys.release]

theorem Wf.wakeTask_some (h : s.Wf) (i : Bool) : s.wakeTask k (some t) i = some
    (if t ∈ (s.sems k).blockedList ∧ s.Wakes t (causeFor i) then
    (some t, s.release t k (causeFor i)) else (none, s)) := by
  have hfind : (s.sems k).blockedList.find? (fun t' => decide (t' = t)) =
      if t ∈ (s.sems k).blockedList then some t else none := by
    split_ifs with ht
    · obtain ⟨t', ht'⟩ : ∃ t', (s.sems k).blockedList.find? (fun t' => decide (t' = t)) = some t' :=
        Option.isSome_iff_exists.1 (find?_isSome.2 ⟨t, ht, by simp⟩)
      rw [ht', show t' = t from by simpa using find?_some ht']
    · exact find?_eq_none.2 fun t' ht' hd => ht (of_decide_eq_true hd ▸ ht')
  unfold Sys.wakeTask causeFor
  by_cases ht : t ∈ (s.sems k).blockedList
  · simp only [Option.isNone_some, Bool.and_false, Bool.false_eq_true, if_false, hfind, ht, if_true,
      Option.isSome_some, true_and, h.signalWaitingTask ht, Option.bind_eq_bind, Option.bind_some]
    by_cases hw : s.Wakes t (if i then .interruption else .timerExpiry) <;> simp [hw, Sys.release]
  · simp [hfind, ht]

/-- Nothing but the semaphore `k` and the threads on its list has changed. -/
structure Frame (k : κ) (s s' : Sys κ τ) : Prop where
  sems : ∀ k', k' ≠ k → s'.sems k' = s.sems k'
  tasks : ∀ t k', k' ≠ k → k' ∈ (s'.tasks t).waitSemaphores → s'.tasks t = s.tasks t
  timerList : ∀ timer ∈ s'.timerList, timer ∈ s.timerList
  timerNotifierList : s'.timerNotifierList = s.timerNotifierList

omit [DecidableEq κ] [DecidableEq τ] in
theorem Frame.refl (k : κ) (s : Sys κ τ) : Frame k s s :=
  ⟨fun _ _ => rfl, fun _ _ _ _ => rfl, fun _ h => h, rfl⟩

omit [DecidableEq κ] [DecidableEq τ] in
theorem Frame.trans {s'' : Sys κ τ} (h : Frame k s s') (h' : Frame k s' s'') : Frame k s s'' where
  sems k' hk := (h'.sems k' hk).trans (h.sems k' hk)
  tasks t k' hk ht := by
    have := h'.tasks t k' hk ht
    rw [this]
    exact h.tasks t k' hk (this ▸ ht)
  timerList timer ht := h.timerList timer (h'.timerList timer ht)
  timerNotifierList := h'.timerNotifierList.trans h.timerNotifierList

omit [DecidableEq τ] in
theorem Frame.setState (st : SemState) : Frame k s (s.setState k st) :=
  ⟨fun _ hk => setState_sems_of_ne hk, fun _ _ _ _ => rfl, fun _ h => h, rfl⟩

theorem Wf.frame_release (h : s.Wf) (ht : t ∈ (s.sems k).blockedList) : Frame k s (s.release t k cause) where
  sems k' hk := setBlocked_sems_of_ne hk
  tasks t' k' hk hmem := by
    rcases eq_or_ne t' t with rfl | hne
    · rw [Sys.release, setBlocked_tasks, unblock_waitSemaphores, h.waits_eq ht, erase_cons_head] at hmem
      exact absurd hmem not_mem_nil
    · exact unblock_tasks_of_ne hne
  timerList timer hmem := mem_of_mem_erase hmem
  timerNotifierList := rfl

theorem Wf.wakeAll {n : ℕ} : ∀ {s : Sys κ τ}, s.Wf →
    ∃ ts s', s.wakeAll k n = some (ts, s') ∧ s'.Wf ∧ Frame k s s' := by
  induction n with
  | zero => exact fun {s} h => ⟨[], s, rfl, h, .refl k s⟩
  | succ n ih =>
    intro s h
    rw [Sys.wakeAll, h.wakeTask_head]
    rcases hhead : (s.sems k).blockedList.head? with _ | t
    · exact ⟨[], s, rfl, h, .refl k s⟩
    have ht := mem_of_mem_head? (Option.mem_def.2 hhead)
    by_cases hw : s.Wakes t .normal
    · obtain ⟨ts, s', hs', h', hf⟩ := ih (@Wf.release _ _ _ _ _ _ _ .normal h ht hw.2.1)
      exact ⟨t :: ts, s', by simp [hw, hs'], h', (h.frame_release ht).trans hf⟩
    · exact ⟨[], s, by simp [hw], h, .refl k s⟩

theorem Wf.doSignal (h : s.Wf) : ∃ ts s', s.doSignal k = some (ts, s') ∧ s'.Wf ∧ Frame k s s' := by
  unfold Sys.doSignal
  rcases hsig : (s.sems k).state.signal with ⟨st, wake⟩
  have h1 := h.setState (k := k) st
  have hf : Frame k s (s.setState k st) := .setState st
  rcases wake with _ | _ | _
  · exact ⟨[], _, rfl, h1, hf⟩
  · simp only [h1.wakeTask_head]
    rcases hhead : ((s.setState k st).sems k).blockedList.head? with _ | t
    · exact ⟨[], _, rfl, h1.setState _, hf.trans (.setState _)⟩
    · have ht := mem_of_mem_head? (Option.mem_def.2 hhead)
      by_cases hw : (s.setState k st).Wakes t .normal
      · exact ⟨[t], _, by simp only [hw, if_true]; rfl, h1.release ht hw.2.1, hf.trans (h1.frame_release ht)⟩
      · exact ⟨[], _, by simp only [hw, if_false]; rfl, h1.setState _, hf.trans (.setState _)⟩
  · obtain ⟨ts, s', hs', h', hf'⟩ := h1.wakeAll (k := k) (n := ((s.setState k st).sems k).blockedList.length + 1)
    exact ⟨ts, _, by simp only [hs']; rfl, h'.setState _, (hf.trans hf').trans (.setState _)⟩

/-- A semaphore's signal raises the counter, and wakes the head of the list if the counter was negative. -/
theorem Wf.doSignal_semaphore (h : s.Wf) {m c : ℤ} (hk : (s.sems k).state = .semaphore m c) : s.doSignal k = some (
      let u := s.setState k (.semaphore m (min m (c + 1)))
      match (s.sems k).blockedList.head? with
      | none => ([], u)
      | some t => if min m (c + 1) ≤ 0 ∧ s.Wakes t .normal then ([t], u.release t k .normal)
        else ([], u)) := by
  have h1 := h.setState (k := k) (.semaphore m (min m (c + 1)))
  unfold Sys.doSignal
  simp only [hk, SemState.signal]
  have hself : (s.setState k (.semaphore m (min m (c + 1)))).setState k
      (SemState.semaphore m (min m (c + 1))).raise = s.setState k (.semaphore m (min m (c + 1))) := by
    have := setState_self (s := s.setState k (.semaphore m (min m (c + 1)))) (k := k)
    rwa [setState_state] at this
  split_ifs with hc
  · simp only [h1.wakeTask_head, setState_blockedList]
    rcases hhead : (s.sems k).blockedList.head? with _ | t
    · simp [hself]
    by_cases hw : s.Wakes t .normal
    · have hw' : (s.setState k (.semaphore m (min m (c + 1)))).Wakes t .normal := hw
      simp [hc, hw, hw']
    · have hw' : ¬ (s.setState k (.semaphore m (min m (c + 1)))).Wakes t .normal := hw
      simp [hw, hw', hself]
  · rcases (s.sems k).blockedList.head? with _ | t
    · rfl
    · simp [hc]

theorem Wf.doSignalOnTask (h : s.Wf) (i : Bool) : s.doSignalOnTask k t i = some
    (if t ∈ (s.sems k).blockedList ∧ s.Wakes t (causeFor i) then
    ([t], (s.release t k (causeFor i)).setState k (s.sems k).state.restore) else ([], s)) := by
  rw [Sys.doSignalOnTask, h.wakeTask_some]
  by_cases hw : t ∈ (s.sems k).blockedList ∧ s.Wakes t (causeFor i)
  · simp only [hw, and_self, if_true, Option.bind_eq_bind, Option.bind_some]
    simp [Sys.release]
  · simp [hw]

theorem Wf.killDrop_eq (h : s.Wf) (t : τ) : s.killDrop t = (match (s.tasks t).waitSemaphores with
      | [] => { s.setTask t { s.tasks t with waitSemaphores := [] } with
          dropping := s.dropping.erase t }
      | k :: _ => { ((s.setTask t { s.tasks t with waitSemaphores := [] }).setState k
            (s.sems k).state.restore).setBlocked k ((s.sems k).blockedList.erase t) with
          dropping := s.dropping.erase t }) := by
  unfold Sys.killDrop
  have h1 := h.one t
  match hw : (s.tasks t).waitSemaphores, h1 with
  | [], _ => rfl
  | [k], _ =>
    have ht : t ∈ (s.sems k).blockedList := (h.mem_iff k t).2 (by rw [hw]; simp)
    simp [ksemDropTask, ht]

theorem Wf.killDrop (h : s.Wf) (hd : t ∈ s.dropping) : (s.killDrop t).Wf := by
  have hst := h.dropping t hd
  have hsub : ∀ t', t' ∈ s.dropping.erase t → t' ∈ s.dropping := fun t' => mem_of_mem_erase
  rw [h.killDrop_eq]
  match hw : (s.tasks t).waitSemaphores with
  | [] =>
    have h1 : (s.setTask t { s.tasks t with waitSemaphores := [] }).Wf := h.setTask hw.symm
      (fun hb => absurd hb (by rw [hst]; decide)) (fun hne => absurd hw hne) (fun _ => hst) fun hne => absurd hst hne
    refine ⟨h1.mem_iff, h1.one, h1.nodup, h1.of_blocked, fun t' hne => ?_, fun t' ht' => ?_, h1.inTasks⟩
    · have ht' : t' ≠ t := by rintro rfl; simp at hne
      exact (h1.status t' hne).imp id fun ⟨h2, h3⟩ => ⟨h2, (mem_erase_of_ne ht').2 h3⟩
    · exact h1.dropping t' (hsub t' ht')
  | k :: _ =>
    have ht : t ∈ (s.sems k).blockedList := (h.mem_iff k t).2 (by rw [hw]; simp)
    refine h.leave ht (by simp) (fun k' hk => ?_) (by simp) ?_ (fun t' ht' => by simp [ht'])
      (fun t' ht' => mem_erase_of_ne ht') (fun _ => by simp [hst]) fun hne => by simp [hst] at hne
    · simp [setBlocked_sems_of_ne hk, setState_sems_of_ne hk]
    · simp [hst, TaskStatus.Blocked]

/-! ## Waiting -/

def block (s : Sys κ τ) (t : τ) (k : κ) (timeout : Option ℕ) (isInterruptible : Bool) : Sys κ τ :=
  let task := { s.tasks t with
    lastSignalCause := .normal
    waitSemaphores := [k]
    status := if isInterruptible then .waitingInterruptible else .waiting }
  (({ s.setTask t task with
    timerList := if timeout.isSome then s.timerList ++ [(t, k)] else s.timerList }).setState k
      (s.sems k).state.enter.1).setBlocked k ((s.sems k).blockedList ++ [t])

/-- **What a wait does**: it takes a unit, fails and leaves the semaphore alone, or sleeps.  Without a timeout
and interruptions it fails only for a thread that is marked as killed. -/
theorem Wf.doWait_cases (h : s.Wf) (he : s.Executes t) (timeout : Option ℕ) (i : Bool) : (∃ st,
    (s.sems k).state.tryEnter = some st ∧ s.doWait t k timeout i = some (.returned (.ok ()),
    (s.clearCause t).setState k st)) ∨ (∃ e,
    (timeout = none → i = false → (s.tasks t).status = .terminated ∧ (s.sems k).state.enter.2 = true) ∧
    s.doWait t k timeout i = some (.returned (.error e), s.clearCause t)) ∨ ((s.tasks t).status = .running ∧
    (s.sems k).state.enter.2 = true ∧ s.doWait t k timeout i = some (.blocked, s.block t k timeout i)) := by
  unfold Sys.doWait
  simp only [clearCause_sems]
  by_cases h0 : timeout = some 0
  · rw [if_pos h0]
    rcases htry : (s.sems k).state.tryEnter with _ | st
    · exact Or.inr (Or.inl ⟨_, fun hnone => absurd (hnone.symm.trans h0) (by simp), rfl⟩)
    · exact Or.inl ⟨st, rfl, rfl⟩
  rw [if_neg h0]
  by_cases henter : (s.sems k).state.enter.2 = true
  swap
  · exact Or.inl ⟨_, SemState.tryEnter_of_enter (Bool.eq_false_of_not_eq_true henter), by
      simp [henter]⟩
  simp only [henter, if_true]
  refine Or.inr ?_
  have hback : (s.clearCause t).setState k (s.sems k).state.enter.1.rollBack = s.clearCause t := by
    rw [SemState.rollBack_enter henter]
    exact setState_self
  obtain ⟨-, hrun | hterm⟩ := he
  · have hwaits := h.waits_nil (t := t) (by rw [hrun]; decide)
    by_cases hkill : (i && ((s.tasks t).pendingKill || (s.tasks t).inSignalInit)) = true
    · have hadd : (s.clearCause t).addCurTaskToWaitQueue t k timeout i = some (.error .interruption) := by
        rw [Bool.and_eq_true, Bool.or_eq_true] at hkill
        rcases hkill with ⟨rfl, hp | hp⟩ <;> simp [addCurTaskToWaitQueue, clearCause, hrun, hp]
      have hi : i = true := (Bool.and_eq_true _ _ ▸ hkill).1
      exact Or.inl ⟨.waitInterrupted, fun _ hf => absurd (hf.symm.trans hi) (by simp), by simp only [hadd, hback]⟩
    · have hadd : (s.clearCause t).addCurTaskToWaitQueue t k timeout i = some (.ok { s.setTask t { s.tasks t with
              lastSignalCause := .normal
              waitSemaphores := [k]
              status := if i then .waitingInterruptible else .waiting } with
            timerList := if timeout.isSome then s.timerList ++ [(t, k)] else s.timerList }) := by
        rw [Bool.and_eq_true, not_and, Bool.or_eq_true, not_or] at hkill
        cases i
        · simp [addCurTaskToWaitQueue, clearCause, hrun, hwaits, Sys.setTask]
        · obtain ⟨hp, hq⟩ := hkill rfl
          simp [addCurTaskToWaitQueue, clearCause, hrun, hwaits, hp, hq, Sys.setTask]
      exact Or.inr ⟨hrun, trivial, by simp only [hadd]; rfl⟩
  · have hadd : (s.clearCause t).addCurTaskToWaitQueue t k timeout i = some (.error .normal) := by
      simp [addCurTaskToWaitQueue, clearCause, hterm]
    exact Or.inl ⟨.waitFailed, fun _ _ => ⟨hterm, trivial⟩, by simp only [hadd, hback]⟩

omit [DecidableEq κ] in
theorem Wf.clearCause (h : s.Wf) : (s.clearCause t).Wf :=
  h.setTask rfl (h.of_blocked t) (h.status t) (h.dropping t) (h.inTasks t)

theorem Wf.block (h : s.Wf) (hrun : (s.tasks t).status = .running) {timeout : Option ℕ} {i : Bool} :
    (s.block t k timeout i).Wf := by
  have hwaits := h.waits_nil (t := t) (by rw [hrun]; decide)
  have hnot : ∀ k', t ∉ (s.sems k').blockedList := by
    intro k' hmem
    rw [h.mem_iff, hwaits] at hmem
    exact not_mem_nil hmem
  have hnd : t ∉ s.dropping := fun hd => by rw [h.dropping t hd] at hrun; cases hrun
  have hself : ((s.block t k timeout i).tasks t).waitSemaphores = [k] := by simp [Sys.block]
  have hlist : ((s.block t k timeout i).sems k).blockedList = (s.sems k).blockedList ++ [t] := by simp [Sys.block]
  have hlist' : ∀ k', k' ≠ k → (s.block t k timeout i).sems k' = s.sems k' := fun k' hk => by
    rw [Sys.block, setBlocked_sems_of_ne hk, setState_sems_of_ne hk]
    rfl
  have hstat : ((s.block t k timeout i).tasks t).status.Blocked := by
    cases i <;> simp [Sys.block, TaskStatus.Blocked]
  refine h.update t (fun t' hne => by simp [Sys.block, hne]) (fun _ _ => Iff.rfl) (fun k' t' hne => ?_)
    (fun k' => ?_) (fun k' => ?_) (hself ▸ le_rfl) (fun _ => hself ▸ cons_ne_nil k []) (fun _ => .inl hstat)
    (fun hd => absurd hd hnd) fun _ => ?_
  · rcases eq_or_ne k' k with rfl | hk
    · simp [hlist, hne]
    · rw [hlist' k' hk]
  · rcases eq_or_ne k' k with rfl | hk
    · rw [hlist]
      exact nodup_append.2 ⟨h.nodup k', nodup_singleton t, by
        rintro a ha b hb rfl
        exact hnot k' (mem_singleton.1 hb ▸ ha)⟩
    · rw [hlist' k' hk]
      exact h.nodup k'
  · rcases eq_or_ne k' k with rfl | hk
    · simp [hlist, hself]
    · rw [hlist' k' hk, hself]
      exact iff_of_false (hnot k') (by simpa using hk)
  · have hin := h.inTasks t (by rw [hrun]; decide)
    simpa [Sys.block] using hin

/-! ## Steps -/

/-- **No step panics**, and each keeps the lists in order. -/
theorem Wf.exists_step (h : s.Wf) {a : Action κ τ} (ha : s.Enabled a) : ∃ r s', s.step a = some (r, s') ∧ s'.Wf := by
  cases a with
  | wait t k timeout i =>
    rcases h.doWait_cases (k := k) ha timeout i with ⟨st, -, hw⟩ | ⟨e, -, hw⟩ | ⟨hrun, -, hw⟩
    · exact ⟨_, _, by rw [step, hw]; rfl, h.clearCause.setState st⟩
    · exact ⟨_, _, by rw [step, hw]; rfl, h.clearCause⟩
    · exact ⟨_, _, by rw [step, hw]; rfl, h.block hrun⟩
  | signal k =>
    obtain ⟨ts, s', hs', h', -⟩ := h.doSignal (k := k)
    exact ⟨_, s', by rw [step, hs']; rfl, h'⟩
  | reset k =>
    rcases hst : (s.sems k).state with ⟨m, c⟩ | ⟨sg, auto⟩
    · exact ⟨_, s, by simp only [step, hst]; rfl, h⟩
    · exact ⟨_, _, by simp only [step, hst]; rfl, h.setState _⟩
  | expire timer => exact ⟨_, _, rfl, h.congr (fun _ => rfl) (fun _ => rfl) (fun _ => rfl) (fun _ => rfl) rfl⟩
  | timeout timer =>
    have h1 := h.unqueue (s.timerNotifierList.erase timer)
    rw [step, h1.doSignalOnTask]
    split_ifs with hw
    · exact ⟨_, _, rfl, (h1.release hw.1 hw.2.2.1).setState _⟩
    · exact ⟨_, _, rfl, h1⟩
  | interrupt t k =>
    rw [step, h.doSignalOnTask]
    split_ifs with hw
    · exact ⟨_, _, rfl, (h.release hw.1 hw.2.2.1).setState _⟩
    · exact ⟨_, _, rfl, h⟩
  | mark t pk si =>
    exact ⟨_, _, rfl, h.setTask rfl (h.of_blocked t) (h.status t) (h.dropping t) (h.inTasks t)⟩
  | kill t => exact ⟨_, _, rfl, h.killMark⟩
  | dropTask t => exact ⟨_, _, rfl, h.killDrop ha⟩
  | finalize t =>
    refine ⟨_, _, rfl, h.setRunnable ?_ rfl (show ¬ TaskStatus.terminated.Blocked by decide) rfl⟩
    rcases ha.2 with h' | h' <;> rw [h'] <;> decide
  | switchOut t =>
    refine ⟨_, _, rfl, ?_⟩
    by_cases hr : (s.tasks t).status = .running
    · exact h.setRunnable (by rw [hr]; decide) rfl (by simp [hr]; decide) rfl
    · exact h.setTask rfl (by simpa [hr] using h.of_blocked t) (by simpa [hr] using h.status t)
        (by simpa [hr] using h.dropping t) (by simpa [hr] using h.inTasks t)
  | switchIn t =>
    exact ⟨_, _, rfl, h.setRunnable (by rw [ha.2]; decide) rfl (show ¬ TaskStatus.running.Blocked by decide) rfl⟩
  | suspend t =>
    exact ⟨_, _, rfl, h.setRunnable (by rw [ha.2]; decide) rfl (show ¬ TaskStatus.suspended.Blocked by decide) rfl⟩
  | resume t =>
    have hst : (s.tasks t).status = .suspended := ha
    refine ⟨_, _, rfl, h.setRunnable (by rw [hst]; decide) rfl ?_ rfl⟩
    rcases (s.tasks t).onCpu with _ | _
    · exact show ¬ TaskStatus.active.Blocked by decide
    · exact show ¬ TaskStatus.running.Blocked by decide
  | reap t =>
    exact ⟨_, _, rfl, h.setTask rfl (h.of_blocked t) (h.status t) (h.dropping t) fun hne => absurd ha.2 hne⟩

end

/-! ## One semaphore -/

section
variable {s s' : Sys κ τ} {k k' : κ}

/-- What a step can do to the semaphore `k` with maximum `m`: its counter and list before and
    after. -/
inductive Effect (s : Sys κ τ) (k : κ) (m : ℤ) :
    Action κ τ → Reply τ → ℤ → List τ → ℤ → List τ → Prop
  | same {a r c l} (hsig : a ≠ .signal k)
      (hwait : ∀ t timeout i, a = .wait t k timeout i → ∃ e, r = .waited (.returned (.error e))) :
      Effect s k m a r c l c l
  | took {t timeout i c l} (hc : 1 ≤ c) :
      Effect s k m (.wait t k timeout i) (.waited (.returned (.ok ()))) c l (c - 1) l
  | slept {t timeout i c l} (hrun : (s.tasks t).status = .running) (hc : c ≤ 0) :
      Effect s k m (.wait t k timeout i) (.waited .blocked) c l (c - 1) (l ++ [t])
  | signalled {c l} (hhead : ∀ t, l.head? = some t → ¬ (min m (c + 1) ≤ 0 ∧ s.Wakes t .normal)) :
      Effect s k m (.signal k) (.woke []) c l (min m (c + 1)) l
  | woke {c t l} (hc : min m (c + 1) ≤ 0) (hw : s.Wakes t .normal) :
      Effect s k m (.signal k) (.woke [t]) c (t :: l) (min m (c + 1)) l
  | left {a r c l t} (ht : t ∈ l)
      (ha : (∃ timer ∈ s.timerNotifierList, timer.2 = k ∧ a = .timeout timer) ∨
        ((s.tasks t).status = .waitingInterruptible ∧ a = .interrupt t k) ∨ a = .dropTask t) :
      Effect s k m a r c l (min m (c + 1)) (l.erase t)

theorem Wf.effect (h : s.Wf) {a : Action κ τ} {r : Reply τ} (ha : s.Enabled a) (hstep : s.step a = some (r, s'))
    {m c : ℤ} (hk : (s.sems k).state = .semaphore m c) : ∃ c', (s'.sems k).state = .semaphore m c' ∧
      Effect s k m a r c (s.sems k).blockedList c' (s'.sems k).blockedList := by
  -- a step that leaves the semaphore alone
  have same : s'.sems k = s.sems k → a ≠ .signal k → (∀ t timeout i, a = .wait t k timeout i → ∃ e,
      r = .waited (.returned (.error e))) → ∃ c', (s'.sems k).state = .semaphore m c' ∧
        Effect s k m a r c (s.sems k).blockedList c' (s'.sems k).blockedList := by
    intro heq hsig hwait
    rw [heq]
    exact ⟨c, hk, .same hsig hwait⟩
  cases a with
  | wait t k' timeout i =>
    rw [step, Option.map_eq_some_iff] at hstep
    obtain ⟨⟨o, u⟩, hu, hr⟩ := hstep
    cases hr
    rcases h.doWait_cases (k := k') ha timeout i with
      ⟨st, hst, hw⟩ | ⟨e, -, hw⟩ | ⟨hrun, henter, hw⟩
    · rw [hw] at hu
      cases hu
      rcases eq_or_ne k k' with rfl | hne
      · rw [hk, SemState.tryEnter] at hst
        split_ifs at hst with hc
        cases hst
        refine ⟨c - 1, by simp, ?_⟩
        rw [setState_blockedList, clearCause_sems]
        exact .took hc
      · refine same (by rw [setState_sems_of_ne hne]; rfl) (by simp) ?_
        rintro t' timeout' i' ⟨⟩
        exact absurd rfl hne
    · rw [hw] at hu
      cases hu
      exact same rfl (by simp) fun _ _ _ _ => ⟨e, rfl⟩
    · rw [hw] at hu
      cases hu
      rcases eq_or_ne k k' with rfl | hne
      · rw [hk, SemState.enter, decide_eq_true_eq] at henter
        refine ⟨c - 1, by simp [Sys.block, hk, SemState.enter], ?_⟩
        rw [Sys.block, setBlocked_blockedList]
        exact .slept hrun (by omega)
      · refine same ?_ (by simp) ?_
        · rw [Sys.block, setBlocked_sems_of_ne hne, setState_sems_of_ne hne]
          rfl
        · rintro t' timeout' i' ⟨⟩
          exact absurd rfl hne
  | signal k' =>
    rw [step, Option.map_eq_some_iff] at hstep
    obtain ⟨⟨ts, u⟩, hu, hr⟩ := hstep
    cases hr
    rcases eq_or_ne k k' with rfl | hne
    · rw [h.doSignal_semaphore hk, Option.some.injEq] at hu
      match hl : (s.sems k).blockedList with
      | [] =>
        rw [hl] at hu
        cases hu
        refine ⟨min m (c + 1), by simp, ?_⟩
        rw [setState_blockedList, hl]
        exact .signalled (by simp)
      | t :: l =>
        rw [hl] at hu
        dsimp only [head?_cons] at hu
        split_ifs at hu with hw
        · cases hu
          refine ⟨min m (c + 1), by simp [Sys.release], ?_⟩
          rw [Sys.release, setBlocked_blockedList, setState_blockedList, hl, erase_cons_head]
          exact .woke hw.1 hw.2
        · cases hu
          refine ⟨min m (c + 1), by simp, ?_⟩
          rw [setState_blockedList, hl]
          exact .signalled (by rintro t' ⟨⟩; exact hw)
    · obtain ⟨ts', v, hv, -, hf⟩ := h.doSignal (k := k')
      rw [hv] at hu
      cases hu
      exact same (hf.sems k hne) (by simpa using hne.symm) (by simp)
  | reset k' =>
    rw [step] at hstep
    split at hstep
    · next sg auto hst =>
      cases hstep
      have hne : k ≠ k' := by
        rintro rfl
        rw [hk] at hst
        cases hst
      exact same (setState_sems_of_ne hne) (by simp) (by simp)
    · cases hstep
      exact same rfl (by simp) (by simp)
  | timeout timer =>
    have h1 := h.unqueue (s.timerNotifierList.erase timer)
    rw [step, h1.doSignalOnTask, Option.map_some, Option.some.injEq] at hstep
    split_ifs at hstep with hw
    · cases hstep
      rcases eq_or_ne k timer.2 with rfl | hne
      · refine ⟨min m (c + 1), by simp [Sys.release, hk, SemState.restore], ?_⟩
        rw [setState_blockedList, Sys.release, setBlocked_blockedList]
        exact .left hw.1 (Or.inl ⟨timer, ha, rfl, rfl⟩)
      · refine same ?_ (by simp) (by simp)
        rw [setState_sems_of_ne hne, Sys.release, setBlocked_sems_of_ne hne]
        rfl
    · cases hstep
      exact same rfl (by simp) (by simp)
  | interrupt t k' =>
    rw [step, h.doSignalOnTask, Option.map_some, Option.some.injEq] at hstep
    split_ifs at hstep with hw
    · cases hstep
      rcases eq_or_ne k k' with rfl | hne
      · refine ⟨min m (c + 1), by simp [Sys.release, hk, SemState.restore], ?_⟩
        rw [setState_blockedList, Sys.release, setBlocked_blockedList]
        exact .left hw.1 (Or.inr (Or.inl ⟨hw.2.2.2 rfl, rfl⟩))
      · refine same ?_ (by simp) (by simp)
        rw [setState_sems_of_ne hne, Sys.release, setBlocked_sems_of_ne hne]
        rfl
    · cases hstep
      exact same rfl (by simp) (by simp)
  | dropTask t =>
    rw [step, Option.some.injEq] at hstep
    cases hstep
    have hdrop := h.killDrop_eq t
    match hw : (s.tasks t).waitSemaphores with
    | [] =>
      rw [hw] at hdrop
      exact same (by rw [hdrop]; rfl) (by simp) (by simp)
    | k' :: _ =>
      rw [hw] at hdrop
      rcases eq_or_ne k k' with rfl | hne
      · have ht : t ∈ (s.sems k).blockedList := (h.mem_iff k t).2 (by rw [hw]; simp)
        refine ⟨min m (c + 1), by rw [hdrop]; simp [hk, SemState.restore], ?_⟩
        rw [hdrop, setBlocked_blockedList]
        exact .left ht (Or.inr (Or.inr rfl))
      · refine same ?_ (by simp) (by simp)
        rw [hdrop, setBlocked_sems_of_ne hne, setState_sems_of_ne hne]
        rfl
  | kill t =>
    cases hstep
    exact same (by rw [killMark_sems]) (by simp) (by simp)
  | expire | mark | finalize | switchOut | switchIn | suspend | resume | reap =>
    cases hstep
    exact same rfl (by simp) (by simp)

end

/-! ## The start -/

/-- Nobody waits on anything yet, and the threads that are not killed are in `TASKS`. -/
structure Idle (s : Sys κ τ) : Prop where
  blockedList : ∀ k, (s.sems k).blockedList = []
  tasks : ∀ t, (s.tasks t).waitSemaphores = [] ∧ ¬ (s.tasks t).status.Blocked
  timerList : s.timerList = []
  timerNotifierList : s.timerNotifierList = []
  dropping : s.dropping = []
  inTasks : ∀ t, (s.tasks t).status ≠ .terminated → (s.tasks t).inTasks = true

omit [DecidableEq κ] [DecidableEq τ] in
theorem Idle.wf {s : Sys κ τ} (h : s.Idle) : s.Wf where
  mem_iff k t := by simp [h.blockedList k, (h.tasks t).1]
  one t := by simp [(h.tasks t).1]
  nodup k := by simp [h.blockedList k]
  of_blocked t hb := absurd hb (h.tasks t).2
  status t hne := absurd (h.tasks t).1 hne
  dropping t ht := by simp [h.dropping] at ht
  inTasks := h.inTasks

end Sys

end Archis.Sync

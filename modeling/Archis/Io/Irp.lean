/-
  The life of an IRP (`sched/scheduler.rs`, `io/driver.rs`).

  Three parties hold an IRP: the thread that issued it, the driver it was sent to, and whoever cancels it.  A step is the
  part of a call between two points where the others can interfere.  The flags `dangling` and `late` record an access to
  a freed IRP and a write to the memory of a caller that has returned.  Every completion that is not `Cancelled` writes to
  freed memory (`completed_after_free`); one that has read the cancel flag before it was set writes to the caller's frame
  after the return (`interrupted_caller_written`).  In other runs neither happens.
-/
import Archis.Lib.Run

namespace Archis.Io

open Lib (exec Along exec_induction)

/-- The statuses an IRP is completed with. -/
inductive CompletionStatus where
  | success
  | failed
  | cancelled
  | unsupported
  deriving DecidableEq

/-- How far `io_complete` is, with the status and the cancel flag that it has read. -/
inductive CompletePc where
  | idle
  | loaded (status : CompletionStatus) (isCancelled : Bool)
  /-- Off the lists of the device and of the issuing thread. -/
  | released (status : CompletionStatus) (isCancelled : Bool)
  /-- The buffer is copied back. -/
  | copied (status : CompletionStatus) (isCancelled : Bool)
  /-- The event is signalled, or the completion routine has run. -/
  | notified (status : CompletionStatus)
  /-- Only `is_completed` is left to be written. -/
  | marking
  | done
  deriving DecidableEq

inductive DriverPc where
  | holding
  /-- `io_start_processing` has found the IRP cancelled. -/
  | freeing
  /-- The driver has let go of the IRP. -/
  | gone
  deriving DecidableEq

/-- Who is in the driver's cancel routine, with the IRP's lock held. -/
inductive RoutinePc where
  | none
  | canceller
  | caller
  deriving DecidableEq

/-- The synchronous caller. -/
inductive CallerPc where
  | waiting
  /-- The wait has failed. -/
  | failed
  /-- `cancel_pending_irp` has found the IRP on the device's list. -/
  | cancelling
  | inCancel
  /-- About to return the error. -/
  | leaving
  | returned
  deriving DecidableEq

/-- What does not change about a request. -/
structure Request where
  isPnp : Bool
  hasBuffer : Bool

structure State where
  live : Bool
  isCancelled : Bool
  cancelRoutine : Bool
  isCompleted : Bool
  cancelLock : Bool
  /-- The IRP is on the device's list of pending IRPs. -/
  pending : Bool
  /-- The IRP is on the issuing thread's list. -/
  issued : Bool
  complete : CompletePc
  /-- The completion was started by the cancel routine. -/
  completedInRoutine : Bool
  /-- Calls of `cancel_irp` that hold the pointer and not yet the lock. -/
  cancels : ℕ
  routine : RoutinePc
  driver : DriverPc
  caller : CallerPc
  /-- The device is being removed, or is. -/
  removing : Bool
  frees : ℕ
  dangling : Bool
  late : Bool

inductive Action where
  | setCancelRoutine
  /-- `io_start_processing`, under the lock. -/
  | startProcessing
  /-- The rest of it, for a cancelled IRP. -/
  | startFree
  | complete (status : CompletionStatus) (inRoutine : Bool)
  | completeStep
  /-- The driver forgets an IRP that it has completed. -/
  | forget
  /-- `cancel_pending_irp` of another call of the issuing thread. -/
  | snapshot
  /-- `kill_sweep_irps`. -/
  | sweep
  | cancel
  | routineReturn
  | remove
  | waitFails
  | callerStep
  deriving DecidableEq

namespace State

variable (s : State) (req : Request)

/-! ## The code -/

def touch : State := { s with dangling := s.dangling || !s.live }

def writeCaller : State := { s with late := s.late || s.caller = .returned }

def releaseIrpTracking : State := { s.touch with issued := false, pending := false }

def deallocateIrp : State :=
  { s.touch.releaseIrpTracking with live := false, frees := s.frees + 1 }

def setCancelRoutine : Option State :=
  if s.cancelRoutine then none
  else some (if s.isCancelled then s.touch else { s.touch with cancelRoutine := true })

def startProcessing : State :=
  if s.isCancelled then { s.touch with driver := .freeing }
  else { s.touch with cancelRoutine := false }

/-- `io_complete_irp` and `io_complete` up to the point where the cancel flag is read. -/
def completeIrp (status : CompletionStatus) (inRoutine : Bool) : Option State :=
  if s.isCompleted then none
  else some { s.touch with
    complete := .loaded status s.isCancelled
    completedInRoutine := inRoutine
    driver := if inRoutine || status = .cancelled then s.driver else .gone }

def completeStep : State :=
  match s.complete with
  | .loaded st c => { s.releaseIrpTracking with complete := .released st c }
  | .released st c =>
    { (if !c && req.hasBuffer then s.touch.writeCaller else s) with complete := .copied st c }
  | .copied st c => { (if c then s else s.touch.writeCaller) with complete := .notified st }
  | .notified st =>
    { (if st = .cancelled then s else s.deallocateIrp) with complete := .marking }
  | .marking => { s.touch with isCompleted := true, complete := .done }
  | .idle | .done => s

/-- `cancel_irp` under the lock; the routine runs with the lock held. -/
def cancelIrp (who : RoutinePc) : State :=
  if s.cancelRoutine = false ∨ s.isCancelled then { s.touch with isCancelled := true }
  else { s.touch with isCancelled := true, cancelLock := true, routine := who }

def callerStep : State :=
  match s.caller with
  | .failed =>
    if s.removing then { s with caller := .leaving }
    -- the list is read under its lock, and so is the IRP on it
    else if s.pending && !req.isPnp then { s.touch with caller := .cancelling }
    else { s with caller := .leaving }
  | .cancelling =>
    let s := s.cancelIrp .caller
    { s with caller := if s.routine = .caller then .inCancel else .leaving }
  | .leaving => { s with caller := .returned }
  | .waiting | .inCancel | .returned => s

def step (s : State) : Action → Option State
  | .setCancelRoutine => s.setCancelRoutine
  | .startProcessing => some s.startProcessing
  | .startFree => some { s.deallocateIrp with driver := .gone }
  | .complete st inRoutine => s.completeIrp st inRoutine
  | .completeStep => some (s.completeStep req)
  | .forget => some { s with driver := .gone }
  | .snapshot => some { s.touch with cancels := s.cancels + 1 }
  | .sweep => some { s with
      issued := false
      cancels := if s.removing then s.cancels else s.cancels + 1 }
  | .cancel => some { s.cancelIrp .canceller with cancels := s.cancels - 1 }
  | .routineReturn => some { s.touch with
      cancelLock := false
      routine := .none
      caller := if s.routine = .caller then .leaving else s.caller }
  | .remove => some { s with removing := true }
  | .waitFails => some { s with caller := .failed }
  | .callerStep => some (s.callerStep req)

/-- `allocate_irp`, dispatched to the driver. -/
def start : State where
  live := true
  isCancelled := false
  cancelRoutine := false
  isCompleted := false
  cancelLock := false
  pending := true
  issued := true
  complete := .idle
  completedInRoutine := false
  cancels := 0
  routine := .none
  driver := .holding
  caller := .waiting
  removing := false
  frees := 0
  dangling := false
  late := false

/-- `io_complete` is under way. -/
def Completing : Prop := s.complete ≠ .idle ∧ s.complete ≠ .done

/-- The step can be taken: the driver completes the IRP once while it holds it, and locks exclude each other. -/
def Enabled (s : State) : Action → Prop
  | .setCancelRoutine | .startProcessing => s.driver = .holding ∧ s.cancelLock = false
  | .startFree => s.driver = .freeing
  | .complete _ false => s.driver = .holding ∧ s.complete = .idle
  | .complete _ true => s.routine ≠ .none ∧ s.complete = .idle
  | .completeStep => s.Completing
  | .forget => s.driver = .holding ∧ s.complete ≠ .idle
  | .snapshot => s.pending = true ∧ req.isPnp = false ∧ s.removing = false
  | .sweep => s.issued = true
  | .cancel => 0 < s.cancels ∧ s.cancelLock = false
  -- a completion that the routine started has ended
  | .routineReturn => s.routine ≠ .none ∧ (s.completedInRoutine = true → ¬ s.Completing)
  | .remove => True
  | .waitFails => s.caller = .waiting
  | .callerStep => s.caller = .failed ∨ (s.caller = .cancelling ∧ s.cancelLock = false) ∨
      s.caller = .leaving

instance : Decidable s.Completing := inferInstanceAs (Decidable (_ ∧ _))

instance (s : State) : (a : Action) → Decidable (s.Enabled req a)
  | .setCancelRoutine | .startProcessing | .complete _ false | .complete _ true | .completeStep
  | .forget | .cancel => inferInstanceAs (Decidable (_ ∧ _))
  | .snapshot => inferInstanceAs (Decidable (_ ∧ _ ∧ _))
  | .startFree | .sweep | .waitFails => inferInstanceAs (Decidable (_ = _))
  | .routineReturn => inferInstanceAs (Decidable (_ ∧ (_ → _)))
  | .remove => inferInstanceAs (Decidable True)
  | .callerStep => inferInstanceAs (Decidable (_ ∨ (_ ∧ _) ∨ _))

/-! ## Freeing -/

def Over : Prop :=
  s.driver = .gone ∧ ¬ s.Completing ∧ s.cancels = 0 ∧ s.routine = .none ∧ s.caller ≠ .cancelling

/-- No freed IRP was accessed, none was freed twice, and it is free when the request is over. -/
def FreedOnce : Prop := s.dangling = false ∧ s.frees ≤ 1 ∧ (s.Over → s.frees = 1)

/-- Every completion is a cancellation, and `io_start_processing` frees an IRP only when nothing is under way on
it. -/
def Careful : Action → Prop
  | .complete status _ => status = .cancelled
  | .forget => False
  | .startFree => s.cancels = 0 ∧ s.routine = .none ∧ s.caller ≠ .cancelling ∧ ¬ s.Completing
  | _ => True

instance : (a : Action) → Decidable (s.Careful a)
  | .complete _ _ => inferInstanceAs (Decidable (_ = _))
  | .forget => inferInstanceAs (Decidable False)
  | .startFree => inferInstanceAs (Decidable (_ ∧ _ ∧ _ ∧ _))
  | .setCancelRoutine | .startProcessing | .completeStep | .snapshot | .sweep | .cancel
  | .routineReturn | .remove | .waitFails | .callerStep => inferInstanceAs (Decidable True)

end State

def CompletePc.status? : CompletePc → Option CompletionStatus
  | .loaded st _ | .released st _ | .copied st _ | .notified st => some st
  | .idle | .marking | .done => none

namespace State

/-- Nobody will touch the IRP. -/
structure Free (s : State) : Prop where
  frees : s.frees = 1
  driver : s.driver = .gone
  cancels : s.cancels = 0
  routine : s.routine = .none
  pending : s.pending = false
  issued : s.issued = false
  caller : s.caller ≠ .cancelling
  complete : ¬ s.Completing

structure Inv (s : State) : Prop where
  dangling : s.dangling = false
  live : (s.live = true ∧ s.frees = 0 ∧ s.driver ≠ .gone) ∨ s.Free
  status : ∀ st, s.complete.status? = some st → st = .cancelled

section
variable {s s' : State} {req : Request} {a : Action}

theorem Inv.freedOnce (h : s.Inv) : s.FreedOnce := by
  refine ⟨h.dangling, ?_, fun hover => ?_⟩
  · rcases h.live with ⟨-, h0, -⟩ | hf
    · omega
    · exact hf.frees.le
  · rcases h.live with ⟨-, -, hd⟩ | hf
    · exact absurd hover.1 hd
    · exact hf.frees

theorem touch_of_live (h : s.live = true) : s.touch = s := by
  rw [touch, h, Bool.not_true, Bool.or_false, ← h]

theorem Inv.completeStep (h : s.Inv) (hc : s.Completing) : (s.completeStep req).Inv := by
  have hl := h.live.resolve_right fun hf => hf.complete hc
  have hst := h.status
  unfold State.completeStep
  split
  · next st c hpc =>
    rw [hpc] at hst
    rw [releaseIrpTracking, touch_of_live hl.1]
    exact ⟨h.dangling, Or.inl hl, hst⟩
  · next st c hpc =>
    rw [hpc] at hst
    rw [touch_of_live hl.1]
    split_ifs <;> exact ⟨h.dangling, Or.inl hl, hst⟩
  · next st c hpc =>
    rw [hpc] at hst
    rw [touch_of_live hl.1]
    split_ifs <;> exact ⟨h.dangling, Or.inl hl, hst⟩
  · next st hpc =>
    -- a cancelled IRP is not freed here
    rw [hpc] at hst
    rw [if_pos (hst st rfl)]
    exact ⟨h.dangling, Or.inl hl, nofun⟩
  · rw [touch_of_live hl.1]
    exact ⟨h.dangling, Or.inl hl, nofun⟩
  · exact h
  · exact h

theorem cancelIrp_of_live (hl : s.live = true) (who : RoutinePc) :
    ∃ l r, s.cancelIrp who = { s with isCancelled := true, cancelLock := l, routine := r } := by
  unfold State.cancelIrp
  rw [touch_of_live hl]
  split_ifs
  · exact ⟨_, _, rfl⟩
  · exact ⟨_, _, rfl⟩

theorem Inv.callerStep (h : s.Inv) : (s.callerStep req).Inv := by
  unfold State.callerStep
  split
  · next hpc =>
    split_ifs with hrem hp
    · exact ⟨h.dangling, h.live.imp id fun hf => { hf with caller := nofun }, h.status⟩
    · have hpend : s.pending = true := (Bool.and_eq_true _ _ ▸ hp).1
      have hl := h.live.resolve_right fun hf => by
        rw [hf.pending] at hpend; cases hpend
      rw [touch_of_live hl.1]
      exact ⟨h.dangling, Or.inl hl, h.status⟩
    · exact ⟨h.dangling, h.live.imp id fun hf => { hf with caller := nofun }, h.status⟩
  · next hpc =>
    have hl := h.live.resolve_right fun hf => hf.caller hpc
    obtain ⟨l, r, he⟩ := cancelIrp_of_live hl.1 .caller
    rw [he]
    exact ⟨h.dangling, Or.inl hl, h.status⟩
  · exact ⟨h.dangling, h.live.imp id fun hf => { hf with caller := nofun }, h.status⟩
  · exact h
  · exact h
  · exact h

/-- **A careful step frees at most once and touches nothing that is freed.** -/
theorem Inv.step (h : s.Inv) (ha : s.Enabled req a) (hc : s.Careful a) (hstep : s.step req a = some s') : s'.Inv := by
  -- unless it is about the caller, the step is taken while the IRP is there
  have alive : ¬ s.Free → s.live = true ∧ s.frees = 0 ∧ s.driver ≠ .gone := h.live.resolve_right
  cases a with
  | setCancelRoutine =>
    have hl := alive fun hf => by
      rw [State.Enabled, hf.driver] at ha; cases ha.1
    simp only [State.step, State.setCancelRoutine, touch_of_live hl.1] at hstep
    split_ifs at hstep
    · cases hstep
      exact h
    · cases hstep
      exact ⟨h.dangling, Or.inl hl, h.status⟩
  | startProcessing =>
    have hl := alive fun hf => by
      rw [State.Enabled, hf.driver] at ha; cases ha.1
    cases hstep
    unfold State.startProcessing
    rw [touch_of_live hl.1]
    split_ifs
    · exact ⟨h.dangling, Or.inl ⟨hl.1, hl.2.1, nofun⟩, h.status⟩
    · exact ⟨h.dangling, Or.inl hl, h.status⟩
  | startFree =>
    have hl := alive fun hf => by
      rw [State.Enabled, hf.driver] at ha; cases ha
    cases hstep
    rw [deallocateIrp, touch_of_live hl.1, releaseIrpTracking, touch_of_live hl.1]
    exact ⟨h.dangling, Or.inr ⟨by simp [hl.2.1], rfl, hc.1, hc.2.1, rfl, rfl, hc.2.2.1, hc.2.2.2⟩, h.status⟩
  | complete st inRoutine =>
    have hl := alive fun hf => by
      cases inRoutine
      · rw [State.Enabled, hf.driver] at ha; cases ha.1
      · exact ha.1 hf.routine
    obtain rfl : st = .cancelled := hc
    simp only [State.step, completeIrp, touch_of_live hl.1, decide_true, Bool.or_true, if_true] at hstep
    split_ifs at hstep
    cases hstep
    refine ⟨h.dangling, Or.inl ⟨hl.1, hl.2.1, by simpa using hl.2.2⟩, fun st' hst' => ?_⟩
    cases hst'
    rfl
  | completeStep => cases hstep; exact h.completeStep ha
  | forget => exact hc.elim
  | snapshot =>
    have hl := alive fun hf => by rw [State.Enabled, hf.pending] at ha; cases ha.1
    cases hstep
    rw [touch_of_live hl.1]
    exact ⟨h.dangling, Or.inl hl, h.status⟩
  | sweep =>
    have hl := alive fun hf => by rw [State.Enabled, hf.issued] at ha; cases ha
    cases hstep
    exact ⟨h.dangling, Or.inl hl, h.status⟩
  | cancel =>
    have hl := alive fun hf => by rw [State.Enabled, hf.cancels] at ha; exact absurd ha.1 (by simp)
    cases hstep
    obtain ⟨l, r, he⟩ := cancelIrp_of_live hl.1 .canceller
    rw [he]
    exact ⟨h.dangling, Or.inl hl, h.status⟩
  | routineReturn =>
    have hl := alive fun hf => ha.1 hf.routine
    cases hstep
    rw [touch_of_live hl.1]
    exact ⟨h.dangling, Or.inl hl, h.status⟩
  | remove =>
    cases hstep
    exact ⟨h.dangling, h.live.imp id fun hf => { hf with }, h.status⟩
  | waitFails =>
    cases hstep
    exact ⟨h.dangling, h.live.imp id fun hf => { hf with caller := nofun }, h.status⟩
  | callerStep => cases hstep; exact h.callerStep

end

theorem inv_start : start.Inv := ⟨rfl, Or.inl ⟨rfl, rfl, nofun⟩, nofun⟩

/-- **The IRP is freed exactly once and not used afterwards** in every run of careful steps. -/
theorem exec_freed_once {req : Request} {as : List Action} {s : State}
    (has : Along (step req) (fun s a => s.Enabled req a ∧ s.Careful a) start as)
    (hrun : exec (step req) start as = some s) : s.FreedOnce :=
  (exec_induction (fun _ _ _ h ha hstep => Inv.step h ha.1 ha.2 hstep) inv_start has hrun).freedOnce

/-- A read is cancelled, its cancel routine completes it, and the driver, which had dequeued it, hands it on. -/
def cancelledRead : List Action :=
  [.setCancelRoutine, .waitFails, .callerStep, .callerStep, .complete .cancelled true, .completeStep, .completeStep,
    .completeStep, .completeStep, .completeStep, .routineReturn, .startProcessing, .startFree, .callerStep]

theorem exec_freed_once_cancelledRead : ∃ s, exec (step ⟨false, true⟩) start cancelledRead = some s ∧
    s.Over ∧ s.FreedOnce := by
  obtain ⟨s, hs, hover⟩ : ∃ s, exec (step ⟨false, true⟩) start cancelledRead = some s ∧ s.Over :=
    ⟨_, rfl, rfl, fun h => h.2 rfl, rfl, rfl, nofun⟩
  exact ⟨s, hs, hover, exec_freed_once (by decide) hs⟩

/-- **A write after the free**: `io_complete` frees the IRP and then marks it as completed. -/
theorem completed_after_free : ∃ s, exec (step ⟨false, false⟩) start [.complete .success false,
    .completeStep, .completeStep, .completeStep, .completeStep, .completeStep] = some s ∧ s.Over ∧
    s.frees = 1 ∧ s.dangling = true ∧ ¬ s.FreedOnce :=
  ⟨_, rfl, ⟨rfl, fun h => h.2 rfl, rfl, rfl, nofun⟩, rfl, rfl, fun h => nomatch h.1⟩

/-! ## The caller's memory -/

end State

/-- The completion will still write to the caller's memory. -/
def CompletePc.writes : CompletePc → Bool
  | .loaded _ c | .released _ c | .copied _ c => !c
  | .idle | .notified _ | .marking | .done => false

namespace State

/-- When its wait has failed, the request is no PnP one and the device is not being removed; when the caller
returns, no completion is under way that has seen the IRP as not cancelled. -/
def Settled (req : Request) (s : State) : Action → Prop
  | .callerStep => (s.caller = .failed → s.removing = false ∧ req.isPnp = false) ∧
      (s.caller = .leaving → s.complete.writes = false)
  | _ => True

instance (req : Request) (s : State) : (a : Action) → Decidable (s.Settled req a)
  | .callerStep => inferInstanceAs (Decidable ((_ → _) ∧ (_ → _)))
  | .setCancelRoutine | .startProcessing | .startFree | .complete _ _ | .completeStep | .forget
  | .snapshot | .sweep | .cancel | .routineReturn | .remove | .waitFails =>
    inferInstanceAs (Decidable True)

structure Quiet (s : State) : Prop where
  late : s.late = false
  routine : s.routine ≠ .none → s.isCancelled = true
  freeing : s.driver = .freeing → s.isCancelled = true
  pending : s.pending = false → s.complete = .idle → s.isCancelled = true
  /-- Once the caller has cancelled its IRPs, a completion that has not begun will see it. -/
  caller : s.caller = .leaving ∨ s.caller = .returned → s.complete = .idle → s.isCancelled = true
  returned : s.caller = .returned → s.complete.writes = false

section
variable {s s' : State} {req : Request} {a : Action}

section
variable (h : s.Quiet)
include h

theorem Quiet.touch : s.touch.Quiet :=
  { h with }

theorem Quiet.cancelIrp (who : RoutinePc) : (s.cancelIrp who).Quiet ∧ (s.cancelIrp who).isCancelled = true := by
  unfold State.cancelIrp
  split_ifs
  all_goals exact ⟨⟨h.late, fun _ => rfl, fun _ => rfl, fun _ _ => rfl, fun _ _ => rfl, h.returned⟩, rfl⟩

theorem Quiet.writeCaller (hw : s.complete.writes = true) : s.writeCaller.Quiet := by
  have hne : s.caller ≠ .returned := fun hr => by rw [h.returned hr] at hw; cases hw
  exact { h with late := by simp [State.writeCaller, h.late, hne] }

theorem Quiet.advance {pc : CompletePc} (hpc : pc ≠ .idle)
    (hw : s.complete.writes = false → pc.writes = false) : ({ s with complete := pc } : State).Quiet :=
  ⟨h.late, h.routine, h.freeing, fun _ hi => absurd hi hpc, fun _ hi => absurd hi hpc, fun hr => hw (h.returned hr)⟩

theorem Quiet.completeStep (hc : s.Completing) : (s.completeStep req).Quiet := by
  have hidle : s.complete ≠ .idle := hc.1
  unfold State.completeStep
  split
  · next st c hpc =>
    have h' : s.releaseIrpTracking.Quiet :=
      { h with pending := fun _ hi => absurd hi hidle }
    exact h'.advance nofun fun hw => (congrArg CompletePc.writes hpc).symm.trans hw
  · next st c hpc =>
    split_ifs with hcopy
    · have hw : s.complete.writes = true := by
        rw [hpc]
        exact (Bool.and_eq_true _ _ ▸ hcopy).1
      exact (h.touch.writeCaller hw).advance nofun fun hw' => absurd (hw.symm.trans hw') nofun
    · exact h.advance nofun fun hw => (congrArg CompletePc.writes hpc).symm.trans hw
  · next st c hpc =>
    split_ifs with hcancelled
    · exact h.advance nofun fun _ => rfl
    · have hw : s.complete.writes = true := by
        rw [hpc]
        simpa [CompletePc.writes] using hcancelled
      exact (h.touch.writeCaller hw).advance nofun fun _ => rfl
  · next st hpc =>
    split_ifs
    · exact h.advance nofun fun _ => rfl
    · have h' : s.deallocateIrp.Quiet :=
        { h with pending := fun _ hi => absurd hi hidle }
      exact h'.advance nofun fun _ => rfl
  · have h' : ({ s.touch with isCompleted := true } : State).Quiet :=
      { h with }
    exact h'.advance nofun fun _ => rfl
  · exact h
  · exact h

theorem Quiet.callerStep (hset : s.Settled req .callerStep) : (s.callerStep req).Quiet := by
  unfold State.callerStep
  split
  · next hpc =>
    obtain ⟨hrem, hpnp⟩ := hset.1 hpc
    rw [if_neg (by rw [hrem]; decide)]
    split_ifs with hp
    · exact { h with caller := nofun, returned := nofun }
    · -- the IRP is off the list: it is being completed, or was cancelled
      have hpend : s.pending = false := by simpa [hpnp] using hp
      exact { h with caller := fun _ => h.pending hpend, returned := nofun }
  · next hpc =>
    obtain ⟨h', hc⟩ := h.cancelIrp .caller
    refine ⟨h'.late, h'.routine, h'.freeing, h'.pending, fun _ _ => hc, fun hr => ?_⟩
    dsimp only at hr
    split_ifs at hr
  · next hpc =>
    exact ⟨h.late, h.routine, h.freeing, h.pending, fun _ => h.caller (Or.inl hpc), fun _ => hset.2 hpc⟩
  · exact h
  · exact h
  · exact h

theorem Quiet.step (ha : s.Enabled req a) (hset : s.Settled req a) (hstep : s.step req a = some s') : s'.Quiet := by
  cases a with
  | setCancelRoutine =>
    simp only [State.step, State.setCancelRoutine] at hstep
    split_ifs at hstep
    · cases hstep
      exact h.touch
    · cases hstep
      exact { h with }
  | startProcessing =>
    cases hstep
    unfold State.startProcessing
    split_ifs with hc
    · exact { h with freeing := fun _ => hc }
    · exact { h with }
  | startFree =>
    cases hstep
    exact { h with freeing := nofun, pending := fun _ _ => h.freeing ha }
  | complete st inRoutine =>
    have hidle : s.complete = .idle := by cases inRoutine <;> exact ha.2
    obtain ⟨-, hs⟩ := Option.ite_none_left_eq_some.1 hstep
    cases hs
    refine ⟨h.late, h.routine, fun hf => ?_, nofun, nofun, fun hr => ?_⟩
    · dsimp only at hf
      split_ifs at hf
      exact h.freeing hf
    · -- a completion that begins after the return sees the flag
      have := h.caller (Or.inr hr) hidle
      simp [CompletePc.writes, this]
  | completeStep => cases hstep; exact h.completeStep ha
  | forget =>
    cases hstep
    exact { h with freeing := nofun }
  | snapshot =>
    cases hstep
    exact { h with }
  | sweep =>
    cases hstep
    exact { h with }
  | cancel =>
    cases hstep
    obtain ⟨h', -⟩ := h.cancelIrp .canceller
    exact { h' with }
  | routineReturn =>
    cases hstep
    have hc := h.routine ha.1
    refine ⟨h.late, fun hne => absurd rfl hne, h.freeing, h.pending, fun _ _ => hc, fun hr => ?_⟩
    dsimp only at hr
    split_ifs at hr
    exact h.returned hr
  | remove =>
    cases hstep
    exact { h with }
  | waitFails =>
    cases hstep
    exact { h with caller := nofun, returned := nofun }
  | callerStep => cases hstep; exact h.callerStep hset

end

end

theorem quiet_start : start.Quiet := ⟨rfl, fun hne => absurd rfl hne, nofun, nofun, nofun, nofun⟩

/-- **A caller that has returned an error is left alone** in every run whose steps of the caller are
    settled. -/
theorem exec_not_late {req : Request} {as : List Action} {s : State}
    (has : Along (step req) (fun s a => s.Enabled req a ∧ s.Settled req a) start as)
    (hrun : exec (step req) start as = some s) : s.late = false :=
  (exec_induction (fun _ _ _ h ha hstep => Quiet.step h ha.1 ha.2 hstep) quiet_start has hrun).late

/-- The driver completes the read after the interrupted caller has returned. -/
def completedLater : List Action :=
  [.setCancelRoutine, .startProcessing, .waitFails, .callerStep, .callerStep, .callerStep,
    .complete .success false, .completeStep, .completeStep, .completeStep]

theorem exec_not_late_completedLater : ∃ s, exec (step ⟨false, true⟩) start completedLater = some s ∧
    s.caller = .returned ∧ s.complete = .notified .success ∧ s.late = false := by
  obtain ⟨s, hs, hr, hn⟩ : ∃ s, exec (step ⟨false, true⟩) start completedLater = some s ∧
      s.caller = .returned ∧ s.complete = .notified .success := ⟨_, rfl, rfl, rfl⟩
  exact ⟨s, hs, hr, hn, exec_not_late (by decide) hs⟩

/-- **The caller's frame is written after its return**: the completion has read the cancel flag before the caller
set it. -/
theorem interrupted_caller_written : ∃ s, exec (step ⟨false, true⟩) start [.complete .success false,
    .waitFails, .callerStep, .callerStep, .callerStep, .completeStep, .completeStep, .completeStep]
    = some s ∧ s.caller = .returned ∧ s.isCancelled = true ∧ s.late = true :=
  ⟨_, rfl, rfl, rfl, rfl⟩

end State

end Archis.Io

/-
  Requests to a device while it is stopped, removed and started (`io/driver.rs`).

  A request is admitted under the device's `request_lock`, and dispatched after the lock is dropped, so a read that was
  admitted before a stop can reach the driver after its Stop routine has returned (`read_entered_after_stop`).  If no
  request is between admission and dispatch then, none comes later (`exec_quiesced`).
-/
import Archis.Lib.Run

namespace Archis.Io

open Lib (exec Along exec_induction)

inductive DeviceState where
  | stopped
  | started
  | stopping
  | removing
  | removed
  deriving DecidableEq

inductive IrpMajor where
  | read
  | write
  | pnp
  | control
  | «open»
  | close
  deriving DecidableEq

inductive IrpMinor where
  | none
  | enumerate
  | query
  | resources
  | start
  | stop
  | remove
  | registerKeyboardHandler
  | setForegroundPgrp
  | setControllingTty
  | diskGetInfo
  | diskCreateGpt
  | diskAddPartition
  | diskGetPartitionInfo
  | setTtyMode
  | getTtyMode
  deriving DecidableEq

def IrpMajor.isData : IrpMajor → Bool
  | .read | .write | .control => true
  | .pnp | .open | .close => false

def allowedInState (state : DeviceState) (major : IrpMajor) (minor : IrpMinor) (isClass isPdo : Bool) : Bool :=
  if isClass then
    match major with
    | .pnp => false
    | _ => state = .started
  else if isPdo && major ≠ .pnp then false
  else match major, minor with
    | .read, _ | .write, _ | .control, _ | .open, _ | .close, _ => state = .started
    | .pnp, .enumerate | .pnp, .query | .pnp, .resources => state = .started
    | .pnp, .start => state = .stopped
    | .pnp, .stop => state = .stopping
    | .pnp, .remove => state = .removing
    | .pnp, .none | .pnp, .registerKeyboardHandler | .pnp, .setForegroundPgrp
    | .pnp, .setControllingTty | .pnp, .diskGetInfo | .pnp, .diskCreateGpt | .pnp, .diskAddPartition
    | .pnp, .diskGetPartitionInfo | .pnp, .setTtyMode | .pnp, .getTtyMode => false

/-- Where the thread is that starts, stops or removes the device; `removing`: the stop is part of a removal. -/
inductive ConfigPc where
  | idle
  /-- In `stop_self`. -/
  | stopping (removing : Bool)
  /-- The state is `Stopping`. -/
  | quiesced (removing : Bool)
  /-- In the driver's Stop routine. -/
  | inStop (removing : Bool)
  /-- The Stop request is over, or was never sent. -/
  | stopOver (removing : Bool)
  | draining (removing : Bool)
  /-- The removal goes on. -/
  | remove
  | inRemove
  /-- The driver's Start routine runs. -/
  | inStart
  deriving DecidableEq

structure DeviceObjectK where
  isPdo : Bool
  state : DeviceState
  /-- Requests that are admitted and not yet handed to the driver. -/
  admitted : List (IrpMajor × IrpMinor)
  pendingIrps : ℕ
  config : ConfigPc
  /-- The driver's Stop routine has returned, and the device was not started since. -/
  stopReturned : Bool
  /-- A read, write or control routine was entered while it was so. -/
  entered : Bool

inductive DeviceAction where
  /-- A request comes in; allocating its IRP succeeds or not. -/
  | request (major : IrpMajor) (minor : IrpMinor) (allocated : Bool)
  /-- An admitted request is handed to the driver. -/
  | dispatch (i : ℕ)
  /-- A dispatched IRP is completed. -/
  | complete
  | start
  /-- The Start request is over. -/
  | startReturns (success : Bool)
  | stop (removing : Bool)
  | quiesce
  /-- The Stop request is sent; allocating its IRP succeeds or not. -/
  | sendStop (allocated : Bool)
  | stopReturns
  | setStopped
  | drained
  /-- The Remove request is sent. -/
  | sendRemove
  | removeReturns
  deriving DecidableEq

namespace DeviceObjectK

section
variable (d : DeviceObjectK)

/-- Admission, under `request_lock`. -/
def request (major : IrpMajor) (minor : IrpMinor) (allocated : Bool) :
    DeviceObjectK :=
  if allowedInState d.state major minor false d.isPdo && allocated then
    { d with admitted := d.admitted ++ [(major, minor)], pendingIrps := d.pendingIrps + 1 }
  else d

def dispatch (i : ℕ) : DeviceObjectK :=
  match d.admitted[i]? with
  | none => d
  | some (major, _) => { d with
      admitted := d.admitted.eraseIdx i
      entered := d.entered || (major.isData && d.stopReturned) }

/-- The start of `stop_self`. -/
def stopSelf (removing : Bool) : DeviceObjectK :=
  if d.isPdo then { d with config := if removing then .remove else .idle }
  else if d.state ≠ .started then { d with config := if removing then .remove else .idle }
  else { d with config := .stopping removing }

def step : DeviceAction → Option DeviceObjectK
  | .request major minor allocated => some (d.request major minor allocated)
  | .dispatch i => some (d.dispatch i)
  | .complete => some { d with pendingIrps := d.pendingIrps - 1 }
  | .start => some (if d.state = .stopped then { d with config := .inStart } else d)
  | .startReturns success => some (if success then
      { d with state := .started, config := .idle, stopReturned := false }
    else { d with config := .idle })
  | .stop removing => some (d.stopSelf removing)
  | .quiesce =>
    match d.config with
    | .stopping rm => some { d with state := .stopping, config := .quiesced rm }
    | _ => some d
  | .sendStop allocated =>
    match d.config with
    | .quiesced rm => some { d with config := if allocated then .inStop rm else .stopOver rm }
    | _ => some d
  | .stopReturns =>
    match d.config with
    | .inStop rm => some { d with stopReturned := true, config := .stopOver rm }
    | _ => some d
  | .setStopped =>
    match d.config with
    | .stopOver rm => some { d with state := .stopped, config := .draining rm }
    | _ => some d
  | .drained =>
    match d.config with
    | .draining rm => some { d with config := if rm then .remove else .idle }
    | _ => some d
  | .sendRemove =>
    match d.config with
    | .remove => some (if d.state = .removing ∨ d.state = .removed then { d with config := .idle }
        else { d with state := .removing, config := .inRemove })
    | _ => some d
  | .removeReturns =>
    match d.config with
    | .inRemove => some { d with state := .removed, config := .idle }
    | _ => some d

def Enabled : DeviceAction → Prop
  | .request _ _ _ => True
  | .dispatch i => i < d.admitted.length
  -- only what was dispatched is completed
  | .complete => d.admitted.length < d.pendingIrps
  | .start | .stop _ => d.config = .idle
  | .startReturns _ => d.config = .inStart
  | .quiesce => ∃ rm, d.config = .stopping rm
  | .sendStop _ => ∃ rm, d.config = .quiesced rm
  | .stopReturns => ∃ rm, d.config = .inStop rm
  | .setStopped => ∃ rm, d.config = .stopOver rm
  | .drained => (∃ rm, d.config = .draining rm) ∧ d.pendingIrps = 0
  | .sendRemove => d.config = .remove
  | .removeReturns => d.config = .inRemove

/-- No read, write or control routine was entered after a Stop routine had returned. -/
def Quiesced : Prop := d.entered = false

/-- When the Stop routine returns, no request is between its admission and its dispatch. -/
def NothingInBetween : DeviceAction → Prop
  | .stopReturns => ∀ r ∈ d.admitted, r.1.isData = false
  | _ => True

end

structure Inv (d : DeviceObjectK) : Prop where
  entered : d.entered = false
  /-- Between `quiesce_requests` and the return of the Stop routine. -/
  stopping : (∃ rm, d.config = .quiesced rm ∨ d.config = .inStop rm ∨ d.config = .stopOver rm) → d.state = .stopping
  started : d.config = .inStart → d.state = .stopped
  stopReturned : d.stopReturned = true → d.state ≠ .started ∧ ∀ r ∈ d.admitted, r.1.isData = false

end DeviceObjectK

/-- **Only a started device is sent data requests.** -/
theorem started_of_allowedInState {state : DeviceState} {major : IrpMajor} {minor : IrpMinor} {isPdo : Bool}
    (h : allowedInState state major minor false isPdo = true) (hdata : major.isData = true) : state = .started := by
  cases major with
  | pnp | «open» | close => cases hdata
  | read | write | control =>
    unfold allowedInState at h
    rw [if_neg (by decide)] at h
    split_ifs at h
    exact of_decide_eq_true h

namespace DeviceObjectK

section
variable {d d' : DeviceObjectK} {a : DeviceAction}

theorem Inv.request (h : Inv d) (major : IrpMajor) (minor : IrpMinor) (allocated : Bool) :
    Inv (d.request major minor allocated) := by
  unfold DeviceObjectK.request
  split_ifs with hok
  · refine ⟨h.entered, h.stopping, h.started, fun hs => ⟨(h.stopReturned hs).1, fun r hr => ?_⟩⟩
    rcases List.mem_append.1 hr with hr | hr
    · exact (h.stopReturned hs).2 r hr
    · rw [List.mem_singleton.1 hr]
      by_contra hdata
      exact (h.stopReturned hs).1 (started_of_allowedInState (Bool.and_eq_true _ _ ▸ hok).1
        (Bool.eq_true_of_not_eq_false hdata))
  · exact h

theorem Inv.dispatch (h : Inv d) (i : ℕ) : Inv (d.dispatch i) := by
  unfold DeviceObjectK.dispatch
  split
  · exact h
  next major minor hget =>
  have hmem := List.mem_of_getElem? hget
  refine ⟨?_, h.stopping, h.started, fun hs => ⟨(h.stopReturned hs).1, fun r hr => ?_⟩⟩
  · by_cases hs : d.stopReturned = true
    · simp [h.entered, (h.stopReturned hs).2 _ hmem]
    · simp [h.entered, hs]
  · exact (h.stopReturned hs).2 r (List.mem_of_mem_eraseIdx hr)

theorem Inv.step (h : Inv d) (ha : d.Enabled a) (hbetween : d.NothingInBetween a)
    (hstep : d.step a = some d') : Inv d' := by
  cases a with
  | request major minor allocated => cases hstep; exact h.request major minor allocated
  | dispatch i => cases hstep; exact h.dispatch i
  | complete => cases hstep; exact ⟨h.entered, h.stopping, h.started, h.stopReturned⟩
  | start =>
    cases hstep
    split_ifs with hst
    · exact ⟨h.entered, by simp, fun _ => hst, h.stopReturned⟩
    · exact h
  | startReturns success =>
    cases hstep
    split_ifs
    · exact ⟨h.entered, by simp, nofun, nofun⟩
    · exact ⟨h.entered, by simp, nofun, h.stopReturned⟩
  | stop rm =>
    cases hstep
    unfold stopSelf
    split_ifs <;> exact ⟨h.entered, by simp, nofun, h.stopReturned⟩
  | quiesce =>
    obtain ⟨rm, hpc⟩ := ha
    simp only [DeviceObjectK.step, hpc] at hstep
    cases hstep
    exact ⟨h.entered, fun _ => rfl, nofun, fun hs => ⟨nofun, (h.stopReturned hs).2⟩⟩
  | sendStop allocated =>
    obtain ⟨rm, hpc⟩ := ha
    have hst := h.stopping ⟨rm, Or.inl hpc⟩
    simp only [DeviceObjectK.step, hpc] at hstep
    cases hstep
    refine ⟨h.entered, fun _ => hst, fun hc => ?_, h.stopReturned⟩
    cases allocated <;> cases hc
  | stopReturns =>
    obtain ⟨rm, hpc⟩ := ha
    have hst := h.stopping ⟨rm, Or.inr (Or.inl hpc)⟩
    simp only [DeviceObjectK.step, hpc] at hstep
    cases hstep
    refine ⟨h.entered, fun _ => hst, nofun, fun _ => ⟨?_, hbetween⟩⟩
    rw [show d.state = .stopping from hst]
    decide
  | setStopped =>
    obtain ⟨rm, hpc⟩ := ha
    simp only [DeviceObjectK.step, hpc] at hstep
    cases hstep
    exact ⟨h.entered, by simp, nofun, fun hs => ⟨nofun, (h.stopReturned hs).2⟩⟩
  | drained =>
    obtain ⟨⟨rm, hpc⟩, -⟩ := ha
    simp only [DeviceObjectK.step, hpc] at hstep
    cases hstep
    cases rm
    · exact ⟨h.entered, by simp, nofun, h.stopReturned⟩
    · exact ⟨h.entered, by simp, nofun, h.stopReturned⟩
  | sendRemove =>
    simp only [DeviceObjectK.step, show d.config = .remove from ha] at hstep
    cases hstep
    split_ifs
    · exact ⟨h.entered, by simp, nofun, h.stopReturned⟩
    · exact ⟨h.entered, by simp, nofun, fun hs => ⟨nofun, (h.stopReturned hs).2⟩⟩
  | removeReturns =>
    simp only [DeviceObjectK.step, show d.config = .inRemove from ha] at hstep
    cases hstep
    exact ⟨h.entered, by simp, nofun, fun hs => ⟨nofun, (h.stopReturned hs).2⟩⟩

end

/-- A device after `io_create_device`, in any state, with nothing under way. -/
def new (isPdo : Bool) (state : DeviceState) : DeviceObjectK where
  isPdo := isPdo
  state := state
  admitted := []
  pendingIrps := 0
  config := .idle
  stopReturned := false
  entered := false

theorem inv_new (isPdo : Bool) (state : DeviceState) : Inv (new isPdo state) :=
  ⟨rfl, by simp [new], nofun, nofun⟩

/-- **A stopped device is left alone** if no request is between admission and dispatch when a Stop routine
returns. -/
theorem exec_quiesced {isPdo : Bool} {state : DeviceState} {as : List DeviceAction}
    {d : DeviceObjectK} (has : Along step (fun d a => d.Enabled a ∧ d.NothingInBetween a)
    (new isPdo state) as) (hrun : exec step (new isPdo state) as = some d) : d.Quiesced :=
  (exec_induction (fun _ _ _ h ha hstep => Inv.step h ha.1 ha.2 hstep) (inv_new isPdo state) has hrun).entered

def readThenStop : List DeviceAction :=
  [.request .read .none true, .dispatch 0, .stop false, .quiesce, .sendStop true, .stopReturns,
    .setStopped, .request .read .none true, .complete, .drained]

theorem exec_quiesced_readThenStop : ∃ d, exec step (new false .started) readThenStop = some d ∧
    d.state = .stopped ∧ d.stopReturned = true ∧ d.Quiesced := by
  obtain ⟨d, hd, hst, hr⟩ : ∃ d, exec step (new false .started) readThenStop = some d ∧
      d.state = .stopped ∧ d.stopReturned = true := ⟨_, rfl, rfl, rfl⟩
  refine ⟨d, hd, hst, hr, exec_quiesced ?_ hd⟩
  exact .cons ⟨trivial, trivial⟩ rfl (.cons ⟨Nat.one_pos, trivial⟩ rfl (.cons ⟨rfl, trivial⟩ rfl
    (.cons ⟨⟨_, rfl⟩, trivial⟩ rfl (.cons ⟨⟨_, rfl⟩, trivial⟩ rfl (.cons ⟨⟨_, rfl⟩, nofun⟩ rfl
      (.cons ⟨⟨_, rfl⟩, trivial⟩ rfl (.cons ⟨trivial, trivial⟩ rfl (.cons ⟨Nat.one_pos, trivial⟩ rfl
        (.cons ⟨⟨⟨_, rfl⟩, rfl⟩, trivial⟩ rfl trivial)))))))))

/-- **A read reaches a stopped device**: it was admitted before the stop. -/
theorem read_entered_after_stop : ∃ d, exec step (new false .started)
      [.request .read .none true, .stop false, .quiesce, .sendStop true, .stopReturns, .setStopped,
        .dispatch 0] = some d ∧ d.state = .stopped ∧ ¬ d.Quiesced :=
  ⟨_, rfl, rfl, nofun⟩

end DeviceObjectK

end Archis.Io

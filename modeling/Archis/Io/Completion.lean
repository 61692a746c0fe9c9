/-
  How often an IRP is completed (`io/driver.rs`, and the drivers).

  The I/O manager completes an IRP whose routine returns `Unsupported`, so a routine that returns any other status but
  `Pending` must have completed it once.  `exec_completed_once`: each IRP is completed once, except by
    * a `read` of the input driver on a device that is not the class device;
    * `do_io` of the disk driver, for a read that fails in the device below;
    * a queued read that finds its IRP cancelled when another thread has taken the IRP off the queue.
-/
import Archis.Io.Drivers

namespace Archis.Io.Drivers

open Lib (RingBuffer exec Along exec_induction)
open Function (update update_of_ne update_self)
open Disk (SECTOR_SIZE)
open List hiding next
open Prod (fst)

/-! ## The machine -/

/-- How far a request is. -/
inductive Phase where
  | fresh
  /-- The IRP is in the driver's queue; the routine has not yet called `io_set_cancel_routine`. -/
  | queued
  | returned (status : Status)
  deriving DecidableEq

structure IrpState where
  phase : Phase
  isCancelled : Bool
  cancelRoutine : Bool
  /-- Calls of `io_complete`. -/
  completions : ℕ
  deriving DecidableEq

structure State where
  driver : Driver
  irp : ℕ → IrpState
  /-- Taken off the queue, for `io_start_processing`. -/
  collected : List ℕ
  /-- `io_complete` is about to be called. -/
  completing : List (ℕ × Status)

inductive Action where
  | request (t : Target) (e : Env) (r : Irp)
  /-- The rest of a queued read. -/
  | setCancelRoutine (irp : ℕ)
  /-- `cancel_irp`. -/
  | cancel (irp : ℕ)
  | event (ev : Event)
  | startProcessing (irp : ℕ)
  | complete (irp : ℕ) (status : Status)

/-- The state of an IRP when its routine has got so far; the manager completes it for `Unsupported`. -/
def Own.irpState : Own → IrpState
  | .returned completed status =>
    ⟨.returned status, false, false, completed.length + if status = .unsupported then 1 else 0⟩
  | .queued => ⟨.queued, false, false, 0⟩
  | .kept => ⟨.returned .pending, false, false, 0⟩

namespace State

def init (d : Driver) : State where
  driver := d
  irp := fun _ => ⟨.fresh, false, false, 0⟩
  collected := []
  completing := []

section
variable (s : State) (irp : ℕ)

def setIrp (i : IrpState) : State :=
  { s with irp := update s.irp irp i }

def dispatched (o : Outcome Driver) : State :=
  { s.setIrp irp o.own.irpState with
    driver := o.ctx
    completing := s.completing ++ o.failing.map (·, .failed) }

/-- `io_request_sync` and `io_request_async`.  A request that the device's state does not allow has no
    IRP. -/
def request (t : Target) (e : Env) (r : Irp) : Option State :=
  if allowedInState t.state r.major r.minor t.isClass t.isPdo then
    (s.driver.dispatch t e r).map (s.dispatched r.ptr)
  else some s

/-- `io_set_cancel_routine`, and what the reads of tty, input and i8042 do after it. -/
def setCancelRoutine : Option State :=
  let i := s.irp irp
  if i.cancelRoutine then none
  else if i.isCancelled then
    some { s.setIrp irp { i with phase := .returned .cancelled, completions := i.completions + 1 } with
      driver := s.driver.remove irp }
  else some (s.setIrp irp { i with phase := .returned .pending, cancelRoutine := true })

/-- `cancel_irp`; the driver's routine takes the IRP off the queue and completes it. -/
def cancelIrp : State :=
  let i := s.irp irp
  let s' := s.setIrp irp { i with isCancelled := true }
  if i.cancelRoutine = false ∨ i.isCancelled then s'
  else { s' with
    driver := s.driver.remove irp
    completing := s.completing ++ [(irp, .cancelled)] }

def event (s : State) (ev : Event) : State :=
  let (driver, collected, completing) := s.driver.event ev
  { s with
    driver
    collected := s.collected ++ collected
    completing := s.completing ++ completing }

/-- `io_start_processing`; it frees an IRP that is cancelled. -/
def startProcessing : State :=
  let i := s.irp irp
  let s' := { s with collected := s.collected.erase irp }
  if i.isCancelled then s'
  else { s'.setIrp irp { i with cancelRoutine := false } with
    completing := s.completing ++ [(irp, .success)] }

def complete (status : Status) : State :=
  let i := s.irp irp
  { s.setIrp irp { i with completions := i.completions + 1 } with
    completing := s.completing.erase (irp, status) }

def step : Action → Option State
  | .request t e r => s.request t e r
  | .setCancelRoutine irp => s.setCancelRoutine irp
  | .cancel irp => some (s.cancelIrp irp)
  | .event ev => some (s.event ev)
  | .startProcessing irp => some (s.startProcessing irp)
  | .complete irp status => some (s.complete irp status)

def Enabled : Action → Prop
  | .request _ _ r => (s.irp r.ptr).phase = .fresh
  | .setCancelRoutine irp => (s.irp irp).phase = .queued
  | .cancel irp => (s.irp irp).phase ≠ .fresh
  | .event _ => True
  | .startProcessing irp => irp ∈ s.collected
  | .complete irp status => (irp, status) ∈ s.completing

/-- Every IRP whose routine has returned, and not `Pending`, is completed once. -/
def CompletedOnce : Prop :=
  ∀ irp status, (s.irp irp).phase = .returned status → status ≠ .pending → (s.irp irp).completions = 1

end

end State

/-- No read of the input driver's other devices, and none that fails below a disk and is reported to the disk. -/
def Driver.Careful (d : Driver) (t : Target) (e : Env) (r : Irp) : Prop :=
  match d with
  | .input ctx => r.major = .read → t.id = ctx.deviceId
  | .disk ctx => r.major = .read → ctx.missesCache t r = true → e.child ≠ .returned .failed true
  | _ => True

/-- As `Driver.Careful`, and a queued read that finds its IRP cancelled is the only one to complete
    it. -/
def State.Careful (s : State) : Action → Prop
  | .request t e r => s.driver.Careful t e r
  | .setCancelRoutine irp => (s.irp irp).isCancelled = true →
      (s.irp irp).completions = 0 ∧ irp ∉ s.completing.map fst
  | _ => True

/-! ## Who has an IRP -/

def Own.waits : Own → Bool
  | .returned _ _ => false
  | .queued | .kept => true

/-- The outcome of a request to a driver with the IRPs `before`: no IRP is with two parties, and its own is
completed as the manager expects. -/
structure Outcome.Regular {σ : Type} (held : σ → List ℕ) (before : List ℕ) (irp : ℕ) (o : Outcome σ) :
    Prop where
  count_le : ∀ j, (held o.ctx).count j + o.failing.count j ≤
    before.count j + if o.own.waits = true ∧ j = irp then 1 else 0
  once : ∀ status, o.own.irpState.phase = .returned status → status ≠ .pending → o.own.irpState.completions = 1

namespace Outcome
section
variable {σ τ : Type} {held : σ → List ℕ} {before : List ℕ} {irp : ℕ} {ctx : σ} {status : Status}

theorem Regular.finish (hst : status ≠ .unsupported) (h : held ctx = before) :
    (finish status ctx).Regular held before irp where
  count_le j := by simp [Outcome.finish, Own.waits, h]
  once st _ _ := by simp [Outcome.finish, Own.irpState, hst]

theorem Regular.unsupported (h : held ctx = before) : (unsupported ctx).Regular held before irp where
  count_le j := by simp [Outcome.unsupported, Own.waits, h]
  once st _ _ := by simp [Outcome.unsupported, Own.irpState]

theorem Regular.emptied {failing : List ℕ} (h : held ctx = []) (hf : failing.Sublist before) :
    (⟨.returned [.success] .success, ctx, failing⟩ : Outcome σ).Regular held before irp where
  count_le j := by
    have := hf.count_le j
    simp only [h, count_nil]
    omega
  once st _ _ := by simp [Own.irpState]

theorem Regular.waits {own : Own} (hown : own.waits = true) (h : held ctx = before ++ [irp]) :
    (⟨own, ctx, []⟩ : Outcome σ).Regular held before irp where
  count_le j := by
    have : List.count j [irp] = if j = irp then 1 else 0 := by
      rw [count_singleton]
      exact if_congr (by rw [beq_iff_eq, eq_comm]) rfl rfl
    simp only [h, count_append, count_nil, hown, true_and, this]
    omega
  once st hst hne := by
    cases own with
    | returned completed st => cases hown
    | queued => cases hst
    | kept => cases hst; exact absurd rfl hne

theorem Regular.map {held' : τ → List ℕ} {f : σ → τ} {o : Outcome σ} (h : o.Regular held before irp)
    (hf : ∀ ctx, held' (f ctx) = held ctx) : (o.map f).Regular held' before irp :=
  ⟨fun j => by rw [Outcome.map, hf]; exact h.count_le j, h.once⟩

end
end Outcome

open Outcome (Regular)

section
variable (ctx : TtyCtx)

theorem TtyCtx.dispatchPnp_regular (r : Irp) :
    (ctx.dispatchPnp r).Regular (fun c => irps c.pending) (irps ctx.pending) r.ptr := by
  have hstop : ctx.disableAndFailPending.Regular (fun c => irps c.pending) (irps ctx.pending) r.ptr :=
    .emptied rfl (Sublist.refl _)
  unfold dispatchPnp
  split
  · exact .finish nofun rfl
  · exact hstop
  · exact hstop.map fun _ => rfl
  · exact .unsupported rfl

theorem TtyCtx.dispatchRead_regular (p : Procs) (r : Irp) :
    (ctx.dispatchRead p r).Regular (fun c => irps c.pending) (irps ctx.pending) r.ptr := by
  unfold dispatchRead
  repeat' split
  -- only the last branch puts the IRP in the queue
  all_goals first
    | exact .finish nofun rfl
    | exact .waits rfl (map_append ..)

theorem TtyCtx.dispatchWrite_regular (p : Procs) (irp : ℕ) :
    (ctx.dispatchWrite p).Regular (fun c => irps c.pending) (irps ctx.pending) irp := by
  unfold dispatchWrite
  repeat' split
  all_goals exact .finish nofun rfl

theorem TtyCtx.dispatchControl_regular (p : Procs) (r : Irp) :
    (ctx.dispatchControl p r).Regular (fun c => irps c.pending) (irps ctx.pending) r.ptr := by
  unfold dispatchControl
  split
  · exact .finish nofun rfl
  · repeat' split
    all_goals first
      | exact .finish nofun rfl
      | exact .unsupported rfl

end

theorem InputCtx.dispatchPnp_regular (ctx : InputCtx) (r : Irp) :
    (ctx.dispatchPnp r).Regular (fun c => irps c.pending) (irps ctx.pending) r.ptr := by
  unfold dispatchPnp
  split
  all_goals first
    | exact .finish nofun rfl
    | exact .unsupported rfl

theorem InputCtx.dispatchRead_regular (ctx : InputCtx) (t : Target) (r : Irp) (h : t.id = ctx.deviceId) :
    (ctx.dispatchRead t r).Regular (fun c => irps c.pending) (irps ctx.pending) r.ptr := by
  unfold dispatchRead
  rw [if_neg (not_not.2 h)]
  split_ifs
  all_goals first
    | exact .finish nofun rfl
    | exact .waits rfl (map_append ..)

theorem I8042Ctx.dispatchPnp_regular (ctx : I8042Ctx) (r : Irp) :
    (ctx.dispatchPnp r).Regular (fun c => irps c.pending) (irps ctx.pending) r.ptr := by
  unfold dispatchPnp
  split
  -- starting forgets the queue
  · exact .emptied rfl (nil_sublist _)
  · exact .emptied rfl (Sublist.refl _)
  · exact .finish nofun rfl
  · exact .unsupported rfl

theorem I8042Ctx.dispatchControl_regular (ctx : I8042Ctx) (r : Irp) :
    (ctx.dispatchControl r).Regular (fun c => irps c.pending) (irps ctx.pending) r.ptr := by
  unfold dispatchControl
  split
  · exact .finish nofun rfl
  · exact .unsupported rfl

theorem I8042Ctx.dispatchRead_regular (ctx : I8042Ctx) (r : Irp) :
    (ctx.dispatchRead r).Regular (fun c => irps c.pending) (irps ctx.pending) r.ptr := by
  unfold dispatchRead
  dsimp only
  split_ifs
  all_goals first
    | exact .finish nofun rfl
    | exact .waits rfl (map_append ..)

theorem VirtBlkCtx.dispatchPnp_regular (ctx : VirtBlkCtx) (e : Env) (r : Irp) :
    (ctx.dispatchPnp e r).Regular VirtBlkCtx.pending ctx.pending r.ptr := by
  unfold dispatchPnp
  split
  · split
    · exact .finish nofun rfl
    · exact .finish nofun rfl
  · exact .emptied rfl (Sublist.refl _)
  · exact .finish nofun rfl
  · exact .unsupported rfl

theorem VirtBlkCtx.dispatchControl_regular (ctx : VirtBlkCtx) (r : Irp) :
    (ctx.dispatchControl r).Regular VirtBlkCtx.pending ctx.pending r.ptr := by
  unfold dispatchControl
  split
  · split_ifs
    · exact .finish nofun rfl
    · exact .finish nofun rfl
  · exact .unsupported rfl

theorem VirtBlkCtx.dispatchIo_regular (ctx : VirtBlkCtx) (e : Env) (r : Irp) :
    (ctx.dispatchIo e r).Regular VirtBlkCtx.pending ctx.pending r.ptr := by
  unfold dispatchIo
  split_ifs
  · exact .finish nofun rfl
  · exact .finish nofun rfl
  split
  · exact .finish nofun rfl
  next ctx' hctx =>
  have hpending : ctx'.pending = ctx.pending := by
    unfold allocateResources at hctx
    split_ifs at hctx
    cases hctx
    rfl
  exact .waits rfl (by rw [hpending])

namespace DiskCtx
variable {ctx : DiskCtx} {t : Target} {e : Env} {r : Irp} {o : Outcome DiskCtx}

theorem dispatchPnp_regular (h : ctx.dispatchPnp t e r = some o) :
    o.Regular DiskCtx.waiting ctx.waiting r.ptr := by
  have hstop : ctx.doStop t e = some o → o.Regular DiskCtx.waiting ctx.waiting r.ptr := by
    intro h
    unfold doStop at h
    split_ifs at h <;> cases h <;> exact .finish nofun rfl
  unfold dispatchPnp at h
  split at h
  · unfold doStart at h
    repeat' split at h
    all_goals cases h
    all_goals exact .finish nofun rfl
  · exact hstop h
  · exact hstop h
  · cases h; exact .unsupported rfl

theorem dispatchControl_regular : (ctx.dispatchControl t e r).Regular DiskCtx.waiting ctx.waiting r.ptr := by
  have hadmin : (ctx.doAdmin t e).Regular DiskCtx.waiting ctx.waiting r.ptr := by
    unfold doAdmin
    split_ifs
    all_goals first
      | exact .finish nofun rfl
      | exact .unsupported rfl
  unfold dispatchControl
  split
  · exact .finish nofun rfl
  · exact hadmin
  · exact hadmin
  · split_ifs
    · exact .unsupported rfl
    · exact .finish nofun rfl
  · exact .unsupported rfl

theorem childDispatched_regular {c : Child} {before : List ℕ} (hw : ctx.waiting = before)
    (hc : c ≠ .returned .failed true) : (ctx.childDispatched r c).Regular DiskCtx.waiting before r.ptr := by
  unfold childDispatched
  split
  · exact .finish nofun hw
  · next routineRuns =>
    cases routineRuns with
    | true => exact absurd rfl hc
    | false => exact .finish nofun hw
  · exact ⟨fun j => by simp [Own.waits, hw], fun st hst hne => by cases hst; exact absurd rfl hne⟩
  · exact .waits rfl (by rw [hw])

theorem not_missesCache (h : r.major = .write) : ¬ ctx.missesCache t r = true := by
  unfold missesCache
  split
  · decide
  · simp [h]

theorem doIo_regular (hc : ctx.missesCache t r = true → e.child ≠ .returned .failed true)
    (h : ctx.doIo t e r = some o) : o.Regular DiskCtx.waiting ctx.waiting r.ptr := by
  unfold missesCache at hc
  unfold doIo at h
  split at h
  · cases h; exact .finish nofun rfl
  next baseLba n htarget =>
  rw [htarget] at hc
  dsimp only at h hc
  split_ifs at h with hw hhit
  · cases h; exact .finish nofun rfl
  · split at h
    · cases h
    · cases h; exact .finish nofun rfl
  · cases h
    have hmiss : (decide (r.major ≠ .write) && !(Disk.probe ctx.disk.ctx baseLba 0 n).1) = true := by
      simp [hw, hhit]
    exact childDispatched_regular rfl (hc hmiss)

end DiskCtx

theorem pciDispatchPnp_regular {t : Target} {e : Env} {r : Irp} {o : Outcome Unit}
    (h : pciDispatchPnp t e r = some o) : o.Regular (fun _ => []) [] r.ptr := by
  unfold pciDispatchPnp at h
  repeat' split at h
  all_goals cases h
  all_goals first
    | exact .finish nofun rfl
    | exact .unsupported rfl

/-- **One request of a driver.**  Its outcome is regular, unless it is one of the two reads. -/
theorem Driver.dispatch_regular {d : Driver} {t : Target} {e : Env} {r : Irp} {o : Outcome Driver}
    (hc : d.Careful t e r) (h : d.dispatch t e r = some o) : o.Regular Driver.held d.held r.ptr := by
  unfold dispatch at h
  split at h
  -- tty
  · cases h; exact (TtyCtx.dispatchPnp_regular _ _).map fun _ => rfl
  · cases h; exact Regular.map (.finish nofun rfl) fun c => (rfl : _ = irps c.pending)
  · cases h; exact Regular.map (.finish nofun rfl) fun c => (rfl : _ = irps c.pending)
  · cases h; exact (TtyCtx.dispatchRead_regular _ _ _).map fun _ => rfl
  · cases h; exact (TtyCtx.dispatchWrite_regular _ _ _).map fun _ => rfl
  · cases h; exact (TtyCtx.dispatchControl_regular _ _ _).map fun _ => rfl
  -- input
  · cases h; exact Regular.finish nofun rfl
  · cases h; exact Regular.finish nofun rfl
  · cases h; exact (InputCtx.dispatchPnp_regular _ _).map fun _ => rfl
  · next hmajor =>
    cases h; exact (InputCtx.dispatchRead_regular _ _ _ (hc hmajor)).map fun _ => rfl
  -- i8042
  · cases h; exact (I8042Ctx.dispatchPnp_regular _ _).map fun _ => rfl
  · cases h; exact (I8042Ctx.dispatchRead_regular _ _).map fun _ => rfl
  · cases h; exact (I8042Ctx.dispatchControl_regular _ _).map fun _ => rfl
  -- virt_blk
  · cases h; exact (VirtBlkCtx.dispatchPnp_regular _ _ _).map fun _ => rfl
  · cases h; exact (VirtBlkCtx.dispatchControl_regular _ _).map fun _ => rfl
  · cases h; exact (VirtBlkCtx.dispatchIo_regular _ _ _).map fun _ => rfl
  · cases h; exact (VirtBlkCtx.dispatchIo_regular _ _ _).map fun _ => rfl
  -- disk
  · cases h; exact Regular.finish nofun rfl
  · cases h; exact Regular.finish nofun rfl
  · obtain ⟨o, ho, rfl⟩ := Option.map_eq_some_iff.1 h
    exact (DiskCtx.dispatchPnp_regular ho).map fun _ => rfl
  · cases h; exact DiskCtx.dispatchControl_regular.map fun _ => rfl
  · next hmajor =>
    obtain ⟨o, ho, rfl⟩ := Option.map_eq_some_iff.1 h
    exact (DiskCtx.doIo_regular (hc hmajor) ho).map fun _ => rfl
  · next hmajor =>
    obtain ⟨o, ho, rfl⟩ := Option.map_eq_some_iff.1 h
    exact (DiskCtx.doIo_regular (fun hmiss => absurd hmiss (DiskCtx.not_missesCache hmajor)) ho).map fun _ => rfl
  -- pci
  · obtain ⟨o, ho, rfl⟩ := Option.map_eq_some_iff.1 h
    exact (pciDispatchPnp_regular ho).map fun _ => rfl
  · cases h; exact Regular.unsupported rfl

/-! ## Lists of IRPs -/

section
variable (irp : ℕ) (pending : List PendingEntry)

theorem irps_removePending : irps (removePending irp pending) = (irps pending).erase irp := by
  unfold irps removePending
  induction pending with
  | nil => rfl
  | cons e es ih =>
    by_cases h : e.irp = irp
    · simp [h]
    · simp [h, ih]

theorem perm_swapRemove : (swapRemove irp pending).Perm (removePending irp pending) := by
  unfold removePending
  induction pending with
  | nil => exact .refl _
  | cons e es ih =>
    by_cases h : e.irp = irp
    · rw [swapRemove, if_pos h, eraseP_cons_of_pos (by simpa using h)]
      split
      · next hlast => rw [getLast?_eq_none_iff.1 hlast]
      · next last hlast =>
        obtain ⟨front, rfl⟩ := getLast?_eq_some_iff.1 hlast
        rw [dropLast_concat]
        exact (perm_append_singleton last front).symm
    · rw [swapRemove, if_neg h, eraseP_cons_of_neg (by simpa using h)]
      exact ih.cons e

theorem irps_swapRemove : (irps (swapRemove irp pending)).Perm ((irps pending).erase irp) :=
  irps_removePending irp pending ▸ (perm_swapRemove irp pending).map _

end

theorem Driver.perm_remove (d : Driver) (irp : ℕ) : (d.remove irp).held.Perm (d.held.erase irp) := by
  cases d with
  | tty ctx => exact .of_eq (irps_removePending irp ctx.pending)
  | input ctx => exact irps_swapRemove irp ctx.pending
  | i8042 ctx => exact irps_swapRemove irp ctx.pending
  | virtBlk ctx => exact .refl _
  | disk ctx => exact .refl _
  | pci => exact .refl _

theorem satisfy_append {α : Type} {N : ℕ} (give : RingBuffer α N → ℕ → Option ℕ) :
    ∀ (pending : List PendingEntry) (ring : RingBuffer α N),
      (satisfy give ring pending).1 ++ irps (satisfy give ring pending).2.1 = irps pending
  | [], _ => rfl
  | e :: es, ring => by
    unfold satisfy
    split
    · rfl
    · next n _ => exact congrArg (e.irp :: ·) (satisfy_append give es (ring.advance n))

theorem TtyCtx.ttyInput_append (ctx : TtyCtx) (bytes : List UInt8) :
    (ctx.ttyInput bytes).2 ++ irps (ctx.ttyInput bytes).1.pending = irps ctx.pending := by
  unfold ttyInput
  split
  · rfl
  · split
    · rfl
    · exact satisfy_append _ _ _

theorem VirtBlkCtx.perm_virtblkDw : ∀ (used : List (ℕ × Bool)) (ctx : VirtBlkCtx),
    (((ctx.virtblkDw used).2.map fst) ++ (ctx.virtblkDw used).1.pending).Perm ctx.pending
  | [], _ => .refl _
  | (irp, ok) :: used, ctx => by
    unfold virtblkDw
    split
    · next hmem =>
      exact ((perm_virtblkDw used (ctx.releaseRequestResources irp)).cons irp).trans (perm_cons_erase hmem).symm
    · exact perm_virtblkDw used ctx

/-- **What an event does to the IRPs of a driver**: they stay, or one thread is to complete them. -/
theorem Driver.perm_event (d : Driver) (ev : Event) :
    ((d.event ev).2.1 ++ ((d.event ev).2.2.map fst ++ (d.event ev).1.held)).Perm d.held := by
  unfold event
  split
  · exact .of_eq (TtyCtx.ttyInput_append _ _)
  · exact .of_eq (satisfy_append _ _ _)
  · exact .refl _
  · exact .of_eq (satisfy_append _ _ _)
  · exact VirtBlkCtx.perm_virtblkDw _ _
  · split
    · next hmem => exact (perm_cons_erase hmem).symm
    · exact .refl _
  · exact .refl _
  · exact .refl _

/-! ## The invariant -/

/-- An IRP that is over and not `Pending` is completed once, and nobody is going to complete it again. -/
structure State.Settled (s : State) (irp : ℕ) : Prop where
  completions : (s.irp irp).completions = 1
  held : s.driver.held.count irp = 0
  completing : (s.completing.map fst).count irp = 0
  /-- Whoever has taken the IRP from the queue will find it cancelled. -/
  collected : irp ∈ s.collected → (s.irp irp).isCancelled = true
  cancelRoutine : (s.irp irp).cancelRoutine = false

structure State.Untouched (s : State) (irp : ℕ) : Prop where
  completions : (s.irp irp).completions = 0
  held : s.driver.held.count irp = 0
  completing : (s.completing.map fst).count irp = 0
  collected : irp ∉ s.collected
  cancelRoutine : (s.irp irp).cancelRoutine = false

/-- What holds of each IRP. -/
structure State.Inv (s : State) (irp : ℕ) : Prop where
  held : s.driver.held.count irp ≤ 1
  fresh : (s.irp irp).phase = .fresh → s.Untouched irp
  queued : (s.irp irp).phase = .queued → (s.irp irp).cancelRoutine = false
  returned : ∀ status, (s.irp irp).phase = .returned status → status ≠ .pending → s.Settled irp

namespace State
section
variable {s s' : State} {j irp : ℕ}

theorem Inv.init (d : Driver) (hd : d.held = []) : (init d).Inv j where
  held := by simp [State.init, hd]
  fresh _ := ⟨rfl, by simp [State.init, hd], rfl, not_mem_nil, rfl⟩
  queued h := by cases h
  returned _ h := by cases h

/-- An IRP that the step does not name: the driver may hand it to a thread that completes it. -/
theorem Inv.frame (h : s.Inv j) (hirp : s'.irp j = s.irp j) (hheld : s'.driver.held.count j ≤ s.driver.held.count j)
    (hcount : s'.driver.held.count j + (s'.completing.map fst).count j ≤
      s.driver.held.count j + (s.completing.map fst).count j)
    (hcol : s.driver.held.count j = 0 → j ∈ s'.collected → j ∈ s.collected) : s'.Inv j where
  held := hheld.trans h.held
  fresh hp := by
    rw [hirp] at hp
    have hu := h.fresh hp
    have h1 := hu.held
    have h2 := hu.completing
    exact ⟨hirp ▸ hu.completions, by omega, by omega, fun hmem => hu.collected (hcol h1 hmem),
      hirp ▸ hu.cancelRoutine⟩
  queued hp := by rw [hirp] at hp ⊢; exact h.queued hp
  returned st hp hne := by
    rw [hirp] at hp
    have hs := h.returned st hp hne
    have h1 := hs.held
    have h2 := hs.completing
    exact ⟨hirp ▸ hs.completions, by omega, by omega,
      fun hmem => hirp ▸ hs.collected (hcol h1 hmem), hirp ▸ hs.cancelRoutine⟩

theorem count_map_pair (irps : List ℕ) (st : Status) (j : ℕ) :
    ((irps.map fun i => (i, st)).map fst).count j = irps.count j := by
  rw [map_map]
  exact congrArg (List.count j) (map_id irps)

theorem Inv.dispatched (hall : ∀ j, s.Inv j) (hfresh : (s.irp irp).phase = .fresh) {o : Outcome Driver}
    (ho : o.Regular Driver.held s.driver.held irp) (j : ℕ) : (s.dispatched irp o).Inv j := by
  have hcount := ho.count_le j
  have hc : (((s.dispatched irp o).completing).map fst).count j =
      (s.completing.map fst).count j + o.failing.count j := by
    rw [State.dispatched, map_append, count_append, count_map_pair]
  by_cases hj : j = irp
  · subst hj
    have hu := (hall j).fresh hfresh
    have hown : (s.dispatched j o).irp j = o.own.irpState := update_self ..
    have h1 := hu.held
    have h2 := hu.completing
    refine ⟨?_, fun hp => ?_, fun hp => ?_, fun st hp hne => ?_⟩
    · change o.ctx.held.count j ≤ 1
      split_ifs at hcount <;> omega
    · rw [hown] at hp
      cases hown' : o.own <;> rw [hown'] at hp <;> cases hp
    · rw [hown]
      cases o.own <;> rfl
    rw [hown] at hp
    have hwaits : o.own.waits = false := by
      cases hown' : o.own with
      | returned completed status => rfl
      | queued => rw [hown'] at hp; cases hp
      | kept => rw [hown'] at hp; cases hp; exact absurd rfl hne
    rw [hwaits, if_neg (by simp)] at hcount
    refine ⟨hown ▸ ho.once st hp hne, ?_, by rw [hc]; omega, fun hmem => absurd hmem hu.collected, ?_⟩
    · change o.ctx.held.count j = 0
      omega
    · rw [hown]
      cases o.own <;> rfl
  · rw [if_neg fun h => hj h.2] at hcount
    refine (hall j).frame (update_of_ne hj ..) ?_ ?_ fun _ h => h
    · change o.ctx.held.count j ≤ _
      omega
    · rw [hc]
      change o.ctx.held.count j + _ ≤ _
      omega

theorem count_remove_of_ne (d : Driver) (h : j ≠ irp) : (d.remove irp).held.count j = d.held.count j := by
  rw [(d.perm_remove irp).count_eq, count_erase_of_ne h]

theorem count_remove_self (d : Driver) (h : d.held.count irp ≤ 1) : (d.remove irp).held.count irp = 0 := by
  rw [(d.perm_remove irp).count_eq, count_erase_self]
  omega

theorem Inv.setCancelRoutine (hall : ∀ j, s.Inv j) (hq : (s.irp irp).phase = .queued)
    (hc : (s.irp irp).isCancelled = true → (s.irp irp).completions = 0 ∧ irp ∉ s.completing.map
    fst) (hstep : s.setCancelRoutine irp = some s') (j : ℕ) : s'.Inv j := by
  have hroutine := (hall irp).queued hq
  unfold State.setCancelRoutine at hstep
  dsimp only at hstep
  rw [if_neg (by simp [hroutine])] at hstep
  split_ifs at hstep with hcan <;> cases hstep
  · obtain ⟨hzero, hnone⟩ := hc hcan
    by_cases hj : j = irp
    · subst hj
      have hheld := count_remove_self s.driver (hall j).held
      refine ⟨hheld.le.trans zero_le_one, fun hp => ?_, fun hp => ?_, fun st _ _ => ?_⟩
      · simp [setIrp] at hp
      · simp [setIrp] at hp
      · exact ⟨by simp [setIrp, hzero], hheld, count_eq_zero.2 hnone, fun _ => by simp [setIrp, hcan],
          by simp [setIrp, hroutine]⟩
    · refine (hall j).frame (update_of_ne hj ..) ?_ ?_ fun _ h => h
      · exact (count_remove_of_ne s.driver hj).le
      · exact (congrArg (· + _) (count_remove_of_ne s.driver hj)).le
  · by_cases hj : j = irp
    · subst hj
      refine ⟨(hall j).held, fun hp => ?_, fun hp => ?_, fun st hp hne => ?_⟩
      · simp [setIrp] at hp
      · simp [setIrp] at hp
      · simp only [setIrp, update_self] at hp
        cases hp
        exact absurd rfl hne
    · exact (hall j).frame (update_of_ne hj ..) le_rfl le_rfl fun _ h => h

theorem Inv.flag (h : s.Inv j) : (s.setIrp irp { s.irp irp with isCancelled := true }).Inv j := by
  by_cases hj : j = irp
  · subst hj
    refine ⟨h.held, fun hp => ?_, fun hp => ?_, fun st hp hne => ?_⟩
    all_goals simp only [setIrp, update_self] at hp
    · have hu := h.fresh hp
      exact ⟨by simp [setIrp, hu.completions], hu.held, hu.completing, hu.collected,
        by simp [setIrp, hu.cancelRoutine]⟩
    · simp [setIrp, h.queued hp]
    · have hs := h.returned st hp hne
      exact ⟨by simp [setIrp, hs.completions], hs.held, hs.completing, fun _ => by simp [setIrp],
        by simp [setIrp, hs.cancelRoutine]⟩
  · exact h.frame (update_of_ne hj ..) le_rfl le_rfl fun _ h => h

theorem Inv.phase_of_cancelRoutine (h : s.Inv irp) (hr : (s.irp irp).cancelRoutine = true) :
    (s.irp irp).phase = .returned .pending := by
  cases hp : (s.irp irp).phase with
  | fresh => exact absurd ((h.fresh hp).cancelRoutine.symm.trans hr) (by decide)
  | queued => exact absurd ((h.queued hp).symm.trans hr) (by decide)
  | returned st =>
    by_cases hst : st = .pending
    · rw [hst]
    · exact absurd ((h.returned st hp hst).cancelRoutine.symm.trans hr) (by decide)

theorem Inv.of_pending (hp : (s.irp j).phase = .returned .pending) (h : s.driver.held.count j ≤ 1) : s.Inv j where
  held := h
  fresh hf := by rw [hp] at hf; cases hf
  queued hq := by rw [hp] at hq; cases hq
  returned st hst hne := by rw [hp] at hst; cases hst; exact absurd rfl hne

theorem Inv.cancelIrp (hall : ∀ j, s.Inv j) (j : ℕ) : (s.cancelIrp irp).Inv j := by
  unfold State.cancelIrp
  dsimp only
  split_ifs with h
  · exact (hall j).flag
  by_cases hj : j = irp
  · subst hj
    have hr : (s.irp j).cancelRoutine = true := by
      simpa using (not_or.1 h).1
    exact .of_pending (by simpa [setIrp] using (hall j).phase_of_cancelRoutine hr)
      ((count_remove_self s.driver (hall j).held).le.trans zero_le_one)
  · refine (hall j).frame (update_of_ne hj ..) ?_ ?_ fun _ h => h
    · exact (count_remove_of_ne s.driver hj).le
    · have : List.count j [irp] = 0 := count_eq_zero.2 (by simpa using hj)
      simp only [map_append, count_append, count_remove_of_ne s.driver hj, map_cons,
        map_nil, this]
      omega

theorem Inv.event (h : s.Inv j) (ev : Event) : (s.event ev).Inv j := by
  have hperm := (s.driver.perm_event ev).count_eq j
  rw [count_append, count_append] at hperm
  have hcompleting : ((s.event ev).completing.map fst).count j =
      (s.completing.map fst).count j + ((s.driver.event ev).2.2.map fst).count j := by
    rw [← count_append, ← map_append]
    rfl
  have hheld : (s.event ev).driver.held.count j = (s.driver.event ev).1.held.count j := rfl
  refine h.frame rfl (by omega) (by omega) fun hzero hmem => ?_
  rcases mem_append.1 (show j ∈ s.collected ++ (s.driver.event ev).2.1 from hmem) with hmem | hmem
  · exact hmem
  · have := count_pos_iff.2 hmem
    omega

theorem Inv.startProcessing (hall : ∀ j, s.Inv j) (hmem : irp ∈ s.collected) (j : ℕ) :
    (s.startProcessing irp).Inv j := by
  unfold State.startProcessing
  dsimp only
  split_ifs with hcan
  · exact (hall j).frame rfl le_rfl le_rfl fun _ h => mem_of_mem_erase h
  by_cases hj : j = irp
  · subst hj
    -- an IRP that is over and not pending would be cancelled
    have h := hall j
    refine ⟨h.held, fun hp => ?_, fun hp => ?_, fun st hp hne => ?_⟩
    all_goals simp only [setIrp, update_self] at hp
    · exact absurd hmem (h.fresh hp).collected
    · simp [setIrp]
    · exact absurd ((h.returned st hp hne).collected hmem) hcan
  · refine (hall j).frame (update_of_ne hj ..) le_rfl ?_ fun _ h => mem_of_mem_erase h
    have : List.count j [irp] = 0 := count_eq_zero.2 (by simpa using hj)
    simp only [setIrp, map_append, count_append, map_cons, map_nil, this]
    omega

theorem Inv.complete (hall : ∀ j, s.Inv j) {st : Status} (hmem : (irp, st) ∈ s.completing) (j : ℕ) :
    (s.complete irp st).Inv j := by
  have hle : ∀ j, ((s.completing.erase (irp, st)).map fst).count j ≤ (s.completing.map fst).count j :=
    fun j => (erase_sublist.map fst).count_le j
  by_cases hj : j = irp
  · subst hj
    have hpos : 0 < (s.completing.map fst).count j :=
      count_pos_iff.2 (mem_map_of_mem hmem)
    have h := hall j
    refine ⟨h.held, fun hp => ?_, fun hp => ?_, fun st hp hne => ?_⟩
    all_goals simp only [State.complete, setIrp, update_self] at hp
    · exact absurd (h.fresh hp).completing hpos.ne'
    · simp [State.complete, setIrp, h.queued hp]
    · exact absurd (h.returned st hp hne).completing hpos.ne'
  · exact (hall j).frame (update_of_ne hj ..) le_rfl (Nat.add_le_add_left (hle j) _) fun _ h => h

theorem Inv.step (hall : ∀ j, s.Inv j) {a : Action} (hen : s.Enabled a) (hc : s.Careful a)
    (hstep : s.step a = some s') (j : ℕ) : s'.Inv j := by
  cases a with
  | request t e r =>
    simp only [State.step, State.request] at hstep
    split_ifs at hstep
    · obtain ⟨o, ho, rfl⟩ := Option.map_eq_some_iff.1 hstep
      exact Inv.dispatched hall hen (Driver.dispatch_regular hc ho) j
    · cases hstep; exact hall j
  | setCancelRoutine irp => exact Inv.setCancelRoutine hall hen hc hstep j
  | cancel irp => cases hstep; exact Inv.cancelIrp hall j
  | event ev => cases hstep; exact (hall j).event ev
  | startProcessing irp => cases hstep; exact Inv.startProcessing hall hen j
  | complete irp st => cases hstep; exact Inv.complete hall hen j

end

/-- **Every IRP is completed once**, without the two reads and without a queued read whose cancelled IRP another
thread completes. -/
theorem exec_completed_once {d : Driver} {as : List Action} {s : State} (hd : d.held = [])
    (ok : Along State.step (fun s a => s.Enabled a ∧ s.Careful a) (init d) as)
    (h : exec State.step (init d) as = some s) : s.CompletedOnce := by
  have hall : ∀ j, s.Inv j :=
    exec_induction (fun s a s' hs hok hstep => Inv.step hs hok.1 hok.2 hstep) (fun _ => Inv.init d hd) ok h
  intro irp st hp hne
  exact ((hall irp).returned st hp hne).completions

def willing : Env where
  procs := ⟨some 1, fun _ => 0, fun _ => 0, fun _ => false, fun _ _ => false, fun _ => false,
    fun _ _ => false, fun _ _ => false⟩
  virtStart := some 8
  mapped := true
  physical := true
  child := .pending
  diskInfo := some (SECTOR_SIZE, 64)
  gptWritten := true
  afterGpt := ⟨⟨false, 64, ∅, 0⟩, fun _ => []⟩
  segment := 0

def port : Target := ⟨3, .started, false, false, .raw, false⟩

def readIrp (ptr : ℕ) : Irp := ⟨ptr, .read, .none, 4096, 512, 0, 0, 0, fun _ => []⟩

def stopIrp (ptr : ℕ) : Irp := { readIrp ptr with major := .pnp, minor := .stop }

def tty : Driver := .tty ⟨.new 0, [], 1, true, TTY_MODE_CANON, 0, 0⟩

/-- A queued read is killed before it has set its cancel routine, and completes its IRP. -/
theorem exec_completed_once_killedRead : ∃ s : State, exec State.step (init tty) [.request port willing (readIrp 0),
    .cancel 0, .setCancelRoutine 0] = some s ∧ (s.irp 0).phase = .returned .cancelled ∧ s.CompletedOnce := by
  obtain ⟨s, hs, hphase⟩ : ∃ s : State, exec State.step (init tty)
        [.request port willing (readIrp 0), .cancel 0, .setCancelRoutine 0] = some s ∧
      (s.irp 0).phase = .returned .cancelled := ⟨_, rfl, rfl⟩
  refine ⟨s, hs, hphase, exec_completed_once rfl ?_ hs⟩
  refine .cons ⟨rfl, trivial⟩ rfl (.cons ⟨show Phase.queued ≠ _ by decide, trivial⟩ rfl
    (.cons ⟨rfl, fun _ => ?_⟩ rfl trivial))
  exact ⟨rfl, not_mem_nil⟩

/-- A read of `kbd0`: the input driver completes the IRP and returns `Unsupported`, and the manager completes it
again. -/
theorem foreign_read_completed_twice : ∃ s : State,
    exec State.step (init (.input ⟨⟨.replicate _ ⟨0, 0, 0, 0⟩, 0, 0, by decide, by decide⟩,
      ⟨.replicate _ 0, 0, 0, by decide, by decide⟩, [], 2⟩))
      [.request port willing (readIrp 0)] = some s ∧
    (s.irp 0).phase = .returned .unsupported ∧ (s.irp 0).completions = 2 :=
  ⟨_, rfl, rfl, rfl⟩

-- The read is killed, and the tty is stopped before the read goes on.
example : ∃ s : State, exec State.step (init tty)
      [.request port willing (readIrp 0), .cancel 0, .request { port with state := .stopping } willing (stopIrp 1),
        .complete 0 .failed, .setCancelRoutine 0] = some s ∧
    (s.irp 0).phase = .returned .cancelled ∧ (s.irp 0).completions = 2 :=
  ⟨_, rfl, rfl, rfl⟩

-- The device below has no room for the read of a disk.
example : ∃ s : State, exec State.step (init (.disk ⟨willing.afterGpt, []⟩))
      [.request port { willing with child := .returned .failed true } (readIrp 0)] = some s ∧
    (s.irp 0).phase = .returned .failed ∧ (s.irp 0).completions = 2 :=
  ⟨_, rfl, rfl, rfl⟩

end State
end Archis.Io.Drivers

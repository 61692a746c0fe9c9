/-
  Stopping and removing the virtio block device (`drivers/virt_blk`), with the remove lock that counts the users of
  its context.

  `do_stop` does not wait for the workers, and one that was queued dereferences the released ring
  (`worker_reads_released_ring`).  When no worker is queued at a teardown, nothing that was released is touched
  (`exec_untouched`).
-/
import Archis.Lib.Run

namespace Archis.Io

open Lib (exec Along exec_induction)

/-- The word of a remove lock: the references in its low bits, and the top bit. -/
structure RemoveLock where
  refs : ℕ
  removing : Bool
  deriving DecidableEq

namespace RemoveLock

def acquire (l : RemoveLock) : Bool × RemoveLock :=
  if l.removing then (false, l) else (true, { l with refs := l.refs + 1 })

/-- Gives a reference back, and says whether the caller has to free; no value is a failed assertion. -/
def release (l : RemoveLock) : Option (Bool × RemoveLock) :=
  if l.refs = 0 then none
  else some (l.removing && l.refs = 1, { l with refs := l.refs - 1 })

def beginRemove (l : RemoveLock) : Bool × RemoveLock := (l.refs = 0, { l with removing := true })

end RemoveLock

namespace VirtBlk

/-- The interrupt routine `virtblk_isr`; it runs with the table of handlers locked. -/
inductive IsrPc where
  | idle
  /-- It has its reference. -/
  | acquired
  /-- It has read `isr_cfg`. -/
  | acknowledged
  deriving DecidableEq

/-- How far the device is between its start, `do_stop` and `do_remove`. -/
inductive Phase where
  | stopped
  | started
  /-- `do_stop` has reset the device. -/
  | reset
  /-- The handler is taken away. -/
  | silenced
  /-- The pending requests have failed. -/
  | failed
  /-- `do_remove` has released what was left. -/
  | tornDown
  | removed
  deriving DecidableEq

structure VirtBlkCtx where
  removeLock : RemoveLock
  /-- The rings, pools and MMIO windows are there. -/
  mapped : Bool
  /-- The interrupt handler is installed. -/
  installed : Bool
  phase : Phase
  isr : IsrPc
  /-- Workers that have not read the used ring. -/
  queued : ℕ
  /-- Workers that have, and still hold their reference. -/
  finishing : ℕ
  frees : ℕ
  /-- A pointer was dereferenced after its release. -/
  wild : Bool
  /-- The context was used after it was freed. -/
  dangling : Bool

inductive Action where
  | start (success : Bool)
  /-- An interrupt arrives. -/
  | interrupt
  /-- `virtblk_isr` reads `isr_cfg`. -/
  | acknowledge
  /-- `virtblk_isr` queues its worker, or fails to. -/
  | createWorker (success : Bool)
  /-- `virtblk_dw` reads the used ring and the status pool. -/
  | work
  /-- `virtblk_dw` gives its reference back. -/
  | finish
  | reset
  | removeHandler
  | failPending
  /-- `teardown_resources` in `do_stop`. -/
  | teardown
  /-- `teardown_resources` in `do_remove`. -/
  | removeTeardown
  | beginRemove
  deriving DecidableEq

namespace VirtBlkCtx

/-! ## The code -/

section
variable (c : VirtBlkCtx)

def touch : VirtBlkCtx := { c with dangling := c.dangling || c.frees ≠ 0 }

def deref : VirtBlkCtx := { c.touch with wild := c.wild || !c.mapped }

/-- `remove_lock.release()`, and the free that may follow it. -/
def release (c : VirtBlkCtx) : Option VirtBlkCtx :=
  c.removeLock.release.map fun (last, lock) =>
    { c.touch with removeLock := lock, frees := if last then c.frees + 1 else c.frees }

def step : Action → Option VirtBlkCtx
  | .start success => some (if success then
      { c.touch with mapped := true, installed := true, phase := .started } else c.touch)
  | .interrupt =>
    match c.removeLock.acquire with
    | (false, _) => some c.touch
    | (true, lock) => some { c.touch with removeLock := lock, isr := .acquired }
  | .acknowledge => some { c.deref with isr := .acknowledged }
  | .createWorker success =>
    if success then some { c with isr := .idle, queued := c.queued + 1 }
    else { c with isr := .idle }.release
  | .work => some { c.deref with queued := c.queued - 1, finishing := c.finishing + 1 }
  | .finish => { c with finishing := c.finishing - 1 }.release
  -- guarded by a null check
  | .reset => some { (if c.mapped then c.deref else c.touch) with phase := .reset }
  | .removeHandler => some { c.touch with installed := false, phase := .silenced }
  | .failPending => some { c.deref with phase := .failed }
  | .teardown => some { c.touch with mapped := false, phase := .stopped }
  | .removeTeardown => some { c.touch with mapped := false, phase := .tornDown }
  | .beginRemove =>
    let (last, lock) := c.removeLock.beginRemove
    some { c.touch with
      removeLock := lock
      frees := if last then c.frees + 1 else c.frees
      phase := .removed }

/-- After `dispatch_add`. -/
def zeroed : VirtBlkCtx where
  removeLock := ⟨0, false⟩
  mapped := false
  installed := false
  phase := .stopped
  isr := .idle
  queued := 0
  finishing := 0
  frees := 0
  wild := false
  dangling := false

/-- The step can be taken: start and remove only when stopped, and interrupts only while the routine is
installed. -/
def Enabled : Action → Prop
  | .start _ => c.phase = .stopped
  | .interrupt => c.installed = true ∧ c.isr = .idle
  | .acknowledge => c.isr = .acquired
  | .createWorker _ => c.isr = .acknowledged
  | .work => 0 < c.queued
  | .finish => 0 < c.finishing
  | .reset => c.phase = .started
  | .removeHandler => c.phase = .reset ∧ c.isr = .idle
  | .failPending => c.phase = .silenced
  | .teardown => c.phase = .failed
  | .removeTeardown => c.phase = .stopped
  | .beginRemove => c.phase = .tornDown

instance : (a : Action) → Decidable (c.Enabled a)
  | .start _ | .acknowledge | .createWorker _ | .reset | .failPending | .teardown | .removeTeardown
  | .beginRemove => inferInstanceAs (Decidable (_ = _))
  | .interrupt | .removeHandler => inferInstanceAs (Decidable (_ ∧ _))
  | .work | .finish => inferInstanceAs (Decidable (_ < _))

/-! ## References -/

def IsrPc.refs : IsrPc → ℕ
  | .idle => 0
  | .acquired | .acknowledged => 1

/-- **The context is counted**: each user holds a reference, and it is free when it is removed and unused. -/
structure Counted (c : VirtBlkCtx) : Prop where
  refs : c.removeLock.refs = c.queued + c.finishing + IsrPc.refs c.isr
  frees : c.frees = if c.removeLock.removing ∧ c.removeLock.refs = 0 then 1 else 0
  removing : c.removeLock.removing = true ↔ c.phase = .removed
  /-- The handler is there from the start of the device to the middle of `do_stop`. -/
  installed : c.installed = true ↔ c.phase = .started ∨ c.phase = .reset
  isr : c.isr ≠ .idle → c.installed = true
  mapped : c.phase = .started ∨ c.phase = .reset ∨ c.phase = .silenced ∨ c.phase = .failed → c.mapped = true
  dangling : c.dangling = false

/-- No released pointer is dereferenced, and the context is freed once and not used afterwards. -/
def Sound : Prop :=
  c.wild = false ∧ c.dangling = false ∧ c.frees ≤ 1 ∧ (c.phase = .removed → c.removeLock.refs = 0 → c.frees = 1)

def NoWorkerQueued : Action → Prop
  | .teardown | .removeTeardown => c.queued = 0
  | _ => True

instance : (a : Action) → Decidable (c.NoWorkerQueued a)
  | .teardown | .removeTeardown => inferInstanceAs (Decidable (_ = _))
  | .start _ | .interrupt | .acknowledge | .createWorker _ | .work | .finish | .reset
  | .removeHandler | .failPending | .beginRemove => inferInstanceAs (Decidable True)

end

section
variable {c c' : VirtBlkCtx} {a : Action}

theorem Counted.touch (h : Counted c) (hu : c.removeLock.refs ≠ 0 ∨ c.phase ≠ .removed) : c.touch = c := by
  have h0 : c.frees = 0 := by
    rw [h.frees, if_neg]
    rintro ⟨hr, hz⟩
    exact hu.elim (· hz) (· (h.removing.1 hr))
  have hd : (c.dangling || decide (c.frees ≠ 0)) = c.dangling := by simp [h0]
  rw [VirtBlkCtx.touch, hd]

theorem Counted.deref (h : Counted c) (hu : c.removeLock.refs ≠ 0 ∨ c.phase ≠ .removed)
    (hm : c.mapped = true) : c.deref = c := by
  have hw : (c.wild || !c.mapped) = c.wild := by simp [hm]
  rw [VirtBlkCtx.deref, h.touch hu, hw]

structure Inv (c : VirtBlkCtx) : Prop extends Counted c where
  wild : c.wild = false
  queued : c.mapped = false → c.queued = 0

theorem Inv.sound (h : Inv c) : c.Sound := by
  refine ⟨h.wild, h.dangling, ?_, fun hp hz => ?_⟩
  · rw [h.frees]
    split_ifs <;> omega
  · rw [h.frees, if_pos ⟨h.removing.2 hp, hz⟩]

theorem Inv.release (h : Inv c) {isr : IsrPc} {queued finishing : ℕ}
    (hrefs : c.removeLock.refs = queued + finishing + IsrPc.refs isr + 1) (hisr : isr ≠ .idle → c.installed = true)
    (hq : c.mapped = false → queued = 0)
    (hstep : { c with isr := isr, queued := queued, finishing := finishing }.release = some c') : Inv c' := by
  have hne : c.removeLock.refs ≠ 0 := by omega
  have h0 : c.frees = 0 := by rw [h.frees, if_neg fun h' => hne h'.2]
  have h1 : c.removeLock.refs - 1 = 0 ↔ c.removeLock.refs = 1 := by omega
  unfold VirtBlkCtx.release RemoveLock.release at hstep
  rw [if_neg hne, Option.map_some, Option.some.injEq] at hstep
  subst hstep
  exact { h with
    refs := by simp only [VirtBlkCtx.touch]; omega
    frees := by simp [h0, h1]
    isr := hisr
    dangling := by simp [VirtBlkCtx.touch, h0, h.dangling]
    queued := hq }

/-- **A step keeps the context counted, and the rings to their users.** -/
theorem Inv.step (h : Inv c) (ha : c.Enabled a) (hq : c.NoWorkerQueued a) (hstep : c.step a = some c') : Inv c' := by
  have hc := h.toCounted
  have hrefs := h.refs
  -- the phases before the removal
  have before : ∀ {ph : Phase}, c.phase = ph → ph ≠ .removed →
      c.touch = c ∧ c.removeLock.removing = false ∧ c.frees = 0 := by
    intro ph hph hne
    have hnr : c.removeLock.removing = false := by
      rw [← Bool.not_eq_true, h.removing, hph]
      exact hne
    exact ⟨hc.touch (Or.inr (hph ▸ hne)), hnr, by rw [h.frees, hnr]; simp⟩
  -- while the interrupt routine runs, the rings are there
  have busy : c.isr ≠ .idle → c.installed = true ∧ c.mapped = true := fun hne =>
    ⟨h.isr hne, h.mapped ((h.installed.1 (h.isr hne)).imp id Or.inl)⟩
  cases a with
  | start success =>
    obtain ⟨htouch, hnr, h0⟩ := before ha (by decide)
    cases hstep
    rw [htouch]
    split_ifs
    · exact { h with
        removing := by simp [hnr], installed := by simp, isr := fun _ => rfl, mapped := fun _ => rfl, queued := nofun }
    · exact h
  | interrupt =>
    obtain ⟨hin, hidle⟩ := ha
    obtain ⟨htouch, hnr, h0⟩ : c.touch = c ∧ c.removeLock.removing = false ∧ c.frees = 0 := by
      rcases h.installed.1 hin with hph | hph <;> exact before hph (by decide)
    simp only [VirtBlkCtx.step, RemoveLock.acquire, hnr, Bool.false_eq_true, if_false, htouch] at hstep
    cases hstep
    rw [hidle] at hrefs
    exact { h with
      refs := by simp only [IsrPc.refs] at hrefs ⊢; omega
      frees := by simp [h0]
      removing := by simpa [hnr] using h.removing
      isr := fun _ => hin }
  | acknowledge =>
    have hpc : c.isr = .acquired := ha
    obtain ⟨hin, hm⟩ := busy (by rw [hpc]; decide)
    rw [hpc] at hrefs
    cases hstep
    rw [hc.deref (Or.inl (by rw [hrefs]; exact Nat.succ_ne_zero _)) hm]
    exact { h with refs := hrefs, isr := fun _ => hin }
  | createWorker success =>
    have hpc : c.isr = .acknowledged := ha
    obtain ⟨hin, hm⟩ := busy (by rw [hpc]; decide)
    rw [hpc, IsrPc.refs] at hrefs
    simp only [VirtBlkCtx.step] at hstep
    cases success
    · exact h.release hrefs (fun hne => absurd rfl hne) h.queued hstep
    cases hstep
    exact { h with
      refs := by simp only [IsrPc.refs]; omega
      isr := fun hne => absurd rfl hne
      queued := fun hf => absurd (hm.symm.trans hf) (by decide) }
  | work =>
    have hpos : 0 < c.queued := ha
    have hm : c.mapped = true := by
      by_contra hm
      have := h.queued (Bool.eq_false_of_not_eq_true hm)
      omega
    cases hstep
    rw [hc.deref (Or.inl (by omega)) hm]
    exact { h with refs := by dsimp only; omega, queued := fun hf => absurd (hm.symm.trans hf) (by decide) }
  | finish =>
    have hpos : 0 < c.finishing := ha
    exact h.release (by omega) h.isr h.queued hstep
  | reset =>
    have hph : c.phase = .started := ha
    have hm := h.mapped (Or.inl hph)
    have hin := h.installed.2 (Or.inl hph)
    cases hstep
    rw [if_pos hm, hc.deref (Or.inr (by rw [hph]; decide)) hm]
    exact { h with
      removing := by simpa [hph] using h.removing, installed := by simpa using hin, mapped := fun _ => hm }
  | removeHandler =>
    obtain ⟨hph, hidle⟩ := ha
    have hm := h.mapped (Or.inr (Or.inl hph))
    cases hstep
    rw [(before hph (by decide)).1]
    exact { h with
      removing := by simpa [hph] using h.removing
      installed := by simp
      isr := fun hne => absurd hidle hne
      mapped := fun _ => hm }
  | failPending =>
    have hph : c.phase = .silenced := ha
    have hm := h.mapped (Or.inr (Or.inr (Or.inl hph)))
    cases hstep
    rw [hc.deref (Or.inr (by rw [hph]; decide)) hm]
    exact { h with
      removing := by simpa [hph] using h.removing
      installed := by simpa [hph] using h.installed
      mapped := fun _ => hm }
  | teardown | removeTeardown =>
    have hph : c.phase = _ := ha
    cases hstep
    rw [(before hph (by decide)).1]
    exact { h with
      removing := by simpa [hph] using h.removing
      installed := by simpa [hph] using h.installed
      mapped := by simp
      queued := fun _ => hq }
  | beginRemove =>
    have hph : c.phase = .tornDown := ha
    obtain ⟨htouch, hnr, h0⟩ := before hph (by decide)
    simp only [VirtBlkCtx.step, RemoveLock.beginRemove, htouch] at hstep
    cases hstep
    exact { h with
      frees := by simp [h0], removing := by simp, installed := by simpa [hph] using h.installed, mapped := by simp }

end

theorem inv_zeroed : Inv zeroed :=
  ⟨⟨rfl, rfl, by simp [zeroed], by simp [zeroed], fun hne => absurd rfl hne, by simp [zeroed], rfl⟩, rfl,
    fun _ => rfl⟩

/-- **Nothing that was released is touched, and the context is freed once**, if no worker is queued at the
release. -/
theorem exec_untouched {as : List Action} {c : VirtBlkCtx}
    (has : Along step (fun c a => c.Enabled a ∧ c.NoWorkerQueued a) zeroed as)
    (hrun : exec step zeroed as = some c) : c.Sound :=
  (exec_induction (fun _ _ _ h ha hstep => Inv.step h ha.1 ha.2 hstep) inv_zeroed has hrun).sound

/-- A worker has read the ring when the device is stopped, and gives its reference back after the removal. -/
def workThenRemove : List Action :=
  [.start true, .interrupt, .acknowledge, .createWorker true, .work, .reset, .removeHandler,
    .failPending, .teardown, .removeTeardown, .beginRemove, .finish]

theorem exec_untouched_workThenRemove : ∃ c, exec step zeroed workThenRemove = some c ∧
    c.phase = .removed ∧ c.frees = 1 ∧ c.Sound := by
  obtain ⟨c, hc, hp, hf⟩ : ∃ c, exec step zeroed workThenRemove = some c ∧ c.phase = .removed ∧
      c.frees = 1 := ⟨_, rfl, rfl, rfl⟩
  exact ⟨c, hc, hp, hf, exec_untouched (by decide) hc⟩

/-- **A released ring is read.**  The worker was queued by an interrupt before the stop, and runs after
    it. -/
theorem worker_reads_released_ring : ∃ c, exec step zeroed
      [.start true, .interrupt, .acknowledge, .createWorker true, .reset, .removeHandler,
        .failPending, .teardown, .work] = some c ∧ c.mapped = false ∧ c.wild = true ∧ ¬ c.Sound :=
  ⟨_, rfl, rfl, rfl, fun h => nomatch h.1⟩

end VirtBlkCtx

end VirtBlk

end Archis.Io

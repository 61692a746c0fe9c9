/-
  Stopping the file system: `FsOpGuard` and `stop_fs` of `fs/mod.rs`, with every atomic access a step.

  The last operation to leave signals the event that `stop_fs` waits on, also when nobody waits: the signal is still
  there for `stop_fs`, which returns while an operation runs (`stale_signal_returns`).  It waits for all of them if there
  is no such signal when it finds the counter above zero (`exec_drained`).
-/
import Archis.Lib.Census
import Archis.Lib.Run

namespace Archis.Fs.Stop

open Lib (exec Along exec_induction census census_update le_census eq_of_census_le_one)
open Function (update update_self update_of_ne)

/-- Where an operation is. -/
inductive Pc where
  | out
  /-- In `enter`, after the increment. -/
  | counted
  | inside
  /-- In `enter`, which has found that the file system is stopped. -/
  | refused
  /-- In `leave`, after the decrement to zero. -/
  | signalling
  deriving DecidableEq

def Pc.weight : Pc → ℕ
  | .out | .signalling => 0
  | .counted | .inside | .refused => 1

/-- Where the call of `stop_fs` is. -/
inductive Stopper where
  | idle
  | stored
  /-- It has found the counter above zero. -/
  | waiting
  | blocked
  | returned
  deriving DecidableEq

structure State (ι : Type) where
  stopFs : Bool
  fsOpCount : ℕ
  /-- The auto-reset event is signalled. -/
  fsStopEvent : Bool
  pc : ι → Pc
  stopper : Stopper

inductive Action (ι : Type) where
  | enter (t : ι)
  /-- `enter` reads the flag. -/
  | check (t : ι)
  | leave (t : ι)
  | signal (t : ι)
  | store
  | load
  /-- `wait`, which fails instead of blocking for a thread that is killed. -/
  | wait (killed : Bool)

namespace State
variable {ι : Type} [DecidableEq ι]

def init : State ι := ⟨false, 0, false, fun _ => .out, .idle⟩

def step (s : State ι) : Action ι → Option (State ι)
  | .enter t =>
    if s.pc t = .out then some { s with fsOpCount := s.fsOpCount + 1, pc := update s.pc t .counted } else none
  | .check t =>
    if s.pc t = .counted then some { s with pc := update s.pc t (if s.stopFs then .refused else .inside) } else none
  | .leave t =>
    if s.pc t = .inside ∨ s.pc t = .refused then some { s with
      fsOpCount := s.fsOpCount - 1
      pc := update s.pc t (if s.fsOpCount = 1 then .signalling else .out) }
    else none
  | .signal t =>
    if s.pc t = .signalling then
      -- a waiting thread is woken, and otherwise the event stays signalled
      some { s with
        pc := update s.pc t .out
        fsStopEvent := s.fsStopEvent || s.stopper ≠ .blocked
        stopper := if s.stopper = .blocked then .returned else s.stopper }
    else none
  | .store => if s.stopper = .idle then some { s with stopFs := true, stopper := .stored } else none
  | .load =>
    if s.stopper = .stored then some { s with stopper := if s.fsOpCount = 0 then .returned else .waiting } else none
  | .wait killed =>
    if s.stopper = .waiting then some { s with
      fsStopEvent := false
      stopper := if s.fsStopEvent || killed then .returned else .blocked }
    else none

/-- No operation is between its `enter` and the drop of its guard. -/
def Drained (s : State ι) : Prop := ∀ t, s.pc t ≠ .inside

/-- No signal is there or on its way when `stop_fs` finds the counter above zero, and its thread is not killed. -/
def Careful (s : State ι) : Action ι → Prop
  | .load => s.fsOpCount ≠ 0 → s.fsStopEvent = false ∧ ∀ t, s.pc t ≠ .signalling
  | .wait killed => killed = false
  | _ => True

structure Inv [Fintype ι] (s : State ι) : Prop where
  count : s.fsOpCount = census Pc.weight s.pc
  stopFs : s.stopper ≠ .idle → s.stopFs = true
  /-- The signals that the call waits for are those of a counter that came down to zero after the flag was set. -/
  signal : s.stopper = .waiting ∨ s.stopper = .blocked →
    s.fsStopEvent = true ∨ (∃ t, s.pc t = .signalling) → s.Drained
  returned : s.stopper = .returned → s.Drained

theorem Drained.update {s : State ι} (h : s.Drained) (t : ι) {p : Pc} (hp : p ≠ .inside) (u : ι) :
    update s.pc t p u ≠ .inside := by
  rcases eq_or_ne u t with rfl | hu
  · rwa [update_self]
  · rw [update_of_ne hu]
    exact h u

theorem signalling_of_update {pc : ι → Pc} {t : ι} {p : Pc} (hp : p ≠ .signalling)
    (h : ∃ u, update pc t p u = .signalling) : ∃ u, pc u = .signalling := by
  obtain ⟨u, hu⟩ := h
  rcases eq_or_ne u t with rfl | hne
  · exact absurd (by rwa [update_self] at hu) hp
  · exact ⟨u, by rwa [update_of_ne hne] at hu⟩

section
variable [Fintype ι] {s s' : State ι}

theorem Inv.move (h : s.Inv) {t : ι} {p : Pc} {n : ℕ} (hin : p ≠ .inside) (hsig : p ≠ .signalling)
    (hn : n + (s.pc t).weight = s.fsOpCount + p.weight) : { s with fsOpCount := n, pc := update s.pc t p }.Inv where
  count := by
    have := census_update Pc.weight s.pc t p
    rw [h.count] at hn
    dsimp only
    omega
  stopFs := h.stopFs
  signal hw hs := (h.signal hw (hs.imp id (signalling_of_update hsig))).update t hin
  returned hr := (h.returned hr).update t hin

theorem Inv.step (h : s.Inv) {a : Action ι} (ha : s.Careful a) (hstep : s.step a = some s') : s'.Inv := by
  cases a with simp only [State.step] at hstep
  | enter t =>
    split_ifs at hstep with hpc
    cases hstep
    exact h.move nofun nofun (by rw [hpc]; rfl)
  | check t =>
    split_ifs at hstep with hpc hflag <;> cases hstep
    · exact h.move nofun nofun (by rw [hpc]; rfl)
    -- the flag is not set, so that `stop_fs` has not begun
    have hidle : s.stopper = .idle := not_not.1 fun hne => hflag (h.stopFs hne)
    have hcount := census_update Pc.weight s.pc t .inside
    rw [hpc] at hcount
    exact ⟨h.count.trans (Nat.add_right_cancel hcount).symm, h.stopFs, by simp [hidle], by simp [hidle]⟩
  | leave t =>
    split_ifs at hstep with hpc hone <;> cases hstep
    all_goals have hw : (s.pc t).weight = 1 := by rcases hpc with hpc | hpc <;> rw [hpc] <;> rfl
    · -- nobody else is in the counter
      have hd : ∀ u, update s.pc t Pc.signalling u ≠ .inside := fun u => by
        rcases eq_or_ne u t with rfl | hu
        · rw [update_self]; nofun
        · rw [update_of_ne hu]
          intro hin
          have hle : census Pc.weight s.pc ≤ 1 := (h.count.symm.trans hone).le
          exact hu (eq_of_census_le_one hle (by omega) (by rw [hin]; exact Nat.one_pos))
      refine ⟨?_, h.stopFs, fun _ _ => hd, fun _ => hd⟩
      have hcount := census_update Pc.weight s.pc t .signalling
      rw [hw, ← h.count, hone] at hcount
      rw [hone]
      exact (Nat.add_right_cancel hcount).symm
    · have hle := le_census Pc.weight s.pc t
      rw [hw, ← h.count] at hle
      exact h.move nofun nofun (by rw [hw]; exact Nat.sub_add_cancel hle)
  | signal t =>
    split_ifs at hstep with hpc hb
    all_goals
      cases hstep
      have hm := h.move (t := t) (p := .out) (n := s.fsOpCount) nofun nofun (by rw [hpc]; rfl)
      have hd := fun hw => (h.signal hw (.inr ⟨t, hpc⟩)).update t (p := .out) nofun
    · exact ⟨hm.count, fun _ => h.stopFs (by rw [hb]; nofun), by simp, fun _ => hd (.inr hb)⟩
    · exact ⟨hm.count, h.stopFs, fun hw _ => hd hw, hm.returned⟩
  | store =>
    split_ifs at hstep with hpc
    cases hstep
    exact ⟨h.count, fun _ => rfl, by simp, by simp⟩
  | load =>
    split_ifs at hstep with hpc hzero
    all_goals
      cases hstep
      have hstop := h.stopFs (by rw [hpc]; nofun)
    · refine ⟨h.count, fun _ => hstop, by simp, fun _ t hin => ?_⟩
      have hle := le_census Pc.weight s.pc t
      rw [← h.count, hzero, hin] at hle
      exact absurd hle (by decide)
    · obtain ⟨hevent, hnone⟩ := ha hzero
      refine ⟨h.count, fun _ => hstop, fun _ hs => ?_, by simp⟩
      rcases hs with hs | ⟨t, ht⟩
      · exact absurd (hevent.symm.trans hs) (by decide)
      · exact absurd ht (hnone t)
  | wait killed =>
    obtain rfl : killed = false := ha
    simp only [Bool.or_false] at hstep
    split_ifs at hstep with hpc hevent
    all_goals
      cases hstep
      have hstop := h.stopFs (by rw [hpc]; nofun)
    · exact ⟨h.count, fun _ => hstop, by simp, fun _ => h.signal (.inl hpc) (.inl hevent)⟩
    · exact ⟨h.count, fun _ => hstop, fun _ hs => h.signal (.inl hpc) (hs.imp nofun id), by simp⟩

/-- **`stop_fs` waits for the running operations**: when it has returned, no operation is inside, now or later. -/
theorem exec_drained {as : List (Action ι)} (ok : Along step Careful init as) (hrun : exec step init as = some s)
    (hret : s.stopper = .returned) : s.Drained := by
  have hinit : (init : State ι).Inv := ⟨by simp [init, census, Pc.weight], by simp [init], by simp [init], by simp [init]⟩
  exact (exec_induction (fun _ _ _ h ha hstep => Inv.step h ha hstep) hinit ok hrun).returned hret

end

instance [Fintype ι] (s : State ι) : (a : Action ι) → Decidable (s.Careful a)
  | .load => inferInstanceAs (Decidable (_ → _ ∧ ∀ _, _))
  | .wait _ => inferInstanceAs (Decidable (_ = _))
  | .enter _ | .check _ | .leave _ | .signal _ | .store => inferInstanceAs (Decidable True)

theorem exec_drained_one : ∃ s : State Unit, exec step init [.enter (), .check (), .store, .load, .wait false,
    .leave (), .signal ()] = some s ∧ s.stopper = .returned ∧ s.Drained := by
  obtain ⟨s, hs, hret⟩ : ∃ s : State Unit, exec step init [.enter (), .check (), .store, .load, .wait false,
    .leave (), .signal ()] = some s ∧ s.stopper = .returned := ⟨_, rfl, rfl⟩
  exact ⟨s, hs, hret, exec_drained (by decide) hs hret⟩

/-- **`stop_fs` returns while an operation runs**: an operation that ended before has left its signal. -/
theorem stale_signal_returns : ∃ s : State Bool, exec step init [.enter true, .check true, .leave true, .signal true,
    .enter false, .check false, .store, .load, .wait false] = some s ∧ s.stopper = .returned ∧ ¬ s.Drained :=
  ⟨_, rfl, rfl, fun h => h false rfl⟩

end State

end Archis.Fs.Stop

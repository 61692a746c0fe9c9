/-
  Guards: a semaphore created as (1, 1) that threads enter with `semaphore_guard` or `sync_wait_semaphore_ffi`.

  Both entries throw the result of the wait away.  It fails for a thread that another core has marked as killed while it
  executes in the kernel, and the thread then enters all the same (`killed_thread_enters`).  Otherwise no two threads
  are inside (`exec_exclusive`).
-/
import Archis.Sync.Accounting

namespace Archis.Sync

open Lib (exec Along exec_induction)
open List

/-! ## Waits that only a signal ends -/

namespace Sys
variable {κ τ : Type} [DecidableEq κ] [DecidableEq τ]

/-- No wait on `k` has a timer or can be interrupted. -/
structure Quiet (k : κ) (s : Sys κ τ) : Prop where
  timerList : ∀ timer ∈ s.timerList, timer.2 ≠ k
  timerNotifierList : ∀ timer ∈ s.timerNotifierList, timer.2 ≠ k
  status : ∀ t, k ∈ (s.tasks t).waitSemaphores → (s.tasks t).status ≠ .waitingInterruptible

/-- The step is neither a wait on `k` nor a signal of it. -/
def Foreign (k : κ) : Action κ τ → Prop
  | .wait _ k' _ _ => k' ≠ k
  | .signal k' => k' ≠ k
  | _ => True

section
variable {s s' : Sys κ τ} {k k' : κ} {t : τ}

omit [DecidableEq κ] [DecidableEq τ] in
theorem Idle.quiet (h : s.Idle) (k : κ) : s.Quiet k where
  timerList timer ht := by simp [h.timerList] at ht
  timerNotifierList timer ht := by simp [h.timerNotifierList] at ht
  status t ht := by simp [(h.tasks t).1] at ht

omit [DecidableEq κ] [DecidableEq τ] in
theorem Quiet.frame (h : s.Quiet k) (hf : Frame k' s s') (hk : k ≠ k') : s'.Quiet k where
  timerList timer ht := h.timerList timer (hf.timerList timer ht)
  timerNotifierList timer ht := h.timerNotifierList timer (hf.timerNotifierList ▸ ht)
  status t ht := by
    have heq := hf.tasks t k hk ht
    rw [heq] at ht ⊢
    exact h.status t ht

omit [DecidableEq κ] in
theorem Quiet.setTask (h : s.Quiet k) {task : Task κ} (ht : k ∈ task.waitSemaphores →
    task.status ≠ .waitingInterruptible) : (s.setTask t task).Quiet k where
  timerList := h.timerList
  timerNotifierList := h.timerNotifierList
  status t' ht' := by
    rcases eq_or_ne t' t with rfl | hne
    · simp only [setTask_tasks, Function.update_self] at ht' ⊢
      exact ht ht'
    · simp only [setTask_tasks, Function.update_of_ne hne] at ht' ⊢
      exact h.status t' ht'

omit [DecidableEq τ] in
theorem Quiet.setState (h : s.Quiet k) (st : SemState) : (s.setState k' st).Quiet k :=
  ⟨h.timerList, h.timerNotifierList, h.status⟩

theorem Quiet.block (h : s.Quiet k) {timeout : Option ℕ} {i : Bool}
    (hk : k' = k → timeout = none ∧ i = false) : (s.block t k' timeout i).Quiet k where
  timerList timer ht := by
    change timer ∈ if timeout.isSome then s.timerList ++ [(t, k')] else s.timerList at ht
    split_ifs at ht with hsome
    · rcases mem_append.1 ht with ht | ht
      · exact h.timerList timer ht
      · rintro rfl
        rw [mem_singleton.1 ht] at hk
        rw [(hk rfl).1] at hsome
        cases hsome
    · exact h.timerList timer ht
  timerNotifierList := h.timerNotifierList
  status t' ht' := by
    rcases eq_or_ne t' t with rfl | hne
    · simp only [Sys.block, setBlocked_tasks, setState_tasks, setTask_tasks, Function.update_self] at ht' ⊢
      rw [(hk (mem_singleton.1 ht').symm).2]
      decide
    · simp only [Sys.block, setBlocked_tasks, setState_tasks, setTask_tasks, Function.update_of_ne hne] at ht' ⊢
      exact h.status t' ht'

theorem Quiet.release (h : s.Quiet k) (hwf : s.Wf) (ht : t ∈ (s.sems k').blockedList)
    {cause : SignalCause} : (s.release t k' cause).Quiet k where
  timerList timer htimer := h.timerList timer (mem_of_mem_erase htimer)
  timerNotifierList := h.timerNotifierList
  status t' ht' := by
    rw [Sys.release, setBlocked_tasks] at ht' ⊢
    rcases eq_or_ne t' t with rfl | hne
    · rw [unblock_waitSemaphores, hwf.waits_eq ht, erase_cons_head] at ht'
      exact absurd ht' not_mem_nil
    · rw [unblock_tasks_of_ne hne] at ht' ⊢
      exact h.status t' ht'

omit [DecidableEq κ] in
theorem Quiet.killMark (h : s.Quiet k) : (s.killMark t).Quiet k where
  timerList timer ht := by
    rw [killMark_eq] at ht
    dsimp only at ht
    split_ifs at ht
    · exact h.timerList timer (mem_of_mem_eraseP ht)
    · exact h.timerList timer ht
  timerNotifierList := by
    rw [killMark_eq]
    exact h.timerNotifierList
  status t' ht' := by
    rw [killMark_tasks] at ht' ⊢
    exact (h.setTask fun _ => show TaskStatus.terminated ≠ _ by decide).status t' ht'

theorem Quiet.killDrop (h : s.Quiet k) (hwf : s.Wf) : (s.killDrop t).Quiet k := by
  have h1 : (s.setTask t { s.tasks t with waitSemaphores := [] }).Quiet k :=
    h.setTask fun hmem => absurd hmem not_mem_nil
  rw [hwf.killDrop_eq]
  match (s.tasks t).waitSemaphores with
  | [] => exact ⟨h1.timerList, h1.timerNotifierList, h1.status⟩
  | _ :: _ => exact ⟨h1.timerList, h1.timerNotifierList, h1.status⟩

theorem Quiet.step (h : s.Quiet k) (hwf : s.Wf) {a : Action κ τ} {r : Reply τ} (ha : s.Enabled a)
    (hforeign : Foreign k a) (hstep : s.step a = some (r, s')) : s'.Quiet k := by
  cases a with
  | wait t k' timeout i =>
    rw [Sys.step, Option.map_eq_some_iff] at hstep
    obtain ⟨⟨o, u⟩, hu, hr⟩ := hstep
    cases hr
    have hclear : (s.clearCause t).Quiet k := h.setTask (h.status t)
    rcases hwf.doWait_cases (k := k') ha timeout i with ⟨st, -, hw⟩ | ⟨e, -, hw⟩ | ⟨-, -, hw⟩
    · cases hw.symm.trans hu
      exact hclear.setState st
    · cases hw.symm.trans hu
      exact hclear
    · cases hw.symm.trans hu
      exact h.block fun h' => absurd h' hforeign
  | signal k' =>
    rw [Sys.step, Option.map_eq_some_iff] at hstep
    obtain ⟨⟨ts, u⟩, hu, hr⟩ := hstep
    cases hr
    obtain ⟨ts', v, hv, -, hf⟩ := hwf.doSignal (k := k')
    cases hv.symm.trans hu
    exact h.frame hf (Ne.symm hforeign)
  | reset k' =>
    rw [Sys.step] at hstep
    split at hstep
    · cases hstep
      exact h.setState _
    · cases hstep
      exact h
  | expire timer =>
    cases hstep
    refine ⟨fun x hx => h.timerList x (mem_of_mem_erase hx), fun x hx => ?_, h.status⟩
    rcases mem_append.1 hx with hx | hx
    · exact h.timerNotifierList x hx
    · exact mem_singleton.1 hx ▸ h.timerList timer ha
  | timeout timer =>
    have hwf1 := hwf.unqueue (s.timerNotifierList.erase timer)
    have h1 : ({ s with timerNotifierList := s.timerNotifierList.erase timer } : Sys κ τ).Quiet k :=
      ⟨h.timerList, fun x hx => h.timerNotifierList x (mem_of_mem_erase hx), h.status⟩
    rw [Sys.step, hwf1.doSignalOnTask, Option.map_some, Option.some.injEq] at hstep
    split_ifs at hstep with hw
    · cases hstep
      exact (h1.release hwf1 hw.1).setState _
    · cases hstep
      exact h1
  | interrupt t k' =>
    rw [Sys.step, hwf.doSignalOnTask, Option.map_some, Option.some.injEq] at hstep
    split_ifs at hstep with hw
    · cases hstep
      exact (h.release hwf hw.1).setState _
    · cases hstep
      exact h
  | mark t pk si => cases hstep; exact h.setTask (h.status t)
  | kill t => cases hstep; exact h.killMark
  | dropTask t => cases hstep; exact h.killDrop hwf
  | finalize t => cases hstep; exact h.setTask fun _ => show TaskStatus.terminated ≠ _ by decide
  | switchOut t =>
    cases hstep
    refine h.setTask fun hmem => ?_
    by_cases hr : (s.tasks t).status = .running
    · simp [hr]
    · simpa [hr] using h.status t hmem
  | switchIn t => cases hstep; exact h.setTask fun _ => show TaskStatus.running ≠ _ by decide
  | suspend t => cases hstep; exact h.setTask fun _ => show TaskStatus.suspended ≠ _ by decide
  | resume t =>
    cases hstep
    refine h.setTask fun _ => ?_
    rcases (s.tasks t).onCpu with _ | _
    · exact show TaskStatus.active ≠ _ by decide
    · exact show TaskStatus.running ≠ _ by decide
  | reap t => cases hstep; exact h.setTask (h.status t)

end
end Sys

/-! ## The guard -/

/-- The machine with the threads that are inside the guarded section. -/
structure Guarded (κ τ : Type) where
  sys : Sys κ τ
  inside : List τ

inductive GuardAction (κ τ : Type) where
  /-- `semaphore_guard`, `sync_wait_semaphore_ffi`. -/
  | enter (t : τ)
  /-- The guard is dropped, `sync_signal_semaphore_ffi`. -/
  | leave (t : τ)
  | other (a : Action κ τ)

namespace Guarded
variable {κ τ : Type} [DecidableEq κ] [DecidableEq τ]

def step (k : κ) (g : Guarded κ τ) : GuardAction κ τ → Option (Guarded κ τ)
  | .enter t => (g.sys.doWait t k none false).map fun
      | (.blocked, s) => { g with sys := s }
      -- whatever the wait returned
      | (.returned _, s) => ⟨s, t :: g.inside⟩
  -- a thread that is woken returns from its wait
  | .leave t => (g.sys.doSignal k).map fun (ts, s) => ⟨s, ts ++ g.inside.erase t⟩
  | .other a => (g.sys.step a).map fun (_, s) => { g with sys := s }

/-- The threads that enter and leave execute, leave what they entered, and use the guard in no other way. -/
def Allowed (k : κ) (g : Guarded κ τ) : GuardAction κ τ → Prop
  | .enter t => g.sys.Executes t
  | .leave t => g.sys.Executes t ∧ t ∈ g.inside
  | .other a => g.sys.Enabled a ∧ Sys.Foreign k a

/-- A thread that is marked as killed enters only when the guard is free. -/
def LiveOrFree (k : κ) (g : Guarded κ τ) : GuardAction κ τ → Prop
  | .enter t => (g.sys.tasks t).status = .terminated → (g.sys.sems k).state.enter.2 = false
  | _ => True

def Exclusive (g : Guarded κ τ) : Prop := ∀ t ∈ g.inside, ∀ t' ∈ g.inside, t = t'

/-- The counter tells whether a thread is inside. -/
structure Inv (k : κ) (g : Guarded κ τ) : Prop where
  wf : g.sys.Wf
  quiet : g.sys.Quiet k
  counter : (g.inside = [] ∧ (g.sys.sems k).state = .semaphore 1 (1 - ((g.sys.sems k).blockedList.length : ℤ))) ∨
    (∃ t, g.inside = [t]) ∧ (g.sys.sems k).state = .semaphore 1 (-((g.sys.sems k).blockedList.length : ℤ))

section
variable {k : κ} {g g' : Guarded κ τ} {t : τ}

omit [DecidableEq κ] [DecidableEq τ] in
theorem Inv.exclusive (h : Inv k g) : g.Exclusive := by
  intro t ht t' ht'
  rcases h.counter with ⟨hin, -⟩ | ⟨⟨u, hin⟩, -⟩
  · rw [hin] at ht
    exact absurd ht not_mem_nil
  · rw [hin, mem_singleton] at ht ht'
    rw [ht, ht']

theorem Inv.enter (h : Inv k g) (he : g.sys.Executes t) (hlive : LiveOrFree k g (.enter t))
    (hstep : g.step k (.enter t) = some g') : Inv k g' := by
  obtain ⟨⟨o, s'⟩, hs', rfl⟩ := Option.map_eq_some_iff.1 hstep
  rcases h.wf.doWait_cases (k := k) he none false with ⟨st, hst, hw⟩ | ⟨e, hterm, -⟩ | ⟨hrun, -, hw⟩
  · -- the counter was positive, so nobody was inside and nobody is waiting
    cases hw.symm.trans hs'
    have hquiet : (g.sys.clearCause t).Quiet k := h.quiet.setTask (h.quiet.status t)
    refine ⟨h.wf.clearCause.setState st, hquiet.setState st, ?_⟩
    rcases h.counter with ⟨hin, hk⟩ | ⟨-, hk⟩
    · rw [hk, SemState.tryEnter] at hst
      split_ifs at hst with hc
      cases hst
      refine Or.inr ⟨⟨t, by rw [hin]⟩, ?_⟩
      simp only [Sys.setState_state, Sys.setState_blockedList, Sys.clearCause_sems]
      congr 1
      ring
    · rw [hk, SemState.tryEnter, if_neg (by omega)] at hst
      cases hst
  · obtain ⟨h1, h2⟩ := hterm rfl rfl
    rw [hlive h1] at h2
    cases h2
  · cases hw.symm.trans hs'
    refine ⟨h.wf.block hrun, h.quiet.block fun _ => ⟨rfl, rfl⟩, ?_⟩
    have hlist : ((g.sys.block t k none false).sems k).blockedList =
        (g.sys.sems k).blockedList ++ [t] := by simp [Sys.block]
    have hstate : ((g.sys.block t k none false).sems k).state = (g.sys.sems k).state.enter.1 := by
      simp [Sys.block]
    dsimp only
    rw [hlist, hstate]
    refine h.counter.imp (fun hk => ⟨hk.1, ?_⟩) fun hk => ⟨hk.1, ?_⟩
    · rw [hk.2]
      simp only [SemState.enter, length_append, length_singleton]
      congr 1
      push_cast
      ring
    · rw [hk.2]
      simp only [SemState.enter, length_append, length_singleton]
      congr 1
      push_cast
      ring

theorem Inv.leave (h : Inv k g) (ht : t ∈ g.inside) (hstep : g.step k (.leave t) = some g') : Inv k g' := by
  obtain ⟨⟨ts, s'⟩, hs', rfl⟩ := Option.map_eq_some_iff.1 hstep
  obtain ⟨⟨u, hin⟩, hk⟩ := h.counter.resolve_left fun ⟨hin, _⟩ => by simp [hin] at ht
  have hout : g.inside.erase t = [] := by
    rw [hin, mem_singleton] at ht
    rw [hin, ht, erase_cons_head]
  dsimp only
  rw [hout, append_nil]
  have hquiet : (g.sys.setState k (.semaphore 1 (min 1 (-((g.sys.sems k).blockedList.length : ℤ) + 1)))).Quiet k :=
    h.quiet.setState _
  have hwf : (g.sys.setState k (.semaphore 1 (min 1 (-((g.sys.sems k).blockedList.length : ℤ) + 1)))).Wf :=
    h.wf.setState _
  rw [h.wf.doSignal_semaphore hk, Option.some.injEq] at hs'
  -- nobody is woken: the guard is free, though threads may still be on the list
  have free : (ts, s') = ([], g.sys.setState k
      (.semaphore 1 (min 1 (-((g.sys.sems k).blockedList.length : ℤ) + 1)))) → Inv k ⟨s', ts⟩ := by
    intro heq
    cases heq
    refine ⟨hwf, hquiet, Or.inl ⟨rfl, ?_⟩⟩
    simp only [Sys.setState_state, Sys.setState_blockedList]
    congr 1
    omega
  match hl : (g.sys.sems k).blockedList with
  | [] =>
    rw [hl] at hs'
    rw [hl] at free
    exact free hs'.symm
  | t' :: l =>
    rw [hl, head?_cons] at hs'
    rw [hl] at free hquiet hwf
    dsimp only at hs'
    split_ifs at hs' with hw
    · cases hs'
      have hmem : t' ∈ ((g.sys.setState k (.semaphore 1
          (min 1 (-((t' :: l).length : ℤ) + 1)))).sems k).blockedList := by
        rw [Sys.setState_blockedList, hl]
        exact (.head _)
      refine ⟨hwf.release hmem hw.2.2.1, hquiet.release hwf hmem, Or.inr ⟨⟨t', rfl⟩, ?_⟩⟩
      simp only [Sys.release, Sys.setBlocked_state, Sys.unblock_sems, Sys.setState_state,
        Sys.setBlocked_blockedList, Sys.setState_blockedList, hl, erase_cons_head]
      congr 1
      rw [length_cons]
      push_cast
      omega
    · exact free hs'.symm

theorem Inv.other (h : Inv k g) {a : Action κ τ} (ha : g.sys.Enabled a) (hforeign : Sys.Foreign k a)
    (hstep : g.step k (.other a) = some g') : Inv k g' := by
  obtain ⟨⟨r, s'⟩, hs', rfl⟩ := Option.map_eq_some_iff.1 hstep
  obtain ⟨r', s'', hs'', hwf⟩ := h.wf.exists_step ha
  cases hs''.symm.trans hs'
  refine ⟨hwf, h.quiet.step h.wf ha hforeign hs', ?_⟩
  -- the semaphore is as before, or a killed thread has left its list
  have hcount : ∀ c, (g.sys.sems k).state = .semaphore 1 c →
      c ≤ 1 - ((g.sys.sems k).blockedList.length : ℤ) → (s'.sems k).state =
        .semaphore 1 (c + (g.sys.sems k).blockedList.length - (s'.sems k).blockedList.length) := by
    intro c hk hc
    obtain ⟨c', hk', heff⟩ := h.wf.effect ha hs' hk
    rw [hk']
    congr 1
    have hlist : ∀ t, t ∈ (g.sys.sems k).blockedList → (g.sys.tasks t).status ≠ .waitingInterruptible := fun t ht =>
      h.quiet.status t ((h.wf.mem_iff k t).1 ht)
    generalize (g.sys.sems k).blockedList = l at *
    generalize (s'.sems k).blockedList = l' at *
    cases heff with
    | same => omega
    | took | slept => exact absurd rfl hforeign
    | signalled | woke => exact absurd rfl hforeign
    | @left _ _ _ _ t ht hleft =>
      rcases hleft with ⟨timer, htimer, htk, -⟩ | ⟨hst, -⟩ | -
      · exact absurd htk (h.quiet.timerNotifierList timer htimer)
      · exact absurd hst (hlist t ht)
      · have := length_pos_of_mem ht
        rw [length_erase_of_mem ht]
        omega
  refine h.counter.imp (fun ⟨hin, hk⟩ => ⟨hin, ?_⟩) fun ⟨hin, hk⟩ => ⟨hin, ?_⟩
  · rw [hcount _ hk le_rfl]
    congr 1
    ring
  · rw [hcount _ hk (by omega)]
    congr 1
    ring

omit [DecidableEq κ] [DecidableEq τ] in
theorem Inv.start {s : Sys κ τ} (hs : s.Idle) (hk : (s.sems k).state = .semaphore 1 1) : Inv k ⟨s, []⟩ := by
  refine ⟨hs.wf, hs.quiet k, Or.inl ⟨rfl, ?_⟩⟩
  rw [hk]
  simp [hs.blockedList k]

theorem Inv.step (h : Inv k g) {a : GuardAction κ τ} (ha : Allowed k g a) (hlive : LiveOrFree k g a)
    (hstep : g.step k a = some g') : Inv k g' := by
  cases a with
  | enter t => exact h.enter ha hlive hstep
  | leave t => exact h.leave ha.2 hstep
  | other a => exact h.other ha.1 ha.2 hstep

/-- **Mutual exclusion** if a thread that is marked as killed enters only when the guard is free. -/
theorem exec_exclusive {s : Sys κ τ} {acts : List (GuardAction κ τ)} (hs : s.Idle)
    (hk : (s.sems k).state = .semaphore 1 1) (hacts : Along (step k) (fun g a => Allowed k g a ∧
    LiveOrFree k g a) ⟨s, []⟩ acts) (hrun : exec (step k) ⟨s, []⟩ acts = some g) : g.Exclusive :=
  (exec_induction (fun _ _ _ h ha hstep => Inv.step h ha.1 ha.2 hstep) (Inv.start hs hk) hacts hrun).exclusive

/-- One thread is inside, the other blocks and is let in when the first leaves. -/
theorem exec_exclusive_handover : ∃ g : Guarded Unit (Fin 2), exec (step ()) ⟨Ledger.pair 1 1, []⟩
    [.enter 0, .enter 1, .leave 0] = some g ∧ g.inside = [1] ∧ g.Exclusive := by
  obtain ⟨g, hg, hin⟩ : ∃ g : Guarded Unit (Fin 2),
      exec (step ()) ⟨Ledger.pair 1 1, []⟩ [.enter 0, .enter 1, .leave 0] = some g ∧
        g.inside = [1] := ⟨_, rfl, rfl⟩
  refine ⟨g, hg, hin, exec_exclusive (Ledger.pair_idle 1 1) rfl ?_ hg⟩
  refine .cons ⟨⟨rfl, Or.inl rfl⟩, fun h => by cases h⟩ rfl (.cons ⟨⟨rfl, Or.inl rfl⟩, fun h => by cases h⟩
    rfl (.cons ⟨⟨⟨rfl, Or.inl rfl⟩, ?_⟩, trivial⟩ rfl trivial))
  exact mem_singleton.2 rfl

/-- **A killed thread walks in**: its wait fails while the first thread is inside. -/
theorem killed_thread_enters : ∃ g : Guarded Unit (Fin 2),
    exec (step ()) ⟨Ledger.pair 1 1, []⟩ [.enter 0, .other (.kill 1), .enter 1] = some g ∧
      g.sys.Executes 0 ∧ g.sys.Executes 1 ∧ g.inside = [1, 0] ∧ ¬ g.Exclusive := by
  refine ⟨_, rfl, ⟨rfl, Or.inl rfl⟩, ⟨rfl, Or.inr rfl⟩, rfl, fun h => ?_⟩
  exact absurd (h 0 (by decide) 1 (by decide)) (by decide)

end
end Guarded

end Archis.Sync

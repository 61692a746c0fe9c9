/-
  Auto-reset events.

  A signal of an auto-reset event wakes the head of its list; when there is no thread to wake, or the
  head is marked as killed, the event is left signalled and the next wait takes it.

  `Settles` is what every step does for an event that it is not a wait on: nobody new is on its list,
  killed threads stay killed, and a signal that is there stays there.
-/
import Archis.Sync.Sem

namespace Archis.Sync.Sys
variable {κ τ : Type} [DecidableEq κ] [DecidableEq τ]

structure Settles (k : κ) (s s' : Sys κ τ) : Prop where
  blockedList : ∀ t ∈ (s'.sems k).blockedList, t ∈ (s.sems k).blockedList
  status : ∀ t ∈ (s'.sems k).blockedList, (s.tasks t).status = .terminated → (s'.tasks t).status = .terminated
  state : ∀ sg, (s.sems k).state = .event sg true →
    ∃ sg', (s'.sems k).state = .event sg' true ∧ (sg = true → sg' = true)

section
variable {s s' s'' : Sys κ τ} {k k' : κ} {t : τ} {sg : Bool} {cause : SignalCause}

section
omit [DecidableEq κ] [DecidableEq τ]

theorem Settles.refl (k : κ) (s : Sys κ τ) : Settles k s s :=
  ⟨fun _ h => h, fun _ _ h => h, fun sg h => ⟨sg, h, id⟩⟩

theorem Settles.trans (h : Settles k s s') (h' : Settles k s' s'') : Settles k s s'' where
  blockedList t ht := h.blockedList t (h'.blockedList t ht)
  status t ht hst := h'.status t ht (h.status t (h'.blockedList t ht) hst)
  state sg hsg := by
    obtain ⟨sg', hsg', himp⟩ := h.state sg hsg
    obtain ⟨sg'', hsg'', himp'⟩ := h'.state sg' hsg'
    exact ⟨sg'', hsg'', fun h => himp' (himp h)⟩

theorem Settles.of_sems (hk : s'.sems k = s.sems k) (hst : ∀ t ∈ (s.sems k).blockedList,
    (s.tasks t).status = .terminated → (s'.tasks t).status = .terminated) : Settles k s s' where
  blockedList t ht := hk ▸ ht
  status t ht := hst t (hk ▸ ht)
  state sg hsg := ⟨sg, by rw [hk, hsg], id⟩

theorem Frame.settles (hf : Frame k' s s') (h' : s'.Wf) (hk : k ≠ k') : Settles k s s' :=
  .of_sems (hf.sems k hk) fun t ht => by
    rw [hf.tasks t k hk ((h'.mem_iff k t).1 (by rwa [hf.sems k hk]))]
    exact id

end

/-- **What the signal of an auto-reset event does.** -/
theorem Wf.doSignal_event (h : s.Wf) (hk : (s.sems k).state = .event sg true) :
    s.doSignal k = some (match (s.sems k).blockedList.head? with
      | none => ([], s.setState k (.event true true))
      | some t => if s.Wakes t .normal then ([t], s.release t k .normal)
        else ([], s.setState k (.event true true))) := by
  have hself : s.setState k (.event sg true) = s := by
    have := setState_self (s := s) (k := k)
    rwa [hk] at this
  unfold Sys.doSignal
  simp only [hk, SemState.signal, if_true, hself, h.wakeTask_head]
  rcases (s.sems k).blockedList.head? with _ | t
  · simp [hk, SemState.raise]
  · by_cases hw : s.Wakes t .normal
    · simp [hw]
    · simp [hw, hk, SemState.raise]

theorem Wf.settles_release (h : s.Wf) (ht : t ∈ (s.sems k').blockedList) :
    Settles k s (s.release t k' cause) := by
  rcases eq_or_ne k k' with rfl | hne
  · have hlist : ((s.release t k cause).sems k).blockedList = (s.sems k).blockedList.erase t := by
      simp [Sys.release]
    refine ⟨fun t' ht' => ?_, fun t' ht' hst => ?_, fun sg hsg => ⟨sg, ?_, id⟩⟩
    · rw [hlist] at ht'
      exact List.mem_of_mem_erase ht'
    · have hne : t' ≠ t := by
        rintro rfl
        rw [hlist] at ht'
        exact (h.nodup k).not_mem_erase ht'
      rwa [Sys.release, setBlocked_tasks, unblock_tasks_of_ne hne]
    · rw [Sys.release, setBlocked_state, unblock_sems, hsg]
  · refine .of_sems (setBlocked_sems_of_ne hne) fun t' ht' hst => ?_
    have hne' : t' ≠ t := by
      rintro rfl
      have hw := h.waits_eq ht
      rw [h.waits_eq ht', List.cons.injEq] at hw
      exact hne hw.1
    rwa [Sys.release, setBlocked_tasks, unblock_tasks_of_ne hne']

omit [DecidableEq τ] in
theorem Settles.setState {st : SemState} (hst : ∀ sg, (s.sems k).state = .event sg true → k = k' → ∃ sg',
    st = .event sg' true ∧ (sg = true → sg' = true)) : Settles k s (s.setState k' st) where
  blockedList t ht := by rwa [setState_blockedList] at ht
  status _ _ h := h
  state sg hsg := by
    rcases eq_or_ne k k' with rfl | hne
    · obtain ⟨sg', hsg', himp⟩ := hst sg hsg rfl
      exact ⟨sg', by rw [setState_state, hsg'], himp⟩
    · exact ⟨sg, by rw [setState_sems_of_ne hne, hsg], id⟩

omit [DecidableEq κ] in
theorem Settles.setTask {task : Task κ} (ht : (s.tasks t).status = .terminated →
    task.status = .terminated) : Settles k s (s.setTask t task) :=
  .of_sems rfl fun t' _ hst => by
    rcases eq_or_ne t' t with rfl | hne
    · simpa using ht hst
    · simpa [hne] using hst

theorem Wf.settles_doSignalOnTask (h : s.Wf) (ht : t ∈ (s.sems k').blockedList) :
    Settles k s ((s.release t k' cause).setState k' (s.sems k').state.restore) := by
  refine (h.settles_release ht).trans (.setState fun sg hsg hk => ?_)
  subst hk
  rw [Sys.release, setBlocked_state, unblock_sems] at hsg
  exact ⟨sg, by rw [hsg]; rfl, id⟩

theorem Wf.settles_killDrop (h : s.Wf) (t : τ) : Settles k s (s.killDrop t) := by
  have hset : Settles k s (s.setTask t { s.tasks t with waitSemaphores := [] }) := .setTask id
  rw [h.killDrop_eq]
  match (s.tasks t).waitSemaphores with
  | [] => exact ⟨hset.blockedList, hset.status, hset.state⟩
  | k' :: _ =>
    rcases eq_or_ne k k' with rfl | hne
    · refine ⟨fun t' ht' => ?_, fun t' ht' hst => ?_, fun sg hsg => ⟨sg, ?_, id⟩⟩
      · rw [setBlocked_blockedList] at ht'
        exact List.mem_of_mem_erase ht'
      · rw [setBlocked_blockedList] at ht'
        exact hset.status t' (List.mem_of_mem_erase ht') hst
      · simp [hsg, SemState.restore]
    · refine .of_sems ?_ fun t' ht' hst => hset.status t' ht' hst
      rw [setBlocked_sems_of_ne hne, setState_sems_of_ne hne]
      rfl

theorem Wf.settles_doSignal (h : s.Wf) (hk : (s.sems k).state = .event sg true) (k' : κ)
    {ts : List τ} (hs : s.doSignal k' = some (ts, s')) : Settles k s s' := by
  rcases eq_or_ne k k' with rfl | hne
  · rw [h.doSignal_event hk, Option.some.injEq] at hs
    have hraise : Settles k s (s.setState k (.event true true)) :=
      .setState fun _ _ _ => ⟨true, rfl, fun _ => rfl⟩
    rcases hhead : (s.sems k).blockedList.head? with _ | t
    · rw [hhead] at hs
      cases hs
      exact hraise
    rw [hhead] at hs
    dsimp only at hs
    split_ifs at hs
    · cases hs
      exact h.settles_release (List.mem_of_mem_head? (Option.mem_def.2 hhead))
    · cases hs
      exact hraise
  · obtain ⟨ts', u, hu, h', hf⟩ := h.doSignal (k := k')
    cases hu.symm.trans hs
    exact hf.settles h' hne

/-- The scheduler's own steps: no wait, no signal and no reset. -/
def Scheduling : Action κ τ → Prop
  | .wait _ _ _ _ | .signal _ | .reset _ => False
  | _ => True

theorem Wf.settles_sched (h : s.Wf) {a : Action κ τ} {r : Reply τ} (ha : s.Enabled a)
    (hsched : Scheduling a) (hstep : s.step a = some (r, s')) : Settles k s s' := by
  cases a with
  | wait | signal | reset => exact hsched.elim
  | expire timer => cases hstep; exact .of_sems rfl fun _ _ => id
  | timeout timer =>
    have h1 := h.unqueue (s.timerNotifierList.erase timer)
    have hs1 : Settles k s { s with timerNotifierList := s.timerNotifierList.erase timer } :=
      .of_sems rfl fun _ _ => id
    rw [Sys.step, h1.doSignalOnTask, Option.map_some, Option.some.injEq] at hstep
    split_ifs at hstep with hw
    · cases hstep
      exact hs1.trans (h1.settles_doSignalOnTask hw.1)
    · cases hstep
      exact hs1
  | interrupt t k' =>
    rw [Sys.step, h.doSignalOnTask, Option.map_some, Option.some.injEq] at hstep
    split_ifs at hstep with hw
    · cases hstep
      exact h.settles_doSignalOnTask hw.1
    · cases hstep
      exact .refl k s
  | mark t pk si => cases hstep; exact .setTask id
  | kill t =>
    cases hstep
    refine .of_sems (by rw [killMark_sems]) fun t' _ hst => ?_
    rw [killMark_tasks]
    rcases eq_or_ne t' t with rfl | hne
    · simp
    · simpa [hne] using hst
  | dropTask t =>
    cases hstep
    exact h.settles_killDrop t
  | finalize t => cases hstep; exact .setTask fun _ => rfl
  | switchOut t =>
    cases hstep
    refine .setTask fun hst => ?_
    simp [hst]
  | switchIn t => cases hstep; exact .setTask fun hst => by rw [ha.2] at hst; cases hst
  | suspend t => cases hstep; exact .setTask fun hst => by rw [ha.2] at hst; cases hst
  | resume t =>
    cases hstep
    refine .setTask fun hst => ?_
    rw [show (s.tasks t).status = .suspended from ha] at hst
    cases hst
  | reap t => cases hstep; exact .setTask id

end

end Archis.Sync.Sys

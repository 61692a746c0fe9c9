/-
  The cleanup worker (`sched/cleanup.rs`), with every critical section a step.

  The items are processed once and in order, and none is left to a worker that is blocked.  But the event is no auto-reset
  event and nobody resets it: the worker blocks only before the first signal (`exec_cleanup`), and then runs for ever with
  nothing to do (`drained_spins`).
-/
import Archis.Lib.Run
import Archis.Sync.Sem

namespace Archis.Sched.Cleanup

open Lib (exec exec_cons exec_induction Along)
open Sync (SemState)
open Function (update update_self)

variable {ι ω : Type}

inductive Worker (ω : Type) where
  /-- About to wait for the event. -/
  | waiting
  | blocked
  /-- About to take an item. -/
  | popping
  | processing (work : ω)

def Worker.inHand : Worker ω → List ω
  | .processing work => [work]
  | _ => []

structure State (ι ω : Type) where
  cleanupQueue : List ω
  cleanupEvent : SemState
  worker : Worker ω
  /-- The calls of `enqueue_cleanup` that have still to signal. -/
  signalling : ι → Bool
  enqueued : List ω
  processed : List ω

inductive Action (ι ω : Type) where
  | enqueue (t : ι) (work : ω)
  | signal (t : ι)
  | work

namespace State

def init : State ι ω := ⟨[], .event false false, .waiting, fun _ => false, [], []⟩

/-- `do_signal`, on an event that only the worker waits for. -/
def doSignal (s : State ι ω) : State ι ω :=
  match s.cleanupEvent.signal, s.worker with
  | (event, .none), _ => { s with cleanupEvent := event }
  | (event, .one), .blocked => { s with cleanupEvent := event, worker := .popping }
  | (event, .all), .blocked => { s with cleanupEvent := event.raise, worker := .popping }
  | (event, _), _ => { s with cleanupEvent := event.raise }

def cleanupWorker (s : State ι ω) : Option (State ι ω) :=
  match s.worker with
  | .waiting =>
    let (event, shouldBlock) := s.cleanupEvent.enter
    some { s with cleanupEvent := event, worker := if shouldBlock then .blocked else .popping }
  | .blocked => none
  | .popping =>
    match s.cleanupQueue with
    | [] => some { s with worker := .waiting }
    | work :: queue => some { s with cleanupQueue := queue, worker := .processing work }
  | .processing work => some { s with worker := .popping, processed := s.processed ++ [work] }

/-- The items in order.  Before the first signal the worker has not passed its first wait; after it, it is not blocked. -/
structure Inv (s : State ι ω) (raised : Bool) : Prop where
  order : s.processed ++ s.worker.inHand ++ s.cleanupQueue = s.enqueued
  event : s.cleanupEvent = .event raised false
  idle : raised = false → s.worker = .waiting ∨ s.worker = .blocked
  awake : raised = true → s.worker ≠ .blocked
  queue : raised = false → s.cleanupQueue ≠ [] → ∃ t, s.signalling t = true

variable {s s' : State ι ω} {raised : Bool} {t : ι}

theorem Inv.doSignal (h : s.Inv raised) : s.doSignal.Inv true := by
  obtain ⟨horder, hevent, -, -, -⟩ := h
  have hne : ¬ true = false := by decide
  cases hw : s.worker <;> simp only [State.doSignal, hevent, hw, SemState.signal] <;>
    exact ⟨by simpa [hw, Worker.inHand] using horder, rfl, hne.elim, fun _ h => (by cases h), hne.elim⟩

theorem Inv.cleanupWorker (h : s.Inv raised) (hs : s.cleanupWorker = some s') : s'.Inv raised := by
  obtain ⟨horder, hevent, hidle, hawake, hqueue⟩ := h
  cases hw : s.worker with
  | waiting =>
    rw [hw] at horder
    simp only [State.cleanupWorker, hw, hevent] at hs
    cases raised <;> cases hs
    · exact ⟨horder, rfl, fun _ => .inr rfl, nofun, hqueue⟩
    · exact ⟨horder, rfl, nofun, nofun, nofun⟩
  | blocked => simp [State.cleanupWorker, hw] at hs
  | popping =>
    have hr : raised = true := by simpa [hw] using hidle
    subst hr
    cases hq : s.cleanupQueue <;> simp only [State.cleanupWorker, hw, hq, Option.some.injEq] at hs <;> subst hs <;>
      exact ⟨by simpa [hw, hq, Worker.inHand] using horder, hevent, nofun, nofun, nofun⟩
  | processing work =>
    have hr : raised = true := by simpa [hw] using hidle
    subst hr
    simp only [State.cleanupWorker, hw, Option.some.injEq] at hs
    subst hs
    exact ⟨by simpa [hw, Worker.inHand] using horder, hevent, nofun, nofun, nofun⟩

variable [DecidableEq ι]

def step (s : State ι ω) : Action ι ω → Option (State ι ω)
  | .enqueue t work =>
    if s.signalling t then none
    else some { s with
      cleanupQueue := s.cleanupQueue ++ [work]
      signalling := update s.signalling t true
      enqueued := s.enqueued ++ [work] }
  | .signal t =>
    if s.signalling t then some { s.doSignal with signalling := update s.signalling t false } else none
  | .work => s.cleanupWorker

theorem Inv.step {a : Action ι ω} (h : s.Inv raised) (hs : s.step a = some s') :
    ∃ raised', raised ≤ raised' ∧ s'.Inv raised' := by
  cases a with simp only [State.step] at hs
  | enqueue t work =>
    rw [Option.ite_none_left_eq_some, Option.some.injEq] at hs
    obtain ⟨-, rfl⟩ := hs
    exact ⟨raised, le_rfl, by simp [← h.order], h.event, h.idle, h.awake, fun _ _ => ⟨t, update_self ..⟩⟩
  | signal t =>
    rw [Option.ite_none_right_eq_some, Option.some.injEq] at hs
    obtain ⟨-, rfl⟩ := hs
    exact ⟨true, Bool.le_true _, { h.doSignal with queue := nofun }⟩
  | work => exact ⟨raised, le_rfl, h.cleanupWorker hs⟩

theorem Inv.exec {as : List (Action ι ω)} (h : s.Inv raised) (hs : Lib.exec State.step s as = some s') :
    ∃ raised', raised ≤ raised' ∧ s'.Inv raised' := by
  have hall : Along State.step (fun _ _ => True) s as := .of_forall fun _ _ _ => trivial
  refine exec_induction (I := fun s => ∃ r, raised ≤ r ∧ s.Inv r) ?_ ⟨_, le_rfl, h⟩ hall hs
  rintro u a v ⟨r, hr, hu⟩ - huv
  obtain ⟨r', hr', hv⟩ := hu.step huv
  exact ⟨r', hr.trans hr', hv⟩

/-- `P` holds after some steps of the worker alone. -/
def Comes (s : State ι ω) (P : State ι ω → Prop) : Prop := ∃ n t, exec step s (.replicate n .work) = some t ∧ P t

theorem Comes.step {P : State ι ω → Prop} (h : s'.Comes P) (hs : s.cleanupWorker = some s') : s.Comes P := by
  obtain ⟨n, t, ht, hP⟩ := h
  exact ⟨n + 1, t, exec_cons.2 ⟨s', hs, ht⟩, hP⟩

theorem Inv.blocks_iff (h : s.Inv raised) :
    s.Comes (·.worker = .blocked) ↔ s.cleanupEvent = .event false false := by
  have hevent : s.cleanupEvent = .event false false ↔ raised = false := by simp [h.event]
  rw [hevent]
  constructor
  · rintro ⟨n, t, ht, hblocked⟩
    obtain ⟨r, hr, h'⟩ := h.exec ht
    rw [← Bool.not_eq_true]
    rintro rfl
    exact h'.awake (Bool.eq_true_of_true_le hr) hblocked
  · intro hr
    rcases h.idle hr with hw | hw
    · refine Comes.step ⟨0, { s with cleanupEvent := .event false false, worker := .blocked }, rfl, rfl⟩ ?_
      simp [State.cleanupWorker, hw, h.event, hr, SemState.enter]
    · exact ⟨0, s, rfl, hw⟩

/-- From the head of its inner loop the worker empties the queue. -/
theorem comes_of_popping : ∀ (queue : List ω) {s : State ι ω}, s.worker = .popping → s.cleanupQueue = queue →
    s.Comes (·.processed = s.processed ++ queue)
  | [], s, _, _ => ⟨0, s, rfl, by simp⟩
  | work :: queue, s, hw, hq => by
    have ih := comes_of_popping queue
      (s := { s with cleanupQueue := queue, worker := .popping, processed := s.processed ++ [work] }) rfl rfl
    simp only [List.append_assoc, List.singleton_append] at ih
    exact (ih.step (s := { s with cleanupQueue := queue, worker := .processing work }) rfl).step
      (by simp [State.cleanupWorker, hw, hq])

theorem Inv.comes_processed (h : s.Inv true) : s.Comes (·.processed = s.enqueued) := by
  rw [← h.order]
  cases hw : s.worker with
  | waiting =>
    have hp := comes_of_popping _ (s := { s with cleanupEvent := .event true false, worker := .popping }) rfl rfl
    exact .step (by simpa [Worker.inHand] using hp) (by simp [State.cleanupWorker, hw, h.event, SemState.enter])
  | blocked => exact (h.awake rfl hw).elim
  | popping => simpa [Worker.inHand] using comes_of_popping _ hw rfl
  | processing work =>
    have hp := comes_of_popping _ (s := { s with worker := .popping, processed := s.processed ++ [work] }) rfl rfl
    exact hp.step (by simp [State.cleanupWorker, hw])

theorem exec_inv {as : List (Action ι ω)} (hs : exec step init as = some s) : ∃ raised, s.Inv raised := by
  have hinit : (init : State ι ω).Inv false := ⟨rfl, rfl, fun _ => .inl rfl, nofun, fun _ h => (h rfl).elim⟩
  obtain ⟨raised, -, h⟩ := hinit.exec hs
  exact ⟨raised, h⟩

/-- **Cleanup.**  In every run the items are processed in the order of the queue.  If the worker is blocked with an item
in the queue, a call of `enqueue_cleanup` has still to signal; without such calls all items are processed.  But the worker
comes to block only if the event has not been signalled. -/
theorem exec_cleanup {as : List (Action ι ω)} (hs : exec step init as = some s) :
    s.processed ++ s.worker.inHand ++ s.cleanupQueue = s.enqueued ∧
    (s.worker = .blocked → s.cleanupQueue ≠ [] → ∃ t, s.signalling t = true) ∧
    ((∀ t, s.signalling t = false) → s.Comes (·.processed = s.enqueued)) ∧
    (s.Comes (·.worker = .blocked) ↔ s.cleanupEvent = .event false false) := by
  obtain ⟨raised, h⟩ := exec_inv hs
  refine ⟨h.order, fun hw hq => ?_, fun hnone => ?_, h.blocks_iff⟩
  · cases raised
    · exact h.queue rfl hq
    · exact (h.awake rfl hw).elim
  cases raised
  · have hq : s.cleanupQueue = [] := by
      by_contra hq
      obtain ⟨t, ht⟩ := h.queue rfl hq
      exact Bool.false_ne_true (hnone t ▸ ht)
    rw [← h.order]
    rcases h.idle rfl with hw | hw <;> exact ⟨0, s, rfl, by simp [hw, hq, Worker.inHand]⟩
  · exact h.comes_processed

/-- One item is processed, and the worker comes back to its wait. -/
def oneItem : List (Action Unit Unit) := [.enqueue () (), .signal (), .work, .work, .work, .work]

theorem oneItem_cleanup : ∃ s : State Unit Unit, exec step init oneItem = some s ∧
    (s.Comes (·.worker = .blocked) ↔ s.cleanupEvent = .event false false) :=
  ⟨_, rfl, (exec_cleanup (show exec step init oneItem = some _ from rfl)).2.2.2⟩

/-- Everything is processed, no call is under way, and the worker does not come to block. -/
theorem drained_spins : ∃ s : State Unit Unit, exec step init oneItem = some s ∧
    s.processed = s.enqueued ∧ s.cleanupQueue = [] ∧ s.signalling () = false ∧ ¬ s.Comes (·.worker = .blocked) := by
  refine ⟨_, rfl, rfl, rfl, rfl, fun hblocks => ?_⟩
  obtain ⟨raised, h⟩ := exec_inv (show exec step init oneItem = some _ from rfl)
  exact SemState.noConfusion (h.blocks_iff.1 hblocks) nofun

end State
end Archis.Sched.Cleanup

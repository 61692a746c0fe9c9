/-
  What the counter of a semaphore counts.

  `do_signal` raises the counter before it knows whether it can wake the head of the list; a head that is marked as killed
  is not woken, and `drop_task` gives its unit back once more (`signal_lost_on_killed_head`).  As long as the head is
  alive at each signal, the counter is right (`exec_headLive_accounted`).
-/
import Archis.Sync.Sem
import Archis.Lib.Run

namespace Archis.Sync

open Lib (exec Along exec_induction exec_progress)
open List hiding next

/-- A signal counts unless the counter is at its maximum. -/
def SemState.hasRoom : SemState → Bool
  | semaphore maxCount counter => decide (counter < maxCount)
  | event _ _ => false

/-- The machine with the signals issued on one semaphore and the units its waits consumed. -/
structure Ledger (κ τ : Type) where
  sys : Sys κ τ
  issued : ℕ
  consumed : ℕ

namespace Ledger
variable {κ τ : Type} [DecidableEq κ] [DecidableEq τ] {k : κ} {count m : ℤ}

def issuedBy (s : Sys κ τ) (k : κ) : Action κ τ → ℕ
  | .signal k' => if k' = k ∧ (s.sems k).state.hasRoom then 1 else 0
  | _ => 0

/-- A wait that returns without blocking consumes a unit, and so does each thread that is woken. -/
def consumedBy (k : κ) : Action κ τ → Reply τ → ℕ
  | .wait _ k' _ _, .waited (.returned (.ok _)) => if k' = k then 1 else 0
  | .signal k', .woke ts => if k' = k then ts.length else 0
  | _, _ => 0

def step (k : κ) (g : Ledger κ τ) (a : Action κ τ) : Option (Ledger κ τ) :=
  (g.sys.step a).map fun (r, s) =>
    ⟨s, g.issued + issuedBy g.sys k a, g.consumed + consumedBy k a r⟩

/-- The counter of `k`, a semaphore, is right. -/
def Accounted (k : κ) (m count : ℤ) (g : Ledger κ τ) : Prop :=
  ∃ c, (g.sys.sems k).state = .semaphore m c ∧ ((g.sys.sems k).blockedList ≠ [] →
      c = -((g.sys.sems k).blockedList.length : ℤ) ∧ count + g.issued = g.consumed) ∧
    ((g.sys.sems k).blockedList = [] → 0 ≤ c)

/-- When `k` is signalled, the thread at the head of its list is not marked as killed. -/
def HeadLive (k : κ) (s : Sys κ τ) : Action κ τ → Prop
  | .signal k' => k' = k →
      ∀ t, (s.sems k).blockedList.head? = some t → (s.tasks t).status ≠ .terminated
  | _ => True

structure Inv (k : κ) (m count : ℤ) (g : Ledger κ τ) : Prop where
  wf : g.sys.Wf
  max : 0 ≤ m
  books : ∃ c, (g.sys.sems k).state = .semaphore m c ∧ ((g.sys.sems k).blockedList ≠ [] →
    c = -((g.sys.sems k).blockedList.length : ℤ)) ∧ ((g.sys.sems k).blockedList = [] → 0 ≤ c ∧ c ≤ m) ∧ c +
    (g.sys.sems k).blockedList.length = count + g.issued - g.consumed

section
variable {k : κ} {m count : ℤ} {g g' : Ledger κ τ} {a : Action κ τ}

omit [DecidableEq κ] [DecidableEq τ] in
theorem Inv.accounted (h : Inv k m count g) : Accounted k m count g := by
  obtain ⟨c, hk, hne, he, hsum⟩ := h.books
  exact ⟨c, hk, fun hl => ⟨hne hl, by have := hne hl; omega⟩, fun hl => (he hl).1⟩

omit [DecidableEq τ] in
theorem issuedBy_of_ne {s : Sys κ τ} (hsig : a ≠ .signal k) : issuedBy s k a = 0 := by
  match a, hsig with
  | .signal k', hsig =>
    exact if_neg fun h => hsig (by rw [h.1])
  | .wait .., _ | .reset _, _ | .expire _, _ | .timeout _, _ | .interrupt .., _ | .mark .., _
  | .kill _, _ | .dropTask _, _ | .finalize _, _ | .switchOut _, _ | .switchIn _, _
  | .suspend _, _ | .resume _, _ | .reap _, _ => rfl

omit [DecidableEq τ] in
theorem consumedBy_of_ne {r : Reply τ} (hsig : a ≠ .signal k) (hwait : ∀ t timeout i,
    a = .wait t k timeout i → ∃ e, r = .waited (.returned (.error e))) : consumedBy k a r = 0 := by
  unfold consumedBy
  split
  · next t k' timeout i _ =>
    refine if_neg fun h => ?_
    obtain ⟨e, he⟩ := hwait t timeout i (by rw [h])
    cases he
  · next k' ts => exact if_neg fun h => hsig (by rw [h])
  · rfl

/-- **A step keeps the books right** unless it signals over a head that is not alive. -/
theorem Inv.step (h : Inv k m count g) (ha : g.sys.Enabled a) (hlive : HeadLive k g.sys a)
    (hstep : g.step k a = some g') : Inv k m count g' := by
  obtain ⟨⟨r, s'⟩, hs', rfl⟩ := Option.map_eq_some_iff.1 hstep
  obtain ⟨c, hk, hne, he, hsum⟩ := h.books
  obtain ⟨r', s'', hs'', hwf⟩ := h.wf.exists_step ha
  obtain ⟨rfl, rfl⟩ : r' = r ∧ s'' = s' := by simpa [hs''] using hs'
  obtain ⟨c', hk', heff⟩ := h.wf.effect ha hs' hk
  have hm := h.max
  refine ⟨hwf, hm, c', hk', ?_⟩
  dsimp only
  have hroom : (g.sys.sems k).state.hasRoom = decide (c < m) := by rw [hk]; rfl
  -- what is known of the head of the list when a signal is issued
  have hwakes : ∀ t, a = .signal k → (g.sys.sems k).blockedList.head? = some t →
      g.sys.Wakes t .normal := by
    rintro t rfl hhead
    have ht := mem_of_mem_head? (Option.mem_def.2 hhead)
    have hst := hlive rfl t hhead
    refine ⟨h.wf.inTasks t hst, (h.wf.status t ?_).resolve_right fun h' => hst h'.1, by simp⟩
    rw [h.wf.waits_eq ht]
    exact cons_ne_nil k []
  generalize (g.sys.sems k).blockedList = l at hne he hsum heff hwakes
  generalize (s''.sems k).blockedList = l' at heff
  cases heff with
  | same hsig hwait =>
    rw [issuedBy_of_ne hsig, consumedBy_of_ne hsig hwait]
    exact ⟨hne, he, by omega⟩
  | took hc =>
    -- a positive counter means that nobody is blocked
    have hl : l = [] := by
      by_contra hl
      have := hne hl
      omega
    subst hl
    simp only [issuedBy, consumedBy, if_true, length_nil, ne_eq, not_true, false_imp_iff,
      true_and, forall_true_left] at hsum he ⊢
    omega
  | @slept t timeout i _ _ hrun hc =>
    have hlen : c = -(l.length : ℤ) := by
      by_cases hl : l = []
      · have := he hl
        rw [hl, length_nil]
        omega
      · exact hne hl
    simp only [issuedBy, consumedBy, length_append, length_singleton, ne_eq, append_eq_nil_iff,
      cons_ne_self, and_false, not_false_eq_true, forall_true_left, false_imp_iff, true_and]
    push_cast
    omega
  | signalled hhead =>
    match l with
    | [] =>
      simp only [issuedBy, consumedBy, hroom, true_and, if_true, length_nil, ne_eq, not_true,
        false_imp_iff, forall_true_left, decide_eq_true_eq] at hsum he ⊢
      split_ifs <;> push_cast <;> omega
    | t :: l =>
      have := hne (cons_ne_nil t l)
      rw [length_cons] at this
      exact absurd ⟨by push_cast at this; omega, hwakes t rfl rfl⟩ (hhead t rfl)
  | @woke _ t _ hc hw =>
    have := hne (cons_ne_nil t l')
    simp only [issuedBy, consumedBy, hroom, true_and, if_true, length_cons, length_nil,
      decide_eq_true_eq] at hsum this ⊢
    push_cast at hsum this ⊢
    rw [if_pos (by omega)]
    refine ⟨fun _ => by omega, fun hl => ?_, by omega⟩
    rw [hl, length_nil] at this
    push_cast at this
    omega
  | @left _ _ _ _ t ht hleft =>
    have hpos := length_pos_of_mem ht
    have := hne (ne_nil_of_mem ht)
    have hlen : ((l.erase t).length : ℤ) = l.length - 1 := by
      rw [length_erase_of_mem ht]
      omega
    have hsig : a ≠ .signal k := by
      rintro rfl
      rcases hleft with ⟨_, _, _, h'⟩ | ⟨_, h'⟩ | h' <;> cases h'
    have hwait : ∀ t timeout i, a ≠ .wait t k timeout i := by
      rintro t' timeout i rfl
      rcases hleft with ⟨_, _, _, h'⟩ | ⟨_, h'⟩ | h' <;> cases h'
    rw [issuedBy_of_ne hsig, consumedBy_of_ne hsig fun t timeout i h' => absurd h' (hwait t timeout i), hlen]
    refine ⟨fun _ => by omega, fun hl => ?_, by omega⟩
    rw [hl, length_nil] at hlen
    omega

end

omit [DecidableEq κ] [DecidableEq τ] in
theorem Inv.start {s : Sys κ τ} (hs : s.Idle) (hk : (s.sems k).state = .semaphore m count)
    (h0 : 0 ≤ count) (hm : count ≤ m) : Inv k m count ⟨s, 0, 0⟩ := by
  refine ⟨hs.wf, by omega, count, hk, fun hne => absurd (hs.blockedList k) hne, fun _ => ⟨h0, hm⟩, ?_⟩
  simp [hs.blockedList k]

theorem Inv.exists_exec : ∀ {g : Ledger κ τ} {acts : List (Action κ τ)},
    Inv k m count g → Along (Ledger.step k) (fun g a => g.sys.Enabled a ∧ HeadLive k g.sys a) g acts →
    ∃ g', exec (Ledger.step k) g acts = some g'
  | g, [], _, _ => ⟨g, rfl⟩
  | g, a :: acts, h, ⟨⟨ha, hlive⟩, hrest⟩ => by
    obtain ⟨r, s', hs', -⟩ := h.wf.exists_step ha
    have hg' : g.step k a = some ⟨s', g.issued + issuedBy g.sys k a, g.consumed + consumedBy k a r⟩ := by
      rw [Ledger.step, hs']; rfl
    obtain ⟨g'', hg''⟩ := (h.step ha hlive hg').exists_exec (hrest _ hg')
    exact ⟨g'', by rw [exec, hg']; exact hg''⟩

/-- **The counter is right, and no step panics**, if the head of the list is alive at every signal. -/
theorem exec_headLive_accounted {s : Sys κ τ} {k : κ} {m count : ℤ} {acts : List (Action κ τ)} (hs : s.Idle)
    (hk : (s.sems k).state = .semaphore m count) (h0 : 0 ≤ count) (hm : count ≤ m)
    (hacts : Along (step k) (fun g a => g.sys.Enabled a ∧ HeadLive k g.sys a) ⟨s, 0, 0⟩ acts) :
    ∃ g, exec (step k) ⟨s, 0, 0⟩ acts = some g ∧ Accounted k m count g := by
  obtain ⟨g, hg⟩ := (Inv.start hs hk h0 hm).exists_exec hacts
  refine ⟨g, hg, Inv.accounted ?_⟩
  exact exec_induction (fun g a g' h ha hstep => h.step ha.1 ha.2 hstep) (.start hs hk h0 hm) hacts hg

def pair (m count : ℤ) : Sys Unit (Fin 2) where
  sems _ := ⟨.semaphore m count, []⟩
  tasks _ := ⟨.running, true, true, false, false, [], .normal⟩
  timerList := []
  timerNotifierList := []
  dropping := []

theorem pair_idle (m count : ℤ) : (pair m count).Idle :=
  ⟨fun _ => rfl, fun _ => ⟨rfl, show ¬ TaskStatus.running.Blocked by decide⟩, rfl, rfl, rfl, fun _ _ => rfl⟩

/-- Two waits, a signal that wakes the first thread, and a kill of the second one: the counter is
    right. -/
theorem exec_headLive_accounted_pair : ∃ g, exec (step ()) ⟨pair 1 0, 0, 0⟩ [.wait 0 () none false,
    .wait 1 () (some 5) true, .signal (), .kill 1, .dropTask 1] = some g ∧ Accounted () 1 0 g := by
  refine exec_headLive_accounted (pair_idle 1 0) rfl le_rfl zero_le_one ?_
  refine .cons ⟨⟨rfl, Or.inl rfl⟩, trivial⟩ rfl (.cons ⟨⟨rfl, Or.inl rfl⟩, trivial⟩ rfl
    (.cons ⟨trivial, fun _ t ht => ?_⟩ rfl (.cons ⟨rfl, trivial⟩ rfl
      (.cons ⟨mem_singleton.2 rfl, trivial⟩ rfl trivial))))
  cases ht
  exact show TaskStatus.waiting ≠ _ by decide

/-- The first of two blocked threads is marked as killed; then comes the signal. -/
def killedHead (t u : τ) : List (Action Unit τ) :=
  [.wait t () none false, .wait u () none false, .kill t, .signal (), .dropTask t]

/-- **A signal is lost**: the second thread stays blocked, and nobody has consumed the signal. -/
theorem signal_lost_on_killed_head : ∃ g, exec (step ()) ⟨pair 1 0, 0, 0⟩ (killedHead 0 1) = some g ∧
    g.sys.dropping = [] ∧ (g.sys.sems ()).state = .semaphore 1 0 ∧ (g.sys.sems ()).blockedList = [1]
    ∧ (g.sys.tasks 1).status = .waiting ∧ g.issued = 1 ∧ g.consumed = 0 ∧ ¬ Accounted () 1 0 g := by
  refine ⟨_, rfl, rfl, rfl, rfl, rfl, rfl, rfl, ?_⟩
  rintro ⟨c, -, h, -⟩
  exact absurd (h (by decide)).2 (by decide)

end Ledger

/-! ## The lists -/

end Archis.Sync

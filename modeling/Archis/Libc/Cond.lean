/-
  Condition variables (`userspace/libc/pthread.c`).

  Any number of threads use one condition variable and its mutex; every access to a counter or to `waiters` is a step.
  A `Watch` keeps the threads that a call was made for and that have not been unblocked since.  `exec_canReturn`: a
  signal unblocks one of them and a broadcast all, unless a thread that begins to wait later takes a token
  (`signal_stolen`).
-/
import Archis.Lib.Run
import Archis.Lib.Census

namespace Archis.Libc.Cond

open Archis.Lib
open Function (update update_of_ne update_self)

/-! ## Threads -/

/-- The counters: `cond->waiters`, `cond->sem`, `cond->waiters_lock` and the mutex. -/
structure Shared where
  waiters : ℕ
  sem : ℕ
  waitersLock : ℕ
  mutex : ℕ
deriving DecidableEq

/-- What a thread does next.  `held`: the caller holds the mutex; `n`: the `count` of a broadcast, or what is
left of it. -/
inductive Pc where
  | out (held : Bool)
  | waitLock
  | waitCount
  | waitUnlock
  | waitRelease
  | waitSem
  | waitMutex
  | sigLock (held : Bool)
  | sigTest (held : Bool)
  | sigDec (held : Bool)
  | sigPost (held : Bool)
  | sigUnlock (held : Bool)
  | bcLock (held : Bool)
  | bcRead (held : Bool)
  | bcZero (held : Bool) (n : ℕ)
  | bcUnlock (held : Bool) (n : ℕ)
  | bcPost (held : Bool) (n : ℕ)
deriving DecidableEq

inductive Action where
  | lock
  | unlock
  | wait
  | signal
  | broadcast
  | next
deriving DecidableEq

def Pc.act : Pc → Action → Shared → Option (Shared × Pc)
  | .out false, .lock, g => if 0 < g.mutex then some ({ g with mutex := g.mutex - 1 }, .out true) else none
  | .out true, .unlock, g => some ({ g with mutex := g.mutex + 1 }, .out false)
  | .out true, .wait, g => some (g, .waitLock)
  | .out held, .signal, g => some (g, .sigLock held)
  | .out held, .broadcast, g => some (g, .bcLock held)
  -- pthread_cond_wait
  | .waitLock, .next, g =>
    if 0 < g.waitersLock then some ({ g with waitersLock := g.waitersLock - 1 }, .waitCount) else none
  | .waitCount, .next, g => some ({ g with waiters := g.waiters + 1 }, .waitUnlock)
  | .waitUnlock, .next, g => some ({ g with waitersLock := g.waitersLock + 1 }, .waitRelease)
  | .waitRelease, .next, g => some ({ g with mutex := g.mutex + 1 }, .waitSem)
  | .waitSem, .next, g => if 0 < g.sem then some ({ g with sem := g.sem - 1 }, .waitMutex) else none
  | .waitMutex, .next, g => if 0 < g.mutex then some ({ g with mutex := g.mutex - 1 }, .out true) else none
  -- pthread_cond_signal
  | .sigLock held, .next, g =>
    if 0 < g.waitersLock then some ({ g with waitersLock := g.waitersLock - 1 }, .sigTest held) else none
  | .sigTest held, .next, g => if 0 < g.waiters then some (g, .sigDec held) else some (g, .sigUnlock held)
  | .sigDec held, .next, g => some ({ g with waiters := g.waiters - 1 }, .sigPost held)
  | .sigPost held, .next, g => some ({ g with sem := g.sem + 1 }, .sigUnlock held)
  | .sigUnlock held, .next, g => some ({ g with waitersLock := g.waitersLock + 1 }, .out held)
  -- pthread_cond_broadcast
  | .bcLock held, .next, g =>
    if 0 < g.waitersLock then some ({ g with waitersLock := g.waitersLock - 1 }, .bcRead held) else none
  | .bcRead held, .next, g => some (g, .bcZero held g.waiters)
  | .bcZero held n, .next, g => some ({ g with waiters := 0 }, .bcUnlock held n)
  | .bcUnlock held n, .next, g => some ({ g with waitersLock := g.waitersLock + 1 }, .bcPost held n)
  | .bcPost held 0, .next, g => some (g, .out held)
  | .bcPost held (n + 1), .next, g => some ({ g with sem := g.sem + 1 }, .bcPost held n)
  | _, _, _ => none

structure State (ι : Type*) where
  shared : Shared
  pc : ι → Pc

variable {ι : Type*}

def State.start : State ι := ⟨⟨0, 0, 1, 1⟩, fun _ => .out false⟩

variable [DecidableEq ι] (W : Finset ι)

def State.step (s : State ι) (op : ι × Action) : Option (State ι) :=
  ((s.pc op.1).act op.2 s.shared).map fun r => ⟨r.1, update s.pc op.1 r.2⟩

/-- The threads that have released the mutex and are not unblocked. -/
def State.asleep [Fintype ι] (s : State ι) : Finset ι := Finset.univ.filter fun t => s.pc t = .waitSem

/-! ## The calls that wake threads -/

/-- The two calls. -/
inductive Wake where
  | signal
  | broadcast
deriving DecidableEq

def Wake.action : Wake → Action
  | .signal => .signal
  | .broadcast => .broadcast

/-- The system after a call, with the threads the call was made for that have not been unblocked since. -/
structure Watch (ι : Type*) where
  sys : State ι
  blocked : Finset ι

/-- A step, which may unblock a thread. -/
def Watch.step (w : Watch ι) (op : ι × Action) : Option (Watch ι) :=
  (w.sys.step op).map fun s => ⟨s, w.blocked.filter fun t => s.pc t = .waitSem⟩

/-- Of the threads `W` the call was made for, a signal has unblocked one and a broadcast all. -/
def Watch.Served (w : Watch ι) : Wake → Prop
  | .signal => W.Nonempty → ∃ t ∈ W, t ∉ w.blocked
  | .broadcast => ∀ t ∈ W, t ∉ w.blocked

/-- The threads can still be unblocked without another signal or broadcast. -/
def Watch.CanReturn (w : Watch ι) (k : Wake) : Prop :=
  ∃ (ops : List (ι × Action)) (w' : Watch ι), (∀ op ∈ ops, op.2 ≠ .signal ∧ op.2 ≠ .broadcast) ∧
    exec Watch.step w ops = some w' ∧ w'.Served W k

/-- How many threads the call has still to unblock. -/
def Watch.need (w : Watch ι) : Wake → ℕ
  | .signal => if w.blocked = W then min W.card 1 else 0
  | .broadcast => w.blocked.card

section
variable {W : Finset ι} (k : Wake) {w w' : Watch ι}

theorem Watch.need_le_card (W : Finset ι) (k : Wake) (w : Watch ι) : w.need W k ≤ w.blocked.card := by
  cases k with
  | signal =>
    unfold Watch.need
    split_ifs with heq
    · rw [heq]
      exact min_le_left _ _
    · exact Nat.zero_le _
  | broadcast => exact le_rfl

theorem Watch.need_signal_le (W : Finset ι) (w : Watch ι) : w.need W .signal ≤ 1 := by
  unfold Watch.need
  split_ifs
  · exact min_le_right _ _
  · exact Nat.zero_le _

theorem Watch.need_mono (hsub : w'.blocked ⊆ w.blocked) (h : w.blocked ⊆ W) : w'.need W k ≤ w.need W k := by
  cases k with
  | signal =>
    unfold Watch.need
    by_cases heq : w'.blocked = W
    · rw [if_pos heq, if_pos (h.antisymm (heq ▸ hsub))]
    · rw [if_neg heq]
      exact Nat.zero_le _
  | broadcast => exact Finset.card_le_card hsub

theorem Watch.need_lt {t : ι} (hsub : w'.blocked ⊆ w.blocked) (h : w.blocked ⊆ W) (ht : t ∈ w.blocked)
    (ht' : t ∉ w'.blocked) : w'.need W k ≤ w.need W k - 1 := by
  cases k with
  | signal =>
    have hne : w'.blocked ≠ W := fun heq => ht' (heq ▸ h ht)
    rw [Watch.need, if_neg hne]
    exact Nat.zero_le _
  | broadcast =>
    exact Nat.le_sub_one_of_lt (Finset.card_lt_card ⟨hsub, fun hle => ht' (hle ht)⟩)

theorem Watch.served_of_need {k : Wake} (h : w.blocked ⊆ W) (hneed : w.need W k = 0) : w.Served W k := by
  cases k with
  | signal =>
    intro hW
    by_contra! hall
    have hcard := hW.card_pos
    rw [Watch.need, if_pos (h.antisymm hall)] at hneed
    omega
  | broadcast =>
    intro t _ ht
    rw [Finset.card_eq_zero.1 hneed] at ht
    exact Finset.notMem_empty t ht

end

variable [Fintype ι]

/-- The tokens a thread has taken off `waiters` and not posted yet. -/
def Pc.owed : Pc → ℕ
  | .sigPost _ => 1
  | .bcUnlock _ n => n
  | .bcPost _ n => n
  | _ => 0

/-- The tokens that are posted or will be. -/
def State.tokens (s : State ι) : ℕ := s.shared.sem + census Pc.owed s.pc

/-- A thread the call was not made for takes a token only if enough are left. -/
def Watch.Fair (W : Finset ι) (k : Wake) (w : Watch ι) (op : ι × Action) : Prop :=
  w.sys.pc op.1 = .waitSem → op.1 ∉ w.blocked → w.need W k < w.sys.tokens

instance (W : Finset ι) (k : Wake) (w : Watch ι) (op : ι × Action) : Decidable (w.Fair W k op) :=
  inferInstanceAs (Decidable (_ → _ → _))

/-! ## What a step does -/

/-- The thread holds `waiters_lock`. -/
def Pc.crit : Pc → ℕ
  | .waitCount | .waitUnlock | .sigTest _ | .sigDec _ | .sigPost _ | .sigUnlock _ => 1
  | .bcRead _ | .bcZero _ _ | .bcUnlock _ _ => 1
  | _ => 0

/-- The thread is counted as a waiter and not unblocked. -/
def Pc.counted : Pc → ℕ
  | .waitUnlock | .waitRelease | .waitSem => 1
  | _ => 0

/-- What the holder of `waiters_lock` has read is still so. -/
def Pc.Ready (g : Shared) : Pc → Prop
  | .sigDec _ => 0 < g.waiters
  | .bcZero _ n => g.waiters = n
  | _ => True

/-- The call the thread is in, if that has not changed `waiters` yet. -/
def Pc.pending : Pc → Option Wake
  | .sigLock _ | .sigTest _ | .sigDec _ => some .signal
  | .bcLock _ | .bcRead _ | .bcZero _ _ => some .broadcast
  | _ => none

/-- What a step from `p` to `p'` does to the counters. -/
structure Moved (p : Pc) (g : Shared) (p' : Pc) (g' : Shared) : Prop where
  crit : g'.waitersLock + p'.crit = g.waitersLock + p.crit
  count : g'.waiters + (g'.sem + p'.owed) + p.counted = g.waiters + (g.sem + p.owed) + p'.counted
  ready : p'.Ready g'
  frame : p.crit = 0 → g'.waiters = g.waiters
  tokens : p ≠ .waitSem → g.sem + p.owed ≤ g'.sem + p'.owed
  taken : p = .waitSem → g.sem = g'.sem + 1 ∧ p' = .waitMutex
  effect : ∀ k, p.pending = some k → p'.pending = some k ∨ g'.waiters = 0 ∨ k = .signal ∧ 1 ≤ p'.owed

theorem Pc.act_moved {p p' : Pc} {a : Action} {g g' : Shared} (hready : p.Ready g)
    (h : p.act a g = some (g', p')) : Moved p g p' g' := by
  unfold Pc.act at h
  split at h <;> (try split at h) <;> cases h <;> constructor <;>
    simp_all [Pc.crit, Pc.owed, Pc.counted, Pc.Ready, Pc.pending] <;> omega

theorem Pc.Ready.frame {p : Pc} {g g' : Shared} (h : p.Ready g) (hg : p.crit = 0 ∨ g'.waiters = g.waiters) :
    p.Ready g' := by
  cases p <;> simp_all [Pc.Ready, Pc.crit]

section
variable {s s' : State ι} {op : ι × Action}

/-- One thread holds `waiters_lock`, and every waiter that is counted has a token or is in `waiters`. -/
structure State.Inv (s : State ι) : Prop where
  lock : s.shared.waitersLock + census Pc.crit s.pc = 1
  count : s.shared.waiters + s.tokens = census Pc.counted s.pc
  ready : ∀ t, (s.pc t).Ready s.shared

omit [DecidableEq ι] in
theorem State.Inv.start : (State.start : State ι).Inv where
  lock := by simp [State.start, census, Pc.crit]
  count := by simp [State.start, State.tokens, census, Pc.owed, Pc.counted]
  ready _ := trivial

theorem State.Inv.moved (hs : s.Inv) (h : s.step op = some s') :
    ∃ p', s'.pc = update s.pc op.1 p' ∧ Moved (s.pc op.1) s.shared p' s'.shared := by
  obtain ⟨⟨g', p'⟩, hact, rfl⟩ := Option.map_eq_some_iff.1 h
  exact ⟨p', rfl, Pc.act_moved (hs.ready op.1) hact⟩

theorem State.Inv.step (hs : s.Inv) (h : s.step op = some s') : s'.Inv := by
  obtain ⟨p', hpc, hm⟩ := hs.moved h
  have hlock := hs.lock
  have hcount := hs.count
  refine ⟨?_, ?_, fun u => ?_⟩
  · have hmove := hm.crit
    have hcensus := census_update Pc.crit s.pc op.1 p'
    rw [hpc]
    omega
  · have hmove := hm.count
    have howed := census_update Pc.owed s.pc op.1 p'
    have hcounted := census_update Pc.counted s.pc op.1 p'
    simp only [State.tokens, hpc] at hcount ⊢
    omega
  · by_cases hu : u = op.1
    · rw [hpc, hu, update_self]
      exact hm.ready
    -- of two threads, only one holds the lock
    rw [hpc, update_of_ne hu]
    refine (hs.ready u).frame ?_
    by_contra! hcrit
    have hop : 0 < (s.pc op.1).crit := Nat.pos_of_ne_zero fun h0 => hcrit.2 (hm.frame h0)
    exact hu (eq_of_census_le_one (by omega) hop (Nat.pos_of_ne_zero hcrit.1))

end

/-! ## Tokens for the threads of a call -/

section
variable {W : Finset ι} {k : Wake} {caller : ι} {w w' : Watch ι} {op : ι × Action}

omit [Fintype ι] in
theorem Watch.step_eq (h : w.step op = some w') :
    w.sys.step op = some w'.sys ∧ w'.blocked = w.blocked.filter fun t => w'.sys.pc t = .waitSem := by
  obtain ⟨s', hs', rfl⟩ := Option.map_eq_some_iff.1 h
  exact ⟨hs', rfl⟩

/-- The threads wait, and there is a token for each that is needed unless the call has still to provide it. -/
structure Watch.Inv (W : Finset ι) (k : Wake) (caller : ι) (w : Watch ι) : Prop where
  sys : w.sys.Inv
  sub : w.blocked ⊆ W
  asleep : ∀ t ∈ w.blocked, w.sys.pc t = .waitSem
  covered : (w.sys.pc caller).pending = some k ∨ w.need W k ≤ w.sys.tokens

/-- **A step** keeps a token for every thread that needs one. -/
theorem Watch.Inv.step (hw : w.Inv W k caller) (hfair : w.Fair W k op) (h : w.step op = some w') :
    w'.Inv W k caller := by
  obtain ⟨hs', hblocked⟩ := Watch.step_eq h
  obtain ⟨p', hpc, hm⟩ := hw.sys.moved hs'
  have hsys := hw.sys.step hs'
  have hsub : w'.blocked ⊆ w.blocked := hblocked ▸ Finset.filter_subset _ _
  have hasleep : ∀ t ∈ w'.blocked, w'.sys.pc t = .waitSem := fun t ht => by
    rw [hblocked] at ht
    exact (Finset.mem_filter.1 ht).2
  refine ⟨hsys, hsub.trans hw.sub, hasleep, ?_⟩
  have howed := census_update Pc.owed w.sys.pc op.1 p'
  rw [← hpc] at howed
  have hself : w'.sys.pc op.1 = p' := by rw [hpc, update_self]
  have hother : caller ≠ op.1 → w'.sys.pc caller = w.sys.pc caller := fun hne => by
    rw [hpc, update_of_ne hne]
  by_cases hwake : w.sys.pc op.1 = .waitSem
  · -- a token is taken
    obtain ⟨hsem, hp'⟩ := hm.taken hwake
    have htokens : w.sys.tokens = w'.sys.tokens + 1 := by
      simp only [hwake, hp', Pc.owed] at howed
      simp only [State.tokens]
      omega
    rcases hw.covered with hpend | hneed
    · refine .inl (hother ?_ ▸ hpend)
      rintro rfl
      rw [hwake] at hpend
      cases hpend
    · right
      by_cases hmem : op.1 ∈ w.blocked
      · have hgone : op.1 ∉ w'.blocked := fun hin => by
          have := hasleep _ hin
          rw [hself, hp'] at this
          cases this
        have := Watch.need_lt k hsub hw.sub hmem hgone
        omega
      · have hleft := hfair hwake hmem
        have := Watch.need_mono k hsub hw.sub
        omega
  · have htokens : w.sys.tokens ≤ w'.sys.tokens := by
      have := hm.tokens hwake
      simp only [State.tokens]
      omega
    rcases hw.covered with hpend | hneed
    · by_cases hc : caller = op.1
      · rcases hm.effect k (hc ▸ hpend) with hpend' | hzero | ⟨rfl, hone⟩
        · exact .inl (by rw [hc, hself]; exact hpend')
        · -- every waiter has a token
          right
          have hcount := hsys.count
          have hcard : w'.blocked.card ≤ census Pc.counted w'.sys.pc :=
            card_le_census fun t ht => by rw [hasleep t ht]; exact le_rfl
          have := Watch.need_le_card W k w'
          omega
        · right
          have hle := le_census Pc.owed w'.sys.pc op.1
          rw [hself] at hle
          have := Watch.need_signal_le W w'
          simp only [State.tokens]
          omega
      · exact .inl (hother hc ▸ hpend)
    · exact .inr ((Watch.need_mono k hsub hw.sub).trans (hneed.trans htokens))

/-! ## The rest of the calls -/

/-- A bound on the steps a thread has left in a call that wakes, or in holding `waiters_lock`. -/
def Pc.left : Pc → ℕ
  | .waitCount => 3
  | .waitUnlock => 1
  | .sigLock _ => 5
  | .sigTest _ => 4
  | .sigDec _ => 3
  | .sigPost _ => 2
  | .sigUnlock _ => 1
  | .bcLock _ => 5
  | .bcRead _ => 4
  | .bcZero _ _ => 3
  | .bcUnlock _ n => n + 2
  | .bcPost _ n => n + 1
  | _ => 0

theorem Pc.left_of_pending {p : Pc} {k : Wake} (h : p.pending = some k) : 0 < p.left := by
  cases p <;> simp_all [Pc.pending, Pc.left]

theorem Pc.owed_le_left (p : Pc) : p.owed ≤ p.left := by
  cases p <;> simp [Pc.owed, Pc.left]

theorem Pc.act_left {p : Pc} {g : Shared} (hleft : 0 < p.left) (hready : p.Ready g) (hlock : p.crit = 0 →
    0 < g.waitersLock) : ∃ g' p', p.act .next g = some (g', p') ∧ g'.waiters + p'.left < g.waiters + p.left := by
  cases p with
  | bcPost held n => cases n <;> simp [Pc.left, Pc.act]
  | sigTest held =>
    by_cases hpos : 0 < g.waiters <;> simp [Pc.left, Pc.act, hpos]
  | _ => simp_all [Pc.left, Pc.act, Pc.Ready, Pc.crit]

/-- **Some thread goes on** as long as a call that wakes is not finished. -/
theorem State.Inv.advance {s : State ι} (hs : s.Inv) (hleft : 0 < census Pc.left s.pc) :
    ∃ t s', s.step (t, .next) = some s' ∧ s.pc t ≠ .waitSem ∧
      s'.shared.waiters + census Pc.left s'.pc < s.shared.waiters + census Pc.left s.pc := by
  obtain ⟨t, ht, hlock⟩ : ∃ t, 0 < (s.pc t).left ∧ ((s.pc t).crit = 0 → 0 < s.shared.waitersLock) := by
    have hone := hs.lock
    by_cases hcrit : 0 < census Pc.crit s.pc
    · obtain ⟨t, ht⟩ := exists_of_census_pos hcrit
      refine ⟨t, ?_, fun h0 => by omega⟩
      revert ht
      cases s.pc t <;> simp [Pc.crit, Pc.left]
    · obtain ⟨t, ht⟩ := exists_of_census_pos hleft
      exact ⟨t, ht, fun _ => by omega⟩
  obtain ⟨g', p', hact, hlt⟩ := Pc.act_left ht (hs.ready t) hlock
  refine ⟨t, ⟨g', update s.pc t p'⟩, ?_, ?_, ?_⟩
  · rw [State.step, hact]
    rfl
  · intro hpc
    rw [hpc] at ht
    exact absurd ht (by decide)
  · have := census_update Pc.left s.pc t p'
    dsimp only
    omega

theorem Watch.Inv.take (hw : w.Inv W k caller) (hneed : 0 < w.need W k) (hleft : census Pc.left w.sys.pc = 0) :
    ∃ t ∈ w.blocked, ∃ s', w.sys.step (t, .next) = some s' ∧ s'.pc t ≠ .waitSem ∧
      s'.shared.waiters + census Pc.left s'.pc = w.sys.shared.waiters := by
  obtain ⟨t, ht⟩ := Finset.card_pos.1 (hneed.trans_le (Watch.need_le_card W k w))
  have hpc := hw.asleep t ht
  have htokens : w.need W k ≤ w.sys.tokens := hw.covered.resolve_left fun hpend => by
    have hle := le_census Pc.left w.sys.pc caller
    have := Pc.left_of_pending hpend
    omega
  have hsem : 0 < w.sys.shared.sem := by
    have := census_mono w.sys.pc Pc.owed_le_left
    simp only [State.tokens] at htokens
    omega
  refine ⟨t, ht, ⟨{ w.sys.shared with sem := w.sys.shared.sem - 1 }, update w.sys.pc t .waitMutex⟩, ?_, ?_, ?_⟩
  · simp [State.step, hpc, Pc.act, hsem]
  · simp
  · have := census_update Pc.left w.sys.pc t .waitMutex
    simp only [hpc, Pc.left] at this
    dsimp only
    omega

/-- **The threads that need a token** can get one without another call. -/
theorem Watch.Inv.canReturn (hw : w.Inv W k caller) : w.CanReturn W k := by
  obtain ⟨n, hn⟩ : ∃ n, w.sys.shared.waiters + census Pc.left w.sys.pc + w.blocked.card < n :=
    ⟨_, Nat.lt_succ_self _⟩
  induction n generalizing w with
  | zero => omega
  | succ n ih =>
    rcases Nat.eq_zero_or_pos (w.need W k) with hneed | hneed
    · exact ⟨[], w, by simp, rfl, Watch.served_of_need hw.sub hneed⟩
    -- the calls are finished first, and then the tokens are taken
    obtain ⟨t, s', hs', hfair, hlt⟩ : ∃ t s', w.sys.step (t, .next) = some s' ∧ w.Fair W k (t, .next) ∧
        s'.shared.waiters + census Pc.left s'.pc + (w.blocked.filter fun t => s'.pc t = .waitSem).card <
          w.sys.shared.waiters + census Pc.left w.sys.pc + w.blocked.card := by
      rcases Nat.eq_zero_or_pos (census Pc.left w.sys.pc) with hzero | hpos
      · obtain ⟨t, ht, s', hs', hawake, hlt⟩ := hw.take hneed hzero
        have hcard : (w.blocked.filter fun t => s'.pc t = .waitSem).card < w.blocked.card :=
          Finset.card_lt_card (Finset.filter_ssubset.2 ⟨t, ht, hawake⟩)
        exact ⟨t, s', hs', fun _ h => absurd ht h, by omega⟩
      · obtain ⟨t, s', hs', hawake, hlt⟩ := hw.sys.advance hpos
        have hcard := Finset.card_filter_le w.blocked fun t => s'.pc t = .waitSem
        exact ⟨t, s', hs', fun h => absurd h hawake, by omega⟩
    have hstep : w.step (t, .next) = some ⟨s', w.blocked.filter fun t => s'.pc t = .waitSem⟩ := by
      rw [Watch.step, hs']
      rfl
    obtain ⟨ops, w', hops, hrun, hserved⟩ := ih (hw.step hfair hstep) (by dsimp only; omega)
    refine ⟨(t, .next) :: ops, w', List.forall_mem_cons.2 ⟨?_, hops⟩, exec_cons.2 ⟨_, hstep, hrun⟩, hserved⟩
    constructor <;> simp

theorem Pc.act_wake {p p' : Pc} {g g' : Shared} {k : Wake} (h : p.act k.action g = some (g', p')) :
    p ≠ .waitSem ∧ p'.pending = some k := by
  cases k <;> cases p <;> simp_all [Pc.act, Wake.action] <;> rw [← h.2] <;> rfl

theorem Watch.Inv.start {s s' : State ι} (hs : s.Inv) (hcall : s.step (caller, k.action) = some s') :
    Watch.Inv s.asleep k caller ⟨s', s.asleep⟩ := by
  obtain ⟨⟨g', p'⟩, hact, hs'⟩ := Option.map_eq_some_iff.1 hcall
  obtain ⟨hpc, hpend⟩ := Pc.act_wake hact
  dsimp only at hs' hpc
  refine ⟨hs.step hcall, subset_rfl, fun t ht => ?_, .inl ?_⟩
  · have hsleep := (Finset.mem_filter.1 ht).2
    have hne : t ≠ caller := by
      rintro rfl
      exact hpc hsleep
    rw [← hs', ← hsleep]
    exact update_of_ne hne _ _
  · rw [← hs', ← hpend]
    exact congrArg Pc.pending (update_self _ _ _)

/-- **A call that wakes** unblocks the threads it was made for: after every run in which other threads take only
tokens that are not needed, one of them (all for a broadcast) has been unblocked or can be without another such
call. -/
theorem exec_canReturn (k : Wake) (caller : ι) {s s' : State ι} {ops ops' : List (ι × Action)}
    (hrun : exec State.step State.start ops = some s) (hcall : s.step (caller, k.action) = some s')
    (hfair : Along Watch.step (Watch.Fair s.asleep k) ⟨s', s.asleep⟩ ops')
    (hrun' : exec Watch.step ⟨s', s.asleep⟩ ops' = some w) : w.CanReturn s.asleep k := by
  have hs : s.Inv := exec_induction (I := State.Inv) (fun _ _ _ hs _ h => hs.step h) State.Inv.start
    (.of_forall fun _ _ _ => trivial) hrun
  exact (exec_induction (I := Watch.Inv s.asleep k caller) (fun _ _ _ hw hok h => hw.step hok h)
    (.start hs hcall) hfair hrun').canReturn

end

/-! ## A token that is stolen -/

def slept : State (Fin 3) :=
  (exec State.step State.start [(0, .lock), (0, .wait), (0, .next), (0, .next), (0, .next), (0, .next)]).getD
    State.start

def signalled : Watch (Fin 3) := ⟨(slept.step (2, .signal)).getD slept, slept.asleep⟩

def later : List (Fin 3 × Action) :=
  [(2, .next), (2, .next), (2, .next), (2, .next), (2, .next),
    (1, .lock), (1, .wait), (1, .next), (1, .next), (1, .next), (1, .next)]

theorem exec_canReturn_later : ∃ w, exec Watch.step signalled later = some w ∧ w.CanReturn slept.asleep .signal := by
  have hrun : exec State.step State.start [(0, .lock), (0, .wait), (0, .next), (0, .next), (0, .next), (0, .next)] =
      some slept := rfl
  have hfair : Along Watch.step (Watch.Fair slept.asleep .signal) signalled later := by decide
  exact ⟨_, rfl, exec_canReturn .signal 2 hrun rfl hfair rfl⟩

def Pc.quiet : Pc → Bool
  | .out _ | .waitLock | .waitCount | .waitUnlock | .waitRelease | .waitSem | .waitMutex => true
  | _ => false

theorem Pc.act_quiet {p p' : Pc} {a : Action} {g g' : Shared} (hp : p.quiet) (hsem : g.sem = 0) (ha : a ≠ .signal ∧
    a ≠ .broadcast) (h : p.act a g = some (g', p')) : p ≠ .waitSem ∧ p'.quiet ∧ g'.sem = 0 := by
  unfold Pc.act at h
  split at h <;> (try split at h) <;> cases h <;> simp_all [Pc.quiet]

/-- Without tokens and calls that wake, nobody is unblocked. -/
structure Watch.Stuck (W : Finset ι) (w : Watch ι) : Prop where
  sem : w.sys.shared.sem = 0
  quiet : ∀ t, (w.sys.pc t).quiet
  blocked : w.blocked = W
  asleep : ∀ t ∈ W, w.sys.pc t = .waitSem

omit [Fintype ι] in
theorem Watch.Stuck.step {W : Finset ι} {w w' : Watch ι} {op : ι × Action} (hw : w.Stuck W)
    (ha : op.2 ≠ .signal ∧ op.2 ≠ .broadcast) (h : w.step op = some w') : w'.Stuck W := by
  obtain ⟨s', hs', rfl⟩ := Option.map_eq_some_iff.1 h
  obtain ⟨⟨g', p'⟩, hact, rfl⟩ := Option.map_eq_some_iff.1 hs'
  obtain ⟨hawake, hquiet, hsem⟩ := Pc.act_quiet (hw.quiet op.1) hw.sem ha hact
  have hasleep : ∀ t ∈ W, update w.sys.pc op.1 p' t = .waitSem := fun t ht => by
    have hsleep := hw.asleep t ht
    have hne : t ≠ op.1 := by
      rintro rfl
      exact hawake hsleep
    rw [update_of_ne hne, hsleep]
  refine ⟨hsem, fun t => ?_, ?_, hasleep⟩
  · by_cases ht : t = op.1
    · simpa [ht] using hquiet
    · simpa [ht] using hw.quiet t
  · rw [hw.blocked, Finset.filter_eq_self]
    exact hasleep

/-- **A signal is lost**: the second thread takes the token of the first, which then cannot be unblocked. -/
theorem signal_stolen :
    ∃ w, exec State.step State.start [(0, .lock), (0, .wait), (0, .next), (0, .next), (0, .next), (0, .next)] =
        some slept ∧ slept.asleep = {0} ∧ slept.step (2, .signal) = some signalled.sys ∧
      exec Watch.step signalled (later ++ [(1, .next)]) = some w ∧ ¬ w.CanReturn slept.asleep .signal := by
  refine ⟨_, rfl, by decide, rfl, rfl, ?_⟩
  rintro ⟨ops, w', hops, hrun, hserved⟩
  have hstuck : w'.Stuck {0} := by
    have hquiet : ∀ w, Along Watch.step (fun _ op => op.2 ≠ .signal ∧ op.2 ≠ .broadcast) w ops :=
      fun w => .of_forall fun op hop _ => hops op hop
    refine exec_induction (I := Watch.Stuck {0}) (fun _ _ _ hw ha h => hw.step ha h) ?_ (hquiet _) hrun
    exact ⟨rfl, by decide, rfl, by decide⟩
  obtain ⟨t, ht, hnot⟩ := hserved ⟨0, by decide⟩
  exact hnot (hstuck.blocked ▸ ht)

/-! ## Owners and waiters -/

/-- The thread holds the mutex. -/
def Pc.holds : Pc → ℕ
  | .out held | .sigLock held | .sigTest held | .sigDec held | .sigPost held | .sigUnlock held | .bcLock held
  | .bcRead held | .bcZero held _ | .bcUnlock held _ | .bcPost held _ => held.toNat
  | .waitLock | .waitCount | .waitUnlock | .waitRelease => 1
  | .waitSem | .waitMutex => 0

theorem Pc.act_holds {p p' : Pc} {a : Action} {g g' : Shared} (h : p.act a g = some (g', p')) :
    g'.mutex + p'.holds = g.mutex + p.holds := by
  unfold Pc.act at h
  split at h <;> (try split at h) <;> cases h <;> simp_all [Pc.holds] <;> omega

/-- **One owner each, and no waiter is forgotten**: at most one thread holds the mutex and one `waiters_lock`, and every
    thread in `pthread_cond_wait` that is counted is in `waiters` or has a token. -/
theorem exec_owners {ι : Type*} [DecidableEq ι] [Fintype ι] {ops : List (ι × Action)} {s : State ι}
    (hrun : exec State.step State.start ops = some s) : s.shared.mutex + census Pc.holds s.pc = 1 ∧
      s.shared.waitersLock + census Pc.crit s.pc = 1 ∧ s.shared.waiters + s.tokens = census Pc.counted s.pc := by
  have hinv : s.shared.mutex + census Pc.holds s.pc = 1 ∧ s.Inv := by
    refine exec_induction (I := fun s : State ι => s.shared.mutex + census Pc.holds s.pc = 1 ∧ s.Inv) ?_
      ⟨?_, .start⟩ (.of_forall fun _ _ _ => trivial) hrun
    · rintro s op t ⟨hm, hs⟩ - hstep
      refine ⟨?_, hs.step hstep⟩
      obtain ⟨⟨g', p'⟩, hact, rfl⟩ := Option.map_eq_some_iff.1 hstep
      have hmove := Pc.act_holds hact
      have hcensus := census_update Pc.holds s.pc op.1 p'
      dsimp only
      omega
    · simp [State.start, census, Pc.holds]
  exact ⟨hinv.1, hinv.2.lock, hinv.2.count⟩

theorem exec_owners_slept : slept.shared.mutex + census Pc.holds slept.pc = 1 ∧
    slept.shared.waitersLock + census Pc.crit slept.pc = 1 ∧
      slept.shared.waiters + slept.tokens = census Pc.counted slept.pc :=
  exec_owners (show exec State.step State.start [(0, .lock), (0, .wait), (0, .next), (0, .next), (0, .next),
    (0, .next)] = some slept from rfl)

end Archis.Libc.Cond

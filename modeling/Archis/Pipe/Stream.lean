/-
  Pipes: `pipe.rs`.

  A round of the loop of `read` or `write` under the stream's lock is one step, and so is each wait.  Whether a copy to or
  from the user's memory succeeds is chosen by the environment.  No byte is lost, duplicated or reordered
  (`exec_conserves`), but a read whose copy failed reports success (`exec_delivered_iff`).
-/
import Archis.Lib.RingBuffer
import Archis.Lib.Run
import Archis.Sync.Sem

namespace Archis.Pipe

open Lib (RingBuffer exec Along exec_induction exec_cons)
open Sync (Sys Outcome WaitError SignalCause)
open List hiding get next

abbrev maxStreamCapacity : ℕ := 512

/-- The two events of a pipe. -/
inductive Waiter where
  | readWaiter
  | writeWaiter
  deriving DecidableEq

inductive Error where
  | wait (e : WaitError)
  | copy

/-- Where a thread is in a call, with the length of its buffer or the bytes it has to write. -/
inductive Pc where
  | idle
  | read (len : ℕ)
  /-- The stream was empty and there were writers. -/
  | readWait (len : ℕ)
  | readBlocked (len : ℕ)
  | write (data : List UInt8)
  /-- The stream was full. -/
  | writeWait (data : List UInt8)
  | writeBlocked (data : List UInt8)

/-- A read that found bytes: those it took, whether they reached the user's buffer, and its result. -/
structure ReadCall where
  bytes : List UInt8
  copied : Bool
  result : Except Error ℕ

/-- A write that found room. -/
structure WriteCall where
  data : List UInt8
  result : Except Error ℕ

structure State (τ : Type) where
  sys : Sys Waiter τ
  stream : RingBuffer UInt8 maxStreamCapacity
  writerCount : ℕ
  /-- Drops of a last writer between `fetch_sub` and `signal`. -/
  closing : ℕ
  pc : τ → Pc
  reads : List ReadCall
  writes : List WriteCall

inductive Event (τ : Type) where
  | read (t : τ) (len : ℕ)
  | write (t : τ) (data : List UInt8)
  /-- A round of the loop of `read` or `write` under the stream's lock; the copy succeeds or not. -/
  | round (t : τ) (copied : Bool)
  | wait (t : τ)
  /-- A thread that is not blocked any more returns from its wait. -/
  | resume (t : τ)
  /-- A writer's handle is made, or cloned. -/
  | newWriter
  | dropWriter
  /-- The drop of a last writer goes on. -/
  | closeSignal
  | sched (a : Sync.Action Waiter τ)

namespace State
variable {τ : Type} [DecidableEq τ] (p : State τ) (t : τ)

/-! ## The code -/

def setPc (c : Pc) : State τ := { p with pc := Function.update p.pc t c }

def signal (k : Waiter) : Option (State τ) :=
  (p.sys.doSignal k).map fun (_, sys) => { p with sys }

/-- `if c { waiter.signal() }`. -/
def signalIf (c : Bool) (k : Waiter) : Option (State τ) :=
  if c then p.signal k else some p

/-- A round of `Pipe::read`. -/
def readRound (len : ℕ) (copied : Bool) : Option (State τ) :=
  if p.stream.len > 0 then do
    let give := min len p.stream.len
    let bytes := p.stream.peekInto give
    let p := { p with stream := if copied then p.stream.advance give else p.stream }
    let p ← p.signal .writeWaiter
    let p ← p.signalIf (p.stream.len > 0) .readWaiter
    return { p.setPc t .idle with reads := p.reads ++ [⟨bytes, copied, .ok give⟩] }
  else if p.writerCount = 0 then some (p.setPc t .idle)
  else some (p.setPc t (.readWait len))

/-- A round of `Pipe::write`. -/
def writeRound (data : List UInt8) (copied : Bool) : Option (State τ) :=
  if p.stream.len = maxStreamCapacity then some (p.setPc t (.writeWait data))
  else if copied then do
    let get := min data.length (maxStreamCapacity - p.stream.len)
    let p := { p with stream := (data.take get).foldl RingBuffer.push p.stream }
    let p ← p.signal .readWaiter
    let p ← p.signalIf (p.stream.len < maxStreamCapacity) .writeWaiter
    return { p.setPc t .idle with writes := p.writes ++ [⟨data, .ok get⟩] }
  else some { p.setPc t .idle with writes := p.writes ++ [⟨data, .error .copy⟩] }

/-- `wait(true)` on an event: the loop goes round again, the call fails, or the thread sleeps. -/
def wait (k : Waiter) (again blocked : Pc) : Option (State τ) :=
  (p.sys.doWait t k none true).map fun (o, sys) =>
    { p with sys }.setPc t (match o with
      | .blocked => blocked
      | .returned (.ok _) => again
      | .returned (.error _) => .idle)

/-- What `do_wait` returns after the thread has slept. -/
def resume (again : Pc) : State τ :=
  p.setPc t (match (p.sys.tasks t).lastSignalCause with
    | .normal => again
    | .timerExpiry | .interruption => .idle)

/-- One step; no value is a panic. -/
def step (p : State τ) : Event τ → Option (State τ)
  | .read t len => some (if len = 0 then p else p.setPc t (.read len))
  | .write t data => some (if data.length = 0 then p else p.setPc t (.write data))
  | .round t copied =>
    match p.pc t with
    | .read len => p.readRound t len copied
    | .write data => p.writeRound t data copied
    | _ => some p
  | .wait t =>
    match p.pc t with
    | .readWait len => p.wait t .readWaiter (.read len) (.readBlocked len)
    | .writeWait data => p.wait t .writeWaiter (.write data) (.writeBlocked data)
    | _ => some p
  | .resume t =>
    match p.pc t with
    | .readBlocked len => some (p.resume t (.read len))
    | .writeBlocked data => some (p.resume t (.write data))
    | _ => some p
  | .newWriter => some { p with writerCount := p.writerCount + 1 }
  | .dropWriter =>
    if p.writerCount = 0 then none
    else some { p with
      writerCount := p.writerCount - 1
      closing := if p.writerCount = 1 then p.closing + 1 else p.closing }
  | .closeSignal => ({ p with closing := p.closing - 1 } : State τ).signal .readWaiter
  | .sched a => (p.sys.step a).map fun (_, sys) => { p with sys }

def new (sys : Sys Waiter τ) : State τ where
  sys := sys
  stream := .new 0
  writerCount := 0
  closing := 0
  pc _ := .idle
  reads := []
  writes := []

/-! ## Bytes -/

/-- The bytes that `write` has reported as written. -/
def written : List UInt8 :=
  p.writes.flatMap fun w => match w.result with
    | .ok n => w.data.take n
    | .error _ => []

def delivered : List UInt8 :=
  p.reads.flatMap fun r => if r.copied then r.bytes else []

/-- **Every byte exactly once and in order**: what was written is what was delivered and then the stream. -/
def Conserves : Prop :=
  p.written = p.delivered ++ p.stream.toList ∧ ∀ r ∈ p.reads, r.copied = true → r.result = .ok r.bytes.length

def ReportsFailures : Prop :=
  ∀ r ∈ p.reads, r.copied = false → ∃ e, r.result = .error e

/-- The step is a round of a read that finds bytes and cannot copy them. -/
def ReadCopyFails (e : Event τ) : Prop :=
  ∃ t len, e = .round t false ∧ p.pc t = .read len ∧ 0 < p.stream.len

/-- What a step does to the stream and to what is reported. -/
inductive Moves (p : State τ) (e : Event τ) (p' : State τ) : Prop
  | none (hstream : p'.stream = p.stream) (hreads : p'.reads = p.reads) (hwrites : p'.writes = p.writes)
      (hcopy : ¬ p.ReadCopyFails e)
  | read (len : ℕ) (hstream : p'.stream = p.stream.advance (min len p.stream.len))
      (hreads : p'.reads = p.reads ++ [⟨p.stream.toList.take (min len p.stream.len), true,
        .ok (min len p.stream.len)⟩])
      (hwrites : p'.writes = p.writes) (hcopy : ¬ p.ReadCopyFails e)
  | readFails (len : ℕ) (hstream : p'.stream = p.stream)
      (hreads : p'.reads = p.reads ++ [⟨p.stream.toList.take (min len p.stream.len), false,
        .ok (min len p.stream.len)⟩])
      (hwrites : p'.writes = p.writes) (hcopy : p.ReadCopyFails e)
  | write (data : List UInt8)
      (hstream : p'.stream = (data.take (min data.length
        (maxStreamCapacity - p.stream.len))).foldl RingBuffer.push p.stream)
      (hreads : p'.reads = p.reads)
      (hwrites : p'.writes = p.writes ++ [⟨data, .ok (min data.length
        (maxStreamCapacity - p.stream.len))⟩]) (hcopy : ¬ p.ReadCopyFails e)
  | writeFails (data : List UInt8) (hstream : p'.stream = p.stream) (hreads : p'.reads = p.reads)
      (hwrites : p'.writes = p.writes ++ [⟨data, .error .copy⟩]) (hcopy : ¬ p.ReadCopyFails e)

section
variable {p p' : State τ} {e : Event τ} {k : Waiter} {copied : Bool}

theorem exists_of_signal (h : p.signal k = some p') :
    ∃ ts sys, p.sys.doSignal k = some (ts, sys) ∧ p' = { p with sys } := by
  obtain ⟨⟨ts, sys⟩, hs, rfl⟩ := Option.map_eq_some_iff.1 h
  exact ⟨ts, sys, hs, rfl⟩

theorem exists_of_signalIf {c : Bool} (h : p.signalIf c k = some p') : ∃ sys, p' = { p with sys } := by
  unfold signalIf at h
  split_ifs at h
  · obtain ⟨_, sys, _, rfl⟩ := exists_of_signal h
    exact ⟨sys, rfl⟩
  · cases h
    exact ⟨p.sys, rfl⟩

theorem moves_readRound {t : τ} {len : ℕ} (hpc : p.pc t = .read len)
    (h : p.readRound t len copied = some p') : Moves p (.round t copied) p' := by
  unfold readRound at h
  by_cases hlen : p.stream.len > 0
  · rw [if_pos hlen] at h
    simp only [Option.bind_eq_bind, Option.bind_eq_some_iff, Option.pure_def, Option.some.injEq] at h
    obtain ⟨p₁, h₁, p₂, h₂, rfl⟩ := h
    obtain ⟨_, sys₁, -, rfl⟩ := exists_of_signal h₁
    obtain ⟨sys₂, rfl⟩ := exists_of_signalIf h₂
    cases copied with
    | true =>
      refine .read len rfl ?_ rfl ?_
      · simp [RingBuffer.peekInto_eq]
      · rintro ⟨t', len', he, -, -⟩
        cases he
    | false =>
      refine .readFails len rfl ?_ rfl ⟨t, len, rfl, hpc, hlen⟩
      simp [RingBuffer.peekInto_eq]
  · rw [if_neg hlen] at h
    have hcopy : ¬ p.ReadCopyFails (.round t copied) := fun ⟨_, _, _, _, h'⟩ => hlen h'
    split_ifs at h
    · cases h
      exact .none rfl rfl rfl hcopy
    · cases h
      exact .none rfl rfl rfl hcopy

theorem moves_writeRound {t : τ} {data : List UInt8} (hpc : p.pc t = .write data)
    (h : p.writeRound t data copied = some p') : Moves p (.round t copied) p' := by
  have hcopy : ¬ p.ReadCopyFails (.round t copied) := by
    rintro ⟨t', len', he, hpc', -⟩
    cases he
    rw [hpc] at hpc'
    cases hpc'
  unfold writeRound at h
  split_ifs at h with hfull hc
  · cases h
    exact .none rfl rfl rfl hcopy
  · simp only [Option.bind_eq_bind, Option.bind_eq_some_iff, Option.pure_def, Option.some.injEq] at h
    obtain ⟨p₁, h₁, p₂, h₂, rfl⟩ := h
    obtain ⟨_, sys₁, -, rfl⟩ := exists_of_signal h₁
    obtain ⟨sys₂, rfl⟩ := exists_of_signalIf h₂
    exact .write data rfl rfl rfl hcopy
  · cases h
    exact .writeFails data rfl rfl rfl hcopy

theorem moves_step (h : p.step e = some p') : Moves p e p' := by
  cases e with
  | read t len =>
    simp only [step, Option.some.injEq] at h
    subst h
    have hcopy : ¬ p.ReadCopyFails (.read t len) := fun ⟨_, _, he, _⟩ => by cases he
    split_ifs
    · exact .none rfl rfl rfl hcopy
    · exact .none rfl rfl rfl hcopy
  | write t data =>
    simp only [step, Option.some.injEq] at h
    subst h
    have hcopy : ¬ p.ReadCopyFails (.write t data) := fun ⟨_, _, he, _⟩ => by cases he
    split_ifs
    · exact .none rfl rfl rfl hcopy
    · exact .none rfl rfl rfl hcopy
  | round t copied =>
    simp only [step] at h
    split at h
    · next len hpc => exact moves_readRound hpc h
    · next data hpc => exact moves_writeRound hpc h
    next hread hwrite =>
    cases h
    refine .none rfl rfl rfl ?_
    rintro ⟨t', len, he, hpc, -⟩
    cases he
    exact hread len hpc
  | wait t =>
    have hcopy : ¬ p.ReadCopyFails (.wait t) := fun ⟨_, _, he, _⟩ => by cases he
    simp only [step] at h
    split at h
    · obtain ⟨⟨o, sys⟩, -, rfl⟩ := Option.map_eq_some_iff.1 h
      exact .none rfl rfl rfl hcopy
    · obtain ⟨⟨o, sys⟩, -, rfl⟩ := Option.map_eq_some_iff.1 h
      exact .none rfl rfl rfl hcopy
    · cases h
      exact .none rfl rfl rfl hcopy
  | resume t =>
    have hcopy : ¬ p.ReadCopyFails (.resume t) := fun ⟨_, _, he, _⟩ => by cases he
    simp only [step] at h
    split at h <;> cases h <;> exact .none rfl rfl rfl hcopy
  | newWriter => cases h; exact .none rfl rfl rfl fun ⟨_, _, he, _⟩ => by cases he
  | dropWriter =>
    simp only [step] at h
    split_ifs at h
    · cases h; exact .none rfl rfl rfl fun ⟨_, _, he, _⟩ => by cases he
    · cases h; exact .none rfl rfl rfl fun ⟨_, _, he, _⟩ => by cases he
  | closeSignal =>
    obtain ⟨_, sys, -, rfl⟩ := exists_of_signal h
    exact .none rfl rfl rfl fun ⟨_, _, he, _⟩ => by cases he
  | sched a =>
    obtain ⟨⟨r, sys⟩, -, rfl⟩ := Option.map_eq_some_iff.1 h
    exact .none rfl rfl rfl fun ⟨_, _, he, _⟩ => by cases he

theorem Conserves.step (h : p.Conserves) (hstep : p.step e = some p') : p'.Conserves := by
  obtain ⟨hbytes, hok⟩ := h
  unfold Conserves written delivered at *
  cases moves_step hstep with
  | none hstream hreads hwrites => rw [hstream, hreads, hwrites]; exact ⟨hbytes, hok⟩
  | read len hstream hreads hwrites =>
    rw [hstream, hreads, hwrites, hbytes, RingBuffer.toList_advance]
    refine ⟨?_, fun r hr hc => ?_⟩
    · rw [flatMap_append, flatMap_singleton, if_pos rfl, append_assoc, take_append_drop]
    · rcases mem_append.1 hr with hr | hr
      · exact hok r hr hc
      · rw [mem_singleton.1 hr]
        simp
  | readFails len hstream hreads hwrites =>
    rw [hstream, hreads, hwrites, hbytes]
    refine ⟨by simp, fun r hr hc => ?_⟩
    rcases mem_append.1 hr with hr | hr
    · exact hok r hr hc
    · rw [mem_singleton.1 hr] at hc
      cases hc
  | write data hstream hreads hwrites =>
    rw [hstream, hreads, hwrites, flatMap_append, hbytes]
    refine ⟨?_, hok⟩
    rw [RingBuffer.toList_foldl_push]
    · simp
    · have := p.stream.len_le
      rw [length_take]
      omega
  | writeFails data hstream hreads hwrites =>
    rw [hstream, hreads, hwrites, flatMap_append, hbytes]
    exact ⟨by simp, hok⟩

theorem ReportsFailures.of_step (h : p'.ReportsFailures) (hstep : p.step e = some p') :
    p.ReportsFailures := by
  have hsub : ∀ r ∈ p.reads, r ∈ p'.reads := by
    intro r hr
    cases moves_step hstep with
    | none _ hreads | write _ _ hreads | writeFails _ _ hreads => rw [hreads]; exact hr
    | read _ _ hreads | readFails _ _ hreads => rw [hreads]; exact mem_append_left _ hr
  exact fun r hr => h r (hsub r hr)

/-- **A step reports its failures unless it is a read whose copy fails.** -/
theorem reportsFailures_step_iff (h : p.ReportsFailures) (hstep : p.step e = some p') :
    p'.ReportsFailures ↔ ¬ p.ReadCopyFails e := by
  cases moves_step hstep with
  | none _ hreads _ hcopy | write _ _ hreads _ hcopy | writeFails _ _ hreads _ hcopy =>
    refine iff_of_true ?_ hcopy
    rw [ReportsFailures, hreads]
    exact h
  | read len _ hreads _ hcopy =>
    refine iff_of_true (fun r hr hc => ?_) hcopy
    rw [hreads] at hr
    rcases mem_append.1 hr with hr | hr
    · exact h r hr hc
    · rw [mem_singleton.1 hr] at hc
      cases hc
  | readFails len _ hreads _ hcopy =>
    refine iff_of_false (fun h' => ?_) (not_not.2 hcopy)
    obtain ⟨e, he⟩ := h' _ (hreads ▸ mem_append_right _ (mem_singleton.2 rfl)) rfl
    cases he

end

/-! ## Runs -/

section
variable {p q : State τ} {es : List (Event τ)}

theorem exec_conserves (hp : p.Conserves) (hrun : exec step p es = some q) : q.Conserves :=
  @exec_induction _ _ _ (fun _ _ => True) _ (fun _ _ _ h _ hstep => Conserves.step h hstep) _ _ _ hp
    (.of_forall fun _ _ _ => trivial) hrun

theorem ReportsFailures.of_exec (hq : q.ReportsFailures) : ∀ {p : State τ} {es : List (Event τ)},
    exec step p es = some q → p.ReportsFailures
  | _, [], hrun => by
    cases hrun
    exact hq
  | _, _ :: _, hrun => by
    obtain ⟨u, hu, hrest⟩ := exec_cons.1 hrun
    exact (hq.of_exec hrest).of_step hu

theorem exec_reportsFailures_iff : ∀ {p : State τ} {es : List (Event τ)}, p.ReportsFailures →
    exec step p es = some q → (q.ReportsFailures ↔ Along step (fun p e => ¬ p.ReadCopyFails e) p es)
  | p, [], hp, hrun => by
    cases hrun
    exact iff_of_true hp trivial
  | p, e :: es, hp, hrun => by
    obtain ⟨u, hu, hrest⟩ := exec_cons.1 hrun
    constructor
    · intro hq
      have hu' := hq.of_exec hrest
      exact .cons ((reportsFailures_step_iff hp hu).1 hu') hu ((exec_reportsFailures_iff hu' hrest).1 hq)
    · rintro ⟨hcopy, halong⟩
      exact (exec_reportsFailures_iff ((reportsFailures_step_iff hp hu).2 hcopy) hrest).2 (halong u hu)

/-- **Every byte is delivered once and in order, and failed copies are reported**, exactly if no copy of a read
fails. -/
theorem exec_delivered_iff {sys : Sys Waiter τ} (hrun : exec step (new sys) es = some q) :
    q.Conserves ∧ q.ReportsFailures ↔ Along step (fun p e => ¬ p.ReadCopyFails e) (new sys) es := by
  have hnew : (new sys).Conserves := ⟨by simp [new, written, delivered]; rfl, by simp [new]⟩
  have hreports : (new sys).ReportsFailures := by simp [ReportsFailures, new]
  rw [and_iff_right (exec_conserves hnew hrun)]
  exact exec_reportsFailures_iff hreports hrun

end

def pair : Sys Waiter (Fin 2) where
  sems _ := ⟨.event false true, []⟩
  tasks _ := ⟨.running, true, true, false, false, [], .normal⟩
  timerList := []
  timerNotifierList := []
  dropping := []

/-- One thread writes three bytes and the other reads two of them; the copy succeeds or not. -/
def writeRead (copied : Bool) : List (Event (Fin 2)) :=
  [.newWriter, .write 0 [1, 2, 3], .round 0 true, .read 1 2, .round 1 copied]

theorem exec_delivered_writeRead : ∃ q, exec step (new pair) (writeRead true) = some q ∧
    q.delivered = [1, 2] ∧ q.stream.toList = [3] ∧ q.Conserves ∧ q.ReportsFailures := by
  obtain ⟨q, hq, hd, hs⟩ : ∃ q, exec step (new pair) (writeRead true) = some q ∧
      q.delivered = [1, 2] ∧ q.stream.toList = [3] := ⟨_, rfl, rfl, rfl⟩
  refine ⟨q, hq, hd, hs, (exec_delivered_iff hq).2 (.of_forall ?_)⟩
  rintro e he u ⟨t, len, rfl, -⟩
  simp [writeRead] at he

/-- **A failed copy reported as a success.**  The read could not copy the two bytes, and returned
    `Ok(2)`. -/
theorem readRound_reports_failed_copy : ∃ q, exec step (new pair) (writeRead false) = some q ∧
    (q.reads.map fun r => (r.bytes, r.copied)) = [([1, 2], false)] ∧ ¬ q.ReportsFailures := by
  refine ⟨_, rfl, rfl, fun h => ?_⟩
  obtain ⟨e, he⟩ := h ⟨[1, 2], false, .ok 2⟩ (mem_singleton.2 rfl) rfl
  cases he

end State

end Archis.Pipe

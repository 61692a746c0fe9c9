/-
  The end of a pipe.

  When the last writer's handle is dropped, the readers' event is signalled once, and it is auto-reset: with two readers
  blocked the second one stays blocked for good (`second_reader_stranded`).  When at most one read has to be reached at
  each drop of a last writer, nobody is left behind (`exec_not_stranded`).
-/
import Archis.Pipe.Stream
import Archis.Sync.Event

namespace Archis.Pipe.State

open Lib (exec Along exec_induction)
open Sync (Sys Outcome SemState)
open List hiding next
open Function (update update_of_ne update_self)

variable {τ : Type} [DecidableEq τ] (p : State τ)

/-- The step can be taken: its thread executes and, to return from a wait, has been woken. -/
def Enabled (p : State τ) : Event τ → Prop
  | .read t _ | .write t _ => p.sys.Executes t ∧ p.pc t = .idle
  | .round t _ | .wait t => p.sys.Executes t
  | .resume t => p.sys.Executes t ∧ ∀ k, t ∉ (p.sys.sems k).blockedList
  | .newWriter | .dropWriter => True
  | .closeSignal => 0 < p.closing
  | .sched a => p.sys.Enabled a ∧ Sys.Scheduling a

/-- The thread is blocked in `read_waiter`, or about to wait on it. -/
def Waits (t : τ) : Prop :=
  (∃ len, p.pc t = .readWait len) ∨ t ∈ (p.sys.sems .readWaiter).blockedList

/-- No writers and no bytes are left, every drop has signalled, and the readers are blocked, one of them alive.
-/
def Stranded : Prop :=
  p.writerCount = 0 ∧ p.stream.toList = [] ∧ p.closing = 0 ∧ (∀ t len, p.pc t ≠ .read len ∧ p.pc t ≠ .readWait len ∧
      (p.pc t = .readBlocked len → t ∈ (p.sys.sems .readWaiter).blockedList)) ∧
    ∃ t ∈ (p.sys.sems .readWaiter).blockedList, (p.sys.tasks t).status.Blocked

/-- At the drop of a last writer, at most one read waits or is about to. -/
def LoneReader : Event τ → Prop
  | .dropWriter => p.writerCount = 1 → ∀ t t', p.Waits t → p.Waits t' → t = t'
  | _ => True

structure Inv (p : State τ) : Prop where
  wf : p.sys.Wf
  event : ∃ sg, (p.sys.sems .readWaiter).state = .event sg true
  pcs : ∀ t ∈ (p.sys.sems .readWaiter).blockedList, ∃ len, p.pc t = .readBlocked len
  one : p.writerCount = 0 → ∀ t t', p.Waits t → p.Waits t' → t = t'
  /-- once the last drop has signalled, who is on the list is killed, and who is about to wait finds the event
  signalled -/
  told : p.writerCount = 0 → p.closing = 0 →
    (∀ t ∈ (p.sys.sems .readWaiter).blockedList, (p.sys.tasks t).status = .terminated) ∧
    ((∃ t len, p.pc t = .readWait len) → (p.sys.sems .readWaiter).state = .event true true)

section
variable {p p' : State τ} {t : τ} {c : Pc} {copied sg : Bool} {k : Waiter} {len : ℕ} {data : List UInt8}

omit [DecidableEq τ] in
theorem Inv.not_stranded (h : Inv p) : ¬ p.Stranded := by
  rintro ⟨hw, -, hc, -, t, ht, hb⟩
  rw [(h.told hw hc).1 t ht] at hb
  exact absurd hb (by decide)

omit [DecidableEq τ] in
theorem Inv.settle (h : Inv p) (hwf : p'.sys.Wf) (hs : Sys.Settles .readWaiter p.sys p'.sys)
    (hpc : ∀ t ∈ (p.sys.sems .readWaiter).blockedList, p'.pc t = p.pc t)
    (hwait : p.writerCount = 0 → ∀ t len, p'.pc t = .readWait len → p.pc t = .readWait len)
    (hw : p'.writerCount = p.writerCount) (hc : p'.closing = p.closing) : Inv p' := by
  obtain ⟨sg, hsg⟩ := h.event
  obtain ⟨sg', hsg', himp⟩ := hs.state sg hsg
  have hwaits : p.writerCount = 0 → ∀ t, p'.Waits t → p.Waits t := by
    rintro hw t (⟨len, hlen⟩ | ht)
    · exact Or.inl ⟨len, hwait hw t len hlen⟩
    · exact Or.inr (hs.blockedList t ht)
  refine ⟨hwf, ⟨sg', hsg'⟩, fun t ht => ?_, fun hz t t' ht ht' => ?_, fun hz hcz => ⟨fun t ht => ?_, ?_⟩⟩
  · rw [hpc t (hs.blockedList t ht)]
    exact h.pcs t (hs.blockedList t ht)
  · rw [hw] at hz
    exact h.one hz t t' (hwaits hz t ht) (hwaits hz t' ht')
  · rw [hw] at hz
    rw [hc] at hcz
    exact hs.status t ht ((h.told hz hcz).1 t (hs.blockedList t ht))
  · rintro ⟨t, len, hlen⟩
    rw [hw] at hz
    rw [hc] at hcz
    have htrue := (h.told hz hcz).2 ⟨t, len, hwait hz t len hlen⟩
    rw [hsg] at htrue
    cases htrue
    rw [hsg', himp rfl]

omit [DecidableEq τ] in
theorem Inv.not_mem_of_pc (h : Inv p) (hpc : p.pc t = c) (hc : ∀ len, c ≠ .readBlocked len) :
    t ∉ (p.sys.sems .readWaiter).blockedList := fun ht => by
  obtain ⟨len, hlen⟩ := h.pcs t ht
  exact hc len (hpc.symm.trans hlen)

theorem Inv.settle_update (h : Inv p) (hwf : p'.sys.Wf) (hs : Sys.Settles .readWaiter p.sys p'.sys)
    (hpc : p'.pc = update p.pc t c) (ht : t ∉ (p.sys.sems .readWaiter).blockedList) (hc : p.writerCount = 0 →
    ∀ len, c ≠ .readWait len) (hw : p'.writerCount = p.writerCount) (hcl : p'.closing = p.closing) : Inv p' := by
  refine h.settle hwf hs (fun t' ht' => ?_) (fun hz t' len hlen => ?_) hw hcl
  · rw [hpc, update_of_ne (ne_of_mem_of_not_mem ht' ht)]
  rw [hpc] at hlen
  rcases eq_or_ne t' t with rfl | hne
  · rw [update_self] at hlen
    exact absurd hlen (hc hz len)
  · rwa [update_of_ne hne] at hlen

/-! ## Rounds -/

theorem settles_signal (hwf : p.sys.Wf) (hsg : (p.sys.sems .readWaiter).state = .event sg true)
    (h : p.signal k = some p') : ∃ sys, p' = { p with sys } ∧ sys.Wf ∧
      Sys.Settles .readWaiter p.sys sys := by
  obtain ⟨ts, sys, hsys, rfl⟩ := exists_of_signal h
  obtain ⟨ts', sys', hsys', hwf', -⟩ := hwf.doSignal (k := k)
  cases hsys'.symm.trans hsys
  exact ⟨sys, rfl, hwf', hwf.settles_doSignal hsg k hsys⟩

theorem settles_signalIf (hwf : p.sys.Wf) (hsg : (p.sys.sems .readWaiter).state = .event sg true)
    {c : Bool} (h : p.signalIf c k = some p') : ∃ sys, p' = { p with sys } ∧ sys.Wf ∧
      Sys.Settles .readWaiter p.sys sys := by
  unfold signalIf at h
  split_ifs at h
  · exact settles_signal hwf hsg h
  · cases h
    exact ⟨p.sys, rfl, hwf, .refl _ _⟩

theorem settles_signals {p₁ p₂ : State τ} {c : Bool} {k' : Waiter} (h₁ : p.signal k = some p₁)
    (h₂ : p₁.signalIf c k' = some p₂) (hwf : p.sys.Wf) (hsg : (p.sys.sems .readWaiter).state = .event sg true) :
    ∃ sys, p₂ = { p with sys } ∧ sys.Wf ∧ Sys.Settles .readWaiter p.sys sys := by
  obtain ⟨sys₁, rfl, hwf₁, hs₁⟩ := settles_signal hwf hsg h₁
  obtain ⟨sg₁, hsg₁, -⟩ := hs₁.state sg hsg
  obtain ⟨sys₂, rfl, hwf₂, hs₂⟩ := settles_signalIf hwf₁ hsg₁ h₂
  exact ⟨sys₂, rfl, hwf₂, hs₁.trans hs₂⟩

theorem Inv.readRound (h : Inv p) (hpc : p.pc t = .read len)
    (hstep : p.readRound t len copied = some p') : Inv p' := by
  have ht := h.not_mem_of_pc hpc (by simp)
  obtain ⟨sg, hsg⟩ := h.event
  unfold State.readRound at hstep
  by_cases hlen : p.stream.len > 0
  · rw [if_pos hlen] at hstep
    simp only [Option.bind_eq_bind, Option.bind_eq_some_iff, Option.pure_def, Option.some.injEq] at hstep
    obtain ⟨p₁, h₁, p₂, h₂, rfl⟩ := hstep
    obtain ⟨sys, rfl, hwf, hs⟩ := settles_signals h₁ h₂ h.wf hsg
    exact h.settle_update hwf hs rfl ht (by simp) rfl rfl
  · rw [if_neg hlen] at hstep
    split_ifs at hstep with hw
    · cases hstep
      exact h.settle_update h.wf (.refl _ _) rfl ht (by simp) rfl rfl
    · cases hstep
      exact h.settle_update h.wf (.refl _ _) rfl ht (fun hz => absurd hz hw) rfl rfl

theorem Inv.writeRound (h : Inv p) (hpc : p.pc t = .write data)
    (hstep : p.writeRound t data copied = some p') : Inv p' := by
  have ht := h.not_mem_of_pc hpc (by simp)
  obtain ⟨sg, hsg⟩ := h.event
  unfold State.writeRound at hstep
  split_ifs at hstep with hfull hcopied
  · cases hstep
    exact h.settle_update h.wf (.refl _ _) rfl ht (by simp) rfl rfl
  · simp only [Option.bind_eq_bind, Option.bind_eq_some_iff, Option.pure_def, Option.some.injEq] at hstep
    obtain ⟨p₁, h₁, p₂, h₂, rfl⟩ := hstep
    obtain ⟨sys, rfl, hwf, hs⟩ := settles_signals h₁ h₂ h.wf hsg
    exact h.settle_update hwf hs rfl ht (by simp) rfl rfl
  · cases hstep
    exact h.settle_update h.wf (.refl _ _) rfl ht (by simp) rfl rfl

/-! ## Waits -/

theorem Inv.waitRead (h : Inv p) (he : p.sys.Executes t) (hpc : p.pc t = .readWait len)
    (hstep : p.wait t .readWaiter (.read len) (.readBlocked len) = some p') : Inv p' := by
  have ht := h.not_mem_of_pc hpc (by simp)
  have hwaits : p.Waits t := Or.inl ⟨len, hpc⟩
  obtain ⟨sg, hsg⟩ := h.event
  obtain ⟨⟨o, sys⟩, hsys, rfl⟩ := Option.map_eq_some_iff.1 hstep
  -- whoever else is about to wait was so before
  have hothers : ∀ {c : Pc} {t' len'}, (∀ l, c ≠ .readWait l) →
      update p.pc t c t' = .readWait len' → t' ≠ t ∧ p.pc t' = .readWait len' := by
    intro c t' len' hc hlen'
    rcases eq_or_ne t' t with rfl | hne
    · rw [update_self] at hlen'
      exact absurd hlen' (hc len')
    · exact ⟨hne, by rwa [update_of_ne hne] at hlen'⟩
  rcases h.wf.doWait_cases (k := .readWaiter) he none true with
    ⟨st, hst, hw⟩ | ⟨e, -, hw⟩ | ⟨hrun, henter, hw⟩
  · -- the signal is taken; when there are no writers this was the only thread to take it
    cases hw.symm.trans hsys
    rw [hsg, SemState.tryEnter] at hst
    split_ifs at hst
    cases hst
    clear hstep hsys
    dsimp only
    have hlist : (((p.sys.clearCause t).setState .readWaiter (.event (!true) true)).sems
        .readWaiter).blockedList = (p.sys.sems .readWaiter).blockedList := by simp
    refine ⟨h.wf.clearCause.setState _, ⟨false, by simp [setPc]⟩, fun t' ht' => ?_,
      fun hz t₁ t₂ ht₁ ht₂ => ?_, fun hz hcz => ⟨fun t' ht' => ?_, ?_⟩⟩
    · have hmem : t' ∈ (p.sys.sems .readWaiter).blockedList := hlist ▸ ht'
      obtain ⟨len', hlen'⟩ := h.pcs t' hmem
      exact ⟨len', by simpa [setPc, ne_of_mem_of_not_mem hmem ht] using hlen'⟩
    · have hback : ∀ t', ((∃ len', update p.pc t (.read len) t' = .readWait len') ∨
          t' ∈ (p.sys.sems .readWaiter).blockedList) → p.Waits t' :=
        fun t' => Or.imp_left (Exists.imp fun _ hlen' => (hothers (by simp) hlen').2)
      rw [State.Waits, setPc, hlist] at ht₁ ht₂
      exact h.one hz t₁ t₂ (hback t₁ ht₁) (hback t₂ ht₂)
    · have hmem : t' ∈ (p.sys.sems .readWaiter).blockedList := hlist ▸ ht'
      simpa [setPc, Sys.clearCause, ne_of_mem_of_not_mem hmem ht] using (h.told hz hcz).1 t' hmem
    · rintro ⟨t', len', hlen'⟩
      obtain ⟨hne, hlen'⟩ := hothers (by simp) hlen'
      exact absurd (h.one hz t' t (Or.inl ⟨len', hlen'⟩) hwaits) hne
  · cases hw.symm.trans hsys
    have hclear : Sys.Settles .readWaiter p.sys (p.sys.clearCause t) := .setTask id
    exact h.settle_update h.wf.clearCause hclear rfl ht (by simp) rfl rfl
  · -- the thread sleeps, so the event was not signalled
    cases hw.symm.trans hsys
    clear hstep hsys
    dsimp only
    have hlist : ((p.sys.block t .readWaiter none true).sems .readWaiter).blockedList =
        (p.sys.sems .readWaiter).blockedList ++ [t] := by simp [Sys.block]
    have hfalse : sg = false := by
      rw [hsg] at henter
      cases sg
      · rfl
      · cases henter
    refine ⟨h.wf.block hrun, ⟨false, ?_⟩, fun t' ht' => ?_, fun hz t₁ t₂ ht₁ ht₂ => ?_, fun hz hcz => ?_⟩
    · simp [setPc, Sys.block, hsg, hfalse, SemState.enter]
    · rcases eq_or_ne t' t with rfl | hne
      · exact ⟨len, by simp [setPc]⟩
      · have hmem : t' ∈ (p.sys.sems .readWaiter).blockedList ++ [t] := hlist ▸ ht'
        obtain ⟨len', hlen'⟩ := h.pcs t' (by simpa [hne] using hmem)
        exact ⟨len', by simpa [setPc, hne] using hlen'⟩
    · have hback : ∀ t', ((∃ len', update p.pc t (.readBlocked len) t' = .readWait len') ∨
          t' ∈ (p.sys.sems .readWaiter).blockedList ++ [t]) → p.Waits t' := by
        rintro t' (⟨len', hlen'⟩ | hmem)
        · exact Or.inl ⟨len', (hothers (by simp) hlen').2⟩
        · rcases mem_append.1 hmem with hmem | hmem
          · exact Or.inr hmem
          · exact mem_singleton.1 hmem ▸ hwaits
      rw [State.Waits, setPc, hlist] at ht₁ ht₂
      exact h.one hz t₁ t₂ (hback t₁ ht₁) (hback t₂ ht₂)
    · have htold := (h.told hz hcz).2 ⟨t, len, hpc⟩
      rw [hsg, hfalse] at htold
      cases htold

theorem Inv.waitWrite (h : Inv p) (he : p.sys.Executes t) (hpc : p.pc t = .writeWait data)
    (hstep : p.wait t .writeWaiter (.write data) (.writeBlocked data) = some p') : Inv p' := by
  have ht := h.not_mem_of_pc hpc (by simp)
  obtain ⟨⟨o, sys⟩, hsys, rfl⟩ := Option.map_eq_some_iff.1 hstep
  have hclear : Sys.Settles .readWaiter p.sys (p.sys.clearCause t) := .setTask id
  have hne : Waiter.readWaiter ≠ .writeWaiter := by decide
  rcases h.wf.doWait_cases (k := .writeWaiter) he none true with
    ⟨st, -, hw⟩ | ⟨e, -, hw⟩ | ⟨hrun, -, hw⟩
  · cases hw.symm.trans hsys
    exact h.settle_update (h.wf.clearCause.setState st)
      (hclear.trans (.setState fun _ _ h' => absurd h' hne)) rfl ht (by simp) rfl rfl
  · cases hw.symm.trans hsys
    exact h.settle_update h.wf.clearCause hclear rfl ht (by simp) rfl rfl
  cases hw.symm.trans hsys
  have hblock : Sys.Settles .readWaiter p.sys (p.sys.block t .writeWaiter none true) := by
    refine .of_sems ?_ fun t' ht' hst => ?_
    · rw [Sys.block, Sys.setBlocked_sems_of_ne hne, Sys.setState_sems_of_ne hne]
      rfl
    · simpa [Sys.block, ne_of_mem_of_not_mem ht' ht] using hst
  exact h.settle_update (h.wf.block hrun) hblock rfl ht (by simp) rfl rfl

/-! ## Drops -/

theorem Inv.dropWriter (h : Inv p) (hlone : LoneReader p .dropWriter)
    (hstep : p.step .dropWriter = some p') : Inv p' := by
  simp only [step] at hstep
  by_cases hw : p.writerCount = 0
  · rw [if_pos hw] at hstep
    cases hstep
  rw [if_neg hw] at hstep
  cases hstep
  refine ⟨h.wf, h.event, h.pcs, fun hz => ?_, fun hz hcz => ?_⟩
  · exact hlone (by dsimp only at hz; omega)
  · dsimp only at hz hcz
    rw [if_pos (by omega)] at hcz
    omega

/-- **The signal of a drop reaches the reader that waits**, if there are no others. -/
theorem Inv.closeSignal (h : Inv p) (hstep : p.step .closeSignal = some p') : Inv p' := by
  obtain ⟨sg, hsg⟩ := h.event
  obtain ⟨ts, sys, hsys, rfl⟩ := exists_of_signal hstep
  obtain ⟨ts', sys', hsys', hwf, -⟩ := h.wf.doSignal (k := .readWaiter)
  cases hsys'.symm.trans hsys
  have hs := h.wf.settles_doSignal hsg .readWaiter hsys
  obtain ⟨sg', hsg', -⟩ := hs.state sg hsg
  have hback : ∀ t', State.Waits { p with closing := p.closing - 1, sys } t' → p.Waits t' :=
    fun t' ht' => ht'.imp id (hs.blockedList t')
  have hsys : p.sys.doSignal .readWaiter = some (ts, sys) := hsys
  rw [h.wf.doSignal_event hsg, Option.some.injEq] at hsys
  refine ⟨hwf, ⟨sg', hsg'⟩, fun t' ht' => h.pcs t' (hs.blockedList t' ht'),
    fun hz t₁ t₂ ht₁ ht₂ => h.one hz t₁ t₂ (hback t₁ ht₁) (hback t₂ ht₂), fun hz _ => ⟨fun t' ht' => ?_, ?_⟩⟩
  · -- the thread is the head of the list, and was not woken
    have hmem := hs.blockedList t' ht'
    have hhead : (p.sys.sems .readWaiter).blockedList.head? = some t' := by
      rcases hl : (p.sys.sems .readWaiter).blockedList with _ | ⟨t'', l⟩
      · rw [hl] at hmem
        exact absurd hmem not_mem_nil
      · have hmem'' : t'' ∈ (p.sys.sems .readWaiter).blockedList := by rw [hl]; exact (.head _)
        rw [head?_cons, h.one hz t'' t' (Or.inr hmem'') (Or.inr hmem)]
    rw [hhead] at hsys
    dsimp only at hsys
    split_ifs at hsys with hw
    · cases hsys
      rw [Sys.release, Sys.setBlocked_blockedList] at ht'
      exact absurd ht' (h.wf.nodup _).not_mem_erase
    · cases hsys
      by_contra hst
      have hblocked := (h.wf.status t' (by rw [h.wf.waits_eq hmem]; simp)).resolve_right fun h' => hst h'.1
      exact hw ⟨h.wf.inTasks t' hst, hblocked, by simp⟩
  · rintro ⟨t', len, hlen⟩
    have hnil : (p.sys.sems .readWaiter).blockedList = [] := by
      by_contra hne
      obtain ⟨t'', ht''⟩ := exists_mem_of_ne_nil _ hne
      obtain rfl := h.one hz t' t'' (Or.inl ⟨len, hlen⟩) (Or.inr ht'')
      exact h.not_mem_of_pc hlen (by simp) ht''
    rw [hnil] at hsys
    cases hsys
    simp

/-! ## Runs -/

theorem Inv.step (h : Inv p) {e : Event τ} (he : p.Enabled e) (hlone : LoneReader p e)
    (hstep : p.step e = some p') : Inv p' := by
  cases e with
  | read t len =>
    simp only [State.step, Option.some.injEq] at hstep
    subst hstep
    split_ifs
    · exact h
    · exact h.settle_update h.wf (.refl _ _) rfl (h.not_mem_of_pc he.2 (by simp)) (by simp) rfl rfl
  | write t data =>
    simp only [State.step, Option.some.injEq] at hstep
    subst hstep
    split_ifs
    · exact h
    · exact h.settle_update h.wf (.refl _ _) rfl (h.not_mem_of_pc he.2 (by simp)) (by simp) rfl rfl
  | round t copied =>
    simp only [State.step] at hstep
    split at hstep
    · next len hpc => exact h.readRound hpc hstep
    · next data hpc => exact h.writeRound hpc hstep
    · cases hstep
      exact h
  | wait t =>
    simp only [State.step] at hstep
    split at hstep
    · next len hpc => exact h.waitRead he hpc hstep
    · next data hpc => exact h.waitWrite he hpc hstep
    · cases hstep
      exact h
  | resume t =>
    have hpc : ∀ again : Pc, (∀ len, again ≠ .readWait len) → Inv (p.resume t again) := by
      intro again hagain
      refine h.settle_update h.wf (.refl _ _) rfl (he.2 .readWaiter) (fun _ len => ?_) rfl rfl
      split
      · exact hagain len
      · simp
      · simp
    simp only [State.step] at hstep
    split at hstep
    · cases hstep
      exact hpc _ (by simp)
    · cases hstep
      exact hpc _ (by simp)
    · cases hstep
      exact h
  | newWriter =>
    cases hstep
    exact ⟨h.wf, h.event, h.pcs, fun hz => by simp at hz, fun hz => by simp at hz⟩
  | dropWriter => exact h.dropWriter hlone hstep
  | closeSignal => exact h.closeSignal hstep
  | sched a =>
    obtain ⟨⟨r, sys⟩, hsys, rfl⟩ := Option.map_eq_some_iff.1 hstep
    obtain ⟨r', sys', hsys', hwf⟩ := h.wf.exists_step he.1
    cases hsys'.symm.trans hsys
    exact h.settle hwf (h.wf.settles_sched he.1 he.2 hsys) (fun _ _ => rfl) (fun _ _ _ => id) rfl rfl

end

omit [DecidableEq τ] in
theorem Inv.new {sys : Sys Waiter τ} (hs : sys.Idle)
    (hk : (sys.sems .readWaiter).state = .event false true) : Inv (new sys) := by
  have hlist : ∀ t, t ∉ ((State.new sys).sys.sems .readWaiter).blockedList := by
    intro t ht
    rw [show ((State.new sys).sys.sems .readWaiter).blockedList = [] from hs.blockedList _] at ht
    exact absurd ht not_mem_nil
  refine ⟨hs.wf, ⟨false, hk⟩, fun t ht => absurd ht (hlist t), fun _ t t' ht => ?_,
    fun _ _ => ⟨fun t ht => absurd ht (hlist t), ?_⟩⟩
  · rcases ht with ⟨len, hlen⟩ | ht
    · cases hlen
    · exact absurd ht (hlist t)
  · rintro ⟨t, len, hlen⟩
    cases hlen

/-- **Everybody learns of the end of the pipe** if at most one read waits, or is about to, when the last writer
is dropped. -/
theorem exec_not_stranded {sys : Sys Waiter τ} {es : List (Event τ)} {p : State τ} (hs : sys.Idle)
    (hk : (sys.sems .readWaiter).state = .event false true)
    (hes : Along step (fun p e => p.Enabled e ∧ LoneReader p e) (new sys) es)
    (hrun : exec step (new sys) es = some p) : ¬ p.Stranded :=
  (exec_induction (fun _ _ _ h he hstep => Inv.step h he.1 he.2 hstep) (Inv.new hs hk) hes hrun).not_stranded

theorem pair_idle : pair.Idle :=
  ⟨fun _ => rfl, fun _ => ⟨rfl, show ¬ Sync.TaskStatus.running.Blocked by decide⟩, rfl, rfl, rfl, fun _ _ => rfl⟩

omit [DecidableEq τ] in
theorem blockedList_singleton_one {p : State τ} {t t' u : τ} (hpc : ∀ t len, p.pc t ≠ .readWait len)
    (hl : (p.sys.sems .readWaiter).blockedList = [u]) (ht : p.Waits t) (ht' : p.Waits t') : t = t' := by
  have key : ∀ t, p.Waits t → t = u := by
    rintro t (⟨len, hlen⟩ | hmem)
    · exact absurd hlen (hpc t len)
    · rwa [hl, mem_singleton] at hmem
  rw [key t ht, key t' ht']

def loneReader (t : τ) : List (Event τ) :=
  [.newWriter, .read t 5, .round t true, .wait t, .dropWriter, .closeSignal, .resume t, .round t true]

theorem exec_not_stranded_loneReader : ∃ p, exec step (new pair) (loneReader 0) = some p ∧
    p.writerCount = 0 ∧ (p.sys.sems .readWaiter).blockedList = [] ∧ ¬ p.Stranded := by
  obtain ⟨p, hp, hw, hl⟩ : ∃ p, exec step (new pair) (loneReader 0) = some p ∧ p.writerCount = 0 ∧
      (p.sys.sems .readWaiter).blockedList = [] := ⟨_, rfl, rfl, rfl⟩
  refine ⟨p, hp, hw, hl, exec_not_stranded pair_idle rfl ?_ hp⟩
  refine .cons ⟨trivial, trivial⟩ rfl (.cons ⟨⟨⟨rfl, Or.inl rfl⟩, rfl⟩, trivial⟩ rfl
    (.cons ⟨⟨rfl, Or.inl rfl⟩, trivial⟩ rfl (.cons ⟨⟨rfl, Or.inl rfl⟩, trivial⟩ rfl
      (.cons ⟨trivial, fun _ t t' ht ht' => ?_⟩ rfl (.cons ⟨Nat.one_pos, trivial⟩ rfl
        (.cons ⟨⟨⟨rfl, Or.inl rfl⟩, ?_⟩, trivial⟩ rfl
          (.cons ⟨⟨rfl, Or.inl rfl⟩, trivial⟩ rfl trivial)))))))
  · exact blockedList_singleton_one (u := 0) (fun t len => by fin_cases t <;> nofun) rfl ht ht'
  · intro k
    cases k
    · exact not_mem_nil
    · exact not_mem_nil

/-- Two readers are blocked when the writer is dropped; the first is woken and returns. -/
def twoReaders (t u : τ) : List (Event τ) :=
  [.newWriter, .read t 5, .round t true, .wait t, .read u 5, .round u true, .wait u, .dropWriter, .closeSignal,
    .resume t, .round t true]

/-- **A reader is left behind**: the first one has returned, and nobody will wake the second. -/
theorem second_reader_stranded : ∃ p, exec step (new pair) (twoReaders 0 1) = some p ∧
    (p.sys.sems .readWaiter).blockedList = [1] ∧ p.Stranded := by
  refine ⟨_, rfl, rfl, rfl, rfl, rfl, fun t len => ?_, 1, mem_singleton.2 rfl, Or.inr rfl⟩
  fin_cases t
  · exact ⟨nofun, nofun, nofun⟩
  · exact ⟨nofun, nofun, fun _ => mem_singleton.2 rfl⟩

end Archis.Pipe.State

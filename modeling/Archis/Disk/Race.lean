/-
  The block cache with several clients: `cache_put`, `cache_fill_no_evict` and `flush_all_dirty`, interleaved.

  The code drops `ctx.lock` around each device write, and afterwards acts on the block by its sector number only
  (`Phase`).  `exec_noLost`: no write is lost if no client enters a dirty block for a sector that another one has in
  flight, and no write of an evicted block fails.
-/
import Archis.Disk.Cache
import Archis.Lib.Run

namespace Archis.Disk

open Archis.Lib List
open Function (update update_apply update_of_ne update_self)
open RawDiskCtx (view view_clearDirty view_remove)

/-- Where a client stands without the lock; `rest` are the sectors that its fill has still to enter. -/
inductive Phase (S : Type) where
  /-- Between two rounds of a fill, or not in a call. -/
  | running (rest : List (ℕ × S))
  /-- before or after the device write; `viaBytes` tells `write_bytes` from a request -/
  | evicting (viaBytes : Bool) (victim : ℕ) (victimData : S) (written : Bool) (lba : ℕ) (data : S)
      (dirty : Bool) (rest : List (ℕ × S))
  /-- Flushing: the blocks still to write, and the one just written. -/
  | flushing (rest : List (ℕ × S)) (clear : Option ℕ)

/-- The client has the sector in flight: a snapshot of its block, or the target of a clean one. -/
def Phase.Holds {S : Type} (x : ℕ) : Phase S → Prop
  | .running _ => False
  | .evicting _ victim _ _ lba _ dirty _ => victim = x ∨ (lba = x ∧ dirty = false)
  | .flushing rest clear => x ∈ rest.map Prod.fst ∨ clear = some x

/-- The cache, the device and the clients; `last` is what the last `cache_put(lba, _, true)` put. -/
structure Sys (S ι : Type) where
  ctx : RawDiskCtx S
  dev : ℕ → S
  phase : ι → Phase S
  last : ℕ → Option S

/-- What a client does next. -/
inductive Event (S ι : Type) where
  | put (c : ι) (lba : ℕ) (data : S) (dirty : Bool)
  | fill (c : ι) (baseLba : ℕ) (buf : List S)
  | fillRound (c : ι)
  | flush (c : ι)
  | devWrite (c : ι) (ok : Bool)
  | relock (c : ι)

namespace Sys
variable {S ι : Type} [DecidableEq ι] (s : Sys S ι)

def setPhase (c : ι) (p : Phase S) : Sys S ι :=
  { s with phase := update s.phase c p }

/-- Entering a block.  Only a dirty one is a `cache_put(.., true)`. -/
def insert (s : Sys S ι) (lba : ℕ) (data : S) (dirty : Bool) : Sys S ι :=
  { s with
    ctx := s.ctx.insert lba data dirty
    last := if dirty then update s.last lba (some data) else s.last }

/-- The locked part of `cache_put`, and of a round of a fill, up to the eviction of a dirty block. -/
def enter (c : ι) (viaBytes : Bool) (lba : ℕ) (data : S) (dirty : Bool) (rest : List (ℕ × S)) : Sys S ι :=
  if s.ctx.hasDirty lba && !dirty then s.setPhase c (.running rest)
  else
    match s.ctx.victimFor lba with
    | none => (s.insert lba data dirty).setPhase c (.running rest)
    | some (victim, b) =>
      if b.dirty then s.setPhase c (.evicting viaBytes victim b.data false lba data dirty rest)
      else
        (({ s with ctx := s.ctx.remove victim } : Sys S ι).insert lba data dirty).setPhase c (.running rest)

def step : Event S ι → Option (Sys S ι)
  | .put c lba data dirty =>
    match s.phase c with
    | .running [] => some (s.enter c true lba data dirty [])
    | _ => none
  | .fill c baseLba buf =>
    match s.phase c with
    | .running [] =>
      some (s.setPhase c (.running (buf.zipIdx.map fun (data, i) => (wadd baseLba i, data))))
    | _ => none
  | .fillRound c =>
    match s.phase c with
    | .running ((lba, data) :: rest) => some (s.enter c false lba data false rest)
    | _ => none
  | .flush c =>
    match s.phase c with
    | .running [] => some (s.setPhase c (.flushing s.ctx.dirtyBlocks none))
    | _ => none
  | .devWrite c ok =>
    match s.phase c with
    | .evicting viaBytes victim victimData false lba data dirty rest =>
      let sector := if viaBytes then byteSector victim else victim
      let s := if ok then { s with dev := update s.dev sector victimData } else s
      some (s.setPhase c (.evicting viaBytes victim victimData true lba data dirty rest))
    | .flushing ((lba, data) :: rest) none =>
      if ok then
        some (({ s with dev := update s.dev (byteSector lba) data } : Sys S ι).setPhase c (.flushing rest (some lba)))
      else some (s.setPhase c (.flushing rest none))
    | _ => none
  | .relock c =>
    match s.phase c with
    | .evicting _ victim _ true lba data dirty rest =>
      some ((({ s with ctx := s.ctx.remove victim } : Sys S ι).insert lba data dirty).setPhase c (.running rest))
    | .flushing rest (some lba) =>
      some (({ s with ctx := s.ctx.clearDirty lba } : Sys S ι).setPhase c (.flushing rest none))
    | .flushing [] none => some (s.setPhase c (.running []))
    | _ => none

def start (busy : Bool) (lbaCount : ℕ) (dev : ℕ → S) : Sys S ι :=
  ⟨⟨busy, lbaCount, ∅, 0⟩, dev, fun _ => .running [], fun _ => none⟩

/-- No write is lost: a sector without a dirty block is on the device as it was last put. -/
def NoLost : Prop :=
  ∀ x d, s.last x = some d → (∀ d', s.ctx.view x ≠ some (d', true)) → s.dev x = d

/-! ## The condition -/

/-- No client but `c` has the sector in flight. -/
def Free (c : ι) (x : ℕ) : Prop := ∀ c', c' ≠ c → ¬ Phase.Holds x (s.phase c')

/-- The sector can be entered without writing a dirty block first. -/
def EntersNow (lba : ℕ) : Prop :=
  ∀ victim b, s.ctx.victimFor lba = some (victim, b) → b.dirty = false

/-- A dirty block is entered only for a sector nobody has in flight, and the write of an evicted block succeeds.
-/
def Safe : Event S ι → Prop
  | .put c lba _ dirty => lba < 2 ^ 55 ∧ (dirty = true → s.EntersNow lba → s.Free c lba)
  | .fill _ baseLba buf => baseLba + buf.length ≤ 2 ^ 55
  | .devWrite c ok =>
    match s.phase c with
    | .evicting .. => ok = true
    | _ => True
  | .relock c =>
    match s.phase c with
    | .evicting _ _ _ _ lba _ true _ => s.Free c lba
    | _ => True
  | _ => True

/-! ## The invariant -/

def NotDirty (x : ℕ) : Prop := ∀ d, s.ctx.view x ≠ some (d, true)

/-- A client's snapshots are the last writes, and those already written are on the device. -/
def PhaseOk : Phase S → Prop
  | .running rest => ∀ e ∈ rest, e.1 < 2 ^ 55
  | .evicting _ victim d written lba _ dirty rest =>
    s.last victim = some d ∧ (written = true → s.dev victim = d) ∧ (dirty = false → s.NotDirty lba) ∧
      victim < 2 ^ 55 ∧ lba < 2 ^ 55 ∧ ∀ e ∈ rest, e.1 < 2 ^ 55
  | .flushing rest clear =>
    (∀ e ∈ rest, s.last e.1 = some e.2 ∧ e.1 < 2 ^ 55) ∧ ∀ x, clear = some x → s.last x = some (s.dev x)

/-- The invariant of the cache and the device. -/
structure Core (s : Sys S ι) : Prop where
  dirty_last : ∀ x d, s.ctx.view x = some (d, true) → s.last x = some d
  noLost : s.NoLost
  small : ∀ x, s.ctx.view x ≠ none → x < 2 ^ 55

def Inv : Prop := s.Core ∧ ∀ c, s.PhaseOk (s.phase c)

/-- Seen from a client that has `x` in flight, `t` is no worse than `s`. -/
def Mild (s t : Sys S ι) (x : ℕ) : Prop :=
  t.last x = s.last x ∧ (s.last x = some (s.dev x) → t.dev x = s.dev x) ∧ (s.NotDirty x → t.NotDirty x)

omit [DecidableEq ι] in
theorem PhaseOk.mono {s t : Sys S ι} {p : Phase S} (h : s.PhaseOk p) (hm : ∀ x, Phase.Holds x p → Mild s t x) :
    t.PhaseOk p := by
  cases p with
  | running rest => exact h
  | evicting viaBytes victim d written lba data dirty rest =>
    obtain ⟨h1, h2, h3, h4⟩ := h
    obtain ⟨hl, hd, -⟩ := hm victim (Or.inl rfl)
    refine ⟨hl.trans h1, fun hw => ?_, fun hc => ?_, h4⟩
    · have := h2 hw
      rw [hd (by rw [this]; exact h1)]; exact this
    · exact (hm lba (Or.inr ⟨rfl, hc⟩)).2.2 (h3 hc)
  | flushing rest clear =>
    obtain ⟨h1, h2⟩ := h
    refine ⟨fun e he => ⟨?_, (h1 e he).2⟩, fun x hx => ?_⟩
    · rw [(hm e.1 (Or.inl (mem_map_of_mem he))).1]; exact (h1 e he).1
    · obtain ⟨hl, hd, -⟩ := hm x (Or.inr hx)
      rw [hl, hd (h2 x hx)]; exact h2 x hx

/-- A step of client `c`: the others see a mild change, and its own new phase is in order. -/
theorem Inv.step_of {s t : Sys S ι} {c : ι} {p : Phase S} (h : s.Inv) (hcore : t.Core) (hphase : t.phase = s.phase)
    (hm : ∀ c' x, c' ≠ c → Phase.Holds x (s.phase c') → Mild s t x) (hp : t.PhaseOk p) : (t.setPhase c p).Inv := by
  refine ⟨⟨hcore.dirty_last, hcore.noLost, hcore.small⟩, fun c' => ?_⟩
  change t.PhaseOk (update t.phase c p c')
  rw [update_apply]
  split_ifs with hc
  · exact hp
  · rw [hphase]
    exact (h.2 c').mono fun x hx => hm c' x hc hx

/-! ## Changes of the cache and the device -/

section
omit [DecidableEq ι]
variable {s : Sys S ι} {x : ℕ}

theorem Mild.refl (x : ℕ) : Mild s s x := ⟨rfl, fun _ => rfl, id⟩

theorem Mild.trans {t u : Sys S ι} (h : Mild s t x) (h' : Mild t u x) : Mild s u x := by
  refine ⟨h'.1.trans h.1, fun hl => ?_, fun hn => h'.2.2 (h.2.2 hn)⟩
  have hd := h.2.1 hl
  refine (h'.2.1 ?_).trans hd
  rw [h.1, hd]; exact hl

theorem Core.write (h : s.Core) {d : S} (hx : s.last x = some d) : Core { s with dev := update s.dev x d } ∧
      ∀ y, Mild s { s with dev := update s.dev x d } y := by
  refine ⟨⟨h.dirty_last, fun y e hy hnd => ?_, h.small⟩, fun y => ⟨rfl, fun hl => ?_, id⟩⟩
  · simp only [update_apply]
    split_ifs with hyx
    · exact Option.some.inj (hx.symm.trans (hyx ▸ hy))
    · exact h.noLost y e hy hnd
  · simp only [update_apply]
    split_ifs with hyx
    · exact Option.some.inj (hx.symm.trans (hyx ▸ hl))
    · rfl

theorem Core.remove (h : s.Core) {v : ℕ} (hv : ∀ d, s.last v = some d → s.dev v = d) :
    Core { s with ctx := s.ctx.remove v } ∧ ∀ y, Mild s { s with ctx := s.ctx.remove v } y := by
  refine ⟨⟨fun y d hy => ?_, fun y d hy hnd => ?_, fun y hy => ?_⟩, fun y => ⟨rfl, fun _ => rfl, fun hn d => ?_⟩⟩
  · simp only [view_remove] at hy
    split_ifs at hy
    exact h.dirty_last y d hy
  · by_cases hyv : y = v
    · subst hyv; exact hv d hy
    · refine h.noLost y d hy fun e => ?_
      have := hnd e
      rwa [view_remove, if_neg hyv] at this
  · simp only [view_remove] at hy
    split_ifs at hy
    · exact absurd rfl hy
    · exact h.small y hy
  · rw [view_remove]
    split_ifs
    · simp
    · exact hn d

theorem Core.clear (h : s.Core) (hx : s.last x = some (s.dev x)) :
    Core { s with ctx := s.ctx.clearDirty x } ∧ ∀ y, Mild s { s with ctx := s.ctx.clearDirty x } y := by
  have hother : ∀ y, y ≠ x → (s.ctx.clearDirty x).view y = s.ctx.view y := fun y hy => by
    rw [view_clearDirty, if_neg hy]
  have hself : ∀ d, (s.ctx.clearDirty x).view x ≠ some (d, true) := fun d hd => by
    rw [view_clearDirty, if_pos rfl] at hd
    obtain ⟨v, -, hv⟩ := Option.map_eq_some_iff.1 hd
    cases hv
  refine ⟨⟨fun y d hy => ?_, fun y d hy hnd => ?_, fun y hy => ?_⟩, fun y => ⟨rfl, fun _ => rfl, fun hn d => ?_⟩⟩
  · by_cases hyx : y = x
    · subst hyx; exact absurd hy (hself d)
    · exact h.dirty_last y d ((hother y hyx).symm.trans hy)
  · by_cases hyx : y = x
    · subst hyx; exact Option.some.inj (hx.symm.trans hy)
    · refine h.noLost y d hy fun e => ?_
      have := hnd e
      rwa [hother y hyx] at this
  · by_cases hyx : y = x
    · subst hyx
      rw [view_clearDirty, if_pos rfl, ne_eq, Option.map_eq_none_iff] at hy
      exact h.small y hy
    · rw [hother y hyx] at hy; exact h.small y hy
  · by_cases hyx : y = x
    · subst hyx; exact hself d
    · change (s.ctx.clearDirty x).view y ≠ _
      rw [hother y hyx]; exact hn d

theorem Core.insert (h : s.Core) (data : S) {dirty : Bool} (hx : x < 2 ^ 55) (hclean : dirty = false → s.NotDirty x) :
    (s.insert x data dirty).Core ∧ ∀ y, (dirty = true → y ≠ x) → Mild s (s.insert x data dirty) y := by
  have hview : ∀ y, (s.insert x data dirty).ctx.view y = if y = x then some (data, dirty) else s.ctx.view y :=
    s.ctx.view_insert x data dirty
  have hlast : ∀ y, (dirty = true → y ≠ x) → (s.insert x data dirty).last y = s.last y := by
    intro y hy
    change (if dirty = true then update s.last x (some data) else s.last) y = _
    by_cases hd : dirty = true
    · rw [if_pos hd, update_of_ne (hy hd)]
    · rw [if_neg hd]
  refine ⟨⟨fun y d hy => ?_, fun y d hy hnd => ?_, fun y hy => ?_⟩, fun y hy => ⟨hlast y hy, fun _ => rfl,
    fun hn d => ?_⟩⟩
  · rw [hview] at hy
    by_cases hyx : y = x
    · rw [if_pos hyx, Option.some.injEq, Prod.mk.injEq] at hy
      obtain ⟨rfl, rfl⟩ := hy
      change (if true = true then update s.last x (some data) else s.last) y = _
      rw [if_pos rfl, hyx, update_self]
    · rw [if_neg hyx] at hy
      rw [hlast y fun _ => hyx]; exact h.dirty_last y d hy
  · by_cases hyx : y = x
    · subst hyx
      cases dirty with
      | true => exact absurd (by rw [hview, if_pos rfl]) (hnd data)
      | false => exact h.noLost y d hy (hclean rfl)
    · rw [hlast y fun _ => hyx] at hy
      refine h.noLost y d hy fun e => ?_
      have := hnd e
      rwa [hview, if_neg hyx] at this
  · by_cases hyx : y = x
    · rw [hyx]; exact hx
    · rw [hview, if_neg hyx] at hy; exact h.small y hy
  · rw [hview]
    by_cases hyx : y = x
    · rw [if_pos hyx]
      cases dirty with
      | true => exact absurd hyx (hy rfl)
      | false => simp
    · rw [if_neg hyx]; exact hn d

end

/-! ## The steps -/

section
variable {s : Sys S ι} {c : ι} {lba : ℕ} {data : S} {dirty : Bool} {rest : List (ℕ × S)}
variable {t : Sys S ι}

theorem Inv.setPhase {p : Phase S} (h : s.Inv) (hp : s.PhaseOk p) : (s.setPhase c p).Inv :=
  h.step_of h.1 rfl (fun _ x _ _ => Mild.refl x) hp

theorem Inv.insert_step (h : s.Inv) (ht : t.Core) (hphase : t.phase = s.phase) (hm : ∀ x, Mild s t x)
    (hl : lba < 2 ^ 55) (hclean : dirty = false → t.NotDirty lba) (hfree : dirty = true → s.Free c lba)
    (hrest : ∀ e ∈ rest, e.1 < 2 ^ 55) : ((t.insert lba data dirty).setPhase c (.running rest)).Inv := by
  obtain ⟨hcore, hmild⟩ := ht.insert data hl hclean
  refine h.step_of hcore hphase (fun c' x hc hx => (hm x).trans (hmild x fun hd hxl => ?_)) hrest
  subst hxl
  exact hfree hd c' hc hx

theorem Inv.enter (h : s.Inv) (viaBytes : Bool) (hl : lba < 2 ^ 55) (hrest : ∀ e ∈ rest, e.1 < 2 ^ 55)
    (hfree : dirty = true → s.EntersNow lba → s.Free c lba) : (s.enter c viaBytes lba data dirty rest).Inv := by
  unfold Sys.enter
  split_ifs with hskip
  · exact h.setPhase hrest
  have hclean : dirty = false → s.NotDirty lba := by
    rintro rfl d hd
    refine hskip ?_
    rw [Bool.not_false, Bool.and_true, RawDiskCtx.hasDirty_iff]
    exact ⟨d, hd⟩
  split
  · rename_i hvic
    refine h.insert_step h.1 rfl (fun x => Mild.refl x) hl hclean (fun hd => hfree hd ?_) hrest
    intro victim b hb
    rw [hvic] at hb; cases hb
  · rename_i victim b hvic
    obtain ⟨hview, -⟩ := RawDiskCtx.victimFor_spec hvic
    have hsmall : victim < 2 ^ 55 := h.1.small victim (by rw [hview]; simp)
    split_ifs with hb
    · -- the lock is dropped, with a snapshot of the victim
      rw [hb] at hview
      refine h.setPhase ?_
      exact ⟨h.1.dirty_last victim _ hview, fun hw => (by cases hw), hclean, hsmall, hl, hrest⟩
    · have hnd : s.NotDirty victim := fun d hd => hb (by
        rw [hview, Option.some.injEq, Prod.mk.injEq] at hd; exact hd.2)
      obtain ⟨hcore, hmild⟩ := h.1.remove fun d hd => h.1.noLost victim d hd hnd
      refine h.insert_step hcore rfl hmild hl (fun hd => (hmild lba).2.2 (hclean hd)) (fun hd => hfree hd ?_) hrest
      intro victim' b' hb'
      rw [hvic, Option.some.injEq, Prod.mk.injEq] at hb'
      rw [← hb'.2]; exact Bool.not_eq_true _ ▸ hb

theorem Inv.devWrite (h : s.Inv) {ok : Bool} (hsafe : s.Safe (.devWrite c ok))
    (hstep : s.step (.devWrite c ok) = some t) : t.Inv := by
  have hp := h.2 c
  simp only [Sys.step] at hstep
  simp only [Safe] at hsafe
  split at hstep
  · rename_i viaBytes victim victimData lba data dirty rest hphase
    rw [hphase] at hp hsafe
    obtain ⟨h1, -, h3, h4, h5⟩ := hp
    simp only at hsafe
    subst hsafe
    cases hstep
    have hsector : (if viaBytes = true then byteSector victim else victim) = victim := by
      split_ifs
      exacts [byteSector_eq h4, rfl]
    simp only [if_true, hsector]
    obtain ⟨hcore, hmild⟩ := h.1.write h1
    refine h.step_of hcore rfl (fun _ x _ _ => hmild x) ⟨h1, fun _ => ?_, h3, h4, h5⟩
    exact update_self _ _ _
  · rename_i lba data rest hphase
    rw [hphase] at hp
    obtain ⟨h1, -⟩ := hp
    have hlast := h1 (lba, data) (by simp)
    have hrest : ∀ e ∈ rest, s.last e.1 = some e.2 ∧ e.1 < 2 ^ 55 := fun e he => h1 e (by simp [he])
    split_ifs at hstep
    · cases hstep
      simp only [byteSector_eq hlast.2]
      obtain ⟨hcore, hmild⟩ := h.1.write hlast.1
      refine h.step_of hcore rfl (fun _ x _ _ => hmild x) ⟨hrest, fun x hx => ?_⟩
      cases hx
      simp only [update_self]; exact hlast.1
    · cases hstep
      exact h.setPhase ⟨hrest, fun x hx => by cases hx⟩
  · cases hstep

theorem Inv.relock (h : s.Inv) (hsafe : s.Safe (.relock c)) (hstep : s.step (.relock c) = some t) : t.Inv := by
  have hp := h.2 c
  simp only [Sys.step] at hstep
  simp only [Safe] at hsafe
  split at hstep
  · rename_i viaBytes victim victimData lba data dirty rest hphase
    rw [hphase] at hp hsafe
    obtain ⟨h1, h2, h3, h4, h5, h6⟩ := hp
    cases hstep
    obtain ⟨hcore, hmild⟩ := h.1.remove fun d hd =>
      (h2 rfl).trans (Option.some.inj (h1.symm.trans hd))
    refine h.insert_step hcore rfl hmild h5 (fun hd => (hmild lba).2.2 (h3 hd)) (fun hd => ?_) h6
    subst hd; exact hsafe
  · rename_i rest lba hphase
    rw [hphase] at hp
    cases hstep
    obtain ⟨hcore, hmild⟩ := h.1.clear (hp.2 lba rfl)
    refine h.step_of hcore rfl (fun _ x _ _ => hmild x) ⟨hp.1, fun x hx => by cases hx⟩
  · cases hstep
    exact h.setPhase (by simp [PhaseOk])
  · cases hstep

theorem Inv.step (h : s.Inv) {e : Event S ι} (hsafe : s.Safe e) (hstep : s.step e = some t) : t.Inv := by
  cases e with simp only [Sys.step] at hstep
  | put c lba data dirty =>
    split at hstep
    · cases hstep
      exact h.enter true hsafe.1 (by simp) hsafe.2
    · cases hstep
  | fill c baseLba buf =>
    split at hstep
    · cases hstep
      refine h.setPhase fun e he => ?_
      obtain ⟨⟨d, i⟩, hi, rfl⟩ := mem_map.1 he
      have hlt := (mem_zipIdx hi).2.1
      have hle : baseLba + buf.length ≤ 2 ^ 55 := hsafe
      simp only [Nat.zero_add] at hlt
      simp only [wadd_eq (show baseLba + i < 2 ^ 64 by omega)]
      omega
    · cases hstep
  | fillRound c =>
    split at hstep
    · rename_i lba data rest hphase
      have hp := h.2 c
      rw [hphase] at hp
      cases hstep
      exact h.enter false (hp (lba, data) (by simp)) (fun e he => hp e (by simp [he])) (fun hd => by cases hd)
    · cases hstep
  | flush c =>
    split at hstep
    · cases hstep
      refine h.setPhase ⟨fun e he => ?_, fun x hx => by cases hx⟩
      simp only [RawDiskCtx.dirtyBlocks, mem_map, mem_filter] at he
      obtain ⟨⟨x, b⟩, ⟨hx, hb⟩, rfl⟩ := he
      have hview : s.ctx.view x = some (b.data, true) := by
        rw [view, Std.TreeMap.mem_toList_iff_getElem?_eq_some.1 hx, ← hb]; rfl
      exact ⟨h.1.dirty_last x _ hview, h.1.small x (by rw [hview]; simp)⟩
    · cases hstep
  | devWrite c ok => exact h.devWrite hsafe hstep
  | relock c => exact h.relock hsafe hstep

end

/-- **No write is lost** if dirty blocks are entered only for sectors nobody has in flight and evictions succeed.
-/
theorem exec_noLost (busy : Bool) (lbaCount : ℕ) (dev : ℕ → S) (events : List (Event S ι)) (s : Sys S ι)
    (hsafe : Along step Safe (start busy lbaCount dev) events)
    (h : exec step (start busy lbaCount dev) events = some s) : s.NoLost := by
  have h₀ : Inv (start busy lbaCount dev : Sys S ι) := by
    refine ⟨⟨fun x d hx => ?_, fun x d hx => (by cases hx), fun x hx => ?_⟩, fun c => by simp [start, PhaseOk]⟩
    · simp [start, view] at hx
    · simp [start, view] at hx
  exact (exec_induction (fun _ _ _ hu hs hv => Inv.step hu hs hv) h₀ hsafe h).1.noLost

def disjointClients (c d : ι) : List (Event ℕ ι) :=
  [.put c 5 7 true, .flush d, .put c 6 8 true, .devWrite d true, .relock d, .relock d]

theorem exec_noLost_disjointClients : (exec step (start false 8 fun _ => 0 : Sys ℕ (Fin 2))
    (disjointClients 0 1)).isSome = true ∧ ∀ s : Sys ℕ (Fin 2),
    exec step (start false 8 fun _ => 0) (disjointClients 0 1) = some s → s.NoLost := by
  refine ⟨by decide, fun s h => exec_noLost false 8 (fun _ => 0) (disjointClients 0 1) s ?_ h⟩
  refine ⟨⟨by decide, fun _ _ c' _ => id⟩, fun t ht => ?_⟩
  cases ht
  refine ⟨trivial, fun t ht => ?_⟩
  cases ht
  refine ⟨⟨by decide, fun _ _ c' hc' => ?_⟩, fun t ht => ?_⟩
  · rw [show c' = 1 by omega]
    change ¬ (6 ∈ [5] ∨ none = some 6)
    decide
  cases ht
  refine ⟨trivial, fun t ht => ?_⟩
  cases ht
  refine ⟨trivial, fun t ht => ?_⟩
  cases ht
  exact ⟨trivial, fun _ _ => trivial⟩

/-- A flush clears the dirty flag of what another client has put meanwhile: that write never gets to the device.
-/
theorem flush_loses_concurrent_put : ∃ s, exec step (start false 8 fun _ => 0 : Sys ℕ (Fin 2))
    [.put 0 5 7 true, .flush 1, .put 0 5 9 true, .devWrite 1 true, .relock 1] = some s ∧
    s.ctx.view 5 = some (9, false) ∧ s.last 5 = some 9 ∧ s.dev 5 = 7 :=
  ⟨_, rfl, by decide, by decide, by decide⟩

end Sys

end Archis.Disk

/-
  Reading and writing sectors: `do_io` of `drivers/disk/src/lib.rs`, by one client.

  The abstract disk is a plain array of sectors (`plainIo`).  A read that misses one of its sectors goes to the device
  for all of them, so the answers are the plain disk's exactly if no such read has a dirty sector in its range
  (`doIo_refines_iff`).
-/
import Archis.Disk.Cache
import Archis.Lib.Run

namespace Archis.Disk

open Archis.Lib List
open RawDiskCtx (view view_insert view_remove)

/-- The devices of a disk: the whole disk, or a partition with its first and last LBA. -/
inductive Device where
  | raw
  | part (startLba endLba : ℕ)

/-- A read or write request: the LBA, the size of the buffer in bytes and its sectors. -/
structure Irp (S : Type) where
  device : Device
  isWrite : Bool
  offset : ℕ
  size : ℕ
  buf : ℕ → S

def numLba (startLba endLba : ℕ) : ℕ :=
  if endLba < startLba then 0 else wadd (wsub endLba startLba) 1

section
variable {S : Type} (p : DiskState S × (ℕ → S)) (r : Irp S)

/-- The checks of `do_io`: the first LBA and the number of sectors, unless the request fails. -/
def target (ctx : RawDiskCtx S) (r : Irp S) : Option (ℕ × ℕ) :=
  if r.size = 0 || r.size % SECTOR_SIZE ≠ 0 then none
  else
    let n := r.size / SECTOR_SIZE
    let base := match r.device with
      | .raw => some r.offset
      | .part startLba endLba =>
        if wadd r.offset n > numLba startLba endLba then none else some (wadd startLba r.offset)
    match base with
    | none => none
    | some baseLba => if ctx.busy || wadd baseLba n > ctx.lbaCount then none else some (baseLba, n)

/-- The first loop of a read: is every sector in the cache?  It stops at the first miss. -/
def probe (ctx : RawDiskCtx S) (baseLba : ℕ) : ℕ → ℕ → Bool × RawDiskCtx S
  | _, 0 => (true, ctx)
  | i, n + 1 =>
    match ctx.cacheLookup (wadd baseLba i) with
    | (none, ctx) => (false, ctx)
    | (some _, ctx) => probe ctx baseLba (i + 1) n

/-- The second loop: copying the sectors from the cache (`none` is a failing `unwrap`). -/
def collect (ctx : RawDiskCtx S) (baseLba : ℕ) : ℕ → ℕ → Option (List S) × RawDiskCtx S
  | _, 0 => (some [], ctx)
  | i, n + 1 =>
    match ctx.cacheLookup (wadd baseLba i) with
    | (none, ctx) => (none, ctx)
    | (some data, ctx) =>
      match collect ctx baseLba (i + 1) n with
      | (rest, ctx) => (rest.map (data :: ·), ctx)

/-- The loop of a write. -/
def DiskState.putAll (s : DiskState S) (baseLba : ℕ) (buf : ℕ → S) : ℕ → ℕ → DiskState S
  | _, 0 => s
  | i, n + 1 => (s.cachePut (wadd baseLba i) (buf i) true).putAll baseLba buf (i + 1) n

def readSectors (dev : ℕ → S) (baseLba n : ℕ) : List S := (List.range n).map fun i => dev (baseLba + i)

/-- `do_io`, with reads completed at once: the sectors read (none for a write), or `none` if it fails. -/
def doIo (s : DiskState S) (r : Irp S) : Option (Option (List S) × DiskState S) :=
  match target s.ctx r with
  | none => some (none, s)
  | some (baseLba, n) =>
    if r.isWrite then some (some [], s.putAll baseLba r.buf 0 n)
    else
      let (hit, ctx) := probe s.ctx baseLba 0 n
      let s := { s with ctx }
      if hit then
        match collect s.ctx baseLba 0 n with
        | (none, _) => none
        | (some data, ctx) => some (some data, { s with ctx })
      else
        some (some (readSectors s.dev baseLba n), s.cacheFillNoEvict baseLba (fun i => s.dev (baseLba + i)) 0 n)

/-! ## The plain disk -/

/-- Writing `n` sectors of an array. -/
def writeRange (plain : ℕ → S) (baseLba n : ℕ) (buf : ℕ → S) : ℕ → S :=
  fun x => if baseLba ≤ x ∧ x < baseLba + n then buf (x - baseLba) else plain x

/-- What a plain array of sectors answers to a request for the given sectors, and its contents
    afterwards. -/
def plainIo (plain : ℕ → S) (sectors : Option (ℕ × ℕ)) (r : Irp S) : Option (List S) × (ℕ → S) :=
  match sectors with
  | none => (none, plain)
  | some (baseLba, n) =>
    if r.isWrite then (some [], writeRange plain baseLba n r.buf)
    else (some (readSectors plain baseLba n), plain)

def step : Option (DiskState S × (ℕ → S)) :=
  (doIo p.1 r).map fun q => (q.2, (plainIo p.2 (target p.1.ctx r) r).2)

def Agrees : Prop :=
  (doIo p.1 r).map Prod.fst = some (plainIo p.2 (target p.1.ctx r) r).1

/-- A read finds all its sectors in the cache, or no dirty block among them that differs from the
    device. -/
def ReadOk : Prop :=
  ∀ baseLba n, r.isWrite = false → target p.1.ctx r = some (baseLba, n) →
    (∀ i < n, p.1.ctx.view (baseLba + i) ≠ none) ∨
      ∀ i < n, ∀ d, p.1.ctx.view (baseLba + i) = some (d, true) → d = p.1.dev (baseLba + i)

/-- The sector numbers of the request do not wrap around. -/
def Irp.Fits : Prop :=
  match r.device with
  | .raw => r.offset + r.size / SECTOR_SIZE < 2 ^ 64
  | .part startLba _ => startLba + r.offset + r.size / SECTOR_SIZE < 2 ^ 64

/-! ## Coherence -/

/-- A cached sector is the plain disk's, and so is one without a dirty block on the device; sector numbers fit
offsets. -/
structure Coherent (p : DiskState S × (ℕ → S)) : Prop where
  cached : ∀ x d b, p.1.ctx.view x = some (d, b) → d = p.2 x
  stored : ∀ x, (∀ d, p.1.ctx.view x ≠ some (d, true)) → p.1.dev x = p.2 x
  small : ∀ x, p.1.ctx.view x ≠ none → x < 2 ^ 55
  count : p.1.ctx.lbaCount ≤ 2 ^ 55

/-- The device has the plain disk's sectors on `R`. -/
def FreshOn (R : Set ℕ) (p : DiskState S × (ℕ → S)) : Prop := ∀ x ∈ R, p.1.dev x = p.2 x

section
variable {s : DiskState S} {plain : ℕ → S}
variable {ctx : RawDiskCtx S} {baseLba n : ℕ} {r : Irp S} {R : Set ℕ} {lba : ℕ}

theorem Coherent.congr (h : Coherent (s, plain)) (hv : ∀ x, ctx.view x = s.ctx.view x)
    (hc : ctx.lbaCount = s.ctx.lbaCount) : Coherent ({ s with ctx }, plain) := by
  refine ⟨fun x d b => ?_, fun x => ?_, fun x => ?_, hc.trans_le h.count⟩
  · rw [hv]; exact h.cached x d b
  · simp only [hv]; exact h.stored x
  · rw [hv]; exact h.small x

theorem lbaCount_cacheLookup (ctx : RawDiskCtx S) (lba : ℕ) : (ctx.cacheLookup lba).2.lbaCount = ctx.lbaCount := by
  unfold RawDiskCtx.cacheLookup
  split <;> rfl

/-- **Eviction** keeps coherence, makes the sector's place free and never makes the device older. -/
theorem Coherent.makeRoom {sector : ℕ → ℕ} (h : Coherent (s, plain)) (lba : ℕ)
    (hsec : ∀ x < 2 ^ 55, sector x = x) (hf : FreshOn R (s, plain)) :
    Coherent (s.makeRoom sector lba, plain) ∧ FreshOn R (s.makeRoom sector lba, plain) := by
  unfold DiskState.makeRoom
  cases hvic : s.ctx.victimFor lba with
  | none => exact ⟨h, hf⟩
  | some r =>
    obtain ⟨victim, b⟩ := r
    obtain ⟨hview, -⟩ := RawDiskCtx.victimFor_spec hvic
    have hsmall : victim < 2 ^ 55 := h.small victim (by rw [hview]; simp)
    have hdata := h.cached victim _ _ hview
    -- after the write, the device has the victim's data
    have hdev : ∀ x, x = victim ∨ s.dev x = plain x →
        (if b.dirty = true then s.write (sector victim) b.data else s).dev x = plain x := by
      intro x hx
      by_cases hd : b.dirty = true
      · rw [if_pos hd, hsec victim hsmall]
        by_cases hxv : x = victim
        · subst hxv; simp [DiskState.write, hdata]
        · simp only [DiskState.write, Function.update_of_ne hxv]; exact hx.resolve_left hxv
      · rw [if_neg hd]
        rcases hx with rfl | hx
        · refine h.stored x fun d hcontra => hd ?_
          rw [hview] at hcontra
          simp only [Option.some.injEq, Prod.mk.injEq] at hcontra
          exact hcontra.2
        · exact hx
    have hctx : (if b.dirty = true then s.write (sector victim) b.data else s).ctx = s.ctx := by
      split_ifs <;> rfl
    simp only [hctx]
    refine ⟨⟨fun x d b' hx => ?_, fun x hx => ?_, fun x hx => ?_, h.count⟩, fun x hx => ?_⟩
    · simp only [view_remove] at hx
      split_ifs at hx
      exact h.cached x d b' hx
    · by_cases hxv : x = victim
      · exact hdev x (Or.inl hxv)
      · refine hdev x (Or.inr (h.stored x fun d => ?_))
        have := hx d
        rwa [view_remove, if_neg hxv] at this
    · simp only [view_remove] at hx
      split_ifs at hx
      · exact absurd rfl hx
      · exact h.small x hx
    · exact hdev x (Or.inr (hf x hx))

/-- **Entering a dirty block** is a write to the plain disk. -/
theorem Coherent.cachePut (h : Coherent (s, plain)) (data : S) (hl : lba < 2 ^ 55) :
    Coherent (s.cachePut lba data true, Function.update plain lba data) := by
  obtain ⟨hr, -⟩ := h.makeRoom lba (R := ∅) (fun x hx => byteSector_eq hx) (fun x hx => hx.elim)
  unfold DiskState.cachePut
  rw [Bool.not_true, Bool.and_false, if_neg (by decide)]
  refine ⟨fun x d b hx => ?_, fun x hx => ?_, fun x hx => ?_, hr.count⟩
  · simp only [view_insert] at hx
    by_cases hxl : x = lba
    · subst hxl
      simp only [if_true, Option.some.injEq, Prod.mk.injEq] at hx
      simp [hx.1]
    · rw [if_neg hxl] at hx
      simp only [Function.update_of_ne hxl]; exact hr.cached x d b hx
  · by_cases hxl : x = lba
    · exact absurd (by rw [view_insert, if_pos hxl]) (hx data)
    · simp only [Function.update_of_ne hxl]
      refine hr.stored x fun d => ?_
      have := hx d
      rwa [view_insert, if_neg hxl] at this
  · by_cases hxl : x = lba
    · rw [hxl]; exact hl
    · rw [view_insert, if_neg hxl] at hx
      exact hr.small x hx

/-- **Filling with what the device holds** changes nothing but the cache. -/
theorem Coherent.fillOne (h : Coherent (s, plain)) (hf : FreshOn R (s, plain))
    (hR : lba ∈ R) (hl : lba < 2 ^ 55) {data : S} (hdata : data = plain lba) :
    Coherent (s.fillOne lba data, plain) ∧ FreshOn R (s.fillOne lba data, plain) := by
  unfold DiskState.fillOne
  split_ifs with hd
  · exact ⟨h, hf⟩
  obtain ⟨hr, hfr⟩ := h.makeRoom lba (fun x _ => rfl) hf
  refine ⟨⟨fun x d b hx => ?_, fun x hx => ?_, fun x hx => ?_, hr.count⟩, hfr⟩
  · simp only [view_insert] at hx
    by_cases hxl : x = lba
    · subst hxl
      simp only [if_true, Option.some.injEq, Prod.mk.injEq] at hx
      exact hx.1.symm.trans hdata
    · rw [if_neg hxl] at hx; exact hr.cached x d b hx
  · by_cases hxl : x = lba
    · rw [hxl]; exact hfr lba hR
    · refine hr.stored x fun d => ?_
      have := hx d
      rwa [view_insert, if_neg hxl] at this
  · by_cases hxl : x = lba
    · rw [hxl]; exact hl
    · rw [view_insert, if_neg hxl] at hx
      exact hr.small x hx

/-! ## The loops -/

theorem writeRange_zero (plain : ℕ → S) (baseLba : ℕ) (buf : ℕ → S) : writeRange plain baseLba 0 buf = plain := by
  ext x
  exact if_neg (by omega)

theorem writeRange_succ (plain : ℕ → S) (baseLba n : ℕ) (buf : ℕ → S) :
    writeRange (Function.update plain baseLba (buf 0)) (baseLba + 1) n (fun i => buf (i + 1)) =
      writeRange plain baseLba (n + 1) buf := by
  ext x
  unfold writeRange
  by_cases h : x = baseLba
  · subst h
    rw [if_neg (by omega), if_pos (by omega)]; simp
  · by_cases hx : baseLba + 1 ≤ x ∧ x < baseLba + 1 + n
    · rw [if_pos hx, if_pos (by omega)]
      exact congrArg buf (by omega)
    · rw [if_neg hx, if_neg (by omega), Function.update_of_ne h]

theorem Coherent.putAll (baseLba : ℕ) (buf : ℕ → S) : ∀ (n i : ℕ) (s : DiskState S) (plain : ℕ → S),
    Coherent (s, plain) → baseLba + i + n ≤ 2 ^ 55 →
    Coherent (s.putAll baseLba buf i n, writeRange plain (baseLba + i) n (fun j => buf (i + j)))
  | 0, i, s, plain, h, _ => by rw [writeRange_zero]; exact h
  | n + 1, i, s, plain, h, hle => by
    rw [DiskState.putAll, wadd_eq (by omega), ← writeRange_succ]
    have hput := h.cachePut (buf i) (show baseLba + i < 2 ^ 55 by omega)
    have hrest := Coherent.putAll baseLba buf n (i + 1) _ _ hput (by omega)
    simpa only [Nat.add_assoc, Nat.add_comm 1, Nat.add_zero] using hrest

theorem Coherent.fillAll {m : ℕ} {buf : ℕ → S} (hbuf : ∀ i < m, buf i = plain (baseLba + i))
    (hm : baseLba + m ≤ 2 ^ 55) : ∀ (n i : ℕ) (s : DiskState S), i + n = m → Coherent (s, plain) → FreshOn
    (Set.Ico baseLba (baseLba + m)) (s, plain) → Coherent (s.cacheFillNoEvict baseLba buf i n, plain)
  | 0, i, s, _, h, _ => h
  | n + 1, i, s, hi, h, hf => by
    rw [DiskState.cacheFillNoEvict, wadd_eq (by omega)]
    obtain ⟨h', hf'⟩ := h.fillOne hf (show baseLba + i ∈ Set.Ico baseLba (baseLba + m) from
      ⟨by omega, by omega⟩) (by omega) (hbuf i (by omega))
    exact Coherent.fillAll hbuf hm n (i + 1) _ (by omega) h' hf'

theorem probe_spec (baseLba : ℕ) : ∀ (n i : ℕ) (ctx : RawDiskCtx S), baseLba + i + n < 2 ^ 64 →
    ((probe ctx baseLba i n).1 = true ↔ ∀ j < n, ctx.view (baseLba + i + j) ≠ none) ∧
      (∀ x, (probe ctx baseLba i n).2.view x = ctx.view x) ∧
      (probe ctx baseLba i n).2.lbaCount = ctx.lbaCount
  | 0, i, ctx, _ => ⟨by simp [probe], fun _ => rfl, rfl⟩
  | n + 1, i, ctx, hle => by
    have hfst := ctx.cacheLookup_fst (baseLba + i)
    have hview := ctx.view_cacheLookup (baseLba + i)
    have hcount := lbaCount_cacheLookup ctx (baseLba + i)
    rw [probe, wadd_eq (by omega)]
    rcases hl : ctx.cacheLookup (baseLba + i) with ⟨_ | data, ctx'⟩
    · rw [hl] at hfst hview hcount
      have hnone : ctx.view (baseLba + i) = none := Option.map_eq_none_iff.1 hfst.symm
      refine ⟨iff_of_false (by simp) fun h => h 0 (by omega) hnone, hview, hcount⟩
    rw [hl] at hfst hview hcount
    have hsome : ctx.view (baseLba + i) ≠ none := fun h => by rw [h] at hfst; cases hfst
    obtain ⟨h1, h2, h3⟩ := probe_spec baseLba n (i + 1) ctx' (by omega)
    refine ⟨h1.trans ?_, fun x => (h2 x).trans (hview x), h3.trans hcount⟩
    constructor
    · intro h j hj
      cases j with
      | zero => exact hsome
      | succ j =>
        have := h j (by omega)
        rwa [show ctx'.view = ctx.view from funext hview, Nat.add_assoc baseLba, Nat.add_assoc i,
          Nat.add_comm 1 j, ← Nat.add_assoc] at this
    · intro h j hj
      have := h (j + 1) (by omega)
      rwa [show ctx'.view = ctx.view from funext hview, Nat.add_assoc baseLba, Nat.add_assoc i,
        Nat.add_comm 1 j, ← Nat.add_assoc]

theorem collect_spec (baseLba : ℕ) (f : ℕ → S) : ∀ (n i : ℕ) (ctx : RawDiskCtx S), baseLba + i + n < 2 ^ 64 →
    (∀ j < n, ∃ b, ctx.view (baseLba + (i + j)) = some (f (baseLba + (i + j)), b)) → (collect ctx baseLba i n).1 =
    some ((List.range n).map fun j => f (baseLba + (i + j))) ∧ (∀ x, (collect ctx baseLba i n).2.view x = ctx.view x)
    ∧ (collect ctx baseLba i n).2.lbaCount = ctx.lbaCount
  | 0, i, ctx, _, _ => ⟨rfl, fun _ => rfl, rfl⟩
  | n + 1, i, ctx, hle, h => by
    have hfst := ctx.cacheLookup_fst (baseLba + i)
    have hview := ctx.view_cacheLookup (baseLba + i)
    have hcount := lbaCount_cacheLookup ctx (baseLba + i)
    obtain ⟨b, hb⟩ := h 0 (by omega)
    rw [Nat.add_zero] at hb
    rw [hb] at hfst
    rw [collect, wadd_eq (by omega)]
    rcases hl : ctx.cacheLookup (baseLba + i) with ⟨_ | data, ctx'⟩
    · rw [hl] at hfst; cases hfst
    rw [hl] at hfst hview hcount
    simp only [Option.map_some, Option.some.injEq] at hfst
    subst hfst
    have hnext : ∀ j < n, ∃ b, ctx'.view (baseLba + (i + 1 + j)) = some (f (baseLba + (i + 1 + j)), b) := by
      intro j hj
      rw [show ctx'.view = ctx.view from funext hview, Nat.add_assoc i, Nat.add_comm 1 j]
      exact h (j + 1) (by omega)
    obtain ⟨h1, h2, h3⟩ := collect_spec baseLba f n (i + 1) ctx' (by omega) hnext
    refine ⟨?_, fun x => (h2 x).trans (hview x), h3.trans hcount⟩
    simp only [h1, Option.map_some, range_succ_eq_map, map_cons, map_map,
      Nat.add_zero, Option.some.injEq, List.cons.injEq, true_and]
    refine map_congr_left fun j _ => ?_
    simp only [Function.comp_apply]
    congr 1; omega

/-! ## One request -/

theorem target_spec (hr : r.Fits) (h : target ctx r = some (baseLba, n)) : baseLba + n ≤ ctx.lbaCount := by
  simp only [target] at h
  split at h
  · cases h
  split at h
  · cases h
  rename_i b hbase
  split_ifs at h with hb
  simp only [Option.some.injEq, Prod.mk.injEq] at h
  obtain ⟨rfl, rfl⟩ := h
  simp only [Bool.or_eq_true, decide_eq_true_eq, not_or, not_lt, gt_iff_lt] at hb
  have hfit : b + r.size / SECTOR_SIZE < 2 ^ 64 := by
    unfold Irp.Fits at hr
    cases hdev : r.device with
    | raw =>
      rw [hdev] at hbase hr
      simp only [Option.some.injEq] at hbase
      rw [← hbase]; exact hr
    | part startLba endLba =>
      rw [hdev] at hbase hr
      simp only at hbase hr
      split_ifs at hbase
      simp only [Option.some.injEq] at hbase
      rw [← hbase, wadd_eq (lt_of_le_of_lt (Nat.le_add_right _ _) hr)]; exact hr
  rw [wadd_eq hfit] at hb
  exact hb.2

theorem readSectors_eq_iff {f g : ℕ → S} :
    readSectors f baseLba n = readSectors g baseLba n ↔ ∀ i < n, f (baseLba + i) = g (baseLba + i) := by
  simp [readSectors, map_inj_left]

theorem Coherent.fresh_iff (h : Coherent (s, plain)) :
    (∀ i < n, ∀ d, s.ctx.view (baseLba + i) = some (d, true) → d = s.dev (baseLba + i)) ↔
      ∀ i < n, s.dev (baseLba + i) = plain (baseLba + i) := by
  constructor
  · intro hd i hi
    by_cases hex : ∃ d, s.ctx.view (baseLba + i) = some (d, true)
    · obtain ⟨d, hview⟩ := hex
      exact (hd i hi d hview).symm.trans (h.cached _ _ _ hview)
    · exact h.stored _ fun d hview => hex ⟨d, hview⟩
  · intro hf i hi d hview
    exact (h.cached _ _ _ hview).trans (hf i hi).symm

theorem Coherent.read_hit (h : Coherent (s, plain)) (hle : baseLba + n < 2 ^ 64)
    (hall : ∀ i < n, s.ctx.view (baseLba + i) ≠ none) : ∃ ctx, collect (probe s.ctx baseLba 0 n).2
    baseLba 0 n = (some (readSectors plain baseLba n), ctx) ∧ Coherent ({ s with ctx }, plain) := by
  obtain ⟨-, hview, hcount⟩ := probe_spec baseLba n 0 s.ctx (by omega)
  have hcached : ∀ j < n, ∃ b, (probe s.ctx baseLba 0 n).2.view (baseLba + (0 + j)) =
      some (plain (baseLba + (0 + j)), b) := by
    intro j hj
    rw [hview, Nat.zero_add]
    obtain ⟨⟨d, b⟩, hd⟩ := Option.ne_none_iff_exists'.1 (hall j hj)
    exact ⟨b, by rw [hd, h.cached _ _ _ hd]⟩
  obtain ⟨h1, h2, h3⟩ := collect_spec baseLba plain n 0 _ (by omega) hcached
  refine ⟨(collect (probe s.ctx baseLba 0 n).2 baseLba 0 n).2, Prod.ext ?_ rfl,
    h.congr (fun x => (h2 x).trans (hview x)) (h3.trans hcount)⟩
  simpa only [Nat.zero_add, readSectors] using h1

theorem doIo_read_miss (hw : r.isWrite = false) (ht : target s.ctx r = some (baseLba, n))
    (hhit : (probe s.ctx baseLba 0 n).1 = false) : doIo s r = some (some (readSectors s.dev baseLba n),
      ({ s with ctx := (probe s.ctx baseLba 0 n).2 } : DiskState S).cacheFillNoEvict baseLba
        (fun i => s.dev (baseLba + i)) 0 n) := by
  simp only [doIo, ht, hw, hhit, Bool.false_eq_true, if_false]

theorem doIo_read_hit (hw : r.isWrite = false) (ht : target s.ctx r = some (baseLba, n))
    (hhit : (probe s.ctx baseLba 0 n).1 = true) {data : List S}
    (hc : collect (probe s.ctx baseLba 0 n).2 baseLba 0 n = (some data, ctx)) :
    doIo s r = some (some data, { s with ctx }) := by
  simp only [doIo, ht, hw, hhit, Bool.false_eq_true, if_false, if_true, hc]

/-- **One request** is answered as by the plain disk exactly if it is no read that misses over a newer dirty
block. -/
theorem agrees_iff (h : Coherent (s, plain)) (hr : r.Fits) : (Agrees (s, plain) r ↔ ReadOk (s, plain) r) ∧
      (ReadOk (s, plain) r → ∀ q, step (s, plain) r = some q → Coherent q) := by
  cases ht : target s.ctx r with
  | none =>
    have hdo : doIo s r = some (none, s) := by simp only [doIo, ht]
    refine ⟨iff_of_true ?_ fun b n _ hcontra => ?_, fun _ q hq => ?_⟩
    · simp [Agrees, hdo, ht, plainIo]
    · rw [ht] at hcontra; cases hcontra
    · simp only [step, hdo, ht, plainIo, Option.map_some, Option.some.injEq] at hq
      rw [← hq]; exact h
  | some t =>
    obtain ⟨baseLba, n⟩ := t
    have hle := target_spec hr ht
    have hle' : baseLba + n ≤ 2 ^ 55 := hle.trans h.count
    cases hw : r.isWrite with
    | true =>
      have hdo : doIo s r = some (some [], s.putAll baseLba r.buf 0 n) := by simp only [doIo, ht, hw, if_true]
      refine ⟨iff_of_true ?_ fun b n hcontra => ?_, fun _ q hq => ?_⟩
      · simp [Agrees, hdo, ht, plainIo, hw]
      · rw [hw] at hcontra; cases hcontra
      · simp only [step, hdo, ht, plainIo, hw, if_true, Option.map_some, Option.some.injEq] at hq
        rw [← hq]
        simpa only [Nat.add_zero, Nat.zero_add] using Coherent.putAll baseLba r.buf n 0 s plain h hle'
    | false =>
      obtain ⟨hprobe, hview, hcount⟩ := probe_spec baseLba n 0 s.ctx (by omega)
      simp only [Nat.add_zero] at hprobe
      have hok : ReadOk (s, plain) r ↔ (probe s.ctx baseLba 0 n).1 = true ∨
          ∀ i < n, s.dev (baseLba + i) = plain (baseLba + i) := by
        rw [hprobe, ← h.fresh_iff]
        constructor
        · intro hro; exact hro baseLba n hw ht
        intro hro b m _ hbm
        rw [ht] at hbm
        simp only [Option.some.injEq, Prod.mk.injEq] at hbm
        obtain ⟨rfl, rfl⟩ := hbm
        exact hro
      cases hhit : (probe s.ctx baseLba 0 n).1 with
      | true =>
        obtain ⟨ctx, hc, hcoh⟩ := h.read_hit (by omega) (hprobe.1 hhit)
        have hdo := doIo_read_hit hw ht hhit hc
        refine ⟨iff_of_true ?_ (hok.2 (Or.inl hhit)), fun _ q hq => ?_⟩
        · simp [Agrees, hdo, ht, plainIo, hw]
        · simp only [step, hdo, ht, plainIo, hw, Bool.false_eq_true, if_false, Option.map_some,
            Option.some.injEq] at hq
          rw [← hq]; exact hcoh
      | false =>
        have hdo := doIo_read_miss hw ht hhit
        have hok' : ReadOk (s, plain) r ↔ ∀ i < n, s.dev (baseLba + i) = plain (baseLba + i) := by
          rw [hok, hhit]; simp
        refine ⟨?_, fun hro q hq => ?_⟩
        · rw [hok', ← readSectors_eq_iff]
          simp [Agrees, hdo, ht, plainIo, hw]
        have hfresh := hok'.1 hro
        simp only [step, hdo, ht, plainIo, hw, Bool.false_eq_true, if_false, Option.map_some,
          Option.some.injEq] at hq
        rw [← hq]
        refine Coherent.fillAll hfresh hle' n 0 _ (Nat.zero_add n) (h.congr hview hcount) ?_
        rintro x ⟨h1, h2⟩
        have := hfresh (x - baseLba) (by omega)
        rwa [Nat.add_sub_cancel' h1] at this

/-! ## Runs -/

def DiskState.start (busy : Bool) (lbaCount : ℕ) (dev : ℕ → S) : DiskState S :=
  ⟨⟨busy, lbaCount, ∅, 0⟩, dev⟩

theorem coherent_start (busy : Bool) {lbaCount : ℕ} (dev : ℕ → S) (h : lbaCount ≤ 2 ^ 55) :
    Coherent (DiskState.start busy lbaCount dev, dev) := by
  have hview : ∀ x, (DiskState.start busy lbaCount dev).ctx.view x = none := fun x => by
    simp [DiskState.start, view]
  refine ⟨fun x d b hx => ?_, fun x _ => rfl, fun x hx => absurd (hview x) hx, h⟩
  rw [hview] at hx; cases hx

/-- **The driver refines the plain disk** exactly on the runs without a read that misses over a newer dirty
block. -/
theorem doIo_refines_iff (busy : Bool) (lbaCount : ℕ) (dev : ℕ → S) (reqs : List (Irp S)) (hcount : lbaCount ≤ 2 ^ 55)
    (hfit : ∀ r ∈ reqs, r.Fits) : Along step Agrees (DiskState.start busy lbaCount dev, dev) reqs ↔
      Along step ReadOk (DiskState.start busy lbaCount dev, dev) reqs := by
  have hdom : Along step (fun _ r => r.Fits) (DiskState.start busy lbaCount dev, dev) reqs :=
    .of_forall fun r hr _ => hfit r hr
  refine along_congr (I := Coherent) ?_ ?_ (coherent_start busy dev hcount) hdom
  · rintro ⟨s, plain⟩ r q h hr hok hq
    exact (agrees_iff h hr).2 hok q hq
  · rintro ⟨s, plain⟩ r h hr
    exact (agrees_iff h hr).1

end

/-- A request for `n` sectors of the whole disk. -/
def rawIo (isWrite : Bool) (lba n value : ℕ) : Irp ℕ := ⟨.raw, isWrite, lba, n * SECTOR_SIZE, fun _ => value⟩

theorem doIo_refines_write_read :
    Along step Agrees (DiskState.start false 8 fun _ => 0, fun _ => 0) [rawIo true 3 1 7, rawIo false 3 1 0] := by
  refine (doIo_refines_iff false 8 (fun _ => 0) _ (by decide) fun r hr => ?_).2 ⟨?_, ?_⟩
  · simp only [mem_cons, not_mem_nil, or_false] at hr
    rcases hr with rfl | rfl <;> simp only [rawIo, Irp.Fits] <;> decide
  · intro b n hw; cases hw
  intro q hq
  cases hq
  refine ⟨fun b n _ ht => Or.inl ?_, fun _ _ => trivial⟩
  cases ht
  decide

/-- Sector 1 is not cached, so sectors 0 and 1 are read from the device, and the write to 0 is not seen. -/
theorem read_misses_own_write : ∃ q, step (DiskState.start false 8 fun _ => 0, fun _ => 0)
    (rawIo true 0 1 7) = some q ∧ (doIo q.1 (rawIo false 0 2 0)).map Prod.fst = some (some [0, 0]) ∧
    (plainIo q.2 (target q.1.ctx (rawIo false 0 2 0)) (rawIo false 0 2 0)).1 = some [7, 0] :=
  ⟨_, rfl, by decide, by decide⟩

end

end Archis.Disk

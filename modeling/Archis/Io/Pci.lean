/-
  Discovery of PCI devices (`drivers/pci/src/lib.rs`): `scan_bus` goes through the bridges, and `walk_pci_cap_list`
  through the list of capabilities.  Neither keeps a record of where it was, so each returns exactly if the links in the
  configuration space have no cycle (`discovery_returns_iff`).
-/
import Archis.Lib.Cycle
import Archis.Lib.Run

namespace Archis.Io.Pci

open Lib (exec exec_cons Cyclic acyclic_induction cyclic_induction)
open List

abbrev Cfg := UInt8 → ℕ → ℕ → UInt8 → UInt32

section
variable (cfg : Cfg) (bus : UInt8) (dev func : ℕ) (off : UInt8)

/-! ## The code -/

def cfgRead32 : UInt32 := cfg bus dev func (off &&& 0xFC)

def cfgRead16 : UInt16 := (cfgRead32 cfg bus dev func (off &&& ~~~3) >>> ((off &&& 2).toUInt32 * 8)).toUInt16

def cfgRead8 : UInt8 := (cfgRead32 cfg bus dev func (off &&& ~~~3) >>> ((off &&& 3).toUInt32 * 8)).toUInt8

end

/-- The children of the context with their devices, `out_buf`, and the calls of `create_device` and of `pci_cfg_read`
so far. -/
structure Scan where
  children : List ((UInt8 × ℕ × ℕ) × ℕ)
  out : List ℕ
  creations : ℕ
  reads : ℕ

def Scan.read (s : Scan) (n : ℕ) : Scan := { s with reads := s.reads + n }

def Scan.pdo (s : Scan) (create : ℕ → Option ℕ) (addr : UInt8 × ℕ × ℕ) : Option ℕ × Scan :=
  match s.children.find? (·.1 = addr) with
  | some e => (some e.2, s)
  | none =>
    let s' := { s.read 2 with creations := s.creations + 1 }
    match create s.creations with
    | none => (none, s')
    | some pdo => (some pdo, { s' with children := s.children ++ [(addr, pdo)] })

section
variable (cfg : Cfg) (create : ℕ → Option ℕ) (maxCount : ℕ) (scan : UInt8 → Scan → Option Scan) (bus : UInt8)

/-- The body of the inner loop of `scan_bus`. -/
def scanFunction (dev : ℕ) (s : Scan) (func : ℕ) : Option Scan :=
  let s := if 0 < func then s.read 1 else s
  if 0 < func ∧ cfgRead16 cfg bus dev func 0 = 0xFFFF then some s
  else
    match s.pdo create (bus, dev, func) with
    | (none, s) => some s
    | (some pdo, s) =>
      let s := { s.read 1 with out := if s.out.length < maxCount then s.out ++ [pdo] else s.out }
      if cfgRead8 cfg bus dev func 0x0E &&& 0x7F = 1 then
        let secondaryBus := cfgRead8 cfg bus dev func 0x19
        if secondaryBus ≠ 0 then scan secondaryBus (s.read 1) else some (s.read 1)
      else some s

def maxFunc (dev : ℕ) : ℕ := if cfgRead8 cfg bus dev 0 0x0E &&& 0x80 ≠ 0 then 8 else 1

def scanDevice (s : Scan) (dev : ℕ) : Option Scan :=
  if cfgRead32 cfg bus dev 0 0 &&& 0xFFFF = 0xFFFF then some (s.read 1)
  else exec (scanFunction cfg create maxCount scan bus dev) (s.read 2) (List.range (maxFunc cfg bus dev))

end

/-- `scan_bus`, with the depth of the recursion that it may use. -/
def scanBus (cfg : Cfg) (create : ℕ → Option ℕ) (maxCount : ℕ) : ℕ → UInt8 → Scan → Option Scan
  | 0, _, _ => none
  | fuel + 1, bus, s => exec (scanDevice cfg create maxCount (scanBus cfg create maxCount fuel) bus) s (List.range 32)

section
variable (cfg : Cfg) (bus : UInt8) (dev func : ℕ)

/-- The next capability, after the one at `cap`. -/
def nextCap (cap : UInt8) : UInt8 := cfgRead8 cfg bus dev func (cap + 1) &&& ~~~3

/-- The loop of `walk_pci_cap_list`: the capabilities that the callback gets, and the number of reads. -/
def walkCaps (matchCapId : UInt8) : ℕ → UInt8 → List UInt8 × ℕ → Option (List UInt8 × ℕ)
  | 0, _, _ => none
  | fuel + 1, cap, (found, reads) =>
    if cap = 0 then some (found, reads)
    else walkCaps matchCapId fuel (nextCap cfg bus dev func cap)
      (if cfgRead8 cfg bus dev func cap = matchCapId then found ++ [cap] else found, reads + 2)

def hasCaps : Prop := cfgRead16 cfg bus dev func 6 &&& (1 : UInt16) <<< 4 ≠ 0

instance : Decidable (hasCaps cfg bus dev func) := inferInstanceAs (Decidable (_ ≠ _))

def firstCap : UInt8 := cfgRead8 cfg bus dev func 0x34 &&& ~~~3

def walkPciCapList (matchCapId : UInt8) (fuel : ℕ) : Option (List UInt8 × ℕ) :=
  if hasCaps cfg bus dev func then walkCaps cfg bus dev func matchCapId fuel (firstCap cfg bus dev func) ([], 2)
  else some ([], 1)

/-! ## The links -/

/-- The function is a bridge to the bus `b`. -/
def BridgeTo (b : UInt8) : Prop := ¬ (0 < func ∧ cfgRead16 cfg bus dev func 0 = 0xFFFF) ∧
  cfgRead8 cfg bus dev func 0x0E &&& 0x7F = 1 ∧ b ≠ 0 ∧ cfgRead8 cfg bus dev func 0x19 = b

def Bridge (b : UInt8) : Prop := ∃ dev < 32, cfgRead32 cfg bus dev 0 0 &&& 0xFFFF ≠ 0xFFFF ∧
  ∃ func < maxFunc cfg bus dev, BridgeTo cfg bus dev func b

def Link (cap cap' : UInt8) : Prop := cap ≠ 0 ∧ nextCap cfg bus dev func cap = cap'

end

/-- The reads of a scan of this depth. -/
def scanReads : ℕ → ℕ
  | 0 => 0
  | n + 1 => 32 * (2 + 8 * (5 + scanReads n))

section
variable {ι : Type} {step : Scan → ι → Option Scan}

theorem exec_reads {k : ℕ} : ∀ {is : List ι} {s : Scan},
    (∀ i ∈ is, ∀ s, ∃ t, step s i = some t ∧ t.reads ≤ s.reads + k) →
    ∃ t, exec step s is = some t ∧ t.reads ≤ s.reads + is.length * k
  | [], s, _ => ⟨s, rfl, Nat.le_add_right ..⟩
  | i :: is, s, h => by
    obtain ⟨u, hu, hle⟩ := h i (.head _) s
    obtain ⟨t, ht, hle'⟩ := exec_reads (s := u) fun j hj => h j (.tail _ hj)
    refine ⟨t, exec_cons.2 ⟨u, hu, ht⟩, ?_⟩
    rw [length_cons, Nat.add_mul, Nat.one_mul]
    omega

theorem exec_eq_none {i : ι} : ∀ {is : List ι} {s : Scan}, i ∈ is → (∀ s, step s i = none) → exec step s is = none
  | j :: is, s, hi, h => by
    rw [exec]
    rcases mem_cons.1 hi with rfl | hi
    · rw [h]; rfl
    · cases step s j with
      | none => rfl
      | some t => exact exec_eq_none hi h

end

section
variable {cfg : Cfg} {create : ℕ → Option ℕ} {maxCount n : ℕ} {bus b : UInt8} {s : Scan}

theorem Scan.reads_pdo (create : ℕ → Option ℕ) (addr : UInt8 × ℕ × ℕ) :
    (s.pdo create addr).2.reads ≤ s.reads + 2 := by
  unfold pdo
  split
  · exact Nat.le_add_right ..
  · dsimp only
    split <;> exact le_rfl

theorem scanFunction_returns {scan : UInt8 → Scan → Option Scan} {dev func : ℕ}
    (h : ∀ b, BridgeTo cfg bus dev func b → ∀ s, ∃ t, scan b s = some t ∧ t.reads ≤ s.reads + n) (s : Scan) :
    ∃ t, scanFunction cfg create maxCount scan bus dev s func = some t ∧ t.reads ≤ s.reads + (5 + n) := by
  obtain ⟨s₁, hs₁⟩ : ∃ s₁, (if 0 < func then s.read 1 else s) = s₁ := ⟨_, rfl⟩
  have h₁ : s₁.reads ≤ s.reads + 1 := by
    rw [← hs₁]
    split_ifs <;> simp [Scan.read]
  have h₂ := s₁.reads_pdo create (bus, dev, func)
  unfold scanFunction
  dsimp only
  rw [hs₁]
  by_cases habsent : 0 < func ∧ cfgRead16 cfg bus dev func 0 = 0xFFFF
  · exact ⟨s₁, if_pos habsent, by omega⟩
  rw [if_neg habsent]
  rcases hpdo : s₁.pdo create (bus, dev, func) with ⟨_ | pdo, s₂⟩ <;> rw [hpdo] at h₂ <;> dsimp only at h₂ ⊢
  · exact ⟨s₂, rfl, by omega⟩
  generalize (if s₂.out.length < maxCount then s₂.out ++ [pdo] else s₂.out) = out
  split_ifs with hheader hbus
  · obtain ⟨t, ht, hle⟩ := h _ ⟨habsent, hheader, hbus, rfl⟩ _
    refine ⟨t, ht, ?_⟩
    simp only [Scan.read] at hle
    omega
  all_goals exact ⟨_, rfl, by simp only [Scan.read]; omega⟩

theorem scanBus_returns (h : ¬ Cyclic (Bridge cfg) bus) :
    ∃ t, scanBus cfg create maxCount (Nat.card UInt8 + 1) bus s = some t ∧
      t.reads ≤ s.reads + scanReads (Nat.card UInt8 + 1) := by
  refine acyclic_induction (P := fun n bus => ∀ s, ∃ t, scanBus cfg create maxCount n bus s = some t ∧
    t.reads ≤ s.reads + scanReads n) (fun n bus ih s => ?_) h s
  have hdev : ∀ dev ∈ List.range 32, ∀ s, ∃ t,
      scanDevice cfg create maxCount (scanBus cfg create maxCount n) bus s dev = some t ∧
        t.reads ≤ s.reads + (2 + 8 * (5 + scanReads n)) := by
    intro dev hdev s
    unfold scanDevice
    split_ifs with hid
    · exact ⟨_, rfl, by simp only [Scan.read]; omega⟩
    have hfunc : ∀ func ∈ List.range (maxFunc cfg bus dev), ∀ s, ∃ t,
        scanFunction cfg create maxCount (scanBus cfg create maxCount n) bus dev s func = some t ∧
          t.reads ≤ s.reads + (5 + scanReads n) :=
      fun func hfunc => scanFunction_returns fun b hb =>
        ih b ⟨dev, mem_range.1 hdev, hid, func, mem_range.1 hfunc, hb⟩
    obtain ⟨t, ht, hle⟩ := exec_reads (s := s.read 2) hfunc
    have hmax : maxFunc cfg bus dev ≤ 8 := by
      unfold maxFunc
      split_ifs <;> decide
    have := Nat.mul_le_mul_right (5 + scanReads n) hmax
    rw [length_range] at hle
    exact ⟨t, ht, by simp only [Scan.read] at hle; omega⟩
  exact exec_reads hdev

theorem scanBus_eq_none (h : Cyclic (Bridge cfg) bus) (fuel : ℕ) : scanBus cfg some maxCount fuel bus s = none := by
  refine cyclic_induction (P := fun fuel bus => ∀ s, scanBus cfg some maxCount fuel bus s = none) (fun _ _ => rfl)
    (fun n bus b hbridge ih s => ?_) fuel h s
  obtain ⟨dev, hdev, hid, func, hfunc, hpresent, hheader, hb, rfl⟩ := hbridge
  refine exec_eq_none (mem_range.2 hdev) fun s => ?_
  rw [scanDevice, if_neg hid]
  refine exec_eq_none (mem_range.2 hfunc) fun s => ?_
  have hpdo : ∀ s : Scan, ∃ pdo t, s.pdo some (bus, dev, func) = (some pdo, t) := fun s => by
    unfold Scan.pdo
    split <;> exact ⟨_, _, rfl⟩
  obtain ⟨pdo, t, ht⟩ := hpdo (if 0 < func then s.read 1 else s)
  rw [scanFunction, if_neg hpresent, ht]
  dsimp only
  rw [if_pos hheader, if_pos hb, ih]

end

section
variable {cfg : Cfg} {bus : UInt8} {dev func : ℕ} {matchCapId cap : UInt8}

theorem walkCaps_returns (h : ¬ Cyclic (Link cfg bus dev func) cap) (w : List UInt8 × ℕ) :
    ∃ w', walkCaps cfg bus dev func matchCapId (Nat.card UInt8 + 1) cap w = some w' ∧
      w'.2 ≤ w.2 + 2 * (Nat.card UInt8 + 1) := by
  refine acyclic_induction (P := fun n cap => ∀ w, ∃ w', walkCaps cfg bus dev func matchCapId n cap w = some w' ∧
    w'.2 ≤ w.2 + 2 * n) (fun n cap ih w => ?_) h w
  by_cases h0 : cap = 0
  · exact ⟨w, if_pos h0, Nat.le_add_right ..⟩
  · obtain ⟨w', hw', hle⟩ := ih _ ⟨h0, rfl⟩ _
    exact ⟨w', (if_neg h0).trans hw', hle.trans (by dsimp only; omega)⟩

theorem walkCaps_eq_none (h : Cyclic (Link cfg bus dev func) cap) (fuel : ℕ) (w : List UInt8 × ℕ) :
    walkCaps cfg bus dev func matchCapId fuel cap w = none := by
  refine cyclic_induction (P := fun fuel cap => ∀ w, walkCaps cfg bus dev func matchCapId fuel cap w = none)
    (fun _ _ => rfl) (fun n cap cap' hlink ih w => ?_) fuel h w
  obtain ⟨h0, rfl⟩ := hlink
  rw [walkCaps, if_neg h0, ih]

end

/-- **Discovery returns, after a bounded number of reads, exactly without cycles**: of bridges below the bus, and of
capabilities. -/
theorem discovery_returns_iff (cfg : Cfg) :
    (∀ bus, (∀ create maxCount s, ∃ fuel t, scanBus cfg create maxCount fuel bus s = some t ∧
      t.reads ≤ s.reads + scanReads (Nat.card UInt8 + 1)) ↔ ¬ Cyclic (Bridge cfg) bus) ∧
    ∀ bus dev func matchCapId, (∃ fuel w, walkPciCapList cfg bus dev func matchCapId fuel = some w ∧
      w.2 ≤ 2 + 2 * (Nat.card UInt8 + 1)) ↔
        (hasCaps cfg bus dev func → ¬ Cyclic (Link cfg bus dev func) (firstCap cfg bus dev func)) := by
  refine ⟨fun bus => ⟨fun h hc => ?_, fun h create maxCount s => ⟨_, scanBus_returns h⟩⟩, fun bus dev func m => ?_⟩
  · obtain ⟨fuel, t, ht, -⟩ := h some 0 ⟨[], [], 0, 0⟩
    rw [scanBus_eq_none hc] at ht
    cases ht
  unfold walkPciCapList
  split_ifs with hcaps
  · refine ⟨fun h _ hc => ?_, fun h => ⟨_, walkCaps_returns (h hcaps) _⟩⟩
    obtain ⟨fuel, w, hw, -⟩ := h
    rw [walkCaps_eq_none hc] at hw
    cases hw
  · exact ⟨fun _ h => absurd h hcaps, fun _ => ⟨0, _, rfl, by dsimp only; omega⟩⟩

def looped : Cfg := fun _ _ _ _ => 0x00010100

/-- **The scan does not return.** -/
theorem scanBus_looped : Bridge looped 1 1 ∧ ∀ fuel, scanBus looped some 0 fuel 0 ⟨[], [], 0, 0⟩ = none := by
  have h0 : Bridge looped 0 1 := ⟨0, by decide, by decide, 0, by decide, by decide, by decide, by decide, by decide⟩
  have h1 : Bridge looped 1 1 := h0
  exact ⟨h1, scanBus_eq_none ⟨1, .single h0, .single h1⟩⟩

end Archis.Io.Pci

/-
  `map_memory` and `map_to_kernel` of `mem/virtual_allocator.rs`: physical pages get a range of kernel addresses.

  The code expects that nothing goes wrong on the way.  `map_to_kernel` returns exactly if there is a range of kernel
  addresses with its list node, and a frame for each page table that the range is the first to need (`KernelRoom`).
-/
import Archis.Mem.AllocMemory
import Archis.Mem.SyscallRuns

namespace Archis.Mem

open Archis.Lib
open PageDescriptor ( MMIO NO_ALLOC USER VIRTUAL WC)
open List hiding get

/-! ## The code -/

namespace MemState

/-- `map_memory`, for memory that has been allocated with `NO_ALLOC`. -/
def mapMemory (physAddr virtAddr size : ℕ) (flags : UInt8) : MemM Unit := do
  let s ← get
  if s.addrSpaceInit then do
    if hasFlag flags USER then pure ()
    else recordKernel physAddr virtAddr size flags
    mapActive physAddr virtAddr size flags
  else pure ()

def mapToKernel (physAddr size : ℕ) : MemM ℕ :=
  match Process.pageAligned size with
  | none => throw .panic
  | some layout => do
    let virtAddr ← allocateMemory layout (VIRTUAL ||| NO_ALLOC)
    mapMemory physAddr virtAddr size VIRTUAL
    pure virtAddr

end MemState

/-! ## Page tables -/

/-- The frame allocator gives `k` pages, one after the other. -/
def PhyMemConBlk.ServesPages : ℕ → PhyMemConBlk → ℕ → Prop
  | 0, _, _ => True
  | k + 1, s, slots => s.Serves slots VirtMemConBlk.pageLayout ∧
    ServesPages k (s.allocate slots VirtMemConBlk.pageLayout).2.1 (s.allocate slots VirtMemConBlk.pageLayout).2.2

namespace Process
variable {p q : Process}

theorem foldlM_getOrAllocTable : ∀ (ts : List (ℕ × ℕ)) (p : Process),
    (p.frames.ServesPages (ts.toFinset \ p.tables.toFinset).card p.slots →
      ∃ q, ts.foldlM getOrAllocTable p = some q ∧ q.vcb = p.vcb) ∧
    (¬ p.frames.ServesPages (ts.toFinset \ p.tables.toFinset).card p.slots → ts.foldlM getOrAllocTable p = none)
  | [], p => ⟨fun _ => ⟨p, rfl, rfl⟩, fun h => absurd (by simp [PhyMemConBlk.ServesPages]) h⟩
  | t :: ts, p => by
    rw [foldlM_cons]
    by_cases ht : t ∈ p.tables
    · have hmiss : (t :: ts).toFinset \ p.tables.toFinset = ts.toFinset \ p.tables.toFinset := by
        rw [toFinset_cons, Finset.insert_sdiff_of_mem _ (by simpa using ht)]
      rw [hmiss, getOrAllocTable, if_pos ht]
      exact foldlM_getOrAllocTable ts p
    · have hcard : ((t :: ts).toFinset \ p.tables.toFinset).card =
          (ts.toFinset \ (t :: p.tables).toFinset).card + 1 := by
        have hmem : t ∈ (t :: ts).toFinset \ p.tables.toFinset := by simpa using ht
        rw [← Finset.card_erase_add_one hmem, ← Finset.sdiff_insert, ← toFinset_cons,
          toFinset_cons, Finset.insert_sdiff_of_mem _ (by simp)]
      rw [hcard, getOrAllocTable, if_neg ht]
      by_cases hserve : p.frames.Serves p.slots VirtMemConBlk.pageLayout
      · obtain ⟨node, -, f, slots, hr⟩ := hserve.allocate
        have ih := foldlM_getOrAllocTable ts { p with tables := t :: p.tables, frames := f, slots }
        simp only [PhyMemConBlk.ServesPages, hserve, hr, true_and]
        exact ih
      · obtain ⟨e, f, slots, hr⟩ := PhyMemConBlk.allocate_of_not_serves hserve
        simp only [PhyMemConBlk.ServesPages, hserve, hr, false_and]
        exact ⟨False.elim, fun _ => rfl⟩

end Process

/-! ## Room in the kernel -/

namespace MemState
variable {s : MemState} {p : VirtMemConBlk} {layout : Layout} {physAddr size : ℕ} {virtAddr : ℕ}

/-- There are frames for the page tables that `n` pages at `virtAddr` are the first to need. -/
def TableFrames (s : MemState) (virtAddr n slots : ℕ) : Prop :=
  s.frames.ServesPages (Process.rangeTables virtAddr n \ s.tables.toFinset).card slots

/-- The kernel has a range of addresses for the layout, and frames for the page tables that are missing
there. -/
def KernelRoom (s : MemState) (layout : Layout) : Prop :=
  s.kernel.Reserves s.slots layout false ∧
    ∀ i node, bestFit (VirtMemConBlk.fits (ceilDiv layout.size PAGE_SIZE) false) s.kernel.freeBlockList =
        some (i, node) →
      s.TableFrames node.startVirtAddress (ceilDiv layout.size PAGE_SIZE) (s.kernel.slotsLeft s.slots layout false)

/-- The blocks of the kernel's address space are disjoint. -/
structure KernelTiles (s : MemState) : Prop extends s.WellFormed where
  procId : s.kernel.procId = 0
  cover_le : ∀ x, s.kernel.cover x ≤ 1

/-- The range that `map_to_kernel` gives out, and the record of its mapping. -/
structure Mapped (s t : MemState) (physAddr : ℕ) (layout : Layout) (virtAddr : ℕ) : Prop where
  aligned : PAGE_SIZE ∣ virtAddr
  le : virtAddr + ceilDiv layout.size PAGE_SIZE * PAGE_SIZE ≤ VirtMemConBlk.kernelEnd
  block : ⟨ceilDiv layout.size PAGE_SIZE, physAddr, virtAddr, VIRTUAL, true⟩ ∈ t.kernel.allocBlockList
  process : t.process = s.process

theorem mapMemory_process {slots : ℕ} {flags : UInt8} (hp : p.procId ≠ 0)
    (hf : flags &&& USER = 0) (hphy : PAGE_SIZE ∣ physAddr) (hvirt : PAGE_SIZE ∣ virtAddr) :
    p.mapMemory slots physAddr virtAddr size flags = some (.ok (), p, slots) := by
  simp only [VirtMemConBlk.mapMemory]
  rw [if_neg (by simp [Nat.mod_eq_zero_of_dvd hphy, Nat.mod_eq_zero_of_dvd hvirt]),
    if_neg (by simp [hf]), if_pos (by simp [hf, hp])]

/-- The page tables of the range: the mapping in the active space does nothing else. -/
theorem mapActive_process (size : ℕ) (hproc : s.process = some p) (hp : p.procId ≠ 0)
    (hphy : PAGE_SIZE ∣ physAddr) (hvirt : PAGE_SIZE ∣ virtAddr) :
    (Process.pageMap ⟨p, s.tables, s.frames, s.slots, []⟩ virtAddr size = none →
      mapActive physAddr virtAddr size VIRTUAL s = .error .panic s) ∧
    ∀ q, Process.pageMap ⟨p, s.tables, s.frames, s.slots, []⟩ virtAddr size = some q →
      mapActive physAddr virtAddr size VIRTUAL s =
        .ok () { s with tables := q.tables, frames := q.frames, slots := q.slots } := by
  have hact : s.active = p := by rw [active, hproc]; rfl
  have hself : s.setActive p = s := by
    obtain ⟨i, k, pr, tb, f, n⟩ := s
    cases hproc
    rfl
  have hstep : onActive (fun vcb slots => vcb.mapMemory slots physAddr virtAddr size VIRTUAL) s = .ok () s := by
    have hm : p.mapMemory s.slots physAddr virtAddr size VIRTUAL =
      some (.ok (), p, s.slots) := mapMemory_process hp (by decide) hphy hvirt
    simp only [onActive, hact, hm, hself]
  have hflags : (hasFlag VIRTUAL MMIO && hasFlag VIRTUAL WC) = false := by decide
  simp only [mapActive, bind, EStateM.bind, hstep, pageMap, hflags, hact, Bool.false_eq_true, if_false]
  exact ⟨fun hq => by rw [hq], fun q hq => by rw [hq]⟩

theorem mapMemory_reserved (hinit : s.addrSpaceInit = true) (hproc : s.process = some p)
    (hp : p.procId ≠ 0) (hk : s.kernel.procId = 0) (hb : s.kernel.Bounded) (ha : Apart s.kernel.allocBlockList)
    (hn : 0 < layout.size) (hphy : PAGE_SIZE ∣ physAddr) (hmem : ⟨ceilDiv layout.size PAGE_SIZE, 0, virtAddr, 0,
    false⟩ ∈ s.kernel.allocBlockList) : (s.TableFrames virtAddr (ceilDiv layout.size PAGE_SIZE) s.slots →
      ∃ t, mapMemory physAddr virtAddr layout.size VIRTUAL s = .ok () t ∧ s.Mapped t physAddr layout virtAddr) ∧
    (¬ s.TableFrames virtAddr (ceilDiv layout.size PAGE_SIZE) s.slots →
      ∃ t, mapMemory physAddr virtAddr layout.size VIRTUAL s = .error .panic t) := by
  obtain ⟨hvirt, hstop⟩ := hb.alloc _ hmem
  have hend := VirtMemConBlk.kernelEnd_lt
  change PAGE_SIZE ∣ virtAddr at hvirt
  change virtAddr + ceilDiv layout.size PAGE_SIZE * PAGE_SIZE ≤ VirtMemConBlk.kernelEnd at hstop
  have hkind : s.kernel.procId = 0 ↔ VIRTUAL &&& USER = 0 :=
    ⟨fun _ => by decide, fun _ => hk⟩
  obtain ⟨i, -, hmap⟩ := VirtMemConBlk.mapMemory_reserved s.slots hb ha (layout.pages_pos hn)
    layout.roundUp_size hphy hkind hmem
  obtain ⟨kernel, hmap, hblock⟩ : ∃ kernel : VirtMemConBlk,
      s.kernel.mapMemory s.slots physAddr virtAddr layout.size VIRTUAL =
        some (.ok (), kernel, s.slots) ∧
      ⟨ceilDiv layout.size PAGE_SIZE, physAddr, virtAddr, VIRTUAL, true⟩ ∈
        kernel.allocBlockList := ⟨_, hmap, mem_append_right _ (mem_singleton_self _)⟩
  have hrec : recordKernel physAddr virtAddr layout.size VIRTUAL s = .ok () { s with kernel } := by
    simp only [recordKernel, bind, EStateM.bind, get_ok, hproc, Option.isSome_some, if_true, onKernel, hmap]
  have hrun : mapMemory physAddr virtAddr layout.size VIRTUAL s =
      mapActive physAddr virtAddr layout.size VIRTUAL { s with kernel } := by
    have hu : hasFlag VIRTUAL USER = false := by decide
    simp only [mapMemory, bind, EStateM.bind, get_ok, hinit, if_true, hu, Bool.false_eq_true, if_false, hrec]
  have hact := mapActive_process layout.size (s := { s with kernel }) hproc hp hphy hvirt
  have hpages : Process.pageMap ⟨p, s.tables, s.frames, s.slots, []⟩ virtAddr layout.size =
      (Process.tableList virtAddr (ceilDiv layout.size PAGE_SIZE)).foldlM Process.getOrAllocTable
        ⟨p, s.tables, s.frames, s.slots, []⟩ := by
    rw [Process.pageMap, layout.ceilDiv_roundUp, if_neg (layout.pages_pos hn).ne', Process.mapPages_eq_foldlM]
  have htables := Process.foldlM_getOrAllocTable (Process.tableList virtAddr (ceilDiv layout.size PAGE_SIZE))
    ⟨p, s.tables, s.frames, s.slots, []⟩
  rw [Process.tableList_toFinset _ _ (by omega), ← hpages] at htables
  rw [hrun]
  refine ⟨fun hroom => ?_, fun hno => ⟨_, hact.1 (htables.2 hno)⟩⟩
  obtain ⟨q, hq, -⟩ := htables.1 hroom
  exact ⟨_, hact.2 q hq, hvirt, hstop, hblock, rfl⟩

theorem allocateMemory_noAlloc (hinit : s.addrSpaceInit = true) : allocateMemory layout (VIRTUAL ||| NO_ALLOC) s =
      match s.kernel.allocate s.slots layout false with
      | none => .error .panic s
      | some (.error e, kernel, slots) => .error (.err e) { s with kernel, slots }
      | some (.ok virtAddr, kernel, slots) => .ok virtAddr { s with kernel, slots } := by
  have hu : hasFlag (VIRTUAL ||| NO_ALLOC) USER = false := by
    decide
  have hn : hasFlag (VIRTUAL ||| NO_ALLOC) NO_ALLOC = true := by
    decide
  rw [allocateMemory_virtual (by rw [hinit]; decide)]
  simp only [hu, spaceFor, withSpace, back, backKernel, hn, Bool.false_eq_true, if_false, if_true]
  rcases s.kernel.allocate s.slots layout false with _ | ⟨_ | _, _, _⟩ <;> rfl

section
variable (h : s.KernelTiles) (hinit : s.addrSpaceInit = true) (hproc : s.process = some p)
  (hlayout : Process.pageAligned size = some layout) (hn : 0 < layout.size) (hphy : PAGE_SIZE ∣ physAddr)
include h hinit hproc hlayout hn hphy

theorem mapToKernel_of_reserves (hres : s.kernel.Reserves s.slots layout false) : ∃ i node,
    bestFit (VirtMemConBlk.fits (ceilDiv layout.size PAGE_SIZE) false) s.kernel.freeBlockList = some
    (i, node) ∧ (s.TableFrames node.startVirtAddress (ceilDiv layout.size PAGE_SIZE)
    (s.kernel.slotsLeft s.slots layout false) → ∃ t, mapToKernel physAddr size s = .ok
    node.startVirtAddress t ∧ s.Mapped t physAddr layout node.startVirtAddress) ∧
    (¬ s.TableFrames node.startVirtAddress (ceilDiv layout.size PAGE_SIZE)
    (s.kernel.slotsLeft s.slots layout false) → ∃ t, mapToKernel physAddr size s = .error .panic
    t) := by
  obtain ⟨i, node, hb, kernel, hr, hid, halloc⟩ := hres.allocate
  have hmoves := (VirtMemConBlk.allocate_moves h.kernel hr).1
  have hapart := hmoves.apart h.cover_le
  have hmem : ⟨ceilDiv layout.size PAGE_SIZE, 0, node.startVirtAddress, 0, false⟩ ∈ kernel.allocBlockList := by
    rw [halloc]
    exact mem_append_right _ (mem_singleton_self _)
  generalize s.kernel.slotsLeft s.slots layout false = slots at hr ⊢
  have hmap := mapMemory_reserved (s := { s with kernel, slots }) hinit hproc (h.process p hproc).2
    (hid.trans h.procId) hmoves.bounded hapart hn hphy hmem
  have hsize := (Process.pageAligned_eq_some hlayout).1
  have hrun : mapToKernel physAddr size s = (do
        mapMemory physAddr node.startVirtAddress layout.size VIRTUAL
        pure node.startVirtAddress : MemM ℕ) { s with kernel, slots } := by
    simp only [mapToKernel, hlayout, bind, EStateM.bind, allocateMemory_noAlloc hinit, hr, hsize]
  refine ⟨i, node, hb, fun hroom => ?_, fun hno => ?_⟩
  · obtain ⟨t, ht, hmapped⟩ := hmap.1 hroom
    refine ⟨t, ?_, hmapped.aligned, hmapped.le, hmapped.block, hmapped.process⟩
    rw [hrun]
    simp only [bind, EStateM.bind, ht, pure, EStateM.pure]
  · obtain ⟨t, ht⟩ := hmap.2 hno
    refine ⟨t, ?_⟩
    rw [hrun]
    simp only [bind, EStateM.bind, ht]

/-- **`map_to_kernel`** returns, where the kernel has room. -/
theorem mapToKernel_of_room (hroom : s.KernelRoom layout) :
    ∃ virtAddr t, mapToKernel physAddr size s = .ok virtAddr t ∧ s.Mapped t physAddr layout virtAddr := by
  obtain ⟨i, node, hb, hok, -⟩ := mapToKernel_of_reserves h hinit hproc hlayout hn hphy hroom.1
  exact ⟨_, hok (hroom.2 i node hb)⟩

theorem mapToKernel_of_no_room (hno : ¬ s.KernelRoom layout) : ∃ f t, mapToKernel physAddr size s = .error f t := by
  by_cases hres : s.kernel.Reserves s.slots layout false
  · obtain ⟨i, node, hb, -, herr⟩ := mapToKernel_of_reserves h hinit hproc hlayout hn hphy hres
    refine ⟨.panic, herr fun hroom => hno ⟨hres, fun i' node' hb' => ?_⟩⟩
    obtain ⟨rfl, rfl⟩ := Prod.mk.inj (Option.some.inj (hb.symm.trans hb'))
    exact hroom
  · rcases VirtMemConBlk.allocate_of_not_reserves hres with hr | ⟨e, hr⟩ <;>
    · simp only [mapToKernel, hlayout, bind, EStateM.bind, allocateMemory_noAlloc hinit, hr]
      exact ⟨_, _, rfl⟩

end

end MemState

end Archis.Mem

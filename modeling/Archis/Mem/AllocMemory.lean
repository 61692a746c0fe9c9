/-
  `allocate_memory` of `mem/virtual_allocator.rs`, for every combination of flags.

  An error ends a call and what it did before stays done.  The source takes the virtual range first and the frames then,
  and gives nothing back when that fails: `allocateMemory_unchanged_iff`.
-/
import Archis.Mem.Replies
import Archis.Mem.Syscalls
import Archis.Lib.ErrState

namespace Archis.Mem

open Archis.Lib
open PageDescriptor ( MMIO NO_ALLOC USER VIRTUAL WC)
open List hiding get

/-! ## The code -/

/-- What the calls of `virtual_allocator.rs` work on. -/
structure MemState where
  /-- `IS_ADDR_SPACE_INIT` -/
  addrSpaceInit : Bool
  kernel : VirtMemConBlk
  /-- The active address space, if it is not the kernel's. -/
  process : Option VirtMemConBlk
  /-- The page tables of the active address space, as in `Process`. -/
  tables : List (ℕ × ℕ)
  frames : PhyMemConBlk
  /-- The nodes left in `Region0`. -/
  slots : ℕ
  deriving DecidableEq

/-- Why a call does not return a value. -/
inductive Fault where
  | err (e : KError)
  | panic
  deriving DecidableEq

abbrev MemM := EStateM Fault MemState

namespace MemState

/-- `get_active_vcb`. -/
def active (s : MemState) : VirtMemConBlk := s.process.getD s.kernel

def setActive (s : MemState) (vcb : VirtMemConBlk) : MemState :=
  match s.process with
  | none => { s with kernel := vcb }
  | some _ => { s with process := some vcb }

def onKernel {α : Type} (f : VirtMemConBlk → ℕ → Option (Except KError α × VirtMemConBlk × ℕ)) :
    MemM α := fun s =>
  match f s.kernel s.slots with
  | none => .error .panic s
  | some (.error e, vcb, slots) => .error (.err e) { s with kernel := vcb, slots }
  | some (.ok a, vcb, slots) => .ok a { s with kernel := vcb, slots }

def onActive {α : Type} (f : VirtMemConBlk → ℕ → Option (Except KError α × VirtMemConBlk × ℕ)) :
    MemM α := fun s =>
  match f s.active s.slots with
  | none => .error .panic s
  | some (.error e, vcb, slots) => .error (.err e) { s.setActive vcb with slots }
  | some (.ok a, vcb, slots) => .ok a { s.setActive vcb with slots }

def onFrames {α : Type} (f : PhyMemConBlk → ℕ → Except KError α × PhyMemConBlk × ℕ) : MemM α := fun s =>
  match f s.frames s.slots with
  | (.error e, frames, slots) => .error (.err e) { s with frames, slots }
  | (.ok a, frames, slots) => .ok a { s with frames, slots }

def hasFlag (flags f : UInt8) : Bool := flags &&& f != 0

/-- `PageMapper::map_memory` of the active address space. -/
def pageMap (virtAddr size : ℕ) (flags : UInt8) : MemM Unit := fun s =>
  if hasFlag flags MMIO && hasFlag flags WC then .error .panic s
  else match Process.pageMap ⟨s.active, s.tables, s.frames, s.slots, []⟩ virtAddr size with
    | none => .error .panic s
    | some p => .ok () { s with tables := p.tables, frames := p.frames, slots := p.slots }

/-- `VirtMemConBlk::map_memory` of the active address space, with `skip_map = false`. -/
def mapActive (physAddr virtAddr size : ℕ) (flags : UInt8) : MemM Unit := do
  onActive fun vcb slots => vcb.mapMemory slots physAddr virtAddr size flags
  pageMap virtAddr size flags

/-- The kernel's address space only records the mapping (`skip_map = true`), unless it is active. -/
def recordKernel (physAddr virtAddr size : ℕ) (flags : UInt8) : MemM Unit := do
  let s ← get
  if s.process.isSome then onKernel fun vcb slots => vcb.mapMemory slots physAddr virtAddr size flags
  else pure ()

/-- Frames for a reserved range, unless the caller brings its own, and the mapping. -/
def backUser (virtAddr : ℕ) (layout : Layout) (flags : UInt8) : MemM ℕ :=
  if hasFlag flags NO_ALLOC then pure virtAddr
  else do
    let phyAddr ← onFrames fun frames slots => frames.allocate slots layout
    mapActive phyAddr virtAddr layout.size flags
    pure virtAddr

def backKernel (virtAddr : ℕ) (layout : Layout) (flags : UInt8) : MemM ℕ :=
  if hasFlag flags NO_ALLOC then pure virtAddr
  else do
    let phyAddr ← onFrames fun frames slots => frames.allocate slots layout
    recordKernel phyAddr virtAddr layout.size flags
    mapActive phyAddr virtAddr layout.size flags
    pure virtAddr

def allocateMemory (layout : Layout) (flags : UInt8) : MemM ℕ := do
  let s ← get
  if s.addrSpaceInit && hasFlag flags VIRTUAL then
    if hasFlag flags USER then do
      let virtAddr ← onActive fun vcb slots => vcb.allocate slots layout true
      backUser virtAddr layout flags
    else do
      let virtAddr ← onKernel fun vcb slots => vcb.allocate slots layout false
      backKernel virtAddr layout flags
  else if flags ≠ 0 then throw .panic
  else onFrames fun frames slots => frames.allocate slots layout

end MemState

/-! ## When the allocators have what is asked for -/

section
variable {slots : ℕ} {layout : Layout} (s : VirtMemConBlk)

/-- Some free block that fits has exactly the pages asked for, and gives its node back. -/
def VirtMemConBlk.Whole (layout : Layout) (isUser : Bool) : Prop :=
  ∃ d ∈ s.freeBlockList, VirtMemConBlk.fits (ceilDiv layout.size PAGE_SIZE) isUser d = true ∧
    d.numPages = ceilDiv layout.size PAGE_SIZE

instance (layout : Layout) (isUser : Bool) : Decidable (s.Whole layout isUser) :=
  inferInstanceAs (Decidable (∃ d ∈ _, _ ∧ _))

/-- `VirtMemConBlk::allocate` reserves a range. -/
structure VirtMemConBlk.Reserves (s : VirtMemConBlk) (slots : ℕ) (layout : Layout) (isUser : Bool) :
    Prop where
  avl : layout.size < s.avlMemory
  total : layout.size ≤ s.totalMemory
  align : layout.align ≤ PAGE_SIZE
  user : ¬ (s.procId = 0 ∧ isUser = true)
  fit : ∃ d ∈ s.freeBlockList, VirtMemConBlk.fits (ceilDiv layout.size PAGE_SIZE) isUser d = true
  node : 0 < slots ∨ s.Whole layout isUser

def VirtMemConBlk.slotsLeft (slots : ℕ) (layout : Layout) (isUser : Bool) : ℕ :=
  if s.Whole layout isUser then slots else slots - 1

/-- `PhyMemConBlk::allocate` gives frames. -/
structure PhyMemConBlk.Serves (s : PhyMemConBlk) (slots : ℕ) (layout : Layout) : Prop where
  avl : layout.size < s.avlMemory
  align : layout.align ≤ PAGE_SIZE
  fit : ∃ d ∈ s.freeBlockList, s.fits (ceilDiv layout.size PAGE_SIZE) d = true
  node : 0 < slots ∨ ∃ d ∈ s.freeBlockList, s.fits (ceilDiv layout.size PAGE_SIZE) d = true ∧
    d.numPages = ceilDiv layout.size PAGE_SIZE

variable {s : VirtMemConBlk} {isUser : Bool}

theorem VirtMemConBlk.whole_iff {i : ℕ} {node : PageDescriptor}
    (hb : bestFit (VirtMemConBlk.fits (ceilDiv layout.size PAGE_SIZE) isUser) s.freeBlockList = some (i, node)) :
    s.Whole layout isUser ↔ node.numPages = ceilDiv layout.size PAGE_SIZE := by
  obtain ⟨hi, hfit⟩ := bestFit_spec hb
  refine ⟨fun ⟨d, hd, hf, hn⟩ => ?_, fun hn => ⟨node, mem_of_getElem? hi, hfit, hn⟩⟩
  have hle := bestFit_le hb hd hf
  simp only [VirtMemConBlk.fits, Bool.and_eq_true, decide_eq_true_eq] at hfit
  exact le_antisymm (hle.trans_eq hn) hfit.1

/-- The range is a free block, or its start, and ends the list of allocated blocks. -/
theorem VirtMemConBlk.Reserves.allocate (h : s.Reserves slots layout isUser) : ∃ i node,
    bestFit (fits (ceilDiv layout.size PAGE_SIZE) isUser) s.freeBlockList = some (i, node) ∧ ∃ t :
    VirtMemConBlk, s.allocate slots layout isUser = some (.ok node.startVirtAddress, t,
    s.slotsLeft slots layout isUser) ∧ t.procId = s.procId ∧ t.allocBlockList = s.allocBlockList ++
    [⟨ceilDiv layout.size PAGE_SIZE, 0, node.startVirtAddress, if isUser then USER
    else 0, false⟩] := by
  obtain ⟨d, hd, hf⟩ := h.fit
  obtain ⟨i, node, hb⟩ := exists_bestFit hd hf
  have hwhole := whole_iff hb
  refine ⟨i, node, hb, ?_⟩
  have hproc : (s.procId == 0 && isUser) = false := by
    have := h.user
    cases isUser <;> simp_all
  have hnode : (if node.numPages = ceilDiv layout.size PAGE_SIZE then slots + 1 else slots) ≠ 0 := by
    split_ifs with hn
    · omega
    · have := h.node.resolve_right fun hw => hn (hwhole.1 hw)
      omega
  have h1 := h.avl
  have h2 := h.total
  have h3 := h.align
  simp only [VirtMemConBlk.allocate, findBestFit, hb]
  rw [if_neg (by simpa using ⟨h1, h2⟩), if_neg (by omega), if_neg (by simp [hproc])]
  simp only [addNode_eq hnode, Option.bind_eq_bind, Option.bind_some, Option.pure_def]
  refine ⟨_, congrArg some (Prod.ext rfl (Prod.ext rfl ?_)), rfl, rfl⟩
  unfold slotsLeft
  by_cases hn : node.numPages = ceilDiv layout.size PAGE_SIZE
  · rw [if_pos hn, if_pos (hwhole.2 hn)]
    rfl
  · rw [if_neg hn, if_neg fun hw => hn (hwhole.1 hw)]

theorem VirtMemConBlk.allocate_of_not_reserves (h : ¬ s.Reserves slots layout isUser) : s.allocate slots layout isUser
    = none ∨ ∃ e, s.allocate slots layout isUser = some (.error e, s, slots) := by
  simp only [VirtMemConBlk.allocate, findBestFit]
  split
  · exact .inr ⟨_, rfl⟩
  rename_i h1
  split
  · exact .inr ⟨_, rfl⟩
  rename_i h2
  split
  · exact .inl rfl
  rename_i h3
  cases hb : bestFit (fits (ceilDiv layout.size PAGE_SIZE) isUser) s.freeBlockList with
  | none => exact .inr ⟨_, rfl⟩
  | some q =>
    obtain ⟨i, node⟩ := q
    obtain ⟨hi, hfit⟩ := bestFit_spec hb
    have hwhole := whole_iff hb
    simp only [ge_iff_le, gt_iff_lt, Bool.or_eq_true, decide_eq_true_eq, not_or, not_le, not_lt] at h1 h2
    -- only the node can be missing
    have hno : ¬ (0 < slots ∨ s.Whole layout isUser) := fun hn => h
      ⟨h1.1, h1.2, h2, fun h4 => h3 (by simp [h4.1, h4.2]), ⟨node, mem_of_getElem? hi, hfit⟩, hn⟩
    rw [not_or] at hno
    refine .inl ?_
    simp only
    rw [if_neg fun hn => hno.2 (hwhole.2 hn), Nat.eq_zero_of_not_pos hno.1]
    rfl

theorem PhyMemConBlk.Serves.allocate {s : PhyMemConBlk} (h : s.Serves slots layout) :
    ∃ node ∈ s.freeBlockList, ∃ t slots',
      s.allocate slots layout = (.ok node.startPhyAddress, t, slots') := by
  obtain ⟨d, hd, hf⟩ := h.fit
  obtain ⟨i, node, hb⟩ := exists_bestFit hd hf
  obtain ⟨hi, hfit⟩ := bestFit_spec hb
  have hnode : (if node.numPages = ceilDiv layout.size PAGE_SIZE then slots + 1 else slots) ≠ 0 := by
    split_ifs with hn
    · omega
    rcases h.node with h0 | ⟨d', hd', hf', hn'⟩
    · omega
    · have hle := bestFit_le hb hd' hf'
      simp only [PhyMemConBlk.fits, Bool.and_eq_true, decide_eq_true_eq] at hfit
      exact absurd (le_antisymm (hle.trans_eq hn') hfit.1) hn
  have h1 := h.avl
  have h2 := h.align
  refine ⟨node, mem_of_getElem? hi, ?_⟩
  simp only [PhyMemConBlk.allocate, findBestFit, hb, addNode_eq hnode]
  rw [if_neg (by omega), if_neg (by omega)]
  exact ⟨_, _, rfl⟩

theorem PhyMemConBlk.allocate_of_not_serves {s : PhyMemConBlk} (h : ¬ s.Serves slots layout) :
    ∃ e t slots', s.allocate slots layout = (.error e, t, slots') := by
  rcases hr : s.allocate slots layout with ⟨r, t, slots'⟩
  rcases PhyMemConBlk.allocate_cases hr with
    ⟨-, -, e, rfl⟩ | ⟨h1, h2, i, node, hb, ⟨-, -, ⟨e, rfl⟩, -⟩ | ⟨-, rfl, -⟩⟩
  · exact ⟨e, t, slots', rfl⟩
  · exact ⟨e, t, slots', rfl⟩
  -- a call that succeeds has been served
  refine absurd ?_ h
  obtain ⟨hi, hfit⟩ := bestFit_spec hb
  refine ⟨h1, h2, ⟨node, mem_of_getElem? hi, hfit⟩, ?_⟩
  by_contra hno
  rw [not_or] at hno
  have hn : node.numPages ≠ ceilDiv layout.size PAGE_SIZE :=
    fun hn => hno.2 ⟨node, mem_of_getElem? hi, hfit, hn⟩
  simp only [PhyMemConBlk.allocate, findBestFit, hb, if_neg hn, Nat.eq_zero_of_not_pos hno.1, addNode] at hr
  rw [if_neg (by omega), if_neg (by omega)] at hr
  cases hr

end

/-! ## What a failed call leaves -/

/-- The block lists and `avl_memory` of an address space are the same. -/
def VirtMemConBlk.Same (s t : VirtMemConBlk) : Prop :=
  t.freeBlockList = s.freeBlockList ∧ t.allocBlockList = s.allocBlockList ∧ t.avlMemory = s.avlMemory

/-- The block lists and `avl_memory` of the frame allocator are the same. -/
def PhyMemConBlk.Same (s t : PhyMemConBlk) : Prop :=
  t.freeBlockList = s.freeBlockList ∧ t.allocBlockList = s.allocBlockList ∧ t.avlMemory = s.avlMemory

theorem PhyMemConBlk.Same.refl (s : PhyMemConBlk) : s.Same s := ⟨rfl, rfl, rfl⟩

theorem PhyMemConBlk.cutPages_zero {s : PhyMemConBlk} {i : ℕ} {node : PageDescriptor}
    (hi : s.freeBlockList[i]? = some node) (hn : node.numPages ≠ 0) (hw : node.startPhyAddress < 2 ^ 64) :
    s.cutPages i node 0 = s := by
  have hput : phyField.put { node with numPages := node.numPages - 0 }
      (wadd (phyField.get node) (wmul 0 PAGE_SIZE)) = node := by
    rw [phyField_get, wmul_eq (by norm_num), zero_mul, wadd_eq (by omega)]
    rfl
  obtain ⟨hlt, rfl⟩ := List.getElem?_eq_some_iff.1 hi
  rw [cutPages, carve]
  simp only [hput]
  rw [if_neg hn, set_getElem_self]

/-- **The frame allocator**, where a call that fails leaves it as it was: exactly if it can record
what it takes. -/
theorem PhyMemConBlk.allocate_unchanged_iff {s : PhyMemConBlk} {slots : ℕ} {layout : Layout}
    (hs : phyField.Bounded physEnd s.freeBlockList) :
    (∀ e t slots', s.allocate slots layout = (.error e, t, slots') → s.Same t) ↔
      s.NodeFor slots layout := by
  have hword : ∀ d ∈ s.freeBlockList, d.startPhyAddress < 2 ^ 64 := by
    intro d hd
    have h1 := (hs d hd).2
    have h2 := physEnd_lt
    simp only [AddrField.stop, phyField_get] at h1
    omega
  have hle : ∀ {i node}, bestFit (s.fits (ceilDiv layout.size PAGE_SIZE)) s.freeBlockList =
      some (i, node) → ceilDiv layout.size PAGE_SIZE ≤ node.numPages := by
    intro i node hb
    have hfit := (bestFit_spec hb).2
    simp only [PhyMemConBlk.fits, Bool.and_eq_true, decide_eq_true_eq] at hfit
    exact hfit.1
  constructor
  · intro h
    by_contra hno
    unfold NodeFor at hno
    simp only [not_or, ge_iff_le, not_le, gt_iff_lt, not_lt, Classical.not_imp, not_exists, not_and] at hno
    obtain ⟨h1, h2, h3, h4, ⟨d, hd, hf⟩, h5⟩ := hno
    have hserve : ¬ s.Serves slots layout := fun hsv =>
      hsv.node.elim (fun h0 => by omega) fun hex => by
        obtain ⟨d', hd', hf', hn'⟩ := hex
        exact h5 d' hd' hf' hn'
    obtain ⟨e, t, slots', hr⟩ := allocate_of_not_serves hserve
    obtain ⟨hfree, -, -⟩ := h e t slots' hr
    -- the pages of the best fit are gone
    rcases allocate_cases hr with ⟨rfl, -, -⟩ | ⟨-, -, i, node, hb, ⟨-, -, -, rfl⟩ | ⟨-, hok, -⟩⟩
    · obtain ⟨i, node, hb⟩ := exists_bestFit hd hf
      obtain ⟨hi, hfit⟩ := bestFit_spec hb
      have hn : node.numPages ≠ ceilDiv layout.size PAGE_SIZE := h5 node (mem_of_getElem? hi) hfit
      simp only [PhyMemConBlk.allocate, findBestFit, hb, if_neg hn, Nat.eq_zero_of_not_pos (not_lt.2 h3),
        addNode] at hr
      rw [if_neg (by omega), if_neg (by omega), Prod.mk.injEq, Prod.mk.injEq] at hr
      exact carve_ne physEnd_lt hs hi (hle hb) (layout.pages_pos (Nat.pos_of_ne_zero h4))
        (congrArg PhyMemConBlk.freeBlockList hr.2.1)
    · exact carve_ne physEnd_lt hs (bestFit_spec hb).1 (hle hb) (layout.pages_pos (Nat.pos_of_ne_zero h4)) hfree
    · cases hok
  · intro hn e t slots' hr
    rcases allocate_cases hr with ⟨rfl, -, -⟩ | ⟨h1, h2, i, node, hb, ⟨h3, h4, -, rfl⟩ | ⟨-, hok, -⟩⟩
    · exact .refl _
    · obtain ⟨hi, hfit⟩ := bestFit_spec hb
      have hzero : ceilDiv layout.size PAGE_SIZE = 0 := by
        rcases hn with hn | hn | hn | hn | hn
        · omega
        · omega
        · omega
        · rw [hn]; decide
        · obtain ⟨d, hd, hf, hdn⟩ := hn ⟨node, mem_of_getElem? hi, hfit⟩
          exact absurd (le_antisymm ((bestFit_le hb hd hf).trans_eq hdn) (hle hb)) h4
      rw [hzero] at h4 ⊢
      rw [cutPages_zero hi h4 (hword node (mem_of_getElem? hi))]
      exact .refl _
    · cases hok

namespace MemState

variable {s t : MemState} {slots : ℕ} {layout : Layout} {flags : UInt8}

/-- The blocks are page-aligned and below the ends of their ranges; process 0 is the kernel. -/
structure WellFormed (s : MemState) : Prop where
  kernel : s.kernel.Bounded
  process : ∀ p, s.process = some p → p.Bounded ∧ p.procId ≠ 0
  frames : phyField.Bounded PhyMemConBlk.physEnd s.frames.freeBlockList

/-- The block lists and `avl_memory` of both address spaces and of the frame allocator are the same. -/
def Same (s t : MemState) : Prop :=
  s.kernel.Same t.kernel ∧ s.active.Same t.active ∧ s.frames.Same t.frames

/-- The address space that a virtual range is reserved in. -/
def spaceFor (s : MemState) (isUser : Bool) : VirtMemConBlk := if isUser then s.active else s.kernel

/-- A virtual range comes with its frames, or not at all; frames alone come with a node. -/
def Safe (s : MemState) (layout : Layout) (flags : UInt8) : Prop :=
  if s.addrSpaceInit && hasFlag flags VIRTUAL then
    let isUser := hasFlag flags USER
    let vcb := s.spaceFor isUser
    hasFlag flags NO_ALLOC ∨ ¬ vcb.Reserves s.slots layout isUser ∨
      s.frames.Serves (vcb.slotsLeft s.slots layout isUser) layout
  else flags ≠ 0 ∨ s.frames.NodeFor s.slots layout

/-- The state after a reservation in the space of `spaceFor`. -/
def withSpace (s : MemState) (isUser : Bool) (vcb : VirtMemConBlk) (slots : ℕ) : MemState :=
  { (if isUser then s.setActive vcb else { s with kernel := vcb }) with slots }

section
variable {isUser : Bool} {vcb : VirtMemConBlk}

@[simp] theorem withSpace_slots : (s.withSpace isUser vcb slots).slots = slots := rfl

@[simp] theorem withSpace_frames : (s.withSpace isUser vcb slots).frames = s.frames := by
  unfold withSpace setActive
  cases isUser <;> cases s.process <;> rfl

@[simp] theorem spaceFor_withSpace : (s.withSpace isUser vcb slots).spaceFor isUser = vcb := by
  unfold withSpace spaceFor setActive active
  cases isUser
  · rfl
  · cases s.process <;> simp

theorem procId_withSpace (hs : ∀ p, s.process = some p → p.procId ≠ 0) (hv : vcb.procId = (s.spaceFor isUser).procId) :
    ∀ p, (s.withSpace isUser vcb slots).process = some p → p.procId ≠ 0 := by
  unfold withSpace setActive
  intro p hp
  cases isUser with
  | false => exact hs p hp
  | true =>
    cases hq : s.process with
    | none => simp [hq] at hp
    | some q =>
      simp only [hq, if_true, Option.some.injEq] at hp
      rw [← hp, hv, spaceFor, if_pos rfl, active, hq]
      exact hs q hq

end

theorem withSpace_self {isUser : Bool} : s.withSpace isUser (s.spaceFor isUser) s.slots = s := by
  unfold withSpace spaceFor setActive active
  cases isUser
  · rfl
  · obtain ⟨i, k, p, tb, f, n⟩ := s
    cases p <;> rfl

theorem spaceFor_congr (hk : t.kernel = s.kernel) (hp : t.process = s.process) (isUser : Bool) :
    s.spaceFor isUser = t.spaceFor isUser := by
  unfold spaceFor active
  rw [hk, hp]

theorem Same.refl (s : MemState) : s.Same s := ⟨⟨rfl, rfl, rfl⟩, ⟨rfl, rfl, rfl⟩, .refl _⟩

theorem Same.space (h : s.Same t) (isUser : Bool) : (s.spaceFor isUser).Same (t.spaceFor isUser) := by
  cases isUser
  · exact h.1
  · exact h.2.1

theorem WellFormed.space (h : s.WellFormed) (isUser : Bool) : (s.spaceFor isUser).Bounded := by
  unfold spaceFor MemState.active
  cases isUser
  · exact h.kernel
  · cases hp : s.process with
    | none => exact h.kernel
    | some p => exact (h.process p hp).1

variable {phyAddr virtAddr : ℕ}

theorem mapMemory_ne_error {vcb : VirtMemConBlk} (hphy : PAGE_SIZE ∣ phyAddr) (hvirt : PAGE_SIZE ∣ virtAddr)
    (hblock : vcb.procId ≠ 0 ∧ hasFlag flags USER = false ∨ ∃ f, ⟨ceilDiv layout.size PAGE_SIZE, 0, virtAddr, f,
    false⟩ ∈ vcb.allocBlockList) {e : KError} {vcb' : VirtMemConBlk} {slots' : ℕ} : vcb.mapMemory slots phyAddr
    virtAddr layout.size flags ≠ some (.error e, vcb', slots') := by
  have hself : ∀ f, VirtMemConBlk.inBlock virtAddr (roundUp layout.size)
      ⟨ceilDiv layout.size PAGE_SIZE, 0, virtAddr, f, false⟩ = true := by
    intro f
    rw [VirtMemConBlk.inBlock, layout.roundUp_size]
    have hw : wmul (ceilDiv layout.size PAGE_SIZE) PAGE_SIZE = ceilDiv layout.size PAGE_SIZE * PAGE_SIZE := by
      rw [wmul_eq]
      have h1 := layout.size_le
      rw [layout.ceilDiv_size]
      simp only [isizeMax, PAGE_SIZE] at h1 ⊢
      omega
    simp [AddrField.wstop, hw]
  simp only [VirtMemConBlk.mapMemory]
  rw [if_neg (by simp [Nat.mod_eq_zero_of_dvd hphy, Nat.mod_eq_zero_of_dvd hvirt])]
  split_ifs with h1 h2
  · simp
  · simp
  have hmem := hblock.resolve_left fun hn => h2 (by simpa [hasFlag] using ⟨hn.1, by simpa [hasFlag] using hn.2⟩)
  obtain ⟨f, hmem⟩ := hmem
  obtain ⟨i, desc, hloc⟩ := exists_locate (p := fun item =>
    VirtMemConBlk.inBlock virtAddr (roundUp layout.size) item && !item.isMapped) hmem
    (by rw [hself f]; rfl)
  rw [hloc]
  simp only [Option.bind_eq_bind, ne_eq, Option.bind_eq_some_iff, Option.pure_def, Option.some.injEq,
    Prod.mk.injEq, reduceCtorEq, false_and, and_false, exists_false, not_false_eq_true]

/-! ### The steps of a call -/

/-- `virt_addr` starts a block of `vcb` that is reserved for `layout` and not mapped. -/
def Reserved (vcb : VirtMemConBlk) (virtAddr : ℕ) (layout : Layout) : Prop :=
  ∃ f, ⟨ceilDiv layout.size PAGE_SIZE, 0, virtAddr, f, false⟩ ∈ vcb.allocBlockList

theorem wp_mapActive (hphy : PAGE_SIZE ∣ phyAddr) (hvirt : PAGE_SIZE ∣ virtAddr)
    (hblock : s.active.procId ≠ 0 ∧ hasFlag flags USER = false ∨ Reserved s.active virtAddr layout) :
    wp (mapActive phyAddr virtAddr layout.size flags) (fun _ _ => True) (fun f _ => f = .panic) s := by
  unfold mapActive
  rw [wp_bind]
  unfold onActive
  cases hm : s.active.mapMemory s.slots phyAddr virtAddr layout.size flags with
  | none => simp [wp, hm]
  | some r =>
    obtain ⟨r, vcb, slots'⟩ := r
    cases r with
    | error e => exact absurd hm (mapMemory_ne_error hphy hvirt hblock)
    | ok u =>
      simp only [wp, hm]
      unfold pageMap
      split_ifs
      · rfl
      · cases Process.pageMap _ virtAddr layout.size <;> trivial

theorem wp_recordKernel (hphy : PAGE_SIZE ∣ phyAddr) (hvirt : PAGE_SIZE ∣ virtAddr)
    (hblock : Reserved s.kernel virtAddr layout) : wp (recordKernel phyAddr virtAddr layout.size flags)
      (fun _ t => t.active = s.active ∧ t.process = s.process) (fun f _ => f = .panic) s := by
  unfold recordKernel
  rw [wp_bind, wp_get]
  split_ifs with hp
  · unfold onKernel
    cases hm : s.kernel.mapMemory s.slots phyAddr virtAddr layout.size flags with
    | none => simp [wp, hm]
    | some r =>
      obtain ⟨r, vcb, slots'⟩ := r
      cases r with
      | error e => exact absurd hm (mapMemory_ne_error hphy hvirt (.inr hblock))
      | ok u =>
        obtain ⟨p, hp⟩ := Option.isSome_iff_exists.1 hp
        simp [wp, hm, active, hp]
  · simp

theorem wp_onFrames (h : phyField.Bounded PhyMemConBlk.physEnd s.frames.freeBlockList)
    (hs : s.frames.Serves s.slots layout) : wp (onFrames fun frames slots => frames.allocate slots layout)
      (fun a t => PAGE_SIZE ∣ a ∧ t.kernel = s.kernel ∧ t.process = s.process) (fun _ _ => False) s := by
  obtain ⟨node, hmem, f, slots', hr⟩ := hs.allocate
  simpa [wp, onFrames, hr] using (h node hmem).1

def back (virtAddr : ℕ) (layout : Layout) (flags : UInt8) : MemM ℕ :=
  if hasFlag flags USER then backUser virtAddr layout flags
  else backKernel virtAddr layout flags

theorem wp_back (hvirt : PAGE_SIZE ∣ virtAddr) (hproc : ∀ p, s.process = some p → p.procId ≠ 0)
    (h : phyField.Bounded PhyMemConBlk.physEnd s.frames.freeBlockList)
    (hblock : Reserved (s.spaceFor (hasFlag flags USER)) virtAddr layout)
    (hs : hasFlag flags NO_ALLOC = true ∨ s.frames.Serves s.slots layout) :
    wp (back virtAddr layout flags) (fun _ _ => True) (fun f _ => f = .panic) s := by
  unfold back backUser backKernel
  rcases Bool.eq_false_or_eq_true (hasFlag flags NO_ALLOC) with hn | hn
  · simp [hn]
  have hs := hs.resolve_left (by simp [hn])
  cases hu : hasFlag flags USER with
  | true =>
    rw [hu] at hblock
    simp only [hn, if_true, Bool.false_eq_true, if_false]
    refine (wp_onFrames h hs).seq fun a t ⟨hphy, hk, hp⟩ => ?_
    have hact : t.active = s.active := by unfold active; rw [hk, hp]
    refine (wp_mapActive hphy hvirt (.inr (hact ▸ hblock))).seq' (fun _ _ _ => trivial) fun _ _ hf => hf
  | false =>
    rw [hu] at hblock
    simp only [hn, Bool.false_eq_true, if_false]
    refine (wp_onFrames h hs).seq fun a t ⟨hphy, hk, hp⟩ => ?_
    refine (wp_recordKernel hphy hvirt (hk ▸ hblock)).seq' (fun _ t' ⟨ha', hp'⟩ => ?_) fun _ _ hf => hf
    refine (wp_mapActive hphy hvirt ?_).seq' (fun _ _ _ => trivial) fun _ _ hf => hf
    -- the space of a process does not account for kernel pages
    rw [ha']
    unfold active
    cases hq : t.process with
    | none => exact .inr (hk ▸ hblock)
    | some p => exact .inl ⟨hproc p (hp ▸ hq), hu⟩

theorem back_error (virtAddr : ℕ) (hn : hasFlag flags NO_ALLOC = false) (hs : ¬ s.frames.Serves s.slots layout) :
    ∃ e t, back virtAddr layout flags s = .error (.err e) t ∧ t.kernel = s.kernel ∧ t.process = s.process := by
  obtain ⟨e, f, slots', hr⟩ := PhyMemConBlk.allocate_of_not_serves hs
  refine ⟨e, { s with frames := f, slots := slots' }, ?_, rfl, rfl⟩
  unfold back backUser backKernel
  simp only [hn, Bool.false_eq_true, if_false]
  split <;> simp [bind, EStateM.bind, onFrames, hr]

theorem allocateMemory_virtual (h : s.addrSpaceInit && hasFlag flags VIRTUAL) :
    let isUser := hasFlag flags USER
    let vcb := s.spaceFor isUser
    allocateMemory layout flags s =
      match vcb.allocate s.slots layout isUser with
      | none => .error .panic s
      | some (.error e, vcb, slots) => .error (.err e) (s.withSpace isUser vcb slots)
      | some (.ok virtAddr, vcb, slots) => back virtAddr layout flags (s.withSpace isUser vcb slots) := by
  simp only [allocateMemory, bind, EStateM.bind, get_ok, h, if_true]
  unfold back
  cases hu : hasFlag flags USER
  · simp only [Bool.false_eq_true, if_false, EStateM.bind, onKernel, spaceFor, withSpace]
    rcases s.kernel.allocate s.slots layout false with _ | ⟨_ | _, _, _⟩ <;> rfl
  · simp only [if_true, EStateM.bind, onActive, spaceFor, withSpace]
    rcases s.active.allocate s.slots layout true with _ | ⟨_ | _, _, _⟩ <;> rfl

/-- **Failed allocations** leave the block lists and `avl_memory` of the address spaces and of the frame
allocator as they were, exactly if no range is reserved without frames for it, and no frames are taken that
cannot be recorded. -/
theorem allocateMemory_unchanged_iff (h : s.WellFormed) :
    (∀ e t, allocateMemory layout flags s = .error (.err e) t → s.Same t) ↔ s.Safe layout flags := by
  unfold Safe
  split_ifs with hv
  · rw [allocateMemory_virtual hv]
    generalize hu : hasFlag flags USER = isUser
    by_cases hres : (s.spaceFor isUser).Reserves s.slots layout isUser
    · obtain ⟨i, node, hb, vcb, hr, hid, halloc⟩ := hres.allocate
      have hvirt : PAGE_SIZE ∣ node.startVirtAddress :=
        ((h.space isUser).free node (mem_of_getElem? (bestFit_spec hb).1)).1
      generalize hslots : (s.spaceFor isUser).slotsLeft s.slots layout isUser = slots at hr
      simp only [hr, hslots]
      constructor
      · intro hsame
        by_contra hno
        simp only [not_or, Bool.not_eq_true, not_not] at hno
        obtain ⟨hn, -, hserve⟩ := hno
        have hfail : ¬ (s.withSpace isUser vcb slots).frames.Serves (s.withSpace isUser vcb slots).slots
            layout := by
          rw [withSpace_frames, withSpace_slots]
          exact hserve
        obtain ⟨e, t, hback, hk, hp⟩ := back_error node.startVirtAddress hn hfail
        have hlist := ((hsame e t hback).space isUser).2.1
        rw [← spaceFor_congr hk hp isUser, spaceFor_withSpace, halloc] at hlist
        simp at hlist
      · intro hsafe e t herr
        have hblock : Reserved vcb node.startVirtAddress layout :=
          ⟨_, halloc ▸ mem_append_right _ (mem_singleton_self _)⟩
        have hwp : wp (back node.startVirtAddress layout flags) (fun _ _ => True) (fun f _ => f = .panic)
            (s.withSpace isUser vcb slots) := by
          refine wp_back hvirt (procId_withSpace (fun p hp => (h.process p hp).2) hid) ?_ ?_ ?_
          · rw [withSpace_frames]
            exact h.frames
          · rw [hu, spaceFor_withSpace]
            exact hblock
          · rw [withSpace_frames, withSpace_slots]
            exact hsafe.imp_right fun hs => hs.resolve_left (not_not.2 hres)
        exact absurd ((wp_iff.1 hwp).2 _ _ herr) (by simp)
    · rcases VirtMemConBlk.allocate_of_not_reserves hres with hr | ⟨e, hr⟩
      · simp [hr, hres]
      · simp only [hr, withSpace_self]
        simp [hres, Same.refl]
  · -- the frame allocator alone
    by_cases hf : flags = 0
    · have hcall : allocateMemory layout flags s = onFrames (fun frames slots => frames.allocate slots layout) s := by
        simp only [allocateMemory, bind, EStateM.bind, get_ok]
        rw [if_neg hv, if_neg (by simp [hf])]
      rw [hcall, ← PhyMemConBlk.allocate_unchanged_iff h.frames]
      simp only [hf, ne_eq, not_true_eq_false, false_or, onFrames]
      rcases hr : s.frames.allocate s.slots layout with ⟨_ | _, f, slots'⟩
      · constructor
        · intro hsame e t slots'' he
          cases he
          exact (hsame _ _ rfl).2.2
        · intro hsame e t he
          cases he
          exact ⟨⟨rfl, rfl, rfl⟩, ⟨rfl, rfl, rfl⟩, hsame _ _ _ rfl⟩
      · simp
    · have hcall : allocateMemory layout flags s = .error .panic s := by
        simp only [allocateMemory, bind, EStateM.bind, get_ok]
        rw [if_neg hv, if_pos hf]
        rfl
      simp [hcall, hf]

def fourFrames : MemState where
  addrSpaceInit := true
  kernel := .new 0
  process := none
  tables := []
  frames := ⟨4 * PAGE_SIZE, 4 * PAGE_SIZE, PhyMemConBlk.ARCH_PHY_UPPER_LIMIT,
    PhyMemConBlk.ARCH_PHY_LOWER_LIMIT, [.unmapped 4 0x100000 0], []⟩
  slots := 9

theorem fourFrames_wellFormed : fourFrames.WellFormed where
  kernel := VirtMemConBlk.new_bounded 0
  process p hp := by cases hp
  frames d hd := by
    rw [mem_singleton.1 hd]
    constructor <;> decide

theorem allocateMemory_unchanged_two : fourFrames.Safe ⟨8192, 8, by decide⟩ VIRTUAL ∧
    ∀ e t, allocateMemory ⟨8192, 8, by decide⟩ VIRTUAL fourFrames = .error (.err e) t →
      fourFrames.Same t := by
  have hsafe : fourFrames.Safe ⟨8192, 8, by decide⟩ VIRTUAL := by
    unfold Safe
    rw [if_pos (by decide)]
    exact .inr (.inr ⟨by decide, by decide, by decide, .inl (by decide)⟩)
  exact ⟨hsafe, (allocateMemory_unchanged_iff fourFrames_wellFormed).2 hsafe⟩

/-- There are no eight frames, and the range that was reserved for them stays in `alloc_block_list`. -/
theorem allocateMemory_keeps_range : ∃ e t,
    allocateMemory ⟨0x8000, 8, by decide⟩ VIRTUAL fourFrames = .error (.err e) t ∧
      t.kernel.allocBlockList = [.unmapped 8 0 KERNEL_HALF_OFFSET] ∧
      t.kernel.avlMemory + 0x8000 = fourFrames.kernel.avlMemory ∧ ¬ fourFrames.Same t := by
  have hrun : (match allocateMemory ⟨0x8000, 8, by decide⟩ VIRTUAL fourFrames with
      | .ok _ _ => false
      | .error f t => decide (f = .err .outOfMemory ∧
        t.kernel.allocBlockList = [.unmapped 8 0 KERNEL_HALF_OFFSET] ∧
        t.kernel.avlMemory + 0x8000 = fourFrames.kernel.avlMemory)) = true := by decide
  split at hrun
  · cases hrun
  rename_i f t hr
  obtain ⟨rfl, halloc, havl⟩ := of_decide_eq_true hrun
  refine ⟨_, t, hr, halloc, havl, fun h => ?_⟩
  have hlist := h.1.2.1
  rw [halloc] at hlist
  cases hlist

end MemState

end Archis.Mem

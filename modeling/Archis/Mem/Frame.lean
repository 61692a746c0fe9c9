/-
  The frame allocator: `PhyMemConBlk` of `mem/frame_allocator.rs`.

  `exec_frames`: blocks stay disjoint, no page is lost or made up, and `avl_memory` counts the free pages, as long as
  `Region0` can supply a list node to each `allocate` that cuts a block in two; without a node the pages are already
  cut off when the call fails (`allocate_without_node_loses_pages`).
-/
import Archis.Mem.Blocks
import Archis.Lib.Run

namespace Archis.Mem

open Archis.Lib
open List hiding Disjoint
open AddrField (cover_append pagesIn_add pagesIn_le)

structure PhyMemConBlk where
  totalMemory : ℕ
  avlMemory : ℕ
  hardLimit : ℕ
  lowerLimit : ℕ
  freeBlockList : List PageDescriptor
  allocBlockList : List PageDescriptor
  deriving DecidableEq, Repr

namespace PhyMemConBlk

def ARCH_PHY_UPPER_LIMIT : ℕ := 0xffffffffffffffff

def ARCH_PHY_LOWER_LIMIT : ℕ := 0

section
variable (self : PhyMemConBlk)

def fits (pages : ℕ) (block : PageDescriptor) : Bool :=
  block.numPages ≥ pages && (wsub (wadd block.startPhyAddress (wmul pages PAGE_SIZE)) 1 ≤ self.hardLimit &&
      block.startPhyAddress ≥ self.lowerLimit)

/-- `find_best_fit`: the pages are taken from the free block before the node for them is requested. -/
def findBestFit (slots pages : ℕ) : Except KError ℕ × PhyMemConBlk × ℕ :=
  match bestFit (self.fits pages) self.freeBlockList with
  | none => (.error .outOfMemory, self, slots)
  | some (i, node) =>
    let self := { self with freeBlockList := carve phyField self.freeBlockList i node pages }
    let slots := if node.numPages = pages then slots + 1 else slots
    match addNode slots self.allocBlockList (.unmapped pages node.startPhyAddress 0) with
    | none => (.error .outOfMemory, self, slots)
    | some (alloc, slots) =>
      (.ok node.startPhyAddress, { self with allocBlockList := alloc }, slots)

def configureLowerLimit (lowerLimit : ℕ) : PhyMemConBlk :=
  { self with lowerLimit }

def configureUpperLimit (upperLimit : ℕ) : PhyMemConBlk :=
  { self with hardLimit := upperLimit }

def disableLimits : PhyMemConBlk :=
  { self with hardLimit := ARCH_PHY_UPPER_LIMIT, lowerLimit := ARCH_PHY_LOWER_LIMIT }

def allocate (slots : ℕ) (layout : Layout) : Except KError ℕ × PhyMemConBlk × ℕ :=
  if layout.size ≥ self.avlMemory then (.error .outOfMemory, self, slots)
  else if layout.align > PAGE_SIZE then (.error .invalidArgument, self, slots)
  else
    let numPages := ceilDiv layout.size PAGE_SIZE
    match self.findBestFit slots numPages with
    | (.error e, self, slots) => (.error e, self, slots)
    | (.ok addr, self, slots) =>
      (.ok addr, { self with avlMemory := wsub self.avlMemory (wmul numPages PAGE_SIZE) }, slots)

def deallocate (slots addr : ℕ) (layout : Layout) : Option (Except KError Unit × PhyMemConBlk × ℕ) :=
  if layout.align > PAGE_SIZE then some (.error .invalidArgument, self, slots)
  else
    let numPages := ceilDiv layout.size PAGE_SIZE
    match locate (fun blk => blk.startPhyAddress == addr && blk.numPages == numPages)
        self.allocBlockList with
    | none => some (.error .invalidArgument, self, slots)
    | some (i, _) => do
      let (free, slots) ← coalesce phyField (fun _ => true) (slots + 1) self.freeBlockList addr numPages
        (.unmapped numPages addr 0)
      return (.ok (), { self with
        freeBlockList := free
        allocBlockList := self.allocBlockList.eraseIdx i
        avlMemory := wadd self.avlMemory (wmul numPages PAGE_SIZE) }, slots)

end

/-- The loop of `reclaim_pages`: each region of the boot loader is entered as allocated and deallocated. -/
def reclaim (self : PhyMemConBlk) (slots : ℕ) : List PageDescriptor → Option (PhyMemConBlk × ℕ)
  | [] => some (self, slots)
  | desc :: rest => do
    let (alloc, slots) ← addNode (slots + 1) self.allocBlockList (.unmapped desc.numPages desc.startPhyAddress 0)
    let size := wmul desc.numPages PAGE_SIZE
    -- `Layout::from_size_align(..).unwrap()`
    if h : size ≤ isizeMax - (PAGE_SIZE - 1) then
      let (r, self, slots) ← deallocate { self with allocBlockList := alloc } slots
        desc.startPhyAddress ⟨size, PAGE_SIZE, h.trans (Nat.sub_le _ _)⟩
      match r with
      | .error _ => none
      | .ok () => self.reclaim slots rest
    else none

/-! ## What a call keeps -/

/-- The largest address a block may end at: the last one the code can compute without wrapping. -/
def physEnd : ℕ := 2 ^ 64 - 1

theorem physEnd_lt : physEnd < 2 ^ 64 := by decide

def cover (s : PhyMemConBlk) (x : ℕ) : ℕ :=
  phyField.cover s.freeBlockList x + phyField.cover s.allocBlockList x

/-- The invariant, next to blocks elsewhere: blocks are aligned and disjoint, and `avl_memory` counts the free
pages. -/
structure Inv (others : ℕ → ℕ) (s : PhyMemConBlk) : Prop where
  free : phyField.Bounded physEnd s.freeBlockList
  alloc : phyField.Bounded physEnd s.allocBlockList
  disjoint : ∀ x, s.cover x + others x ≤ 1
  accounted : s.avlMemory = PAGE_SIZE * pagesIn s.freeBlockList

/-- `allocate` can record what it takes: it takes nothing, or `Region0` has a node, or a fitting block is taken
whole and gives its own node back. -/
def NodeFor (s : PhyMemConBlk) (slots : ℕ) (layout : Layout) : Prop :=
  layout.size ≥ s.avlMemory ∨ layout.align > PAGE_SIZE ∨ 0 < slots ∨ layout.size = 0 ∨
    ((∃ d ∈ s.freeBlockList, s.fits (ceilDiv layout.size PAGE_SIZE) d = true) →
      ∃ d ∈ s.freeBlockList, s.fits (ceilDiv layout.size PAGE_SIZE) d = true ∧
        d.numPages = ceilDiv layout.size PAGE_SIZE)

section
variable {others : ℕ → ℕ} {s t : PhyMemConBlk} {slots slots' : ℕ} {layout : Layout}

theorem Inv.free_le_one (h : s.Inv others) (x : ℕ) : phyField.cover s.freeBlockList x ≤ 1 := by
  have := h.disjoint x
  unfold cover at this; omega

theorem Inv.free_lt (h : s.Inv others) : PAGE_SIZE * pagesIn s.freeBlockList < 2 ^ 64 :=
  (pagesIn_le h.free h.free_le_one).trans_lt physEnd_lt

variable {pages addr : ℕ} {l : List PageDescriptor} {r : Except KError ℕ}

theorem bestFit_carve (h : s.Inv others) {i : ℕ} {node : PageDescriptor}
    (hb : bestFit (s.fits pages) s.freeBlockList = some (i, node)) :
    let stop := node.startPhyAddress + pages * PAGE_SIZE
    (∀ x, phyField.cover (carve phyField s.freeBlockList i node pages) x +
        hits node.startPhyAddress stop x = phyField.cover s.freeBlockList x) ∧
      phyField.Bounded physEnd (carve phyField s.freeBlockList i node pages) ∧
      PAGE_SIZE ∣ node.startPhyAddress ∧ stop ≤ physEnd ∧ s.lowerLimit ≤ node.startPhyAddress ∧
      (0 < pages → stop - 1 ≤ s.hardLimit) := by
  obtain ⟨hi, hfit⟩ := bestFit_spec hb
  simp only [fits, Bool.and_eq_true, decide_eq_true_eq, ge_iff_le] at hfit
  obtain ⟨hle, hhard, hlow⟩ := hfit
  obtain ⟨hal, hst⟩ := h.free node (mem_of_getElem? hi)
  obtain ⟨hc, hbd⟩ := carve_spec physEnd_lt h.free hi hle
  have hstop : node.startPhyAddress + pages * PAGE_SIZE ≤ physEnd :=
    (Nat.add_le_add_left (Nat.mul_le_mul_right _ hle) _).trans hst
  have hlt := physEnd_lt
  refine ⟨hc, hbd, hal, hstop, hlow, fun hpos => ?_⟩
  have hpos' : 0 < pages * PAGE_SIZE := Nat.mul_pos hpos (by decide)
  rwa [wmul_eq (by omega), wadd_eq (by omega), wsub_eq (by omega) (by omega)] at hhard

/-- The range `[addr, addr + n pages)` is free in `s` and lies within the limits. -/
structure Grants (s : PhyMemConBlk) (addr n : ℕ) : Prop where
  aligned : PAGE_SIZE ∣ addr
  free : ∀ x, addr ≤ x → x < addr + n * PAGE_SIZE → ∃ d ∈ s.freeBlockList, d.startPhyAddress ≤ x ∧ x < phyField.stop d
  within : ∀ x, addr ≤ x → x < addr + n * PAGE_SIZE → s.lowerLimit ≤ x ∧ x ≤ s.hardLimit

theorem cover_allocated (l : List PageDescriptor) (pages addr x : ℕ) :
    phyField.cover (l ++ [.unmapped pages addr 0]) x =
      phyField.cover l x + hits addr (addr + pages * PAGE_SIZE) x := AddrField.cover_snoc rfl rfl x

theorem bounded_allocated (h : phyField.Bounded physEnd l)
    (ha : PAGE_SIZE ∣ addr) (hs : addr + pages * PAGE_SIZE ≤ physEnd) :
    phyField.Bounded physEnd (l ++ [.unmapped pages addr 0]) := h.snoc ha hs rfl rfl

/-- The allocator after `n` pages are cut off the free block `node`. -/
def cutPages (s : PhyMemConBlk) (i : ℕ) (node : PageDescriptor) (n : ℕ) : PhyMemConBlk :=
  { s with freeBlockList := carve phyField s.freeBlockList i node n }

/-- The allocator after `n` pages of the free block `node` are allocated. -/
def takePages (s : PhyMemConBlk) (i : ℕ) (node : PageDescriptor) (n : ℕ) : PhyMemConBlk :=
  { s.cutPages i node n with
    allocBlockList := s.allocBlockList ++ [.unmapped n node.startPhyAddress 0]
    avlMemory := wsub s.avlMemory (wmul n PAGE_SIZE) }

/-- `allocate` does nothing, or takes the best fit, or fails with its pages cut off for want of a node. -/
theorem allocate_cases (h : s.allocate slots layout = (r, t, slots')) :
    (t = s ∧ slots' = slots ∧ ∃ e, r = .error e) ∨
    (layout.size < s.avlMemory ∧ layout.align ≤ PAGE_SIZE ∧ ∃ i node,
    bestFit (s.fits (ceilDiv layout.size PAGE_SIZE)) s.freeBlockList = some (i, node) ∧
    (slots = 0 ∧ node.numPages ≠ ceilDiv layout.size PAGE_SIZE ∧ (∃ e, r = .error e) ∧
    t = s.cutPages i node (ceilDiv layout.size PAGE_SIZE) ∨ slots ≤ slots' + 1 ∧
    r = .ok node.startPhyAddress ∧ t = s.takePages i node (ceilDiv layout.size PAGE_SIZE))) := by
  simp only [allocate] at h
  split at h
  · cases h; exact .inl ⟨rfl, rfl, _, rfl⟩
  rename_i hsize
  split at h
  · cases h; exact .inl ⟨rfl, rfl, _, rfl⟩
  rename_i halign
  generalize ceilDiv layout.size PAGE_SIZE = n at h ⊢
  unfold findBestFit at h
  cases hb : bestFit (s.fits n) s.freeBlockList with
  | none => rw [hb] at h; cases h; exact .inl ⟨rfl, rfl, _, rfl⟩
  | some q =>
    obtain ⟨i, node⟩ := q
    rw [hb] at h
    simp only at h
    refine .inr ⟨not_le.1 hsize, not_lt.1 halign, i, node, rfl, ?_⟩
    cases ha : addNode (if node.numPages = n then slots + 1 else slots) s.allocBlockList
        (.unmapped n node.startPhyAddress 0) with
    | none =>
      rw [ha] at h
      cases h
      -- no node: neither from `Region0` nor from a block that is used up
      have hzero : (if node.numPages = n then slots + 1 else slots) = 0 := by
        by_contra hne
        rw [addNode_eq hne] at ha
        cases ha
      have hne : node.numPages ≠ n := fun heq => by rw [if_pos heq] at hzero; cases hzero
      exact .inl ⟨by rwa [if_neg hne] at hzero, hne, ⟨_, rfl⟩, rfl⟩
    | some q =>
      obtain ⟨-, rfl⟩ := addNode_eq_some.1 ha
      rw [ha] at h
      cases h
      exact .inr ⟨by split_ifs <;> omega, rfl, rfl⟩

theorem allocate_ok (h : s.Inv others) (hok : s.allocate slots layout = (.ok addr, t, slots')) :
    s.Grants addr (ceilDiv layout.size PAGE_SIZE) ∧ t.Inv others ∧ (∀ x, t.cover x = s.cover x) ∧
    t.allocBlockList = s.allocBlockList ++ [.unmapped (ceilDiv layout.size PAGE_SIZE) addr 0] := by
  rcases allocate_cases hok with ⟨-, -, e, he⟩ | ⟨-, -, i, node, hb, ⟨-, -, ⟨e, he⟩, -⟩ | ⟨-, haddr, rfl⟩⟩
  · cases he
  · cases he
  cases haddr
  generalize ceilDiv layout.size PAGE_SIZE = n at hb ⊢
  obtain ⟨hc, hbd, hal, hstop, hlow, hhard⟩ := bestFit_carve h hb
  have hkeep : ∀ x, (s.takePages i node n).cover x = s.cover x := by
    intro x
    have h1 := hc x
    have h2 := cover_allocated s.allocBlockList n node.startPhyAddress x
    simp only [cover, takePages, cutPages]
    omega
  refine ⟨⟨hal, fun x h1 h2 => ?_, fun x h1 h2 => ⟨hlow.trans h1, ?_⟩⟩,
    ⟨hbd, bounded_allocated h.alloc hal hstop, fun x => ?_, ?_⟩, hkeep, rfl⟩
  · have h3 := hc x
    have h4 := hits_pos.2 ⟨h1, h2⟩
    exact exists_mem_of_cover phyField.get phyField.stop (show 0 < phyField.cover s.freeBlockList x by omega)
  · have hpos : 0 < n := Nat.pos_of_ne_zero fun h0 => by rw [h0] at h2; omega
    have h3 := hhard hpos
    omega
  · rw [hkeep]; exact h.disjoint x
  · change wsub s.avlMemory (wmul n PAGE_SIZE) = _
    rw [h.accounted]; exact wsub_pages (pagesIn_add hc) h.free_lt

theorem allocate_ok_pages (h : s.Inv others) (hok : s.allocate slots layout = (.ok addr, t, slots')) : pagesIn
    t.freeBlockList + ceilDiv layout.size PAGE_SIZE = pagesIn s.freeBlockList ∧ slots ≤ slots' + 1 := by
  rcases allocate_cases hok with ⟨-, -, e, he⟩ | ⟨-, -, i, node, hb, ⟨-, -, ⟨e, he⟩, -⟩ | ⟨hle, -, rfl⟩⟩
  · cases he
  · cases he
  · exact ⟨pagesIn_add (bestFit_carve h hb).1, hle⟩

/-- An allocation that fails changes nothing, as long as a node is not what it lacks. -/
theorem allocate_error (h : s.Inv others) (hn : s.NodeFor slots layout) {e : KError}
    (herr : s.allocate slots layout = (.error e, t, slots')) : t.Inv others ∧ ∀ x, t.cover x = s.cover x := by
  rcases allocate_cases herr with
    ⟨rfl, -, -⟩ | ⟨hsize, halign, i, node, hb, ⟨hslots, hne, -, rfl⟩ | ⟨-, he, -⟩⟩
  · exact ⟨h, fun _ => rfl⟩
  · -- a failure after the cut: then nothing was to be cut off
    have h0 : layout.size = 0 → ceilDiv layout.size PAGE_SIZE = 0 := fun h => by rw [h]; decide
    unfold NodeFor at hn
    generalize ceilDiv layout.size PAGE_SIZE = n at hb hne hn h0 ⊢
    obtain ⟨hi, hfit⟩ := bestFit_spec hb
    have hle : n ≤ node.numPages := by
      simp only [fits, Bool.and_eq_true, decide_eq_true_eq] at hfit; exact hfit.1
    have hz : n = 0 := by
      rcases hn with hn | hn | hn | hn | hn
      · exact absurd hn (not_le.2 hsize)
      · exact absurd hn (not_lt.2 halign)
      · omega
      · exact h0 hn
      · obtain ⟨d, hd, hf, hdn⟩ := hn ⟨node, mem_of_getElem? hi, hfit⟩
        exact absurd (le_antisymm ((bestFit_le hb hd hf).trans_eq hdn) hle) hne
    subst hz
    obtain ⟨hc, hbd, -⟩ := bestFit_carve h hb
    have hp := pagesIn_add hc
    have hkeep : ∀ x, (s.cutPages i node 0).cover x = s.cover x := by
      intro x
      have h1 := hc x
      have h2 := hits_self node.startPhyAddress x
      rw [Nat.zero_mul, Nat.add_zero, h2, Nat.add_zero] at h1
      simp only [cover, cutPages, h1]
    refine ⟨⟨hbd, h.alloc, fun x => ?_, ?_⟩, hkeep⟩
    · rw [hkeep]; exact h.disjoint x
    · rw [Nat.add_zero] at hp
      simp only [cutPages, hp]; exact h.accounted
  · cases he

/-- **Deallocation** moves the block to the free list, or changes nothing. -/
theorem deallocate_spec (h : s.Inv others) {r : Except KError Unit} (hd : s.deallocate slots addr layout = some (r, t,
    slots')) : t.Inv others ∧ ∀ x, t.cover x = s.cover x := by
  simp only [deallocate] at hd
  split at hd
  · cases hd; exact ⟨h, fun _ => rfl⟩
  split at hd
  · cases hd; exact ⟨h, fun _ => rfl⟩
  rename_i i blk hloc
  obtain ⟨hi, hblk⟩ := locate_spec hloc
  simp only [Bool.and_eq_true, beq_iff_eq] at hblk
  obtain ⟨rfl, hn⟩ := hblk
  rw [← hn] at hd
  simp only [Option.bind_eq_bind, Option.bind_eq_some_iff, Option.pure_def, Option.some.injEq,
    Prod.mk.injEq, Prod.exists] at hd
  obtain ⟨free, _, hco, -, rfl, -⟩ := hd
  have hb := h.alloc blk (mem_of_getElem? hi)
  obtain ⟨hc, hl⟩ := coalesce_spec hco physEnd_lt h.free hb.1 hb.2 rfl rfl
  have hkeep : ∀ x, phyField.cover free x + phyField.cover (s.allocBlockList.eraseIdx i) x =
      s.cover x := by
    intro x
    have h1 : phyField.cover free x = _ := hc x
    have h2 := AddrField.cover_eraseIdx (F := phyField) hi x
    simp only [AddrField.stop, phyField_get] at h2
    rw [cover]; omega
  have hle : ∀ x, phyField.cover free x ≤ 1 := fun x => by
    have h1 := h.disjoint x
    rw [← hkeep x] at h1; omega
  refine ⟨⟨hl, h.alloc.eraseIdx i, fun x => ?_, ?_⟩, hkeep⟩
  · have h1 := h.disjoint x
    rw [← hkeep x] at h1; exact h1
  · change wadd s.avlMemory (wmul blk.numPages PAGE_SIZE) = _
    rw [h.accounted]
    exact wadd_pages (pagesIn_add fun x => (hc x).symm).symm ((pagesIn_le hl hle).trans_lt physEnd_lt)

/-- The limits of the allocator are off. -/
structure Unlimited (s : PhyMemConBlk) : Prop where
  upper : s.hardLimit = ARCH_PHY_UPPER_LIMIT
  lower : s.lowerLimit = ARCH_PHY_LOWER_LIMIT

theorem Unlimited.fits (h : s.Unlimited) {d : PageDescriptor} (hd : pages ≤ d.numPages) : s.fits pages d = true := by
  have hlt : wsub (wadd d.startPhyAddress (wmul pages PAGE_SIZE)) 1 < 2 ^ 64 := Nat.mod_lt _ (by decide)
  simp only [PhyMemConBlk.fits, h.upper, h.lower, ARCH_PHY_UPPER_LIMIT, ARCH_PHY_LOWER_LIMIT,
    Bool.and_eq_true, decide_eq_true_eq]
  exact ⟨hd, by omega, Nat.zero_le _⟩

theorem Unlimited.allocate (h : s.Unlimited) (hr : s.allocate slots layout = (r, t, slots')) : t.Unlimited := by
  rcases allocate_cases hr with ⟨rfl, -, -⟩ | ⟨-, -, i, node, -, ⟨-, -, -, rfl⟩ | ⟨-, -, rfl⟩⟩
  · exact h
  · exact ⟨by simp only [cutPages, h.upper], by simp only [cutPages, h.lower]⟩
  · exact ⟨by simp only [takePages, cutPages, h.upper], by simp only [takePages, cutPages, h.lower]⟩

theorem exists_page (h : 0 < pagesIn l) : ∃ d ∈ l, 1 ≤ d.numPages := by
  by_contra hno
  simp only [not_exists, not_and, not_le] at hno
  have : pagesIn l = 0 := sum_eq_zero fun n hn => by
    obtain ⟨d, hd, rfl⟩ := mem_map.1 hn
    have := hno d hd
    omega
  omega

/-- **Reclaiming** moves the boot loader's regions to the free list, one after the other. -/
theorem reclaim_spec : ∀ (regions : List PageDescriptor) (s : PhyMemConBlk) (slots : ℕ)
    (t : PhyMemConBlk) (slots' : ℕ), phyField.Bounded physEnd regions →
    s.Inv (phyField.cover regions) → s.reclaim slots regions = some (t, slots') →
    t.Inv (fun _ => 0) ∧ ∀ x, t.cover x = s.cover x + phyField.cover regions x
  | [], s, slots, t, slots', _, h, hr => by
    simp only [reclaim, Option.some.injEq, Prod.mk.injEq] at hr
    obtain ⟨rfl, -⟩ := hr
    exact ⟨h, fun _ => rfl⟩
  | d :: rest, s, slots, t, slots', hb, h, hr => by
    simp only [reclaim, Option.bind_eq_bind, Option.bind_eq_some_iff, addNode_eq_some, Prod.mk.injEq,
      Prod.exists] at hr
    obtain ⟨_, slots₁, ⟨-, rfl, -⟩, hr⟩ := hr
    split_ifs at hr with hsize
    simp only [Option.bind_eq_some_iff, Prod.exists] at hr
    obtain ⟨reply, u, slots₂, hde, hr⟩ := hr
    have hd := hb d (by simp)
    have hrest : phyField.Bounded physEnd rest := fun e he => hb e (by simp [he])
    have hcons : ∀ x, phyField.cover (d :: rest) x =
        hits d.startPhyAddress (phyField.stop d) x + phyField.cover rest x := Lib.cover_cons _ _ d rest
    -- the region is now among the allocated blocks
    have hcover : ∀ x, phyField.cover s.freeBlockList x +
        phyField.cover (s.allocBlockList ++ [.unmapped d.numPages d.startPhyAddress 0]) x =
          s.cover x + hits d.startPhyAddress (phyField.stop d) x := by
      intro x
      rw [cover_allocated, cover, Nat.add_assoc]; rfl
    have hinv : Inv (phyField.cover rest)
        { s with allocBlockList := s.allocBlockList ++ [.unmapped d.numPages d.startPhyAddress 0] } := by
      refine ⟨h.free, bounded_allocated h.alloc hd.1 hd.2, fun x => ?_, h.accounted⟩
      have h1 := h.disjoint x
      rw [hcons, ← Nat.add_assoc, ← hcover x] at h1; exact h1
    obtain ⟨hu, hucover⟩ := deallocate_spec hinv hde
    cases reply with
    | error e => cases hr
    | ok _ =>
      obtain ⟨ht, htcover⟩ := reclaim_spec rest u slots₂ t slots' hrest hu hr
      refine ⟨ht, fun x => ?_⟩
      rw [htcover, hucover, hcons, ← Nat.add_assoc]
      exact congrArg (· + phyField.cover rest x) (hcover x)

end

end PhyMemConBlk

/-- `PHY_MEM_CB` and `BOOTLOADER_REGIONS`. -/
structure Frames where
  phyMemCb : PhyMemConBlk
  bootloaderRegions : List PageDescriptor
  deriving DecidableEq, Repr

namespace Frames

variable {s t : Frames} {c : ℕ × Call}

def reclaimPages (s : Frames) (slots : ℕ) : Option Frames :=
  (s.phyMemCb.reclaim slots s.bootloaderRegions).map fun (cb, _) => ⟨cb, []⟩

inductive Call where
  | allocate (layout : Layout)
  | deallocate (addr : ℕ) (layout : Layout)
  | configureLowerLimit (limit : ℕ)
  | configureUpperLimit (limit : ℕ)
  | disableLimits
  | reclaimPages

/-- One call, with the number of nodes it finds in `Region0`. -/
def step (s : Frames) : ℕ × Call → Option Frames
  | (slots, .allocate layout) => some { s with phyMemCb := (s.phyMemCb.allocate slots layout).2.1 }
  | (slots, .deallocate addr layout) =>
    (s.phyMemCb.deallocate slots addr layout).map fun r => { s with phyMemCb := r.2.1 }
  | (_, .configureLowerLimit limit) => some { s with phyMemCb := s.phyMemCb.configureLowerLimit limit }
  | (_, .configureUpperLimit limit) => some { s with phyMemCb := s.phyMemCb.configureUpperLimit limit }
  | (_, .disableLimits) => some { s with phyMemCb := s.phyMemCb.disableLimits }
  | (slots, .reclaimPages) => s.reclaimPages slots

def Covers (s : Frames) (x : ℕ) : Prop :=
  ∃ d ∈ s.phyMemCb.freeBlockList ++ s.phyMemCb.allocBlockList, d.startPhyAddress ≤ x ∧ x < phyField.stop d

def blocks (s : Frames) : List PageDescriptor :=
  s.phyMemCb.freeBlockList ++ s.phyMemCb.allocBlockList ++ s.bootloaderRegions

/-- The blocks are page-aligned, end below `2^64` and are disjoint, and `avl_memory` counts the free pages. -/
structure WellFormed (s : Frames) : Prop where
  bounded : ∀ d ∈ s.blocks, PAGE_SIZE ∣ d.startPhyAddress ∧ phyField.stop d < 2 ^ 64
  disjoint : s.blocks.Pairwise fun d e =>
    Disjoint (Set.Ico d.startPhyAddress (phyField.stop d)) (Set.Ico e.startPhyAddress (phyField.stop e))
  accounted : s.phyMemCb.avlMemory = PAGE_SIZE * pagesIn s.phyMemCb.freeBlockList

/-- An `allocate` call can record what it takes. -/
def NodeFor (s : Frames) : ℕ × Call → Prop
  | (slots, .allocate layout) => s.phyMemCb.NodeFor slots layout
  | _ => True

theorem cover_blocks (s : Frames) (x : ℕ) :
    phyField.cover s.blocks x = s.phyMemCb.cover x + phyField.cover s.bootloaderRegions x := by
  rw [blocks, cover_append, cover_append]; rfl

/-- The invariant of the allocator, next to the regions that are not yet reclaimed. -/
def Inv (s : Frames) : Prop :=
  phyField.Bounded PhyMemConBlk.physEnd s.bootloaderRegions ∧ s.phyMemCb.Inv (phyField.cover s.bootloaderRegions)

theorem inv_iff_wellFormed : s.Inv ↔ s.WellFormed := by
  have hlast : ∀ n, n < 2 ^ 64 ↔ n ≤ PhyMemConBlk.physEnd := fun n => by
    unfold PhyMemConBlk.physEnd; omega
  constructor
  · rintro ⟨hb, hf, ha, hd, hacc⟩
    refine ⟨fun d hd => ?_, pairwise_disjoint_of_cover _ _ fun x => ?_, hacc⟩
    · rw [hlast]
      rcases mem_append.1 hd with hd | hd
      · rcases mem_append.1 hd with hd | hd
        exacts [hf d hd, ha d hd]
      · exact hb d hd
    · exact (cover_blocks s x).trans_le (hd x)
  · rintro ⟨hb, hd, hacc⟩
    have hbound : ∀ d ∈ s.blocks, PAGE_SIZE ∣ phyField.get d ∧ phyField.stop d ≤ PhyMemConBlk.physEnd :=
      fun d h => ⟨(hb d h).1, (hlast _).1 (hb d h).2⟩
    refine ⟨fun d h => hbound d (by simp [blocks, h]), fun d h => hbound d (by simp [blocks, h]),
      fun d h => hbound d (by simp [blocks, h]), fun x => ?_, hacc⟩
    rw [← cover_blocks]
    exact cover_le_one_of_pairwise _ _ hd x

/-- **The step lemma**: a call that can record what it takes keeps the invariant and all pages. -/
theorem step_inv (hs : s.Inv) (hc : s.NodeFor c) (h : s.step c = some t) :
    t.Inv ∧ ∀ x, phyField.cover t.blocks x = phyField.cover s.blocks x := by
  obtain ⟨hb, hi⟩ := hs
  simp only [cover_blocks]
  obtain ⟨slots, c⟩ := c
  cases c with
  | allocate layout =>
    cases h
    have hspec : (s.phyMemCb.allocate slots layout).2.1.Inv (phyField.cover s.bootloaderRegions) ∧
        ∀ x, (s.phyMemCb.allocate slots layout).2.1.cover x = s.phyMemCb.cover x := by
      rcases hr : s.phyMemCb.allocate slots layout with ⟨e | addr, t, slots'⟩
      · exact PhyMemConBlk.allocate_error hi hc hr
      · exact ⟨(PhyMemConBlk.allocate_ok hi hr).2.1, (PhyMemConBlk.allocate_ok hi hr).2.2.1⟩
    exact ⟨⟨hb, hspec.1⟩, fun x => congrArg (· + _) (hspec.2 x)⟩
  | deallocate addr layout =>
    obtain ⟨⟨r, t, slots'⟩, hcall, rfl⟩ := Option.map_eq_some_iff.1 h
    obtain ⟨ht, hcover⟩ := PhyMemConBlk.deallocate_spec hi hcall
    exact ⟨⟨hb, ht⟩, fun x => congrArg (· + _) (hcover x)⟩
  | configureLowerLimit limit =>
    cases h; exact ⟨⟨hb, hi.free, hi.alloc, hi.disjoint, hi.accounted⟩, fun _ => rfl⟩
  | configureUpperLimit limit =>
    cases h; exact ⟨⟨hb, hi.free, hi.alloc, hi.disjoint, hi.accounted⟩, fun _ => rfl⟩
  | disableLimits =>
    cases h; exact ⟨⟨hb, hi.free, hi.alloc, hi.disjoint, hi.accounted⟩, fun _ => rfl⟩
  | reclaimPages =>
    obtain ⟨⟨t, slots'⟩, hcall, rfl⟩ := Option.map_eq_some_iff.1 h
    obtain ⟨ht, hcover⟩ := PhyMemConBlk.reclaim_spec _ _ _ _ _ hb hi hcall
    exact ⟨⟨fun d hd => absurd hd (by simp), ht⟩, hcover⟩

theorem step_regions (h : s.step c = some t) :
    (c.2 = .reclaimPages ∧ t.bootloaderRegions = []) ∨
      (c.2 ≠ .reclaimPages ∧ t.bootloaderRegions = s.bootloaderRegions) := by
  obtain ⟨slots, c⟩ := c
  cases c with
  | allocate layout => cases h; exact .inr ⟨by simp, rfl⟩
  | deallocate addr layout =>
    obtain ⟨r, -, rfl⟩ := Option.map_eq_some_iff.1 h
    exact .inr ⟨by simp, rfl⟩
  | configureLowerLimit limit => cases h; exact .inr ⟨by simp, rfl⟩
  | configureUpperLimit limit => cases h; exact .inr ⟨by simp, rfl⟩
  | disableLimits => cases h; exact .inr ⟨by simp, rfl⟩
  | reclaimPages =>
    obtain ⟨r, -, rfl⟩ := Option.map_eq_some_iff.1 h
    exact .inl ⟨rfl, rfl⟩

theorem exec_regions : ∀ (calls : List (ℕ × Call)) (s t : Frames), exec step s calls = some t →
    (.reclaimPages ∈ calls.map Prod.snd → t.bootloaderRegions = []) ∧
      (.reclaimPages ∉ calls.map Prod.snd → t.bootloaderRegions = s.bootloaderRegions)
  | [], s, t, h => by
    simp only [exec, Option.some.injEq] at h
    subst h; exact ⟨fun h => absurd h (by simp), fun _ => rfl⟩
  | c :: calls, s, t, h => by
    obtain ⟨u, hu, ht⟩ := exec_cons.1 h
    obtain ⟨h1, h2⟩ := exec_regions calls u t ht
    simp only [map_cons, mem_cons, not_or]
    constructor
    · rintro hmem
      by_cases hlater : .reclaimPages ∈ calls.map Prod.snd
      · exact h1 hlater
      · rcases step_regions hu with ⟨-, hnil⟩ | ⟨hne, -⟩
        · rw [h2 hlater, hnil]
        · exact absurd (hmem.resolve_right hlater).symm hne
    · rintro ⟨hne, hlater⟩
      rcases step_regions hu with ⟨heq, -⟩ | ⟨-, hsame⟩
      · exact absurd heq.symm hne
      · rw [h2 hlater, hsame]

theorem covers_iff {x : ℕ} : s.Covers x ↔ 0 < s.phyMemCb.cover x := by
  have h := cover_pos_iff phyField.get phyField.stop
    (l := s.phyMemCb.freeBlockList ++ s.phyMemCb.allocBlockList) (x := x)
  rw [Lib.cover_append] at h
  exact h.symm

/-- **The frame allocator over whole runs** whose allocations can record what they take: the blocks stay well
formed and disjoint and `avl_memory` counts the free pages; the pages are those of the first state, and of the
boot loader's regions once they are reclaimed; and an allocation returns as many pages as the size needs, all
free and within the limits. -/
theorem exec_frames (s₀ : Frames) (calls : List (ℕ × Call)) (s : Frames) (h₀ : s₀.WellFormed)
    (hok : Along step NodeFor s₀ calls) (h : exec step s₀ calls = some s) : s.WellFormed ∧ (∀ x, s.Covers x ↔
    s₀.Covers x ∨ (.reclaimPages ∈ calls.map Prod.snd ∧ ∃ d ∈ s₀.bootloaderRegions,
    d.startPhyAddress ≤ x ∧ x < phyField.stop d)) ∧ ∀ slots layout addr t slots', s.phyMemCb.allocate slots layout =
    (.ok addr, t, slots') → s.phyMemCb.Grants addr ((layout.size + PAGE_SIZE - 1) / PAGE_SIZE) ∧ t.allocBlockList =
    s.phyMemCb.allocBlockList ++ [.unmapped ((layout.size + PAGE_SIZE - 1) / PAGE_SIZE) addr 0] := by
  have hrun : s.Inv ∧ ∀ x, phyField.cover s.blocks x = phyField.cover s₀.blocks x := by
    refine exec_induction (I := fun u => u.Inv ∧ ∀ x, phyField.cover u.blocks x = phyField.cover s₀.blocks x) ?_
      ⟨inv_iff_wellFormed.2 h₀, fun _ => rfl⟩ hok h
    rintro u c v ⟨hu, hcover⟩ hc hv
    obtain ⟨hv', hcover'⟩ := step_inv hu hc hv
    exact ⟨hv', fun x => (hcover' x).trans (hcover x)⟩
  obtain ⟨hinv, hcover⟩ := hrun
  obtain ⟨hall, hnone⟩ := exec_regions calls s₀ s h
  refine ⟨inv_iff_wellFormed.1 hinv, fun x => ?_, fun slots layout addr t slots' ha => ?_⟩
  · have hx := hcover x
    rw [cover_blocks, cover_blocks] at hx
    have hboot : 0 < phyField.cover s₀.bootloaderRegions x ↔
        ∃ d ∈ s₀.bootloaderRegions, d.startPhyAddress ≤ x ∧ x < phyField.stop d :=
      cover_pos_iff phyField.get phyField.stop
    rw [covers_iff, covers_iff, ← hboot]
    by_cases hmem : .reclaimPages ∈ calls.map Prod.snd
    · rw [hall hmem] at hx
      change _ + 0 = _ at hx
      constructor
      · intro hpos
        rcases Nat.eq_zero_or_pos (s₀.phyMemCb.cover x) with h1 | h1
        · exact .inr ⟨hmem, by omega⟩
        · exact .inl h1
      · rintro (h1 | ⟨-, h1⟩) <;> omega
    · rw [hnone hmem] at hx
      constructor
      · intro hpos; exact .inl (by omega)
      · rintro (h1 | ⟨h1, -⟩)
        · omega
        · exact absurd h1 hmem
  · obtain ⟨hg, -, -, hlist⟩ := PhyMemConBlk.allocate_ok hinv.2 ha
    rw [layout.ceilDiv_size] at hg hlist
    exact ⟨hg, hlist⟩

def boot : Frames where
  phyMemCb := ⟨12 * PAGE_SIZE, 10 * PAGE_SIZE, PhyMemConBlk.ARCH_PHY_UPPER_LIMIT,
    PhyMemConBlk.ARCH_PHY_LOWER_LIMIT, [.unmapped 10 0 0], []⟩
  bootloaderRegions := [.unmapped 2 0x10000 0]

theorem boot_wellFormed : boot.WellFormed := by
  refine ⟨?_, ?_, by decide⟩
  · intro d hd
    simp only [blocks, boot, append_nil, cons_append, nil_append, mem_cons,
      not_mem_nil, or_false] at hd
    rcases hd with rfl | rfl <;> decide
  · refine pairwise_pair.2 (Set.disjoint_left.2 ?_)
    rintro x ⟨-, h1⟩ ⟨h2, -⟩
    exact absurd (h2.trans_lt h1) (by decide)

def bootCalls : List (ℕ × Call) :=
  [(5, .configureUpperLimit 0x7fff), (5, .allocate ⟨5000, 8, by decide⟩), (5, .reclaimPages),
   (5, .disableLimits), (5, .deallocate 0 ⟨5000, 8, by decide⟩)]

theorem exec_frames_boot : (exec step boot bootCalls).isSome = true ∧
    ∀ s, exec step boot bootCalls = some s → s.WellFormed ∧ s.Covers 0x11000 := by
  refine ⟨by decide, fun s h => ?_⟩
  have hrun := exec_frames boot bootCalls s boot_wellFormed (.of_forall fun c hc u => ?_) h
  · refine ⟨hrun.1, (hrun.2.1 0x11000).2 (.inr ⟨by simp [bootCalls], _, mem_singleton.2 rfl, ?_⟩)⟩
    decide
  simp only [bootCalls, mem_cons, not_mem_nil, or_false] at hc
  rcases hc with rfl | rfl | rfl | rfl | rfl
  · trivial
  · exact .inr (.inr (.inl (by decide)))
  · trivial
  · trivial
  · trivial

/-- Without a node in `Region0`, the page is in neither list any more, and `avl_memory` still counts it. -/
theorem allocate_without_node_loses_pages : boot.WellFormed ∧ boot.Covers 0 ∧
    ∃ s, exec step boot [(0, .allocate ⟨4096, 8, by decide⟩)] = some s ∧ ¬ s.Covers 0 ∧
      s.phyMemCb.avlMemory ≠ PAGE_SIZE * pagesIn s.phyMemCb.freeBlockList := by
  refine ⟨boot_wellFormed, ⟨.unmapped 10 0 0, by decide, by decide⟩,
    { boot with phyMemCb := { boot.phyMemCb with freeBlockList := [.unmapped 9 0x1000 0] } },
    by decide, ?_, by decide⟩
  rintro ⟨d, hd, h1, -⟩
  rw [mem_singleton.1 (show d ∈ [.unmapped 9 0x1000 0] from hd)] at h1
  exact absurd h1 (by decide)

end Frames

end Archis.Mem

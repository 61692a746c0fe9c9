/-
  What every run of the virtual allocator keeps.

  Each call only moves pages between the two lists or cuts a block in parts (`Moves`).  `exec_tiles`: the blocks tile the
  address space, provided no range wraps around; `exec_accounted`: `avl_memory` counts the free pages, provided
  nothing is reserved with `reserve_virtual_space`.
-/
import Archis.Mem.Virt

namespace Archis.Mem

open Archis.Lib
open AddrField (cover_append cover_eraseIdx cover_set cover_singleton stop wstop_eq)
open Option (bind_eq_some_iff map_eq_some_iff)
open List hiding Disjoint
open PageDescriptor (USER unmapped)

namespace VirtMemConBlk

def kernelEnd : ℕ := KERNEL_HALF_OFFSET + (0x1ff * 2 ^ 39 - KERNEL_HALF_OFFSET_RAW)

theorem kernelEnd_lt : kernelEnd < 2 ^ 64 := by decide

/-- All blocks are page-aligned and lie below the end of the kernel range. -/
structure Bounded (s : VirtMemConBlk) : Prop where
  free : virtField.Bounded kernelEnd s.freeBlockList
  alloc : virtField.Bounded kernelEnd s.allocBlockList

def cover (s : VirtMemConBlk) (x : ℕ) : ℕ :=
  virtField.cover s.freeBlockList x + virtField.cover s.allocBlockList x

def pages (s : VirtMemConBlk) : ℕ := pagesIn s.freeBlockList + pagesIn s.allocBlockList

/-- `t` has the pages of `s`, differently distributed and cut. -/
structure Moves (s t : VirtMemConBlk) : Prop where
  cover : ∀ x, t.cover x = s.cover x
  pages : t.pages = s.pages
  bounded : t.Bounded
  total : t.totalMemory = s.totalMemory

variable {s t : VirtMemConBlk} {c : ℕ × Call} {calls : List (ℕ × Call)}

theorem Moves.refl (h : s.Bounded) : Moves s s := ⟨fun _ => rfl, rfl, h, rfl⟩

theorem Moves.trans {u : VirtMemConBlk} (h : Moves s t) (h' : Moves t u) : Moves s u :=
  ⟨fun x => (h'.cover x).trans (h.cover x), h'.pages.trans h.pages, h'.bounded, h'.total.trans h.total⟩

theorem Moves.of_cover (hc : ∀ x, t.cover x = s.cover x) (hb : t.Bounded) (ht : t.totalMemory = s.totalMemory) :
    Moves s t := by
  refine ⟨hc, ?_, hb, ht⟩
  rw [VirtMemConBlk.pages, VirtMemConBlk.pages, ← pagesIn_append, ← pagesIn_append]
  exact AddrField.pagesIn_congr fun x => by rw [cover_append, cover_append]; exact hc x

/-- `avl_memory` is the size of the free pages. -/
def Accounted (s : VirtMemConBlk) : Prop := s.avlMemory = PAGE_SIZE * pagesIn s.freeBlockList

/-! ## Cutting a range out of a block -/

section
variable {slots : ℕ} {l : List PageDescriptor} {i virtAddr size : ℕ} {desc : PageDescriptor}
  {r : List PageDescriptor × ℕ}

theorem addPart_spec {d : PageDescriptor} (h : addPart slots l d = some r)
    (hl : virtField.Bounded kernelEnd l) (ha : PAGE_SIZE ∣ d.startVirtAddress)
    (hs : virtField.stop d ≤ kernelEnd) : (∀ x, virtField.cover r.1 x = virtField.cover l x + hits
    d.startVirtAddress (virtField.stop d) x) ∧ virtField.Bounded kernelEnd r.1 := by
  unfold addPart at h
  split_ifs at h with h0
  · obtain ⟨-, rfl⟩ := addNode_eq_some.1 h
    refine ⟨fun x => ?_, hl.append (.singleton ha hs)⟩
    rw [cover_append, cover_singleton]; rfl
  simp only [ne_eq, not_not] at h0
  cases h
  have hst : virtField.stop d = d.startVirtAddress := by rw [stop, h0]; simp
  refine ⟨fun x => ?_, hl⟩
  rw [hst, hits_self]; rfl

/-- A page-aligned range in a block: the parts below and above it and the range make up the block. -/
theorem inBlock_spec (hd : PAGE_SIZE ∣ desc.startVirtAddress ∧ virtField.stop desc ≤ kernelEnd)
    (hin : inBlock virtAddr size desc = true) (hv : PAGE_SIZE ∣ virtAddr) (hz : PAGE_SIZE ∣ size)
    (hw : virtAddr + size < 2 ^ 64) : desc.startVirtAddress ≤ virtAddr ∧ virtAddr + size ≤ virtField.stop desc ∧
    virtField.stop (topOf desc virtAddr) = virtAddr ∧ (bottomOf desc virtAddr size).startVirtAddress = virtAddr + size
    ∧ virtField.stop (bottomOf desc virtAddr size) = virtField.stop desc := by
  have hk := kernelEnd_lt
  obtain ⟨hal, hst⟩ := hd
  have hws : virtField.wstop desc = virtField.stop desc := wstop_eq (by omega)
  simp only [inBlock, wadd_eq hw, hws, Bool.and_eq_true, decide_eq_true_eq, ge_iff_le] at hin
  obtain ⟨h1, h2⟩ := hin
  have hstop : virtField.stop desc = desc.startVirtAddress + desc.numPages * PAGE_SIZE := rfl
  have hsub : wsub virtAddr desc.startVirtAddress = virtAddr - desc.startVirtAddress :=
    wsub_eq h1 (by omega)
  have hmul : wmul desc.numPages PAGE_SIZE = desc.numPages * PAGE_SIZE := wmul_eq (by omega)
  have hrest : wsub (wmul desc.numPages PAGE_SIZE) (wsub (wadd virtAddr size) desc.startVirtAddress) =
      virtField.stop desc - (virtAddr + size) := by
    rw [wadd_eq hw, wsub_eq (by omega) hw, hmul, wsub_eq (by omega) (by omega)]; omega
  -- both differences are whole pages, so `ceil_div` is exact
  have hexact : ∀ n, PAGE_SIZE ∣ n → n ≤ kernelEnd → ceilDiv n PAGE_SIZE * PAGE_SIZE = n := by
    rintro n ⟨q, rfl⟩ hn
    rw [Nat.mul_comm PAGE_SIZE q] at hn ⊢
    rw [ceilDiv_mul]
    have h3 : kernelEnd + PAGE_SIZE ≤ 2 ^ 64 := by decide
    omega
  refine ⟨h1, h2, ?_, ?_, ?_⟩
  · simp only [stop, topOf, unmapped, virtField_get, hsub]
    rw [hexact _ (Nat.dvd_sub hv hal) (by omega)]; omega
  · exact wadd_eq hw
  have hdvd : PAGE_SIZE ∣ virtField.stop desc - (virtAddr + size) :=
    Nat.dvd_sub (hal.add (Dvd.intro_left _ rfl)) (hv.add hz)
  rw [stop, virtField_get]
  simp only [bottomOf, unmapped, hrest]
  rw [hexact _ hdvd (by omega), wadd_eq hw]; omega

/-- **Cutting removes exactly the range.** -/
theorem cutOut_spec (hl : virtField.Bounded kernelEnd l) (hi : l[i]? = some desc)
    (hin : inBlock virtAddr size desc = true) (hv : PAGE_SIZE ∣ virtAddr) (hz : PAGE_SIZE ∣ size)
    (hw : virtAddr + size < 2 ^ 64) (h : cutOut slots l i desc virtAddr size = some r) :
    (∀ x, virtField.cover r.1 x + hits virtAddr (virtAddr + size) x = virtField.cover l x) ∧
      virtField.Bounded kernelEnd r.1 ∧ virtAddr + size ≤ kernelEnd := by
  obtain ⟨hal, hst⟩ := hl desc (mem_of_getElem? hi)
  obtain ⟨h1, h2, htop, hbs, hbot⟩ := inBlock_spec ⟨hal, hst⟩ hin hv hz hw
  simp only [cutOut, Option.bind_eq_bind, bind_eq_some_iff] at h
  obtain ⟨⟨l₁, slots₁⟩, hp₁, hp₂⟩ := h
  obtain ⟨c₁, b₁⟩ := addPart_spec hp₁ (hl.eraseIdx i) (show PAGE_SIZE ∣ _ from hal) (by omega)
  obtain ⟨c₂, b₂⟩ := addPart_spec hp₂ b₁ (by rw [hbs]; exact hv.add hz) (by omega)
  refine ⟨fun x => ?_, b₂, by omega⟩
  have he := cover_eraseIdx (F := virtField) hi x
  have e₁ := c₁ x
  have e₂ := c₂ x
  have s₁ := hits_split h1 (show virtAddr ≤ virtField.stop desc by omega) x
  have s₂ := hits_split (show virtAddr ≤ virtAddr + size by omega) h2 x
  rw [htop] at e₁
  rw [hbs, hbot] at e₂
  simp only [topOf, unmapped, virtField_get] at he e₁ e₂
  omega

end

theorem middle_spec {virtAddr size : ℕ} (hz : PAGE_SIZE ∣ size) (hend : virtAddr + size ≤ kernelEnd) :
    virtAddr + ceilDiv size PAGE_SIZE * PAGE_SIZE = virtAddr + size := by
  obtain ⟨q, rfl⟩ := hz
  have h1 : kernelEnd + PAGE_SIZE ≤ 2 ^ 64 := by decide
  rw [Nat.mul_comm PAGE_SIZE q] at hend ⊢
  rw [ceilDiv_mul (by omega)]

/-! ## The calls -/

section
variable {s t : VirtMemConBlk} {slots slots' : ℕ} {layout : Layout}

/-- The address space after `n` pages of the free block `node` are allocated. -/
def takePages (s : VirtMemConBlk) (i : ℕ) (node : PageDescriptor) (n : ℕ) (isUser : Bool) : VirtMemConBlk :=
  { s with
    avlMemory := wsub s.avlMemory (wmul n PAGE_SIZE)
    freeBlockList := carve virtField s.freeBlockList i node n
    allocBlockList := s.allocBlockList ++
      [⟨n, 0, node.startVirtAddress, if isUser then USER else 0, false⟩] }

/-- `allocate` fails and does nothing, or takes the best fit. -/
theorem allocate_cases {isUser : Bool} {r : Except KError ℕ} (h : s.allocate slots layout isUser = some
    (r, t, slots')) : (∃ e, r = .error e ∧ t = s ∧ slots' = slots) ∨ ∃ i node,
    bestFit (fits (ceilDiv layout.size PAGE_SIZE) isUser) s.freeBlockList = some (i, node) ∧ slots ≤ slots' + 1 ∧
    r = .ok node.startVirtAddress ∧ t = s.takePages i node (ceilDiv layout.size PAGE_SIZE) isUser := by
  simp only [allocate, findBestFit] at h
  split at h
  · cases h; exact .inl ⟨_, rfl, rfl, rfl⟩
  split at h
  · cases h; exact .inl ⟨_, rfl, rfl, rfl⟩
  split at h
  · cases h
  cases hb : bestFit (fits (ceilDiv layout.size PAGE_SIZE) isUser) s.freeBlockList with
  | none => rw [hb] at h; cases h; exact .inl ⟨_, rfl, rfl, rfl⟩
  | some q =>
    obtain ⟨i, node⟩ := q
    rw [hb] at h
    simp only [Option.bind_eq_bind, bind_eq_some_iff, addNode_eq_some, Option.pure_def,
      Option.some.injEq, Prod.mk.injEq, Prod.exists] at h
    obtain ⟨_, _, ⟨-, rfl, rfl⟩, rfl, rfl, rfl⟩ := h
    exact .inr ⟨i, node, rfl, by split_ifs <;> omega, rfl, rfl⟩

theorem le_of_fits {n i : ℕ} {isUser : Bool} {node : PageDescriptor}
    (hb : bestFit (fits n isUser) s.freeBlockList = some (i, node)) :
    s.freeBlockList[i]? = some node ∧ n ≤ node.numPages := by
  obtain ⟨hi, hfit⟩ := bestFit_spec hb
  simp only [fits, Bool.and_eq_true, decide_eq_true_eq] at hfit
  exact ⟨hi, hfit.1⟩

theorem allocate_moves {isUser : Bool} {r : Except KError ℕ} (hs : s.Bounded)
    (h : s.allocate slots layout isUser = some (r, t, slots')) :
    Moves s t ∧ (PAGE_SIZE * s.pages < 2 ^ 64 → s.Accounted → t.Accounted) := by
  rcases allocate_cases h with ⟨e, -, rfl, -⟩ | ⟨i, node, hb, -, -, rfl⟩
  · exact ⟨.refl hs, fun _ h => h⟩
  generalize ceilDiv layout.size PAGE_SIZE = n at *
  obtain ⟨hi, hle⟩ := le_of_fits hb
  obtain ⟨hc, hb'⟩ := carve_spec kernelEnd_lt hs.free hi hle
  have hnode := hs.free node (mem_of_getElem? hi)
  have hstop : node.startVirtAddress + n * PAGE_SIZE ≤ kernelEnd :=
    le_trans (Nat.add_le_add_left (Nat.mul_le_mul_right _ hle) _) hnode.2
  unfold takePages
  refine ⟨.of_cover (fun x => ?_) ⟨hb', hs.alloc.append (.singleton hnode.1 hstop)⟩ rfl, fun hlt hacc => ?_⟩
  · have h4 := hc x
    simp only [cover, cover_append, cover_singleton, stop, virtField_get] at h4 ⊢
    omega
  · have hf : PAGE_SIZE * pagesIn s.freeBlockList < 2 ^ 64 :=
      lt_of_le_of_lt (Nat.mul_le_mul_left _ (Nat.le_add_right _ _)) hlt
    rw [Accounted] at hacc ⊢
    rw [hacc]; exact wsub_pages (AddrField.pagesIn_add hc) hf

/-- The block starts at the address and has the pages of the layout. -/
def Matches (addr : ℕ) (layout : Layout) (d : PageDescriptor) : Prop :=
  d.startVirtAddress = addr ∧ d.numPages = ceilDiv layout.size PAGE_SIZE

/-- `deallocate` fails and does nothing, or moves a block that is not mapped to the free list. -/
theorem deallocate_cases {addr : ℕ} {r : Except KError Unit} (h : s.deallocate slots addr layout = some
    (r, t, slots')) : (∃ e, r = .error e ∧ t = s) ∨ r = .ok () ∧ ∃ i blk free, s.allocBlockList[i]? = some blk ∧
    Matches addr layout blk ∧ coalesce virtField (· != KERNEL_HALF_OFFSET) (slots + 1) s.freeBlockList addr
      (ceilDiv layout.size PAGE_SIZE) (.unmapped (ceilDiv layout.size PAGE_SIZE) 0 addr) = some (free, slots') ∧
    t = { s with
      avlMemory := wadd s.avlMemory (wmul (ceilDiv layout.size PAGE_SIZE) PAGE_SIZE)
      freeBlockList := free
      allocBlockList := s.allocBlockList.eraseIdx i } := by
  unfold deallocate at h
  split_ifs at h
  · cases h; exact .inl ⟨_, rfl, rfl⟩
  simp only at h
  split at h
  · cases h; exact .inl ⟨_, rfl, rfl⟩
  rename_i i blk hloc
  obtain ⟨hi, hblk⟩ := locate_spec hloc
  simp only [Bool.and_eq_true, beq_iff_eq] at hblk
  split_ifs at h
  · cases h; exact .inl ⟨_, rfl, rfl⟩
  · simp only [coalesceBlock, Option.bind_eq_bind, bind_eq_some_iff, map_eq_some_iff,
      Option.pure_def, Option.some.injEq, Prod.mk.injEq, Prod.exists] at h
    obtain ⟨_, _, ⟨l, _, hco, rfl, rfl⟩, rfl, rfl, rfl⟩ := h
    exact .inr ⟨rfl, i, blk, l, hi, hblk, hco, rfl⟩

/-- `unmap_memory` does nothing, or clears the frame of a block. -/
theorem unmapMemory_cases {virtAddr size : ℕ} {isUser : Bool} {r : Except KError ℕ}
    (h : s.unmapMemory slots virtAddr size isUser = some (r, t, slots')) :
    t = s ∧ ((∃ e, r = .error e) ∨ s.procId ≠ 0 ∧ isUser = false) ∨ ∃ i desc, s.allocBlockList[i]? = some desc ∧
      (desc.startVirtAddress = virtAddr ∧ desc.numPages = ceilDiv (roundUp size) PAGE_SIZE) ∧
      t = { s with allocBlockList := s.allocBlockList.set i { desc with isMapped := false, startPhyAddress := 0 } } := by
  simp only [unmapMemory] at h
  split at h
  · cases h; exact .inl ⟨rfl, .inl ⟨_, rfl⟩⟩
  split at h
  · rename_i hno
    cases h; exact .inl ⟨rfl, .inr (by simpa using hno)⟩
  split at h
  · cases h; exact .inl ⟨rfl, .inl ⟨_, rfl⟩⟩
  · rename_i i desc hloc
    obtain ⟨hi, hblk⟩ := locate_spec hloc
    simp only [Bool.and_eq_true, beq_iff_eq] at hblk
    cases h; exact .inr ⟨i, desc, hi, hblk.1, rfl⟩

variable {r : Except KError Unit} {virtAddr : ℕ} (hs : s.Bounded)
include hs

theorem deallocate_moves {addr : ℕ} (h : s.deallocate slots addr layout = some
    (r, t, slots')) : Moves s t ∧ (PAGE_SIZE * s.pages < 2 ^ 64 → s.Accounted → t.Accounted) := by
  rcases deallocate_cases h with ⟨e, -, rfl⟩ | ⟨-, i, blk, l, hi, ⟨rfl, hn⟩, hco, rfl⟩
  · exact ⟨.refl hs, fun _ h => h⟩
  rw [← hn] at hco ⊢
  have hb := hs.alloc blk (mem_of_getElem? hi)
  obtain ⟨hc, hl⟩ := coalesce_spec hco kernelEnd_lt hs.free hb.1 hb.2 rfl rfl
  have hm : Moves s { s with
      avlMemory := wadd s.avlMemory (wmul blk.numPages PAGE_SIZE)
      freeBlockList := l
      allocBlockList := s.allocBlockList.eraseIdx i } := by
    refine .of_cover (fun x => ?_) ⟨hl, hs.alloc.eraseIdx i⟩ rfl
    have h3 := hc x
    have h4 := cover_eraseIdx (F := virtField) hi x
    simp only [cover, stop, virtField_get] at h3 h4 ⊢
    omega
  refine ⟨hm, fun hlt hacc => ?_⟩
  have hf : PAGE_SIZE * pagesIn l < 2 ^ 64 :=
    lt_of_le_of_lt (Nat.mul_le_mul_left _ (hm.pages ▸ Nat.le_add_right _ _)) hlt
  rw [Accounted] at hacc ⊢
  rw [hacc]; exact wadd_pages (AddrField.pagesIn_add fun x => (hc x).symm).symm hf

theorem reserveVirtualSpace_moves (hv : PAGE_SIZE ∣ virtAddr) (hw : virtAddr + roundUp layout.size < 2 ^ 64)
    (h : s.reserveVirtualSpace slots virtAddr layout = some (r, t, slots')) : Moves s t ∧ t.avlMemory = s.avlMemory ∧
    ((∀ d ∈ s.freeBlockList, inBlock virtAddr (roundUp layout.size) d = false) ∧ t = s ∨
    pagesIn t.freeBlockList + roundUp layout.size / PAGE_SIZE = pagesIn s.freeBlockList) := by
  unfold reserveVirtualSpace at h
  simp only at h
  split at h
  · rename_i hloc
    cases h
    exact ⟨.refl hs, rfl, .inl ⟨locate_eq_none.1 hloc, rfl⟩⟩
  rename_i i desc hloc
  obtain ⟨hi, hin⟩ := locate_spec hloc
  simp only [Option.bind_eq_bind, bind_eq_some_iff, addNode_eq_some, Option.pure_def, Option.some.injEq,
    Prod.mk.injEq, Prod.exists] at h
  obtain ⟨free, _, hcut, _, _, ⟨-, rfl, -⟩, -, rfl, -⟩ := h
  have hz := dvd_roundUp layout.size
  obtain ⟨hc, hb, hend⟩ := cutOut_spec hs.free hi hin hv hz hw hcut
  have hstop := middle_spec hz hend
  have hp : pagesIn free + roundUp layout.size / PAGE_SIZE = pagesIn s.freeBlockList :=
    AddrField.pagesIn_add fun x => by rw [Nat.div_mul_cancel hz]; exact hc x
  refine ⟨.of_cover (fun x => ?_) ⟨hb, hs.alloc.append (.singleton hv ?_)⟩ rfl, rfl, .inr hp⟩
  · have h4 := hc x
    simp only [cover, cover_append, cover_singleton, stop, virtField_get, unmapped, hstop] at h4 ⊢
    omega
  · simp only [stop, virtField_get, unmapped, hstop]; exact hend

theorem mapMemory_moves {physAddr size : ℕ} {flags : UInt8} (hw : virtAddr + roundUp size < 2 ^ 64)
    (h : s.mapMemory slots physAddr virtAddr size flags = some (r, t, slots')) :
    Moves s t ∧ ∃ l, t = { s with allocBlockList := l } := by
  simp only [mapMemory] at h
  split at h
  · cases h; exact ⟨.refl hs, _, rfl⟩
  rename_i hal
  split at h
  · cases h
  split at h
  · cases h; exact ⟨.refl hs, _, rfl⟩
  split at h
  · cases h; exact ⟨.refl hs, _, rfl⟩
  rename_i i desc hloc
  obtain ⟨hi, hin⟩ := locate_spec hloc
  simp only [Bool.and_eq_true] at hin
  have hv : PAGE_SIZE ∣ virtAddr := by
    simp only [ne_eq, Bool.or_eq_true, decide_eq_true_eq, not_or, not_not] at hal
    exact Nat.dvd_of_mod_eq_zero hal.2
  simp only [Option.bind_eq_bind, bind_eq_some_iff, addNode_eq_some, Option.pure_def, Option.some.injEq,
    Prod.mk.injEq, Prod.exists] at h
  obtain ⟨l, _, hcut, _, _, ⟨-, rfl, -⟩, -, rfl, -⟩ := h
  have hz := dvd_roundUp size
  obtain ⟨hc, hb, hend⟩ := cutOut_spec hs.alloc hi hin.1 hv hz hw hcut
  have hstop := middle_spec hz hend
  refine ⟨.of_cover (fun x => ?_) ⟨hs.free, hb.append (.singleton hv ?_)⟩ rfl, _, rfl⟩
  · have h4 := hc x
    simp only [cover, cover_append, cover_singleton, stop, virtField_get, hstop] at h4 ⊢
    omega
  · simp only [stop, virtField_get, hstop]; exact hend

theorem unmapMemory_moves {size : ℕ} {isUser : Bool} {r : Except KError ℕ}
    (h : s.unmapMemory slots virtAddr size isUser = some (r, t, slots')) :
    Moves s t ∧ ∃ l, t = { s with allocBlockList := l } := by
  rcases unmapMemory_cases h with ⟨rfl, -⟩ | ⟨i, desc, hi, -, rfl⟩
  · exact ⟨.refl hs, _, rfl⟩
  have hd := hs.alloc desc (mem_of_getElem? hi)
  refine ⟨.of_cover (fun x => ?_) ⟨hs.free, hs.alloc.set i hd.1 hd.2⟩ rfl, _, rfl⟩
  have h4 := cover_set (F := virtField) (d := { desc with isMapped := false, startPhyAddress := 0 }) hi x
  simp only [cover, stop, virtField_get] at h4 ⊢
  omega

end

/-! ## The address space is tiled -/

/-- The user range `[PAGE_SIZE, 2^47)`. -/
def userRange : Set ℕ := Set.Ico PAGE_SIZE KERNEL_HALF_OFFSET_RAW

/-- The kernel range `[KERNEL_HALF_OFFSET, KERNEL_HALF_OFFSET + (0x1ff << 39) - 2^47)`. -/
def kernelRange : Set ℕ := Set.Ico KERNEL_HALF_OFFSET kernelEnd

def blocks (s : VirtMemConBlk) : List PageDescriptor := s.freeBlockList ++ s.allocBlockList

def range (d : PageDescriptor) : Set ℕ := Set.Ico d.startVirtAddress (virtField.stop d)

/-- The blocks of an address space tile the user and the kernel range. -/
structure Tiles (s : VirtMemConBlk) : Prop where
  aligned : ∀ d ∈ s.blocks, PAGE_SIZE ∣ d.startVirtAddress
  disjoint : s.blocks.Pairwise fun d e => Disjoint (range d) (range e)
  covers : ∀ x, (∃ d ∈ s.blocks, x ∈ range d) ↔ x ∈ userRange ∪ kernelRange
  separate : ∀ d ∈ s.blocks, range d ⊆ userRange ∨ range d ⊆ kernelRange

/-- The number of times `new` covers an address. -/
def cover₀ (x : ℕ) : ℕ := hits PAGE_SIZE KERNEL_HALF_OFFSET_RAW x + hits KERNEL_HALF_OFFSET kernelEnd x

theorem cover₀_le_one (x : ℕ) : cover₀ x ≤ 1 := by
  unfold cover₀ hits
  split_ifs with h1 h2
  · have : KERNEL_HALF_OFFSET_RAW ≤ KERNEL_HALF_OFFSET := by decide
    omega
  all_goals omega

theorem cover₀_pos {x : ℕ} : 0 < cover₀ x ↔ x ∈ userRange ∪ kernelRange := by
  rw [cover₀, Nat.add_pos_iff_pos_or_pos, hits_pos, hits_pos]; rfl

theorem cover_blocks (s : VirtMemConBlk) (x : ℕ) : virtField.cover s.blocks x = s.cover x :=
  cover_append x

theorem tiles_of_cover (hb : s.Bounded) (hc : ∀ x, s.cover x = cover₀ x) : s.Tiles := by
  have hin : ∀ d ∈ s.blocks, ∀ x ∈ range d, x ∈ userRange ∪ kernelRange := by
    intro d hd x hx
    rw [← cover₀_pos, ← hc, ← cover_blocks]
    exact (hits_pos.2 hx).trans_le (hits_le_cover _ _ hd x)
  refine ⟨fun d hd => ?_, pairwise_disjoint_of_cover _ _ fun x => ?_, fun x => ?_, fun d hd => ?_⟩
  · rcases mem_append.1 hd with hd | hd
    exacts [(hb.free d hd).1, (hb.alloc d hd).1]
  · change virtField.cover s.blocks x ≤ 1
    rw [cover_blocks, hc]; exact cover₀_le_one x
  · rw [← cover₀_pos, ← hc, ← cover_blocks]; exact (cover_pos_iff _ _).symm
  -- the address between the ranges that the block would have to contain is in neither
  have hmid : KERNEL_HALF_OFFSET_RAW ∉ userRange ∪ kernelRange := by
    rintro (⟨-, h⟩ | ⟨h, -⟩) <;> revert h <;> decide
  rcases le_or_gt KERNEL_HALF_OFFSET d.startVirtAddress with h | h
  · refine .inr fun x hx => ?_
    rcases hin d hd x hx with ⟨-, h'⟩ | h'
    · have h2 : KERNEL_HALF_OFFSET_RAW ≤ KERNEL_HALF_OFFSET := by decide
      exact absurd h' (not_lt.2 (h2.trans (h.trans hx.1)))
    · exact h'
  · refine .inl fun x hx => ?_
    rcases hin d hd x hx with h' | h'
    · exact h'
    by_cases hs : d.startVirtAddress ≤ KERNEL_HALF_OFFSET_RAW
    · have h2 : KERNEL_HALF_OFFSET_RAW ≤ KERNEL_HALF_OFFSET := by decide
      exact absurd (hin d hd _ ⟨hs, (h2.trans h'.1).trans_lt hx.2⟩) hmid
    · rcases hin d hd _ ⟨le_rfl, hx.1.trans_lt hx.2⟩ with h2 | h2
      exacts [absurd h2.2.le hs, absurd h2.1 (not_le.2 h)]

/-! ## Runs -/

/-- The range of the call, rounded up to pages, does not wrap around, and a reserved address is
page-aligned. -/
def Call.Fits : Call → Prop
  | .reserveVirtualSpace virtAddr layout =>
    PAGE_SIZE ∣ virtAddr ∧ virtAddr + roundUp layout.size < 2 ^ 64
  | .mapMemory _ virtAddr size _ => virtAddr + roundUp size < 2 ^ 64
  | _ => True

/-- **The step lemma**: a call whose range fits only moves pages. -/
theorem step_moves (hs : s.Bounded) (hc : c.2.Fits) (h : s.step c = some t) : Moves s t := by
  obtain ⟨slots, c⟩ := c
  cases c <;> obtain ⟨⟨r, t, slots'⟩, hcall, rfl⟩ := map_eq_some_iff.1 h
  case allocate layout isUser => exact (allocate_moves hs hcall).1
  case reserveVirtualSpace virtAddr layout => exact (reserveVirtualSpace_moves hs hc.1 hc.2 hcall).1
  case mapMemory physAddr virtAddr size flags => exact (mapMemory_moves hs hc hcall).1
  case unmapMemory virtAddr size isUser => exact (unmapMemory_moves hs hcall).1
  case deallocate addr layout => exact (deallocate_moves hs hcall).1

theorem exec_moves (hs : s.Bounded)
    (hok : Along step (fun _ c => c.2.Fits) s calls) (h : exec step s calls = some t) : Moves s t := by
  refine exec_induction (I := Moves s) ?_ (.refl hs) hok h
  intro u c v hu hc hv
  exact hu.trans (step_moves hu.bounded hc hv)

theorem new_bounded (procId : ℕ) : (new procId).Bounded := by
  refine ⟨fun d hd => ?_, fun d hd => absurd hd (by simp [new])⟩
  simp only [new, mem_cons, not_mem_nil, or_false] at hd
  rcases hd with rfl | rfl <;> decide

theorem new_cover (procId x : ℕ) : (new procId).cover x = cover₀ x := by
  have h1 : virtField.stop (.unmapped (ceilDiv (KERNEL_HALF_OFFSET_RAW - PAGE_SIZE) PAGE_SIZE) 0
      PAGE_SIZE) = KERNEL_HALF_OFFSET_RAW := by decide
  have h2 : virtField.stop (.unmapped (ceilDiv (0x1ff * 2 ^ 39 - KERNEL_HALF_OFFSET_RAW) PAGE_SIZE) 0
      KERNEL_HALF_OFFSET) = kernelEnd := by decide
  simp only [cover, new, AddrField.cover, Lib.cover, map_cons, map_nil, sum_cons, sum_nil, h1, h2]
  rfl

theorem tiles_of_exec {procId : ℕ} (hok : Along step (fun _ c => c.2.Fits)
    (new procId) calls) (h : exec step (new procId) calls = some s) : s.Tiles := by
  have hm := exec_moves (new_bounded procId) hok h
  exact tiles_of_cover hm.bounded fun x => (hm.cover x).trans (new_cover procId x)

/-- **The address space stays tiled** in runs whose ranges fit: the blocks are page-aligned and disjoint, cover
exactly the user and the kernel range, and none straddles the two. -/
theorem exec_tiles (procId : ℕ) (calls : List (ℕ × Call)) (s : VirtMemConBlk)
    (hok : Along step (fun _ c => c.2.Fits) (new procId) calls)
    (h : exec step (new procId) calls = some s) : s.Tiles :=
  tiles_of_exec hok h

/-- Reserve an identity-mapped page, allocate, map a part, unmap it, and give a page back. -/
def demo : List (ℕ × Call) :=
  [(9, .reserveVirtualSpace 0x100000 ⟨1, 1, by decide⟩), (9, .allocate ⟨8192, 8, by decide⟩ false),
   (9, .mapMemory 0x5000 KERNEL_HALF_OFFSET 4096 0), (9, .unmapMemory KERNEL_HALF_OFFSET 4096 false),
   (9, .deallocate KERNEL_HALF_OFFSET pageLayout)]

theorem exec_tiles_demo : (exec step (new 0) demo).isSome = true ∧
    ∀ s, exec step (new 0) demo = some s → s.Tiles := by
  refine ⟨by decide, fun s h => exec_tiles 0 demo s (.of_forall fun c hc u => ?_) h⟩
  simp only [demo, mem_cons, not_mem_nil, or_false] at hc
  rcases hc with rfl | rfl | rfl | rfl | rfl <;> simp only [Call.Fits] <;> decide

/-- Reserving one byte in the last page of the address space: the page wraps around, every free block seems to
contain it, and the first one is cut into pieces that overlap. -/
theorem reserve_last_page_overlaps : 0xfffffffffffff000 + 1 < 2 ^ 64 ∧
    ∃ s, exec step (new 0) [(9, .reserveVirtualSpace 0xfffffffffffff000 ⟨1, 1, by decide⟩)] = some s ∧
      ¬ s.Tiles := by
  refine ⟨by decide, { (new 0) with
    freeBlockList := [.unmapped (2 ^ 35 - 2 ^ 27) 0 KERNEL_HALF_OFFSET,
      .unmapped 0xffffffffffffe 0 PAGE_SIZE, .unmapped (2 ^ 35) 0 0],
    allocBlockList := [.unmapped 1 0 0xfffffffffffff000] }, by decide, fun h => ?_⟩
  have hd := pairwise_iff_getElem.1 h.disjoint 1 2 (by decide) (by decide) (by decide)
  have h1 : PAGE_SIZE ∈ range (.unmapped 0xffffffffffffe 0 PAGE_SIZE) := by constructor <;> decide
  have h2 : PAGE_SIZE ∈ range (.unmapped (2 ^ 35) 0 0) := by constructor <;> decide
  exact Set.disjoint_left.1 hd h1 h2

/-! ## The counter of free memory -/

/-- `avl_memory` stays in step: a reservation finds no free block to take from, or is empty. -/
def Call.Counted (s : VirtMemConBlk) : Call → Prop
  | .reserveVirtualSpace virtAddr layout =>
    (∀ d ∈ s.freeBlockList, inBlock virtAddr (roundUp layout.size) d = false) ∨
      (PAGE_SIZE ∣ virtAddr ∧ virtAddr < 2 ^ 64 ∧ layout.size = 0)
  | .mapMemory _ virtAddr size _ => virtAddr + roundUp size < 2 ^ 64
  | _ => True

/-- What accounting needs to know of a state: the pages fit in `total_memory`. -/
structure Ledger (s : VirtMemConBlk) : Prop where
  bounded : s.Bounded
  accounted : s.Accounted
  pages_le : PAGE_SIZE * s.pages ≤ s.totalMemory
  total_lt : s.totalMemory < 2 ^ 64

theorem Ledger.of_moves (hs : s.Ledger) (hm : Moves s t) (ht : t.Accounted) : t.Ledger := by
  refine ⟨hm.bounded, ht, ?_, ?_⟩
  · rw [hm.pages, hm.total]; exact hs.pages_le
  · rw [hm.total]; exact hs.total_lt

theorem Ledger.avl_le (hs : s.Ledger) : s.avlMemory ≤ s.totalMemory := by
  have h := hs.accounted
  rw [Accounted] at h
  rw [h]
  exact (Nat.mul_le_mul_left _ (Nat.le_add_right _ _)).trans hs.pages_le

theorem step_ledger (hs : s.Ledger) (hc : c.2.Counted s) (h : s.step c = some t) : t.Ledger := by
  have hlt : PAGE_SIZE * s.pages < 2 ^ 64 := hs.pages_le.trans_lt hs.total_lt
  have hacc := hs.accounted
  obtain ⟨slots, c⟩ := c
  cases c <;> obtain ⟨⟨r, t, slots'⟩, hcall, rfl⟩ := map_eq_some_iff.1 h
  case allocate layout isUser =>
    obtain ⟨hm, ha⟩ := allocate_moves hs.bounded hcall
    exact hs.of_moves hm (ha hlt hacc)
  case reserveVirtualSpace virtAddr layout =>
    rcases hc with hnone | ⟨hv, hv', h0⟩
    · rw [reserveVirtualSpace, locate_eq_none.2 hnone] at hcall
      cases hcall; exact hs
    have hz : roundUp layout.size = 0 := by rw [h0]; decide
    obtain ⟨hm, havl, hp⟩ := reserveVirtualSpace_moves hs.bounded hv (by rw [hz]; exact hv') hcall
    refine hs.of_moves hm ?_
    rcases hp with ⟨-, rfl⟩ | hp
    · exact hacc
    · rw [hz, Nat.zero_div, Nat.add_zero] at hp
      rw [Accounted] at hacc ⊢
      rw [havl, hp]; exact hacc
  case mapMemory physAddr virtAddr size flags =>
    obtain ⟨hm, l, rfl⟩ := mapMemory_moves hs.bounded hc hcall
    exact hs.of_moves hm hacc
  case unmapMemory virtAddr size isUser =>
    obtain ⟨hm, l, rfl⟩ := unmapMemory_moves hs.bounded hcall
    exact hs.of_moves hm hacc
  case deallocate addr layout =>
    obtain ⟨hm, ha⟩ := deallocate_moves hs.bounded hcall
    exact hs.of_moves hm (ha hlt hacc)

theorem new_ledger (procId : ℕ) : (new procId).Ledger :=
  ⟨new_bounded procId, show (new 0).avlMemory = PAGE_SIZE * pagesIn (new 0).freeBlockList by decide,
    show PAGE_SIZE * (new 0).pages ≤ (new 0).totalMemory by decide, show (new 0).totalMemory < 2 ^ 64 by decide⟩

theorem foldl_pages : ∀ (l : List PageDescriptor) (n : ℕ), PAGE_SIZE * (n + pagesIn l) < 2 ^ 64 →
    l.foldl (fun avl blk => wadd avl (wmul blk.numPages PAGE_SIZE)) (PAGE_SIZE * n) =
      PAGE_SIZE * (n + pagesIn l)
  | [], n, _ => by simp [pagesIn]
  | d :: l, n, h => by
    have hp : pagesIn (d :: l) = d.numPages + pagesIn l := by simp [pagesIn]
    rw [hp, ← Nat.add_assoc] at h ⊢
    have hle : PAGE_SIZE * (n + d.numPages) < 2 ^ 64 :=
      (Nat.mul_le_mul_left _ (Nat.le_add_right _ _)).trans_lt h
    rw [foldl_cons, wadd_pages rfl hle]
    exact foldl_pages l _ h

theorem pagesIn_filter_le (p : PageDescriptor → Bool) (l : List PageDescriptor) : pagesIn (l.filter p) ≤ pagesIn l :=
  (filter_sublist.map _).sum_le_sum (by simp)

theorem clone_ok {parent child parent' : VirtMemConBlk} {slots slots' spaces procId : ℕ}
    (h : parent.clone slots spaces procId = some (.ok child, parent', slots')) : child.totalMemory =
    parent.totalMemory ∧ child.allocBlockList = [] ∧ child.freeBlockList =
    parent.freeBlockList.filter (·.startVirtAddress < KERNEL_HALF_OFFSET) ∧ child.avlMemory =
    child.freeBlockList.foldl (fun avl blk => wadd avl (wmul blk.numPages PAGE_SIZE)) 0 := by
  simp only [clone] at h
  split at h
  · cases h
  simp only [Option.bind_eq_bind, bind_eq_some_iff, Prod.exists] at h
  obtain ⟨reserve, parent₁, slots₁, -, h⟩ := h
  cases reserve with
  | error e => cases h
  | ok pageReserve =>
    simp only [bind_eq_some_iff, Prod.exists] at h
    obtain ⟨parent₂, slots₂, -, h⟩ := h
    split_ifs at h
    · cases h
    · cases h; exact ⟨rfl, rfl, rfl, rfl⟩

/-- The address spaces a run can start from: a new one, or a clone of a kernel one that a run has reached. -/
inductive Start : VirtMemConBlk → Prop
  | new (procId : ℕ) : Start (new procId)
  | clone {calls : List (ℕ × Call)} {parent child parent' : VirtMemConBlk}
      {slots slots' spaces procId : ℕ} :
      Along step (fun _ c => c.2.Fits) (VirtMemConBlk.new 0) calls →
      exec step (VirtMemConBlk.new 0) calls = some parent →
      parent.clone slots spaces procId = some (.ok child, parent', slots') → Start child

theorem Start.ledger (h : Start s) : s.Ledger := by
  cases h with
  | new procId => exact new_ledger procId
  | clone hok hrun hclone =>
    rename_i calls parent parent' slots slots' spaces procId
    have hm := exec_moves (new_bounded 0) hok hrun
    have h₀ := new_ledger 0
    obtain ⟨htotal, halloc, hfree, havl⟩ := clone_ok hclone
    have hle : s.pages ≤ parent.pages := by
      simp only [pages, halloc, hfree]
      exact Nat.add_le_add (pagesIn_filter_le _ _) (Nat.zero_le _)
    have hpages : PAGE_SIZE * s.pages ≤ s.totalMemory := by
      rw [htotal, hm.total]
      exact (Nat.mul_le_mul_left _ (hle.trans_eq hm.pages)).trans h₀.pages_le
    have hlt : s.totalMemory < 2 ^ 64 := by rw [htotal, hm.total]; exact h₀.total_lt
    refine ⟨⟨fun d hd => ?_, fun d hd => ?_⟩, ?_, hpages, hlt⟩
    · rw [hfree] at hd; exact hm.bounded.free d (mem_of_mem_filter hd)
    · rw [halloc] at hd; cases hd
    have hf : PAGE_SIZE * (0 + pagesIn s.freeBlockList) < 2 ^ 64 := by
      rw [Nat.zero_add]
      exact (Nat.mul_le_mul_left _ (Nat.le_add_right _ _)).trans_lt (hpages.trans_lt hlt)
    have hsum := foldl_pages s.freeBlockList 0 hf
    rw [Nat.mul_zero, Nat.zero_add] at hsum
    rw [Accounted, havl]; exact hsum

/-- **The counter of free memory** is the size of the free pages, and at most `total_memory`, in runs of counted
calls. -/
theorem exec_accounted (s₀ : VirtMemConBlk) (calls : List (ℕ × Call)) (s : VirtMemConBlk) (h₀ : Start s₀)
    (hok : Along step (fun u c => c.2.Counted u) s₀ calls) (h : exec step s₀ calls = some s) :
    s.avlMemory = PAGE_SIZE * pagesIn s.freeBlockList ∧ s.avlMemory ≤ s.totalMemory := by
  have hs : s.Ledger := exec_induction (fun _ _ _ hu hc hv => step_ledger hu hc hv) h₀.ledger hok h
  exact ⟨hs.accounted, hs.avl_le⟩

theorem exec_accounted_demo : (exec step (new 0) (demo.drop 1)).isSome = true ∧
    ∀ s, exec step (new 0) (demo.drop 1) = some s →
      s.avlMemory = PAGE_SIZE * pagesIn s.freeBlockList ∧ s.avlMemory ≤ s.totalMemory := by
  refine ⟨by decide, fun s h => exec_accounted _ _ s (.new 0) (.of_forall fun c hc u => ?_) h⟩
  simp only [demo, drop_succ_cons, drop_zero, mem_cons, not_mem_nil, or_false] at hc
  rcases hc with rfl | rfl | rfl | rfl
  · trivial
  · change KERNEL_HALF_OFFSET + roundUp 4096 < 2 ^ 64; decide
  · trivial
  · trivial

/-- A reserved page is still counted, and once it is deallocated the counter exceeds the total. -/
theorem reserve_page_still_counted : (∃ s, exec step (new 0)
    [(9, .reserveVirtualSpace 0x100000 pageLayout)] = some s ∧ s.avlMemory ≠ PAGE_SIZE * pagesIn
    s.freeBlockList) ∧ ∃ s, exec step (new 0) [(9, .reserveVirtualSpace 0x100000 pageLayout),
    (9, .deallocate 0x100000 pageLayout)] = some s ∧ s.totalMemory < s.avlMemory :=
  ⟨⟨_, rfl, by decide⟩, ⟨_, rfl, by decide⟩⟩

end VirtMemConBlk

end Archis.Mem

/-
  The replies of the two allocators, for the callers that expect one: when a call on an address space or on the frame
  allocator returns, and when it succeeds.
-/
import Archis.Mem.Frame
import Archis.Mem.UserRange

namespace Archis.Mem

open Archis.Lib

/-! ## Frames -/

namespace PhyMemConBlk
variable {others : ℕ → ℕ} {s : PhyMemConBlk} {slots : ℕ} {layout : Layout}

/-- **A page can be had** when there are two free ones, and a list node. -/
theorem exists_allocate_page (h : s.Inv others) (hu : s.Unlimited) (hp : 1 < pagesIn s.freeBlockList) (hs : 0 < slots) :
    ∃ addr t slots', s.allocate slots VirtMemConBlk.pageLayout = (.ok addr, t, slots') := by
  obtain ⟨d, hd, hpages⟩ := exists_page (show 0 < pagesIn s.freeBlockList by omega)
  have hone : ceilDiv VirtMemConBlk.pageLayout.size PAGE_SIZE = 1 := by decide
  obtain ⟨i, node, hb⟩ := exists_bestFit hd (hu.fits hpages)
  have hsize : ¬ VirtMemConBlk.pageLayout.size ≥ s.avlMemory := by
    rw [h.accounted]
    simp only [VirtMemConBlk.pageLayout, PAGE_SIZE]
    omega
  simp only [PhyMemConBlk.allocate, if_neg hsize, hone, findBestFit, hb]
  rw [if_neg (by decide)]
  rw [addNode_eq (by split_ifs <;> omega)]
  exact ⟨_, _, _, rfl⟩

/-- The block is the one that the allocator has for the address. -/
def Matches (addr : ℕ) (layout : Layout) (d : PageDescriptor) : Prop :=
  d.startPhyAddress = addr ∧ d.numPages = ceilDiv layout.size PAGE_SIZE

/-- **Deallocating frames** succeeds exactly for an allocated block, and returns in any case. -/
theorem deallocate_cases (s : PhyMemConBlk) (slots : ℕ) (hal : layout.align ≤ PAGE_SIZE) (addr : ℕ) :
    ∃ r t slots', s.deallocate slots addr layout = some (r, t, slots') ∧
      t.hardLimit = s.hardLimit ∧ t.lowerLimit = s.lowerLimit ∧
      (r = .ok () ↔ ∃ d ∈ s.allocBlockList, Matches addr layout d) := by
  simp only [deallocate]
  rw [if_neg (not_lt.2 hal)]
  cases hloc : locate (fun blk => blk.startPhyAddress == addr &&
      blk.numPages == ceilDiv layout.size PAGE_SIZE) s.allocBlockList with
  | none =>
    refine ⟨_, _, _, rfl, rfl, rfl, iff_of_false (by simp) ?_⟩
    rintro ⟨d, hd, h1, h2⟩
    have := locate_eq_none.1 hloc d hd
    simp [h1, h2] at this
  | some q =>
    obtain ⟨i, d⟩ := q
    obtain ⟨hi, hd⟩ := locate_spec hloc
    simp only [Bool.and_eq_true, beq_iff_eq] at hd
    obtain ⟨⟨free, left⟩, hco⟩ := exists_coalesce phyField (fun _ => true) slots.succ_ne_zero s.freeBlockList addr
      (ceilDiv layout.size PAGE_SIZE) (.unmapped (ceilDiv layout.size PAGE_SIZE) addr 0)
    simp only [Nat.succ_eq_add_one] at hco
    dsimp only
    rw [hco]
    exact ⟨_, _, _, rfl, rfl, rfl, iff_of_true rfl ⟨d, List.mem_of_getElem? hi, hd⟩⟩

end PhyMemConBlk

/-! ## Blocks of an address space -/

namespace VirtMemConBlk
variable {s t : VirtMemConBlk} {slots slots' : ℕ} {layout : Layout}
variable {d : PageDescriptor}

theorem range_nonempty (h : 0 < d.numPages) : d.startVirtAddress ∈ range d := by
  refine ⟨le_rfl, ?_⟩
  have : 0 < d.numPages * PAGE_SIZE := Nat.mul_pos h (by decide)
  simp only [AddrField.stop, virtField_get]
  omega

theorem Moves.apart (h : Moves s t) (hc : ∀ x, s.cover x ≤ 1) : Apart t.allocBlockList :=
  pairwise_disjoint_of_cover _ _ fun x => (Nat.le_add_left _ _).trans ((h.cover x).trans_le (hc x))

/-- The block is found, if all that could be found contain a common address. -/
theorem Apart.exists_locate {l : List PageDescriptor} {p : PageDescriptor → Bool} {x : ℕ} (ha : Apart l) (hd : d ∈ l)
    (hp : p d = true) (hx : ∀ e ∈ l, p e = true → x ∈ range e) : ∃ i, l[i]? = some d ∧ locate p l = some (i, d) := by
  obtain ⟨i, e, hloc⟩ := Mem.exists_locate hd hp
  obtain ⟨hi, he⟩ := locate_spec hloc
  have hmem := List.mem_of_getElem? hi
  obtain rfl := ha.eq_of_mem_range hmem hd (hx e hmem he) (hx d hd hp)
  exact ⟨i, hi, hloc⟩

theorem exists_allocate (hs : 0 < slots) (hp : s.procId ≠ 0) :
    ∃ r t slots', s.allocate slots layout true = some (r, t, slots') := by
  have hproc : (s.procId == 0 && true) = false := by simpa using hp
  simp only [allocate, findBestFit]
  split_ifs
  · exact ⟨_, _, _, rfl⟩
  · exact ⟨_, _, _, rfl⟩
  · exact absurd ‹_› (by simp [hproc])
  cases bestFit (fits (ceilDiv layout.size PAGE_SIZE) true) s.freeBlockList with
  | none => exact ⟨_, _, _, rfl⟩
  | some r =>
    dsimp only
    rw [addNode_eq (by split_ifs <;> omega)]
    exact ⟨_, _, _, rfl⟩

/-- **Mapping a reserved block**: the range lies in no other block, and nothing is left over. -/
theorem mapMemory_reserved (slots : ℕ) (hb : s.Bounded) (ha : Apart s.allocBlockList) {n virtAddr phyAddr size : ℕ}
    {flags flags' : UInt8} (hn : 0 < n) (hsize : roundUp size = n * PAGE_SIZE) (hphy : PAGE_SIZE ∣ phyAddr)
    (hkind : s.procId = 0 ↔ flags &&& PageDescriptor.USER = 0) (hmem : ⟨n, 0, virtAddr, flags',
    false⟩ ∈ s.allocBlockList) : ∃ i, s.allocBlockList[i]? = some ⟨n, 0, virtAddr, flags', false⟩ ∧
      s.mapMemory slots phyAddr virtAddr size flags = some (.ok (),
        { s with allocBlockList := s.allocBlockList.eraseIdx i ++ [⟨n, phyAddr, virtAddr, flags, true⟩] },
        slots) := by
  have hk := kernelEnd_lt
  obtain ⟨hal, hst⟩ := hb.alloc _ hmem
  simp only [virtField_get, AddrField.stop] at hal hst
  have hpos : 0 < n * PAGE_SIZE := Nat.mul_pos hn (by decide)
  have hw : virtAddr + roundUp size < 2 ^ 64 := by omega
  -- the block itself is a candidate
  have hself : inBlock virtAddr (roundUp size) ⟨n, 0, virtAddr, flags', false⟩ = true := by
    rw [inBlock, AddrField.wstop_eq (by simp only [AddrField.stop, virtField_get]; omega), wadd_eq hw, hsize]
    simp [AddrField.stop]
  obtain ⟨i, hi, hloc⟩ := Apart.exists_locate (x := virtAddr) (p := fun item =>
    inBlock virtAddr (roundUp size) item && !item.isMapped) ha hmem (by rw [hself]; rfl) fun e he hin => by
      rw [Bool.and_eq_true] at hin
      obtain ⟨h1, h2, -⟩ := inBlock_spec (hb.alloc e he) hin.1 hal (dvd_roundUp size) hw
      exact ⟨h1, by omega⟩
  refine ⟨i, hi, ?_⟩
  have hceil : ceilDiv (n * PAGE_SIZE) PAGE_SIZE = n := by
    have : kernelEnd + PAGE_SIZE ≤ 2 ^ 64 := by decide
    exact ceilDiv_mul (by omega)
  have htop : topOf ⟨n, 0, virtAddr, flags', false⟩ virtAddr = .unmapped 0 0 virtAddr := by
    simp only [topOf, wsub_eq le_rfl (show virtAddr < 2 ^ 64 by omega), Nat.sub_self]
    rfl
  have hbottom : (bottomOf ⟨n, 0, virtAddr, flags', false⟩ virtAddr (n * PAGE_SIZE)).numPages = 0 := by
    have hlen : wsub (wadd virtAddr (n * PAGE_SIZE)) virtAddr = n * PAGE_SIZE := by
      rw [wadd_eq (by omega), wsub_eq (by omega) (by omega), Nat.add_sub_cancel_left]
    simp only [bottomOf, PageDescriptor.unmapped, hlen]
    rw [wmul_eq (by omega), wsub_eq le_rfl (by omega), Nat.sub_self]
    rfl
  simp only [mapMemory]
  rw [if_neg (by simp [Nat.mod_eq_zero_of_dvd hphy, Nat.mod_eq_zero_of_dvd hal]),
    if_neg (by simpa using hkind.1), if_neg (by simpa using fun h => mt hkind.2 h), hloc]
  simp only [cutOut, hsize, hceil, addPart, htop, hbottom, PageDescriptor.unmapped, ne_eq,
    not_true_eq_false, if_false, Option.bind_eq_bind, Option.bind_some, addNode, Option.pure_def]

theorem unmapMemory_of_not_mapped {addr : ℕ} (h : ∀ d ∈ s.allocBlockList, Matches addr layout d → d.isMapped = false) :
    s.unmapMemory slots addr layout.size true = some (.error .invalidArgument, s, slots) := by
  simp only [unmapMemory, layout.ceilDiv_roundUp]
  split_ifs with h1 h2
  · rfl
  · simp at h2
  rw [locate_eq_none.2]
  intro d hd
  by_contra hne
  simp only [Bool.not_eq_false, Bool.and_eq_true, beq_iff_eq] at hne
  exact absurd hne.2 (by simp [h d hd hne.1])

section
variable (slots : ℕ) (ha : Apart s.allocBlockList) (hd : d ∈ s.allocBlockList)
  (hn : d.numPages = ceilDiv layout.size PAGE_SIZE) (hpos : 0 < d.numPages)
include ha hd hn hpos

theorem unmapMemory_of_mapped (hb : s.Bounded) {isUser : Bool} (hkind : s.procId = 0 ∨ isUser = true)
    (hm : d.isMapped = true) : ∃ i, s.allocBlockList[i]? = some d ∧
      s.unmapMemory slots d.startVirtAddress layout.size isUser = some (.ok d.startPhyAddress, { s with
        allocBlockList := s.allocBlockList.set i { d with isMapped := false, startPhyAddress := 0 } },
        slots) := by
  obtain ⟨hal, -⟩ := hb.alloc d hd
  obtain ⟨i, hi, hloc⟩ := Apart.exists_locate (x := d.startVirtAddress) (p := fun item =>
    item.startVirtAddress == d.startVirtAddress && item.numPages == ceilDiv layout.size PAGE_SIZE &&
    item.isMapped) ha hd (by simp [hn, hm]) fun e _ he => by
      simp only [Bool.and_eq_true, beq_iff_eq] at he
      exact he.1.1 ▸ range_nonempty (by rw [he.1.2, ← hn]; exact hpos)
  refine ⟨i, hi, ?_⟩
  simp only [unmapMemory, layout.ceilDiv_roundUp]
  rw [if_neg (by simpa using Nat.mod_eq_zero_of_dvd hal), if_neg (by rcases hkind with h | h <;> simp [h]), hloc]

theorem deallocate_of_unmapped (hal : layout.align ≤ PAGE_SIZE) (hm : d.isMapped = false) :
    ∃ i t slots', s.allocBlockList[i]? = some d ∧
      s.deallocate slots d.startVirtAddress layout = some (.ok (), t, slots') ∧
      t.allocBlockList = s.allocBlockList.eraseIdx i ∧ t.procId = s.procId := by
  obtain ⟨i, hi, hloc⟩ := Apart.exists_locate (x := d.startVirtAddress) (p := fun blk =>
    blk.startVirtAddress == d.startVirtAddress && blk.numPages == ceilDiv layout.size PAGE_SIZE) ha hd
    (by simp [hn]) fun e _ he => by
      simp only [Bool.and_eq_true, beq_iff_eq] at he
      exact he.1 ▸ range_nonempty (by rw [he.2, ← hn]; exact hpos)
  obtain ⟨⟨free, left⟩, hco⟩ := exists_coalesce virtField (· != KERNEL_HALF_OFFSET) slots.succ_ne_zero
    s.freeBlockList d.startVirtAddress (ceilDiv layout.size PAGE_SIZE)
    (.unmapped (ceilDiv layout.size PAGE_SIZE) 0 d.startVirtAddress)
  simp only [deallocate, coalesceBlock]
  rw [if_neg (not_lt.2 hal), hloc]
  simp only [hm, Bool.false_eq_true, if_false, Nat.succ_eq_add_one] at hco ⊢
  rw [hco]
  exact ⟨i, _, _, hi, rfl, rfl, rfl⟩

end

end VirtMemConBlk

end Archis.Mem

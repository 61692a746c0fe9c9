/-
  Mapping a part of an allocation, and undoing it.

  `map_memory` cuts the block of the allocation in up to three, and `unmap_memory` does not put them together again: the
  allocation can be freed only if all of it was mapped (`undoes_iff`).
-/
import Archis.Mem.Replies
import Archis.Mem.Syscalls

namespace Archis.Mem.VirtMemConBlk

open Archis.Lib
open Process (getPhysAddress)

/-- A part of the allocation at `addr`, of the size of `sub`, is mapped and unmapped and the allocation freed: all
calls succeed, the part is translated in between, and the free space is that of `s` again. -/
def Undoes (s t : VirtMemConBlk) (slots addr phys virt : ℕ) (layout sub : Layout) (flags : UInt8) (isUser : Bool) :
    Prop :=
  ∃ u v w n₁ n₂ n₃ p, t.mapMemory slots phys virt sub.size flags = some (.ok (), u, n₁) ∧
    (∀ k < sub.size, getPhysAddress u.allocBlockList (virt + k) = some (phys + k)) ∧
    u.unmapMemory n₁ virt sub.size isUser = some (.ok p, v, n₂) ∧
    v.deallocate n₂ addr layout = some (.ok (), w, n₃) ∧
    ∀ x, virtField.cover w.freeBlockList x = virtField.cover s.freeBlockList x

section
variable {s t : VirtMemConBlk} {slots slots' addr phys virt : ℕ} {layout sub : Layout} {flags : UInt8} {isUser : Bool}

theorem align_le (h : s.allocate slots layout isUser = some (.ok addr, t, slots')) : layout.align ≤ PAGE_SIZE := by
  by_contra hno
  unfold allocate at h
  rw [if_pos (not_le.1 hno)] at h
  split at h <;> cases h

theorem getPhysAddress_of_mapped {l : List PageDescriptor} {d : PageDescriptor} {k : ℕ}
    (hb : virtField.Bounded kernelEnd l) (ha : Apart l) (hd : d ∈ l) (hm : d.isMapped = true)
    (hk : d.startVirtAddress + k ∈ range d) (hphys : d.startPhyAddress + k < 2 ^ 64) :
    getPhysAddress l (d.startVirtAddress + k) = some (d.startPhyAddress + k) := by
  have hstop : ∀ e ∈ l, virtField.wstop e = virtField.stop e := fun e he =>
    AddrField.wstop_eq ((hb e he).2.trans_lt kernelEnd_lt)
  have hlt := (hb d hd).2.trans_lt kernelEnd_lt
  unfold getPhysAddress
  cases hf : l.find? fun blk => blk.startVirtAddress ≤ d.startVirtAddress + k &&
      virtField.wstop blk > d.startVirtAddress + k && blk.isMapped with
  | none =>
    refine absurd (List.find?_eq_none.1 hf d hd) ?_
    simpa [hm, hstop d hd] using hk.2
  | some e =>
    have he := List.mem_of_find?_eq_some hf
    have hin := List.find?_some hf
    simp only [hstop e he, Bool.and_eq_true, decide_eq_true_eq] at hin
    obtain rfl := ha.eq_of_mem_range he hd ⟨hin.1.1, hin.1.2⟩ hk
    have := hk.2
    simp only [Option.map_some, wsub, wadd, AddrField.stop, virtField_get] at *
    congr 1
    omega

/-- **Unmapping undoes mapping** exactly if the whole allocation was mapped. -/
theorem undoes_iff (hb : s.Bounded) (hc : ∀ x, s.cover x ≤ 1)
    (halloc : s.allocate slots layout isUser = some (.ok addr, t, slots')) (hkind : s.procId = 0 ↔ isUser = false)
    (hflags : flags &&& PageDescriptor.USER = 0 ↔ isUser = false) (hpos : 0 < sub.size) (hvirt : PAGE_SIZE ∣ virt)
    (hlo : addr ≤ virt) (hhi : virt + ceilDiv sub.size PAGE_SIZE * PAGE_SIZE ≤
      addr + ceilDiv layout.size PAGE_SIZE * PAGE_SIZE) (hphys : PAGE_SIZE ∣ phys) (hend : phys + sub.size ≤ 2 ^ 64) :
    Undoes s t slots' addr phys virt layout sub flags isUser ↔
      virt = addr ∧ ceilDiv sub.size PAGE_SIZE = ceilDiv layout.size PAGE_SIZE := by
  have hal := align_le halloc
  have hmt := (allocate_moves hb halloc).1
  rcases allocate_cases halloc with ⟨e, he, -⟩ | ⟨i, node, hbest, -, haddr, ht⟩
  · cases he
  cases haddr
  obtain ⟨hi, hle⟩ := le_of_fits hbest
  have hnode := hb.free node (List.mem_of_getElem? hi)
  have hcarve := (carve_spec kernelEnd_lt hb.free hi hle).1
  have hkind' : t.procId = 0 ↔ flags &&& PageDescriptor.USER = 0 := by rw [ht, takePages, hflags]; exact hkind
  have huser : t.procId = 0 ∨ isUser = true := by
    have := hkind'.trans hflags
    cases isUser <;> simp_all
  have hn := sub.pages_pos hpos
  have hsub := sub.roundUp_size
  have hstop : node.startVirtAddress + ceilDiv layout.size PAGE_SIZE * PAGE_SIZE ≤ kernelEnd :=
    le_trans (Nat.add_le_add_left (Nat.mul_le_mul_right _ hle) _) hnode.2
  have hround : virt + roundUp sub.size < 2 ^ 64 := by
    rw [hsub]; exact (hhi.trans hstop).trans_lt kernelEnd_lt
  constructor
  · rintro ⟨u, v, w, n₁, n₂, n₃, p, hmap, -, hunmap, hde, -⟩
    obtain ⟨hmu, l, rfl⟩ := mapMemory_moves hmt.bounded hround hmap
    have hv := ((hmt.trans hmu).trans (unmapMemory_moves hmu.bounded hunmap).1).apart hc
    rcases deallocate_cases hde with ⟨e, he, -⟩ | ⟨-, j, blk, -, hj, ⟨hstart, hpages⟩, -⟩
    · cases he
    rcases unmapMemory_cases hunmap with ⟨-, ⟨e, he⟩ | ⟨hp, hu⟩⟩ | ⟨k, desc, hk, ⟨rfl, hdesc⟩, rfl⟩
    · cases he
    · exact absurd (hkind'.2 (hflags.2 hu)) hp
    -- the unmapped block and the freed one have an address in common
    rw [sub.ceilDiv_roundUp] at hdesc
    have hmem := List.mem_set (List.getElem?_eq_some_iff.1 hk).1 { desc with isMapped := false, startPhyAddress := 0 }
    obtain rfl := hv.eq_of_mem_range hmem (List.mem_of_getElem? hj) (range_nonempty (hdesc ▸ hn))
      ⟨hstart.trans_le hlo, by
        have := Nat.mul_pos hn (show 0 < PAGE_SIZE by decide)
        rw [AddrField.stop, virtField_get, hstart, hpages]
        change desc.startVirtAddress < _
        omega⟩
    exact ⟨hstart, hdesc.symm.trans hpages⟩
  · rintro ⟨rfl, heq⟩
    rw [heq] at hn hsub
    have hmem : ⟨ceilDiv layout.size PAGE_SIZE, 0, node.startVirtAddress, if isUser then PageDescriptor.USER else 0,
        false⟩ ∈ t.allocBlockList := by
      rw [ht, takePages]; exact List.mem_append_right _ (List.mem_singleton_self _)
    obtain ⟨j, -, hmap⟩ := mapMemory_reserved slots' hmt.bounded (hmt.apart hc) hn hsub hphys hkind' hmem
    have hmu := (mapMemory_moves hmt.bounded hround hmap).1
    have hau := (hmt.trans hmu).apart hc
    have hmem' := List.mem_append_right (t.allocBlockList.eraseIdx j) (List.mem_singleton_self
      (⟨ceilDiv layout.size PAGE_SIZE, phys, node.startVirtAddress, flags, true⟩ : PageDescriptor))
    obtain ⟨k, hk, hunmap⟩ := unmapMemory_of_mapped slots' hau hmem' heq.symm hn hmu.bounded huser rfl
    have hmv := (unmapMemory_moves hmu.bounded hunmap).1
    obtain ⟨m, w, slots'', -, hde, -⟩ := deallocate_of_unmapped slots' ((hmt.trans hmu).trans hmv |>.apart hc)
      (List.mem_set (List.getElem?_eq_some_iff.1 hk).1 _) rfl hn hal rfl
    refine ⟨_, _, w, _, _, _, _, hmap, fun k hk => ?_, hunmap, hde, fun x => ?_⟩
    · have hsize := sub.size_le
      simp only [isizeMax] at hsize
      have hlt := hk.trans_le (le_roundUp (by simp only [PAGE_SIZE]; omega)).1
      rw [hsub] at hlt
      exact getPhysAddress_of_mapped hmu.bounded.alloc hau hmem' rfl ⟨Nat.le_add_right _ _, Nat.add_lt_add_left hlt _⟩
        (by dsimp only; omega)
    · rcases deallocate_cases hde with ⟨e, he, -⟩ | ⟨-, -, -, free, -, -, hco, rfl⟩
      · cases he
      have hfree := (coalesce_spec hco kernelEnd_lt hmv.bounded.free hnode.1 hstop rfl rfl).1 x
      rw [ht, takePages] at hfree
      exact hfree.trans (hcarve x)

end

def twoPages : Layout := ⟨2 * PAGE_SIZE, PAGE_SIZE, by decide⟩

/-- Both pages of an allocation in the kernel's address space are mapped and unmapped. -/
theorem twoPages_undoes : ∃ t, (new 0).allocate 8 twoPages false = some (.ok KERNEL_HALF_OFFSET, t, 7) ∧
    Undoes (new 0) t 7 KERNEL_HALF_OFFSET 0x5000 KERNEL_HALF_OFFSET twoPages twoPages 0 false := by
  obtain ⟨t, ht⟩ : ∃ t, (new 0).allocate 8 twoPages false = some (.ok KERNEL_HALF_OFFSET, t, 7) := ⟨_, rfl⟩
  refine ⟨t, ht, (undoes_iff (new_bounded 0) (fun x => ?_) ht ?_ ?_ ?_ ?_ le_rfl le_rfl ?_ ?_).2 ⟨rfl, rfl⟩⟩
  · rw [new_cover]; exact cover₀_le_one x
  all_goals decide

/-- **The first of two pages** is mapped and unmapped: the allocation is a block of each page then, and `deallocate` finds
no block of two. -/
theorem firstPage_keeps : ∃ t u v, (new 0).allocate 8 twoPages false = some (.ok KERNEL_HALF_OFFSET, t, 7) ∧
    t.mapMemory 7 0x5000 KERNEL_HALF_OFFSET PAGE_SIZE 0 = some (.ok (), u, 6) ∧
    u.unmapMemory 6 KERNEL_HALF_OFFSET PAGE_SIZE false = some (.ok 0x5000, v, 6) ∧
    v.deallocate 6 KERNEL_HALF_OFFSET twoPages = some (.error .invalidArgument, v, 6) :=
  ⟨_, _, _, rfl, rfl, rfl, rfl⟩

end Archis.Mem.VirtMemConBlk

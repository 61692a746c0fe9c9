/-
  Runs of the memory system calls.

  With frames and list nodes for the missing page tables an allocation is mapped (`Inv.allocateMemory`), and a
  deallocation succeeds exactly for what the process owns (`Inv.deallocateMemory`); but then it panics, because the list
  of ranges asks for the physical address of memory that is no longer mapped.  `exec_isSome` is about whole runs.
-/
import Archis.Mem.Syscalls
import Archis.Mem.Replies

namespace Archis.Mem

open Archis.Lib
open VirtMemConBlk (Matches Moves allocate_moves apart_room_of_cover deallocate_moves kernelEnd kernelEnd_lt pageLayout
  range range_nonempty takePages userRange)
open List hiding set

namespace Process
variable {others : ℕ → ℕ} {p q : Process} {layout : Layout}

/-! ## Page tables -/

def rangeTables (va n : ℕ) : Finset (ℕ × ℕ) :=
  (Finset.range n).biUnion fun i => (tablesOf (va + i * PAGE_SIZE)).toFinset

def maxTables (n : ℕ) : ℕ := n / 2 ^ 27 + n / 2 ^ 18 + n / 2 ^ 9 + 6

theorem card_Icc_div_le (va m k : ℕ) : (Finset.Icc (va / 2 ^ k) ((va + m) / 2 ^ k)).card ≤ m / 2 ^ k + 2 := by
  have hdiv : (va + m) / 2 ^ k ≤ va / 2 ^ k + m / 2 ^ k + 1 := by
    rw [Nat.add_div (Nat.two_pow_pos k)]
    split_ifs <;> simp
  rw [Nat.card_Icc]
  generalize (va + m) / 2 ^ k = x, va / 2 ^ k = y, m / 2 ^ k = z at *
  omega

def levelTables (va n k : ℕ) : Finset (ℕ × ℕ) :=
  (Finset.Icc (va / 2 ^ k) ((va + n * PAGE_SIZE) / 2 ^ k)).map ⟨(k, ·), Prod.mk_right_injective k⟩

theorem rangeTables_subset (va n : ℕ) :
    rangeTables va n ⊆ levelTables va n 39 ∪ (levelTables va n 30 ∪ levelTables va n 21) := by
  intro t ht
  obtain ⟨i, hi, ht⟩ := Finset.mem_biUnion.1 ht
  have hmem : ∀ k, (k, (va + i * PAGE_SIZE) / 2 ^ k) ∈ levelTables va n k := by
    intro k
    refine Finset.mem_map.2 ⟨_, Finset.mem_Icc.2 ⟨?_, ?_⟩, rfl⟩
    · exact Nat.div_le_div_right (Nat.le_add_right _ _)
    · exact Nat.div_le_div_right (Nat.add_le_add_left (Nat.mul_le_mul_right _ (Finset.mem_range.1 hi).le) _)
  simp only [tablesOf, mem_toFinset, mem_cons, not_mem_nil, or_false] at ht
  rw [Finset.mem_union, Finset.mem_union]
  rcases ht with rfl | rfl | rfl
  · exact .inl (hmem 39)
  · exact .inr (.inl (hmem 30))
  · exact .inr (.inr (hmem 21))

theorem card_rangeTables_le (va n : ℕ) : (rangeTables va n).card ≤ maxTables n := by
  have hlevel : ∀ k, (levelTables va n k).card ≤ n * PAGE_SIZE / 2 ^ k + 2 := fun k => by
    rw [levelTables, Finset.card_map]
    exact card_Icc_div_le va (n * PAGE_SIZE) k
  have h1 := hlevel 39
  have h2 := hlevel 30
  have h3 := hlevel 21
  have h4 := Finset.card_union_le (levelTables va n 39) (levelTables va n 30 ∪ levelTables va n 21)
  have h5 := Finset.card_union_le (levelTables va n 30) (levelTables va n 21)
  have h6 := Finset.card_le_card (rangeTables_subset va n)
  simp only [PAGE_SIZE] at h1 h2 h3
  unfold maxTables
  omega

/-- Frames and nodes for all of the tables that are missing. -/
structure Supply (others : ℕ → ℕ) (tables : Finset (ℕ × ℕ)) (p : Process) : Prop where
  inv : p.frames.Inv others
  unlimited : p.frames.Unlimited
  free : (tables \ p.tables.toFinset).card < pagesIn p.frames.freeBlockList
  nodes : (tables \ p.tables.toFinset).card ≤ p.slots

/-- What allocating page tables does not change. -/
structure SameMemory (p q : Process) : Prop where
  vcb : q.vcb = p.vcb
  memoryList : q.memoryList = p.memoryList
  alloc : ∀ d ∈ p.frames.allocBlockList, d ∈ q.frames.allocBlockList

theorem SameMemory.refl (p : Process) : SameMemory p p := ⟨rfl, rfl, fun _ h => h⟩

theorem SameMemory.trans {r : Process} (h : SameMemory p q) (h' : SameMemory q r) : SameMemory p r :=
  ⟨h'.vcb.trans h.vcb, h'.memoryList.trans h.memoryList, fun d hd => h'.alloc d (h.alloc d hd)⟩

variable {tables : Finset (ℕ × ℕ)} {addr : ℕ} {l : List PageDescriptor}

theorem Supply.getOrAllocTable (h : Supply others tables p) {t : ℕ × ℕ} (ht : t ∈ tables) : ∃ q,
    p.getOrAllocTable t = some q ∧ Supply others tables q ∧ SameMemory p q := by
  unfold Process.getOrAllocTable
  by_cases hmem : t ∈ p.tables
  · exact ⟨p, if_pos hmem, h, .refl p⟩
  rw [if_neg hmem]
  -- the table is among the missing ones
  have hmiss : t ∈ tables \ p.tables.toFinset := Finset.mem_sdiff.2 ⟨ht, by simpa using hmem⟩
  have hpos : 0 < (tables \ p.tables.toFinset).card := Finset.card_pos.2 ⟨t, hmiss⟩
  have hfree := h.free
  have hnodes := h.nodes
  obtain ⟨addr, frames, slots, hok⟩ :=
    PhyMemConBlk.exists_allocate_page h.inv h.unlimited (show 1 < _ by omega) (show 0 < p.slots by omega)
  rw [hok]
  obtain ⟨-, hinv, -, halloc⟩ := PhyMemConBlk.allocate_ok h.inv hok
  obtain ⟨hpages, hslots⟩ := PhyMemConBlk.allocate_ok_pages h.inv hok
  rw [show ceilDiv pageLayout.size PAGE_SIZE = 1 by decide] at hpages
  have hcard : (tables \ (t :: p.tables).toFinset).card + 1 = (tables \ p.tables.toFinset).card := by
    rw [toFinset_cons, Finset.sdiff_insert, Finset.card_erase_add_one hmiss]
  refine ⟨_, rfl, ⟨hinv, h.unlimited.allocate hok, ?_, ?_⟩, rfl, rfl, fun d hd => ?_⟩
  · change (tables \ (t :: p.tables).toFinset).card < pagesIn frames.freeBlockList
    omega
  · change (tables \ (t :: p.tables).toFinset).card ≤ slots
    omega
  · rw [halloc]; exact mem_append_left _ hd

theorem Supply.foldlM : ∀ (ts : List (ℕ × ℕ)) (p : Process), Supply others tables p → (∀ t ∈ ts, t ∈ tables) →
      ∃ q, ts.foldlM Process.getOrAllocTable p = some q ∧ Supply others tables q ∧ SameMemory p q
  | [], p, h, _ => ⟨p, rfl, h, .refl p⟩
  | t :: ts, p, h, hts => by
    obtain ⟨p₁, h₁, hs₁, hm₁⟩ := h.getOrAllocTable (hts t (.head _))
    obtain ⟨q, hq, hs, hm⟩ := Supply.foldlM ts p₁ hs₁ fun t ht => hts t (.tail _ ht)
    exact ⟨q, by rw [foldlM_cons, h₁]; exact hq, hs, hm₁.trans hm⟩

/-- The tables that the loop of `map_memory` asks for, in its order. -/
def tableList (va : ℕ) : ℕ → List (ℕ × ℕ)
  | 0 => []
  | n + 1 => tablesOf va ++ tableList (wadd va PAGE_SIZE) n

theorem mapPages_eq_foldlM : ∀ (n : ℕ) (p : Process) (va : ℕ),
    p.mapPages va n = (tableList va n).foldlM getOrAllocTable p
  | 0, _, _ => rfl
  | n + 1, p, va => by
    rw [mapPages, tableList, foldlM_append]
    exact congrArg _ (funext fun q => mapPages_eq_foldlM n q _)

theorem rangeTables_succ (va n : ℕ) :
    rangeTables va (n + 1) = (tablesOf va).toFinset ∪ rangeTables (va + PAGE_SIZE) n := by
  have hstep : ∀ i, va + (i + 1) * PAGE_SIZE = va + PAGE_SIZE + i * PAGE_SIZE := fun i => by ring
  ext t
  simp only [rangeTables, Finset.mem_biUnion, Finset.mem_union, Finset.mem_range]
  constructor
  · rintro ⟨i, hi, ht⟩
    cases i with
    | zero => exact .inl (by simpa using ht)
    | succ i => exact .inr ⟨i, by omega, by rwa [← hstep i]⟩
  · rintro (ht | ⟨i, hi, ht⟩)
    · exact ⟨0, by omega, by simpa using ht⟩
    · exact ⟨i + 1, by omega, by rwa [hstep i]⟩

theorem tableList_toFinset : ∀ (n va : ℕ), va + n * PAGE_SIZE < 2 ^ 64 → (tableList va n).toFinset = rangeTables va n
  | 0, _, _ => rfl
  | n + 1, va, h => by
    rw [Nat.succ_mul] at h
    have hnext : wadd va PAGE_SIZE = va + PAGE_SIZE := wadd_eq (by omega)
    rw [tableList, toFinset_append, hnext, tableList_toFinset n _ (by omega), rangeTables_succ]

/-- **Mapping a range** needs nothing but its tables. -/
theorem Supply.mapPages {n va : ℕ} (h : Supply others (rangeTables va n) p) (hva : va + n * PAGE_SIZE < 2 ^ 64) :
    ∃ q, p.mapPages va n = some q ∧ Supply others (rangeTables va n) q ∧ SameMemory p q := by
  rw [mapPages_eq_foldlM]
  refine Supply.foldlM _ p h fun t ht => ?_
  rwa [← tableList_toFinset n va hva, mem_toFinset]

/-! ## The invariant -/

/-- The blocks of the address space are disjoint user memory, and the frame allocator is in order. -/
structure Inv (others : ℕ → ℕ) (p : Process) : Prop where
  bounded : p.vcb.Bounded
  cover_le : ∀ x, p.vcb.cover x ≤ 1
  user : ∀ x, 0 < p.vcb.cover x → x ∈ userRange
  procId : p.vcb.procId ≠ 0
  frames : p.frames.Inv others
  unlimited : p.frames.Unlimited

theorem Inv.apart (h : p.Inv others) : Apart p.vcb.allocBlockList :=
  (apart_room_of_cover h.bounded h.cover_le h.user).1

theorem Inv.room (h : p.Inv others) : Room p.vcb.allocBlockList :=
  (apart_room_of_cover h.bounded h.cover_le h.user).2

theorem Inv.of_moves (h : p.Inv others) (hm : Moves p.vcb q.vcb)
    (hp : q.vcb.procId = p.vcb.procId) (hf : q.frames.Inv others) (hu : q.frames.Unlimited) :
    q.Inv others :=
  ⟨hm.bounded, fun x => hm.cover x ▸ h.cover_le x, fun x => hm.cover x ▸ h.user x, hp ▸ h.procId, hf, hu⟩

theorem Inv.congr (h : p.Inv others) (hv : q.vcb = p.vcb) (hf : q.frames.Inv others)
    (hu : q.frames.Unlimited) : q.Inv others :=
  ⟨hv ▸ h.bounded, hv ▸ h.cover_le, hv ▸ h.user, hv ▸ h.procId, hf, hu⟩

/-! ## Allocation -/

/-- The frames are too few for the request, or enough for it and its page tables, each with a list node. -/
def Supplied (p : Process) (layout : Layout) : Prop :=
  let n := ceilDiv layout.size PAGE_SIZE
  2 ≤ p.slots ∧ (p.frames.avlMemory ≤ layout.size ∨
    2 + maxTables n ≤ p.slots ∧ n + maxTables n < pagesIn p.frames.freeBlockList)

/-- The process has the memory at the address, mapped to frames that are allocated for it. -/
def Owns (p : Process) (virtAddr : ℕ) (layout : Layout) : Prop :=
  ∃ d ∈ p.vcb.allocBlockList, Matches virtAddr layout d ∧ d.isMapped = true ∧
    ∃ b ∈ p.frames.allocBlockList, PhyMemConBlk.Matches d.startPhyAddress layout b

theorem frames_allocate_eq_error {f : PhyMemConBlk} {slots : ℕ} (h : f.avlMemory ≤ layout.size) :
    f.allocate slots layout = (.error .outOfMemory, f, slots) := if_pos h

structure Reserved (p : Process) (layout : Layout) (virtAddr : ℕ) (vcb : VirtMemConBlk) (slots : ℕ) :
    Prop where
  moves : Moves p.vcb vcb
  procId : vcb.procId = p.vcb.procId
  slots_le : p.slots ≤ slots + 1
  alloc : vcb.allocBlockList = p.vcb.allocBlockList ++
    [⟨ceilDiv layout.size PAGE_SIZE, 0, virtAddr, PageDescriptor.USER, false⟩]

theorem Inv.map (h : p.Inv others) (hn : 0 < ceilDiv layout.size PAGE_SIZE)
    (hsupply : p.frames.avlMemory ≤ layout.size ∨
      2 + maxTables (ceilDiv layout.size PAGE_SIZE) ≤ p.slots ∧
        ceilDiv layout.size PAGE_SIZE + maxTables (ceilDiv layout.size PAGE_SIZE) <
          pagesIn p.frames.freeBlockList)
    {virtAddr phyAddr slots slots' : ℕ} {vcb : VirtMemConBlk} {frames : PhyMemConBlk}
    (hr : p.Reserved layout virtAddr vcb slots)
    (hfa : p.frames.allocate slots layout = (.ok phyAddr, frames, slots')) :
    ∃ vcb' q, vcb.mapMemory slots' phyAddr virtAddr layout.size userFlags = some (.ok (), vcb', slots') ∧
      { p with vcb := vcb', frames, slots := slots' }.pageMap virtAddr layout.size = some q ∧
      q.Inv others ∧ q.Owns virtAddr layout ∧
        ∀ d ∈ p.vcb.allocBlockList, d.isMapped = true → d ∈ q.vcb.allocBlockList := by
  set n := ceilDiv layout.size PAGE_SIZE with hndef
  -- the frames were there, so they are enough
  obtain ⟨hslots, hfree⟩ : 2 + maxTables n ≤ p.slots ∧ n + maxTables n < pagesIn p.frames.freeBlockList := by
    rcases hsupply with hlow | hsupply
    · rw [frames_allocate_eq_error hlow] at hfa
      cases hfa
    · exact hsupply
  obtain ⟨hgrants, hfinv, -, hfalloc⟩ := PhyMemConBlk.allocate_ok h.frames hfa
  obtain ⟨hpages, hnodes⟩ := PhyMemConBlk.allocate_ok_pages h.frames hfa
  have hu := h.unlimited.allocate hfa
  have hvcb : Inv others { p with vcb, frames, slots := slots' } :=
    h.of_moves hr.moves hr.procId hfinv hu
  have hmem : (⟨n, 0, virtAddr, PageDescriptor.USER, false⟩ : PageDescriptor) ∈ vcb.allocBlockList := by
    rw [hr.alloc]; exact mem_append_right _ (mem_singleton_self _)
  obtain ⟨i, hi, hmap⟩ := VirtMemConBlk.mapMemory_reserved slots' hvcb.bounded hvcb.apart hn layout.roundUp_size
    hgrants.aligned ⟨fun h => absurd h hvcb.procId, fun h => absurd h (show userFlags &&& _ ≠ 0 by decide)⟩ hmem
  have hlast := (hvcb.bounded.alloc _ hmem).2
  have hk := kernelEnd_lt
  change virtAddr + n * PAGE_SIZE ≤ kernelEnd at hlast
  have hw : virtAddr + roundUp layout.size < 2 ^ 64 := by rw [layout.roundUp_size, ← hndef]; omega
  have hmoves := (VirtMemConBlk.mapMemory_moves hvcb.bounded hw hmap).1
  set vcb' : VirtMemConBlk := { vcb with allocBlockList := vcb.allocBlockList.eraseIdx i ++
    [⟨n, phyAddr, virtAddr, userFlags, true⟩] } with hvcb'
  have hinv : Inv others { p with vcb := vcb', frames, slots := slots' } :=
    hvcb.of_moves hmoves rfl hfinv hu
  -- the page tables
  have hcard := (Finset.card_le_card (Finset.sdiff_subset (s := rangeTables virtAddr n)
    (t := p.tables.toFinset))).trans (card_rangeTables_le virtAddr n)
  have hnodes' := hr.slots_le
  have hsup : Supply others (rangeTables virtAddr n) { p with vcb := vcb', frames, slots := slots' } :=
    ⟨hfinv, hu, hcard.trans_lt (by change _ < pagesIn frames.freeBlockList; omega),
      hcard.trans (by change _ ≤ slots'; omega)⟩
  obtain ⟨q, hq, hsup', hsame⟩ := hsup.mapPages (by omega)
  refine ⟨vcb', q, hmap, ?_, hinv.congr hsame.vcb hsup'.inv hsup'.unlimited, ?_, fun d hd hm => ?_⟩
  · rw [pageMap, layout.ceilDiv_roundUp, if_neg hn.ne']
    exact hq
  · refine ⟨⟨n, phyAddr, virtAddr, userFlags, true⟩, ?_, ⟨rfl, rfl⟩, rfl,
      .unmapped n phyAddr 0, hsame.alloc _ ?_, rfl, rfl⟩
    · rw [hsame.vcb]; exact mem_append_right _ (mem_singleton_self _)
    · change _ ∈ frames.allocBlockList
      rw [hfalloc]; exact mem_append_right _ (mem_singleton_self _)
  · -- the block that is replaced was not mapped
    rw [hsame.vcb]
    have hd' : d ∈ vcb.allocBlockList := by rw [hr.alloc]; exact mem_append_left _ hd
    obtain ⟨j, hj⟩ := mem_iff_getElem?.1 hd'
    refine mem_append_left _ (mem_eraseIdx_iff_getElem?.2 ⟨j, ?_, hj⟩)
    rintro rfl
    rw [hi] at hj
    cases hj
    cases hm

theorem Inv.allocateMemory (h : p.Inv others) (hpos : 0 < layout.size) (hs : p.Supplied layout) :
    ∃ r q, p.allocateMemory layout = some (r, q) ∧ q.Inv others ∧
      ∀ virtAddr, r = .ok virtAddr → q.Owns virtAddr layout ∧
        ∀ d ∈ p.vcb.allocBlockList, d.isMapped = true → d ∈ q.vcb.allocBlockList := by
  obtain ⟨hslots, hsupply⟩ := hs
  have hn := layout.pages_pos hpos
  obtain ⟨r, vcb, slots, hva⟩ : ∃ r vcb slots, p.vcb.allocate p.slots layout true = some (r, vcb, slots) :=
    VirtMemConBlk.exists_allocate (by omega) h.procId
  have hmoves := (allocate_moves h.bounded hva).1
  unfold Process.allocateMemory
  rw [hva]
  rcases VirtMemConBlk.allocate_cases hva with ⟨e, rfl, rfl, rfl⟩ | ⟨i, node, -, hle, rfl, ht⟩
  · exact ⟨_, _, rfl, h, fun _ h => by cases h⟩
  dsimp only
  have hr : p.Reserved layout node.startVirtAddress vcb slots :=
    ⟨hmoves, by rw [ht, takePages], hle, by rw [ht, takePages, if_pos rfl]⟩
  have hinv : ∀ f, f.Inv others → f.Unlimited → ∀ n, Inv others { p with vcb, frames := f, slots := n } :=
    fun f hf hu n => h.of_moves hmoves hr.procId hf hu
  cases hfa : p.frames.allocate slots layout with
  | mk r rest =>
    obtain ⟨frames, slots'⟩ := rest
    have hu := h.unlimited.allocate hfa
    cases r with
    | error e =>
      have hnode : p.frames.NodeFor slots layout := .inr (.inr (.inl (by omega)))
      exact ⟨_, _, rfl, hinv _ (PhyMemConBlk.allocate_error h.frames hnode hfa).1 hu _, fun _ h => by cases h⟩
    | ok phyAddr =>
      obtain ⟨vcb', q, hmap, hq, hqinv, howns, hkeep⟩ :=
        h.map hn hsupply hr hfa
      dsimp only
      rw [hmap]
      dsimp only
      rw [hq]
      exact ⟨_, q, rfl, hqinv, fun _ h => by cases h; exact ⟨howns, hkeep⟩⟩

/-! ## Copying the result -/

theorem inUserMemory_eq_true {len : ℕ}
    (h : ∀ x, addr ≤ x → x < addr + len → InUser l x) : inUserMemory l addr len = true := by
  simp only [inUserMemory, all_eq_true, any_eq_true, mem_range, Bool.and_eq_true, decide_eq_true_eq]
  intro i hi
  obtain ⟨d, hd, hu, h1, h2⟩ := h (addr + i) (by omega) (by omega)
  exact ⟨d, hd, ⟨hu, h1⟩, h2⟩

theorem Inv.exact_of_page (h : p.Inv others) (hw : addr + 8 < 2 ^ 64)
    (hpage : addr % PAGE_SIZE + 8 ≤ PAGE_SIZE) : Exact p.vcb.allocBlockList addr 8 := by
  refine (exact_iff h.apart h.room (by omega) (by decide) (by decide)).2 ⟨hw, ?_⟩
  by_cases hu : InUser p.vcb.allocBlockList addr
  · left
    obtain ⟨d, hd, hm, h1, h2⟩ := hu
    obtain ⟨k, hk⟩ := (h.bounded.alloc d hd).1
    simp only [virtField_get] at hk h1
    intro x hx hx'
    refine ⟨d, hd, hm, h1.trans hx, ?_⟩
    simp only [AddrField.stop, virtField_get, hk, PAGE_SIZE] at h1 h2 hpage ⊢
    omega
  · exact .inr ⟨addr, .refl, by omega, hu⟩

theorem Inv.copyWord (h : p.Inv others) (hw : addr + 8 < 2 ^ 64) (hc : Covered p.vcb.allocBlockList
    addr 8 ∨ addr % PAGE_SIZE + 8 ≤ PAGE_SIZE) : ∃ b, p.copyWord addr = some b := by
  have hexact : Exact p.vcb.allocBlockList addr 8 := by
    rcases hc with hc | hc
    · exact (exact_iff h.apart h.room (by omega) (by decide) (by decide)).2 ⟨hw, .inl hc⟩
    · exact h.exact_of_page hw hc
  have hsafe := copySafe_of_exact (by decide) hexact
  obtain ⟨b, hb, -⟩ := checkLoop_spec h.room h.apart (wadd addr 8) (2 ^ 64) addr (by rw [wadd_eq hw]; omega)
  have hcheck : checkUserRangeLocked p.vcb.allocBlockList addr 8 (2 ^ 64) = some b := hb
  unfold Process.copyWord
  cases b with
  | false =>
    have hcopy : copyToUser p.vcb.allocBlockList addr 8 (2 ^ 64) = some (.error .invalidArgument) := by
      rw [copyToUser, copyUser, if_neg (by decide), hcheck]; rfl
    exact ⟨false, by rw [hcopy]⟩
  | true =>
    have hcopy : copyToUser p.vcb.allocBlockList addr 8 (2 ^ 64) = some (.ok (addr, 8)) := by
      rw [copyToUser, copyUser, if_neg (by decide), hcheck]; rfl
    exact ⟨true, by simp only [hcopy, inUserMemory_eq_true (hsafe _ _ _ (.inr hcopy)), if_true]⟩

/-! ## Deallocation -/

theorem getPhysAddress_eq_none (h : ∀ d ∈ l, addr ∉ range d) : getPhysAddress l addr = none := by
  rw [getPhysAddress, Option.map_eq_none_iff, find?_eq_none]
  intro d hd hfind
  simp only [Bool.and_eq_true, decide_eq_true_eq] at hfind
  refine h d hd ⟨hfind.1.1, hfind.1.2.trans_le ?_⟩
  exact (Nat.mod_le _ _).trans (Nat.add_le_add_left (Nat.mod_le _ _) _)

theorem deallocateMemory_of_not_mapped (h : ∀ d ∈ p.vcb.allocBlockList, Matches addr layout d → d.isMapped = false) :
    p.deallocateMemory addr layout = some (.error .invalidArgument, p) := by
  rw [Process.deallocateMemory, VirtMemConBlk.unmapMemory_of_not_mapped h]

/-- **Deallocating a mapped block** unmaps it, and succeeds exactly if its frames are an allocated block too. -/
theorem Inv.deallocateMemory_mapped (h : p.Inv others) (hal : layout.align ≤ PAGE_SIZE) (hpos : 0 < layout.size)
    {d : PageDescriptor} (hd : d ∈ p.vcb.allocBlockList) (hmatch : Matches addr layout d) (hm : d.isMapped = true) :
    ∃ r q, p.deallocateMemory addr layout = some (r, q) ∧ q.Inv others ∧
      getPhysAddress q.vcb.allocBlockList addr = none ∧
      (r = .ok () ↔ ∃ b ∈ p.frames.allocBlockList, PhyMemConBlk.Matches d.startPhyAddress layout b) := by
  obtain ⟨rfl, hn⟩ := hmatch
  have hnpos : 0 < d.numPages := hn ▸ layout.pages_pos hpos
  obtain ⟨i, hi, hun⟩ := VirtMemConBlk.unmapMemory_of_mapped p.slots h.apart hd hn hnpos h.bounded (.inr rfl) hm
  have hum := (VirtMemConBlk.unmapMemory_moves h.bounded hun).1
  set vcb : VirtMemConBlk := { p.vcb with
    allocBlockList := p.vcb.allocBlockList.set i { d with isMapped := false, startPhyAddress := 0 } }
  have hinv : Inv others { p with vcb } := h.of_moves hum rfl h.frames h.unlimited
  have hd' : { d with isMapped := false, startPhyAddress := 0 } ∈ vcb.allocBlockList :=
    mem_set (List.getElem?_eq_some_iff.1 hi).1 _
  obtain ⟨j, t, slots, hj, hde, halloc, hproc⟩ :=
    VirtMemConBlk.deallocate_of_unmapped p.slots hinv.apart hd' hn hnpos hal rfl
  have hdm := (deallocate_moves hinv.bounded hde).1
  obtain ⟨r, frames, slots', hfr, hhard, hlow, hiff⟩ := 
    PhyMemConBlk.deallocate_cases p.frames slots hal d.startPhyAddress
  refine ⟨r, { p with vcb := t, frames, slots := slots' }, ?_, ?_, ?_, hiff⟩
  · unfold Process.deallocateMemory
    rw [hun]
    dsimp only
    simp only at hde
    rw [hde]
    dsimp only
    rw [hfr]
    rfl
  · exact hinv.of_moves hdm hproc (PhyMemConBlk.deallocate_spec h.frames hfr).1
      ⟨hhard ▸ h.unlimited.1, hlow ▸ h.unlimited.2⟩
  · refine getPhysAddress_eq_none ?_
    rw [halloc]
    exact hinv.apart.not_mem_eraseIdx hj (range_nonempty hnpos)

/-- **Deallocation** succeeds exactly for memory of the process, which is not mapped any more then. -/
theorem Inv.deallocateMemory (h : p.Inv others) (hal : layout.align ≤ PAGE_SIZE) (hpos : 0 < layout.size) (addr : ℕ) :
    ∃ r q, p.deallocateMemory addr layout = some (r, q) ∧ q.Inv others ∧ (r = .ok () ↔ p.Owns addr layout) ∧
    (r = .ok () → getPhysAddress q.vcb.allocBlockList addr = none) := by
  by_cases hex : ∃ d ∈ p.vcb.allocBlockList, Matches addr layout d ∧ d.isMapped = true
  · obtain ⟨d, hd, hmatch, hm⟩ := hex
    obtain ⟨r, q, hq, hinv, hnone, hiff⟩ := h.deallocateMemory_mapped hal hpos hd hmatch hm
    refine ⟨r, q, hq, hinv, hiff.trans ⟨fun hb => ⟨d, hd, hmatch, hm, hb⟩, ?_⟩, fun _ => hnone⟩
    -- disjoint blocks: no other one starts at the address
    rintro ⟨e, he, hmatch', -, hb⟩
    have hpages := layout.pages_pos hpos
    obtain rfl : e = d := h.apart.eq_of_mem_range he hd (hmatch'.1 ▸ range_nonempty (hmatch'.2 ▸ hpages))
      (hmatch.1 ▸ range_nonempty (hmatch.2 ▸ hpages))
    exact hb
  · have hno : ∀ d ∈ p.vcb.allocBlockList, Matches addr layout d → d.isMapped = false := by
      intro d hd hmatch
      by_contra hm
      exact hex ⟨d, hd, hmatch, by simpa using hm⟩
    refine ⟨_, p, deallocateMemory_of_not_mapped hno, h, iff_of_false (by simp) ?_, by simp⟩
    rintro ⟨d, hd, hmatch, hm, -⟩
    exact hex ⟨d, hd, hmatch, hm⟩

/-! ## The system calls -/

/-- An allocation of some bytes with the nodes and frames that it needs and a result pointer that is no trap for
the range check, or a deallocation that fails. -/
def Safe (p : Process) : Syscall → Prop
  | .allocate size result pool => ∀ layout, pageAligned size = some layout →
      size ≠ 0 ∧ pool = true ∧ p.Supplied layout ∧ result + 8 < 2 ^ 64 ∧
        (Covered p.vcb.allocBlockList result 8 ∨ result % PAGE_SIZE + 8 ≤ PAGE_SIZE)
  | .deallocate addr size => ∀ layout, pageAligned size = some layout → size ≠ 0 → ¬ p.Owns addr layout

theorem pageAligned_eq_some {size : ℕ} (h : pageAligned size = some layout) :
    layout.size = size ∧ layout.align = PAGE_SIZE := by
  unfold pageAligned at h
  split_ifs at h
  cases h
  exact ⟨rfl, rfl⟩

section
variable (h : p.Inv others)
include h

/-- **A deallocation panics exactly if it succeeds**: the physical address is asked for after the memory is
unmapped. -/
theorem Inv.sysDeallocateMemory_eq_none_iff (addr size : ℕ) : p.sysDeallocateMemory addr size = none
    ↔ size ≠ 0 ∧ ∃ layout, pageAligned size = some layout ∧ p.Owns addr layout := by
  unfold Process.sysDeallocateMemory
  by_cases hz : size = 0
  · simp [hz]
  cases hl : pageAligned size with
  | none => simp [hz]
  | some layout =>
    obtain ⟨hsize, halign⟩ := pageAligned_eq_some hl
    obtain ⟨r, q, hq, -, hiff, hnone⟩ := h.deallocateMemory halign.le (by omega) addr
    rw [if_neg hz]
    dsimp only
    rw [hq]
    cases r with
    | error e =>
      have hown : ¬ p.Owns addr layout := fun ho => by cases hiff.2 ho
      simp [hown]
    | ok _ =>
      simp only [Process.removeMemoryRange, hnone rfl, Option.bind_none, Option.map_none, true_iff]
      exact ⟨hz, layout, rfl, hiff.1 rfl⟩

theorem Inv.sysDeallocateMemory {addr size : ℕ} (hs : p.Safe (.deallocate addr size)) : ∃ c q,
    p.sysDeallocateMemory addr size = some (c, q) ∧ q.Inv others := by
  unfold Process.sysDeallocateMemory
  by_cases hz : size = 0
  · exact ⟨_, p, if_pos hz, h⟩
  rw [if_neg hz]
  cases hl : pageAligned size with
  | none => exact ⟨_, p, rfl, h⟩
  | some layout =>
    obtain ⟨hsize, halign⟩ := pageAligned_eq_some hl
    obtain ⟨r, q, hq, hinv, hiff, -⟩ := h.deallocateMemory halign.le (by omega) addr
    dsimp only
    rw [hq]
    cases r with
    | error e => exact ⟨_, q, rfl, hinv⟩
    | ok _ => exact absurd (hiff.1 rfl) (hs layout hl hz)

theorem Inv.addMemoryRange {addr : ℕ} (ho : p.Owns addr layout)
    (hpos : 0 < layout.size) : ∃ q, p.addMemoryRange addr layout.size true = some q ∧ q.Inv others := by
  obtain ⟨d, hd, ⟨rfl, hn⟩, hm, -⟩ := ho
  have hlast := (h.bounded.alloc d hd).2.trans_lt kernelEnd_lt
  have hin := range_nonempty (hn ▸ layout.pages_pos hpos)
  have hfind : (getPhysAddress p.vcb.allocBlockList d.startVirtAddress).isSome := by
    rw [getPhysAddress, Option.isSome_map, find?_isSome]
    refine ⟨d, hd, ?_⟩
    rw [AddrField.wstop_eq hlast]
    simpa [hm] using hin.2
  obtain ⟨base, hbase⟩ := Option.isSome_iff_exists.1 hfind
  refine ⟨{ p with memoryList := p.memoryList ++ [(base, layout.size)] }, ?_, h.congr rfl h.frames h.unlimited⟩
  rw [Process.addMemoryRange, hbase]
  rfl

theorem Inv.sysAllocateMemory {size result : ℕ} {pool : Bool} (hs : p.Safe (.allocate size result pool)) :
    ∃ c q, p.sysAllocateMemory size result pool = some (c, q) ∧ q.Inv others := by
  unfold Process.sysAllocateMemory
  cases hl : pageAligned size with
  | none => exact ⟨_, p, rfl, h⟩
  | some layout =>
    obtain ⟨hsize, halign⟩ := pageAligned_eq_some hl
    obtain ⟨hz, rfl, hsupply, hw, hptr⟩ := hs layout hl
    have hpos : 0 < layout.size := by omega
    obtain ⟨r, p₁, h1, hinv, hok⟩ := h.allocateMemory hpos hsupply
    dsimp only
    rw [h1]
    cases r with
    | error e => exact ⟨_, p₁, rfl, hinv⟩
    | ok virtAddr =>
      obtain ⟨howns, hkeep⟩ := hok virtAddr rfl
      obtain ⟨b, hb⟩ := hinv.copyWord hw (hptr.imp_left (.mono hkeep))
      dsimp only
      rw [hb]
      cases b with
      | true =>
        obtain ⟨q, hq, hqinv⟩ := hinv.addMemoryRange howns hpos
        exact ⟨_, q, by dsimp only; rw [hq]; rfl, hqinv⟩
      | false =>
        -- the memory is given back
        obtain ⟨r, q, hq, hqinv, hiff, -⟩ := hinv.deallocateMemory halign.le hpos virtAddr
        obtain rfl : r = .ok () := hiff.2 howns
        exact ⟨_, q, by dsimp only; rw [hq], hqinv⟩

theorem Inv.step {c : Syscall} (hs : p.Safe c) : ∃ q, p.step c = some q ∧ q.Inv others := by
  cases c with
  | allocate size result pool =>
    obtain ⟨c, q, hq, hinv⟩ := h.sysAllocateMemory hs
    exact ⟨q, by rw [Process.step, hq]; rfl, hinv⟩
  | deallocate addr size =>
    obtain ⟨c, q, hq, hinv⟩ := h.sysDeallocateMemory hs
    exact ⟨q, by rw [Process.step, hq]; rfl, hinv⟩

/-- **The memory system calls do not panic** in runs of safe calls.  Never safe is a deallocation of memory that
the process has: it panics in every state that such a run comes to. -/
theorem exec_isSome {calls : List Syscall} (hok : Along step Safe p calls) :
    ∃ q, exec step p calls = some q ∧ ∀ addr size, q.sysDeallocateMemory addr size = none ↔
      size ≠ 0 ∧ ∃ layout, pageAligned size = some layout ∧ q.Owns addr layout := by
  obtain ⟨q, hq, hinv⟩ := exec_progress (fun _ _ hs hsafe => hs.step hsafe) h hok
  exact ⟨q, hq, hinv.sysDeallocateMemory_eq_none_iff⟩

end

def onePage : Process where
  vcb := ⟨0x100000, 10 * PAGE_SIZE, [.unmapped 10 0 0x10000], [userPage 0x1000], 1⟩
  tables := []
  frames := ⟨20 * PAGE_SIZE, 20 * PAGE_SIZE, PhyMemConBlk.ARCH_PHY_UPPER_LIMIT,
    PhyMemConBlk.ARCH_PHY_LOWER_LIMIT, [.unmapped 20 0x100000 0], []⟩
  slots := 20
  memoryList := []

theorem onePage_inv : onePage.Inv fun _ => 0 := by
  have hcover : ∀ x, onePage.vcb.cover x = hits 0x10000 0x1a000 x + hits 0x1000 0x2000 x := fun x => by
    simp [VirtMemConBlk.cover, AddrField.cover, Lib.cover, onePage, userPage, PageDescriptor.unmapped,
      AddrField.stop, PAGE_SIZE]
  have hframes : ∀ x, onePage.frames.cover x = hits 0x100000 0x114000 x := fun x => by
    simp [PhyMemConBlk.cover, AddrField.cover, Lib.cover, onePage, PageDescriptor.unmapped, AddrField.stop, PAGE_SIZE]
  refine ⟨⟨?_, ?_⟩, fun x => ?_, fun x hx => ?_, by decide, ⟨?_, ?_, fun x => ?_, by decide⟩, ⟨rfl, rfl⟩⟩
  · rintro d hd
    cases mem_singleton.1 hd
    exact ⟨by decide, by decide⟩
  · rintro d hd
    cases mem_singleton.1 hd
    exact ⟨by decide, by decide⟩
  · rw [hcover, hits, hits]
    split_ifs <;> omega
  · rw [hcover] at hx
    simp only [userRange, Set.mem_Ico, PAGE_SIZE, KERNEL_HALF_OFFSET_RAW]
    rcases Nat.add_pos_iff_pos_or_pos.1 hx with h | h
    · have := hits_pos.1 h
      omega
    · have := hits_pos.1 h
      omega
  · rintro d hd
    cases mem_singleton.1 hd
    exact ⟨by decide, by decide⟩
  · rintro d hd
    cases hd
  · rw [hframes, hits]
    split_ifs <;> omega

theorem exec_isSome_onePage : onePage.Inv (fun _ => 0) ∧
    (exec step onePage [.deallocate 0x20000 0x1000, .allocate 0x1000 0x1000 true]).isSome := by
  have hl : pageAligned 0x1000 = some pageLayout := rfl
  have hfree : Safe onePage (.deallocate 0x20000 0x1000) := by
    intro layout h _
    cases hl.symm.trans h
    rintro ⟨d, hd, hm, -⟩
    cases mem_singleton.1 hd
    exact absurd hm.1 (by decide)
  have halloc : Safe onePage (.allocate 0x1000 0x1000 true) := by
    intro layout h
    cases hl.symm.trans h
    exact ⟨by decide, rfl, by unfold Supplied; decide, by decide, .inr (by decide)⟩
  have hok : Along step Safe onePage [.deallocate 0x20000 0x1000, .allocate 0x1000 0x1000 true] :=
    .cons hfree (t := onePage) (by decide +kernel) (.intro halloc fun _ _ => trivial)
  obtain ⟨q, hq, -⟩ := exec_isSome onePage_inv hok
  exact ⟨onePage_inv, by rw [hq]; rfl⟩

/-- **Processes stay apart**: after any run of safe calls the blocks of the process are disjoint user memory, and no
    frame, free or its own, is also that of another process. -/
theorem exec_apart {calls : List Syscall} (h : p.Inv others)
    (hok : Along step Safe p calls) : ∃ q, exec step p calls = some q ∧ (∀ x, q.vcb.cover x ≤ 1) ∧
      (∀ x, 0 < q.vcb.cover x → x ∈ userRange) ∧ (∀ x, q.frames.cover x + others x ≤ 1) ∧
      q.frames.avlMemory = PAGE_SIZE * pagesIn q.frames.freeBlockList := by
  obtain ⟨q, hq, hinv⟩ := exec_progress (fun _ _ hs hsafe => hs.step hsafe) h hok
  exact ⟨q, hq, hinv.cover_le, hinv.user, hinv.frames.disjoint, hinv.frames.accounted⟩

theorem exec_apart_onePage : ∃ q, exec step onePage [.allocate 0x1000 0x1000 true] = some q ∧
    (∀ x, q.vcb.cover x ≤ 1) ∧ ∀ x, 0 < q.vcb.cover x → x ∈ userRange := by
  have hok : Along step Safe onePage [.allocate 0x1000 0x1000 true] := by
    refine .intro (fun layout h => ?_) fun _ _ => trivial
    cases (show pageAligned 0x1000 = some pageLayout from rfl).symm.trans h
    exact ⟨by decide, rfl, by unfold Supplied; decide, by decide, .inr (by decide)⟩
  obtain ⟨q, hq, h1, h2, -⟩ := exec_apart onePage_inv hok
  exact ⟨q, hq, h1, h2⟩

theorem exec_deallocate_panics : (onePage.sysAllocateMemory 0x1000 0x1000 true).map Prod.fst = some .success ∧
      exec step onePage [.allocate 0x1000 0x1000 true, .deallocate 0x10000 0x1000] = none := by
  decide +kernel

end Process
end Archis.Mem

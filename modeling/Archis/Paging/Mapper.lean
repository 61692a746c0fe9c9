/-
  The page mapper of `hal/x86_64/page_mapper.rs`: four levels of page tables, reached through the tables themselves.

  The last slot of the top table leads back to it, so that the tables of the active address space have addresses in that
  slot (`translate_tableAddr`); those of another one are mapped to four pages for the time being.  `Reach` is the
  difference.
-/
import Archis.Lib.ErrState
import Archis.Lib.Radix
import Archis.Mem.Blocks

namespace Archis.Paging

open Archis.Lib Archis.Lib.Radix Archis.Mem
open PageDescriptor ( MMIO USER WC)

/-! ## Entries and addresses -/

namespace PTE

def P : UInt64 := 1
def RW : UInt64 := 2
def U : UInt64 := 4
def PWT : UInt64 := 8
def PCD : UInt64 := 16
def PAT : UInt64 := 128
def G : UInt64 := 256
def PHY_ADDR_MASK : UInt64 := 0x000ffffffffff000

end PTE

inductive PageLevel where
  | pml4
  | pdpt
  | pd
  | pt
  deriving DecidableEq

def RECURSIVE_SLOT : ℕ := 511

def TOTAL_ENTRIES : ℕ := 512

/-- `en_flag!`. -/
def enFlag (b : Bool) (flag : UInt64) : UInt64 := if b then flag else 0

/-- What the processor reads in an entry: the number of the page that it leads to, if it is present. -/
def child (e : UInt64) : Option ℕ :=
  if e &&& PTE.P = 0 then none else some ((e &&& PTE.PHY_ADDR_MASK).toNat / PAGE_SIZE)

def isUser (e : UInt64) : Bool := e &&& PTE.U != 0

def splitIndices (virtAddr : ℕ) : ℕ × ℕ × ℕ × ℕ :=
  ((virtAddr >>> 39) &&& 0x1ff, (virtAddr >>> 30) &&& 0x1ff, (virtAddr >>> 21) &&& 0x1ff, (virtAddr >>> 12) &&& 0x1ff)

/-- The indices of an address as a path through the tables. -/
def indices (virtAddr : ℕ) : List ℕ :=
  let (pml4, pdpt, pd, pt) := splitIndices virtAddr
  [pml4, pdpt, pd, pt]

def recursiveMapAddr (pml pdpt pd : ℕ) : ℕ :=
  (0x1ffffff <<< 39) ||| ((pml &&& 0x1ff) <<< 30) ||| ((pdpt &&& 0x1ff) <<< 21) ||| ((pd &&& 0x1ff) <<< 12)

def tableAddr (level : PageLevel) (pmlIdx pdptIdx pdIdx : ℕ) : ℕ :=
  match level with
  | .pml4 => recursiveMapAddr RECURSIVE_SLOT RECURSIVE_SLOT RECURSIVE_SLOT
  | .pdpt => recursiveMapAddr RECURSIVE_SLOT RECURSIVE_SLOT pmlIdx
  | .pd => recursiveMapAddr RECURSIVE_SLOT pmlIdx pdptIdx
  | .pt => recursiveMapAddr pmlIdx pdptIdx pdIdx

def tableEntry (page : ℕ) : UInt64 :=
  (.ofNat (page * PAGE_SIZE) &&& PTE.PHY_ADDR_MASK) ||| PTE.U ||| PTE.PWT ||| PTE.P ||| PTE.RW

/-- The entry for a page of memory at the physical address `pa`. -/
def pageEntry (pge pat : Bool) (flags : UInt8) (pa : ℕ) : UInt64 :=
  let isUser := flags &&& USER != 0
  let mmio := flags &&& MMIO != 0
  let wc := flags &&& WC != 0
  -- write-combining memory needs the PAT, and is device memory without it
  let isMmio := mmio || (wc && !pat)
  let isWc := wc && pat
  (.ofNat pa &&& PTE.PHY_ADDR_MASK) ||| enFlag isUser PTE.U ||| enFlag (isMmio || isWc) PTE.PCD |||
    enFlag isMmio PTE.PWT ||| enFlag (isWc && pat) PTE.PAT ||| enFlag (!isUser && pge) PTE.G ||| PTE.RW ||| PTE.P

/-! ## The machine -/

structure Machine where
  /-- The page number of the active PML4. -/
  cr3 : ℕ
  /-- The tables in physical memory, by page number and index. -/
  mem : ℕ → ℕ → UInt64
  /-- The pages that `allocate_memory` is going to give out. -/
  free : List ℕ
  pge : Bool
  pat : Bool

inductive Fault where
  | panic
  | pageFault
  /-- `allocate_memory` fails, and the code panics. -/
  | noMemory
  deriving DecidableEq

abbrev PageM := EStateM Fault Machine

def Machine.translate (s : Machine) (virtAddr : ℕ) : Option ℕ := node child s.mem s.cr3 (indices virtAddr)

/-- `assert!`. -/
def check (b : Bool) : PageM Unit := if b then pure () else throw .panic

def deref (table : ℕ) : PageM ℕ := do
  match (← get).translate table with
  | none => throw .pageFault
  | some page => pure page

/-- `read_volatile` of an entry. -/
def readEntry (table idx : ℕ) : PageM UInt64 := do
  let page ← deref table
  return (← get).mem page idx

/-- `write_volatile` of an entry. -/
def writeEntry (table idx : ℕ) (entry : UInt64) : PageM Unit := do
  let page ← deref table
  modify fun s => { s with mem := put s.mem page idx entry }

/-- `write_bytes(0, TOTAL_ENTRIES)`. -/
def clearTable (table : ℕ) : PageM Unit := do
  let page ← deref table
  modify fun s => { s with mem := fill s.mem page 0 }

/-- `mem::allocate_memory` of one page, without a virtual address. -/
def allocateFrame : PageM ℕ := do
  match (← get).free with
  | [] => throw .noMemory
  | page :: free =>
    modify fun s => { s with free }
    return page

/-! ## The code -/

/-- How a mapper reaches its tables. -/
structure Reach where
  /-- A pointer to the table of the level for the indices, which is the given page. -/
  table : PageLevel → ℕ → ℕ → ℕ → ℕ → PageM ℕ
  /-- A pointer is not used any more. -/
  release : ℕ → PageM Unit

def Reach.current : Reach where
  table level i j k _ := pure (tableAddr level i j k)
  release _ := pure ()

variable (R : Reach) {i j k : ℕ}

/-- The table is new: it is entered in the one above it, and cleared. -/
def allocTable (table idx : ℕ) (level : PageLevel) (i j k : ℕ) : PageM ℕ := do
  let page ← allocateFrame
  let addr ← R.table level i j k page
  writeEntry table idx (tableEntry page)
  clearTable addr
  return addr

def getOrAllocTable (table idx : ℕ) (level : PageLevel) (i j k : ℕ) : PageM ℕ := do
  let entry ← readEntry table idx
  match child entry with
  | none => allocTable R table idx level i j k
  | some page => R.table level i j k page

/-- The tables that `map_memory` keeps from one page to the next, and their indices. -/
structure Cursor where
  pdpt : ℕ
  pd : ℕ
  pt : ℕ
  pml4Idx : ℕ
  pdptIdx : ℕ
  pdIdx : ℕ

def refresh (changed : Bool) (old : ℕ) (lookup : PageM ℕ) : PageM ℕ :=
  if changed then do
    R.release old
    lookup
  else pure old

def pageTables (pml4 va : ℕ) (c : Cursor) : PageM Cursor := do
  let (pml4Idx, pdptIdx, pdIdx, _) := splitIndices va
  let pdpt ← refresh R (c.pml4Idx != pml4Idx) c.pdpt (getOrAllocTable R pml4 pml4Idx .pdpt pml4Idx 0 0)
  let pd ← refresh R (c.pdptIdx != pdptIdx) c.pd (getOrAllocTable R pdpt pdptIdx .pd pml4Idx pdptIdx 0)
  let pt ← refresh R (c.pdIdx != pdIdx) c.pt (getOrAllocTable R pd pdIdx .pt pml4Idx pdptIdx pdIdx)
  return ⟨pdpt, pd, pt, pml4Idx, pdptIdx, pdIdx⟩

/-- The body of the loop of `map_memory`. -/
def mapPage (pml4 va : ℕ) (entry : UInt64) (c : Cursor) : PageM Cursor := do
  let c ← pageTables R pml4 va c
  let (_, _, _, ptIdx) := splitIndices va
  writeEntry c.pt ptIdx entry
  return c

/-- The loop of `map_memory`, from the page `i` on. -/
def mapLoop (pml4 virtAddr physAddr : ℕ) (entry : ℕ → UInt64) : ℕ → ℕ → Cursor → PageM Cursor
  | _, 0, c => pure c
  | i, n + 1, c => do
    let va := wadd virtAddr (wmul i PAGE_SIZE)
    let pa := wadd physAddr (wmul i PAGE_SIZE)
    let c ← mapPage R pml4 va (entry pa) c
    mapLoop pml4 virtAddr physAddr entry (i + 1) n c

/-- The first tables of `map_memory`. -/
def firstTables (pml4 virtAddr : ℕ) : PageM Cursor := do
  let (pml4Idx, pdptIdx, pdIdx, _) := splitIndices virtAddr
  let pdpt ← getOrAllocTable R pml4 pml4Idx .pdpt pml4Idx 0 0
  let pd ← getOrAllocTable R pdpt pdptIdx .pd pml4Idx pdptIdx 0
  let pt ← getOrAllocTable R pd pdIdx .pt pml4Idx pdptIdx pdIdx
  return ⟨pdpt, pd, pt, pml4Idx, pdptIdx, pdIdx⟩

def unmapPageTables (pml4 : ℕ) (c : Cursor) : PageM Unit := do
  R.release pml4
  R.release c.pdpt
  R.release c.pd
  R.release c.pt

/-- `map_memory`, for the address space whose PML4 is the page `root`. -/
def mapMemoryWith (root virtAddr physAddr size : ℕ) (flags : UInt8) : PageM Unit := do
  check (virtAddr % PAGE_SIZE == 0 && physAddr % PAGE_SIZE == 0)
  let numPages := ceilDiv (roundUp size) PAGE_SIZE
  check (0 < numPages)
  check (!(flags &&& MMIO != 0 && flags &&& WC != 0))
  let s ← get
  let pml4 ← R.table .pml4 0 0 0 root
  let c ← firstTables R pml4 virtAddr
  let c ← mapLoop R pml4 virtAddr physAddr (pageEntry s.pge s.pat flags) 0 numPages c
  unmapPageTables R pml4 c

/-- `map_memory` of the active address space. -/
def mapMemory (virtAddr physAddr size : ℕ) (flags : UInt8) : PageM Unit := do
  mapMemoryWith Reach.current (← get).cr3 virtAddr physAddr size flags

/-- The body of the loop of `unmap_memory`. -/
def unmapPage (va : ℕ) : PageM Unit := do
  let (pml4Idx, pdptIdx, pdIdx, ptIdx) := splitIndices va
  let pt := tableAddr .pt pml4Idx pdptIdx pdIdx
  let entry ← readEntry pt ptIdx
  check (entry &&& PTE.P != 0)
  writeEntry pt ptIdx 0

/-- The loop of `unmap_memory`, from the page `i` on. -/
def unmapLoop (virtAddr : ℕ) : ℕ → ℕ → PageM Unit
  | _, 0 => pure ()
  | i, n + 1 => do
    unmapPage (wadd virtAddr (wmul i PAGE_SIZE))
    unmapLoop virtAddr (i + 1) n

/-- `unmap_memory` of the active address space. -/
def unmapMemory (virtAddr size : ℕ) : PageM Unit := do
  check (virtAddr % PAGE_SIZE == 0 && size % PAGE_SIZE == 0)
  let numPages := ceilDiv size PAGE_SIZE
  check (0 < numPages)
  unmapLoop virtAddr 0 numPages

/-! ## Entries -/

section
variable {x fl b : UInt64}

theorem or_and_distrib (x y z : UInt64) : (x ||| y) &&& z = (x &&& z) ||| (y &&& z) :=
  UInt64.toBitVec_inj.1 BitVec.and_or_distrib_right

theorem masked_or_and (x : UInt64) (h : b &&& PTE.PHY_ADDR_MASK = 0) :
    (x &&& PTE.PHY_ADDR_MASK ||| fl) &&& b = fl &&& b := by
  rw [or_and_distrib, UInt64.and_assoc, UInt64.and_comm PTE.PHY_ADDR_MASK, h, UInt64.and_zero, UInt64.zero_or]

theorem masked_or_and_mask (x : UInt64) (h : fl &&& PTE.PHY_ADDR_MASK = 0) :
    (x &&& PTE.PHY_ADDR_MASK ||| fl) &&& PTE.PHY_ADDR_MASK = x &&& PTE.PHY_ADDR_MASK := by
  rw [or_and_distrib, UInt64.and_assoc, UInt64.and_self, h, UInt64.or_zero]

theorem page_of_masked (pa : ℕ) :
    ((UInt64.ofNat pa) &&& PTE.PHY_ADDR_MASK).toNat / PAGE_SIZE = pa % 2 ^ 52 / PAGE_SIZE := by
  have hmask : PTE.PHY_ADDR_MASK.toNat >>> 12 = 2 ^ 40 - 1 := by decide
  have hpage : ∀ n, n / PAGE_SIZE = n >>> 12 := fun n => (Nat.shiftRight_eq_div_pow n 12).symm
  rw [UInt64.toNat_and, hpage, Nat.shiftRight_and_distrib, hmask, Nat.and_two_pow_sub_one_eq_mod,
    UInt64.toNat_ofNat', Nat.shiftRight_eq_div_pow, hpage, Nat.shiftRight_eq_div_pow]
  omega

theorem child_of_flags (pa : ℕ) (hmask : fl &&& PTE.PHY_ADDR_MASK = 0) (hp : fl &&& PTE.P ≠ 0) :
    child (.ofNat pa &&& PTE.PHY_ADDR_MASK ||| fl) = some (pa % 2 ^ 52 / PAGE_SIZE) := by
  unfold child
  rw [masked_or_and _ (by decide), if_neg hp, masked_or_and_mask _ hmask, page_of_masked]

end

theorem child_zero : child 0 = none := rfl

theorem child_tableEntry {page : ℕ} (h : page < 2 ^ 40) : child (tableEntry page) = some page := by
  unfold tableEntry
  simp only [UInt64.or_assoc]
  rw [child_of_flags _ (by decide) (by decide)]
  simp only [PAGE_SIZE]
  congr 1
  omega

theorem isUser_tableEntry (page : ℕ) : isUser (tableEntry page) = true := by
  unfold tableEntry isUser
  simp only [UInt64.or_assoc]
  rw [masked_or_and _ (by decide)]
  decide

/-- **The entry for a page** holds 52 bits of its address, and the user bit as it is asked for. -/
theorem child_pageEntry (pge pat : Bool) (flags : UInt8) (pa : ℕ) :
    child (pageEntry pge pat flags pa) = some (pa % 2 ^ 52 / PAGE_SIZE) ∧
      isUser (pageEntry pge pat flags pa) = (flags &&& USER != 0) := by
  unfold pageEntry isUser
  simp only [UInt64.or_assoc]
  generalize (flags &&& USER != 0) = user
  generalize (flags &&& MMIO != 0) = mmio
  generalize (flags &&& WC != 0) = wc
  constructor
  · refine child_of_flags _ ?_ ?_
    · revert pge pat user mmio wc
      decide
    · revert pge pat user mmio wc
      decide
  · rw [masked_or_and _ (by decide)]
    revert pge pat user mmio wc
    decide

/-! ## Addresses -/

theorem splitIndices_eq (va : ℕ) : splitIndices va =
    (va / 2 ^ 39 % 512, va / 2 ^ 30 % 512, va / 2 ^ 21 % 512, va / 2 ^ 12 % 512) := by
  have hmask : ∀ n, n &&& 0x1ff = n % 512 := fun n => Nat.and_two_pow_sub_one_eq_mod n 9
  simp only [splitIndices, hmask, Nat.shiftRight_eq_div_pow]

theorem recursiveMapAddr_eq (hi : i < 512) (hj : j < 512) (hk : k < 512) :
    recursiveMapAddr i j k = 0x1ffffff * 2 ^ 39 + i * 2 ^ 30 + j * 2 ^ 21 + k * 2 ^ 12 := by
  have hmask : ∀ n, n &&& 0x1ff = n % 512 := fun n => Nat.and_two_pow_sub_one_eq_mod n 9
  -- each field is below the one before it
  have hor : ∀ a b w, b < 2 ^ w → (a <<< w) ||| b = a * 2 ^ w + b := fun a b w hb => by
    rw [← Nat.shiftLeft_add_eq_or_of_lt hb, Nat.shiftLeft_eq]
  simp only [recursiveMapAddr, hmask, Nat.mod_eq_of_lt hi, Nat.mod_eq_of_lt hj, Nat.mod_eq_of_lt hk]
  have h1 : (0x1ffffff <<< 39 : ℕ) ||| i <<< 30 = (0x1ffffff * 2 ^ 9 + i) <<< 30 := by
    rw [hor _ _ _ (by rw [Nat.shiftLeft_eq]; omega), Nat.shiftLeft_eq, Nat.shiftLeft_eq]
    omega
  have h2 : ((0x1ffffff * 2 ^ 9 + i) <<< 30 : ℕ) ||| j <<< 21 = ((0x1ffffff * 2 ^ 9 + i) * 2 ^ 9 + j) <<< 21 := by
    rw [hor _ _ _ (by rw [Nat.shiftLeft_eq]; omega), Nat.shiftLeft_eq, Nat.shiftLeft_eq]
    omega
  rw [h1, h2, hor _ _ _ (by rw [Nat.shiftLeft_eq]; omega), Nat.shiftLeft_eq]
  omega

theorem indices_recursiveMapAddr (hi : i < 512) (hj : j < 512) (hk : k < 512) :
    indices (recursiveMapAddr i j k) = [RECURSIVE_SLOT, i, j, k] := by
  rw [indices, splitIndices_eq, recursiveMapAddr_eq hi hj hk]
  simp only [RECURSIVE_SLOT, List.cons.injEq, and_true]
  omega

def tablePath (level : PageLevel) (i j k : ℕ) : List ℕ :=
  match level with
  | .pml4 => []
  | .pdpt => [i]
  | .pd => [i, j]
  | .pt => [i, j, k]

/-- **The addresses in the last slot are those of the tables.** -/
theorem translate_tableAddr {s : Machine} (h : child (s.mem s.cr3 RECURSIVE_SLOT) = some s.cr3)
    (level : PageLevel) (hi : i < 512) (hj : j < 512) (hk : k < 512) :
    s.translate (tableAddr level i j k) = node child s.mem s.cr3 (tablePath level i j k) := by
  have hrec : RECURSIVE_SLOT < 512 := by decide
  unfold Machine.translate
  cases level with
  | pml4 =>
    rw [tableAddr, indices_recursiveMapAddr hrec hrec hrec]
    simp only [node_cons_self h, tablePath]
  | pdpt =>
    rw [tableAddr, indices_recursiveMapAddr hrec hrec hi]
    simp only [node_cons_self h, tablePath]
  | pd =>
    rw [tableAddr, indices_recursiveMapAddr hrec hi hj]
    simp only [node_cons_self h, tablePath]
  | pt =>
    rw [tableAddr, indices_recursiveMapAddr hi hj hk]
    simp only [node_cons_self h, tablePath]

end Archis.Paging

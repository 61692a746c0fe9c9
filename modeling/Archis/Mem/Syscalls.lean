/-
  The memory system calls: `sys_allocate_memory` and `sys_deallocate_memory` of `sched/user.rs`, for user memory.

  A call that panics is `none`.  The panics that a program can bring about:
    * a deallocation that succeeds, and an allocation of size 0;
    * a result pointer that `check_user_range_locked` accepts although it is not user memory;
    * no list node in `Region0`, or no frame for a page table.
-/
import Archis.Mem.Frame
import Archis.Mem.UserRange

namespace Archis.Mem

open Archis.Lib

inductive SysCode where
  | success
  | invalid
  | oom
  | invalidMemoryRange
  deriving DecidableEq

structure Process where
  vcb : VirtMemConBlk
  /-- the page tables: the number of address bits below the index of each, and the address bits above them -/
  tables : List (ℕ × ℕ)
  frames : PhyMemConBlk
  /-- The nodes left in `Region0`. -/
  slots : ℕ
  /-- `memory_list`: the physical base and the size of each range. -/
  memoryList : List (ℕ × ℕ)
  deriving DecidableEq

namespace Process

/-! ## The code -/

def tablesOf (va : ℕ) : List (ℕ × ℕ) := [(39, va / 2 ^ 39), (30, va / 2 ^ 30), (21, va / 2 ^ 21)]

section
variable (p : Process)

/-- `get_or_alloc_table`; the code expects that a frame can be allocated. -/
def getOrAllocTable (table : ℕ × ℕ) : Option Process :=
  if table ∈ p.tables then some p
  else match p.frames.allocate p.slots VirtMemConBlk.pageLayout with
    | (.error _, _, _) => none
    | (.ok _, frames, slots) => some { p with tables := table :: p.tables, frames, slots }

/-- The loop of `PageMapper::map_memory`. -/
def mapPages (p : Process) (va : ℕ) : ℕ → Option Process
  | 0 => some p
  | n + 1 => ((tablesOf va).foldlM getOrAllocTable p).bind fun p => p.mapPages (wadd va PAGE_SIZE) n

/-- `PageMapper::map_memory`. -/
def pageMap (va size : ℕ) : Option Process :=
  let numPages := ceilDiv (roundUp size) PAGE_SIZE
  if numPages = 0 then none else p.mapPages va numPages

def userFlags : UInt8 := PageDescriptor.VIRTUAL ||| PageDescriptor.USER

/-- `allocate_memory` for user memory. -/
def allocateMemory (layout : Layout) : Option (Except KError ℕ × Process) :=
  match p.vcb.allocate p.slots layout true with
  | none => none
  | some (.error e, vcb, slots) => some (.error e, { p with vcb, slots })
  | some (.ok virtAddr, vcb, slots) =>
    match p.frames.allocate slots layout with
    -- the virtual range stays reserved
    | (.error e, frames, slots) => some (.error e, { p with vcb, frames, slots })
    | (.ok phyAddr, frames, slots) =>
      match vcb.mapMemory slots phyAddr virtAddr layout.size userFlags with
      | none => none
      | some (.error e, vcb, slots) => some (.error e, { p with vcb, frames, slots })
      | some (.ok (), vcb, slots) =>
        ({ p with vcb, frames, slots }.pageMap virtAddr layout.size).map fun p => (.ok virtAddr, p)

/-- `deallocate_memory` for user memory. -/
def deallocateMemory (addr : ℕ) (layout : Layout) : Option (Except KError Unit × Process) :=
  match p.vcb.unmapMemory p.slots addr layout.size true with
  | none => none
  | some (.error e, vcb, slots) => some (.error e, { p with vcb, slots })
  | some (.ok phyAddr, vcb, slots) =>
    match vcb.deallocate slots addr layout with
    | none => none
    | some (.error e, vcb, slots) => some (.error e, { p with vcb, slots })
    | some (.ok (), vcb, slots) =>
      (p.frames.deallocate slots phyAddr layout).map fun (r, frames, slots) =>
        (r, { p with vcb, frames, slots })

def getPhysAddress (l : List PageDescriptor) (virtAddr : ℕ) : Option ℕ :=
  (l.find? fun blk => blk.startVirtAddress ≤ virtAddr && virtField.wstop blk > virtAddr &&
    blk.isMapped).map fun blk => wsub (wadd blk.startPhyAddress virtAddr) blk.startVirtAddress

/-- `add_memory_range_to_cur_process`; `pool` says that the heap has a node for the list. -/
def addMemoryRange (virtualBase size : ℕ) (pool : Bool) : Option Process :=
  (getPhysAddress p.vcb.allocBlockList virtualBase).bind fun base =>
    if pool then some { p with memoryList := p.memoryList ++ [(base, size)] } else none

/-- `remove_memory_range_from_cur_process`. -/
def removeMemoryRange (virtualBase size : ℕ) : Option Process :=
  (getPhysAddress p.vcb.allocBlockList virtualBase).bind fun base =>
    if (base, size) ∈ p.memoryList then some { p with memoryList := p.memoryList.erase (base, size) }
    else none

def inUserMemory (l : List PageDescriptor) (addr len : ℕ) : Bool :=
  (List.range len).all fun i =>
    l.any fun d => userMapped d && d.startVirtAddress ≤ addr + i && addr + i < virtField.stop d

/-- `copy_to_user` of one word: has it been copied?  A copy outside of user memory faults, or hits the kernel. -/
def copyWord (user : ℕ) : Option Bool :=
  match copyToUser p.vcb.allocBlockList user 8 (2 ^ 64) with
  | none => none
  | some (.error _) => some false
  | some (.ok (addr, len)) => if inUserMemory p.vcb.allocBlockList addr len then some true else none

/-- `Layout::from_size_align(size, PAGE_SIZE)`. -/
def pageAligned (size : ℕ) : Option Layout :=
  if h : size ≤ isizeMax - (PAGE_SIZE - 1) then some ⟨size, PAGE_SIZE, h.trans (Nat.sub_le _ _)⟩ else none

def sysAllocateMemory (size result : ℕ) (pool : Bool) : Option (SysCode × Process) :=
  match pageAligned size with
  | none => some (.invalid, p)
  | some layout =>
    match p.allocateMemory layout with
    | none => none
    | some (.error _, p) => some (.oom, p)
    | some (.ok virtAddr, p) =>
      match p.copyWord result with
      | none => none
      | some false =>
        match p.deallocateMemory virtAddr layout with
        | some (.ok (), p) => some (.invalidMemoryRange, p)
        | _ => none
      | some true => (p.addMemoryRange virtAddr layout.size pool).map fun p => (.success, p)

def sysDeallocateMemory (addr size : ℕ) : Option (SysCode × Process) :=
  if size = 0 then some (.invalid, p)
  else match pageAligned size with
    | none => some (.invalid, p)
    | some layout =>
      match p.deallocateMemory addr layout with
      | none => none
      | some (.error _, p) => some (.invalid, p)
      | some (.ok (), p) => (p.removeMemoryRange addr size).map fun p => (.success, p)

inductive Syscall where
  | allocate (size result : ℕ) (pool : Bool)
  | deallocate (addr size : ℕ)
  deriving DecidableEq

/-- One system call; no value is a panic. -/
def step : Syscall → Option Process
  | .allocate size result pool => (p.sysAllocateMemory size result pool).map Prod.snd
  | .deallocate addr size => (p.sysDeallocateMemory addr size).map Prod.snd

end

end Process
end Archis.Mem
